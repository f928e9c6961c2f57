import CognitiveLedger.Rdf.Reduction

/-!
# Canonical texts of patches and states

A patch is what `Patch::new` makes of a set of operations, and its bytes can be
read in one way only. The text of a state is its quads line by line; the lines
give the quads back.
-/

namespace CognitiveLedger

open Ascending ExceptRules

variable [NQuadsParser]

namespace Patch

theorem new_of_error {ops : List Operation} {e : RdfError}
    (h : checkConflicts (fun _ => none) (ascending ops.toFinset) = .error e) : new ops = .error e := by
  unfold new
  split
  · rename_i he
    exact congrArg Except.error (Except.error.inj (he.symm.trans h))
  · rename_i hok
    rw [h] at hok
    cases hok

theorem consistent_of_check {ops : List Operation}
    (h : checkConflicts (fun _ => none) (ascending ops.toFinset) = .ok ()) : Consistent ops := by
  have hconsistent := (checkConflicts_none_iff _).mp h
  exact fun a ha b hb => hconsistent a (by simpa using ha) b (by simpa using hb)

theorem new_congr {ops ops' : List Operation} (h : ∀ op, op ∈ ops ↔ op ∈ ops') :
    new ops = new ops' := by
  have hset : ops.toFinset = ops'.toFinset := by
    ext op
    simp [h op]
  cases hcheck : checkConflicts (fun _ => none) (ascending ops.toFinset) with
  | error e => rw [new_of_error hcheck, new_of_error (hset ▸ hcheck)]
  | ok _ =>
      rw [new_eq_ok (consistent_of_check hcheck), new_eq_ok (consistent_of_check (hset ▸ hcheck))]
      exact congrArg Except.ok (Patch.ext (congrArg ascending hset))

/-- Operations that do not contradict each other make a patch, others do not. -/
theorem exists_new_iff (ops : List Operation) : (∃ p, new ops = .ok p) ↔ Consistent ops := by
  constructor
  · rintro ⟨p, hp⟩
    cases hcheck : checkConflicts (fun _ => none) (ascending ops.toFinset) with
    | error e =>
        rw [new_of_error hcheck] at hp
        cases hp
    | ok _ => exact consistent_of_check hcheck
  · exact fun h => ⟨_, new_eq_ok h⟩

theorem mem_of_new {ops : List Operation} {p : Patch} (h : new ops = .ok p) (op : Operation) :
    op ∈ p.operations ↔ op ∈ ops := by
  have hconsistent := (exists_new_iff ops).mp ⟨p, h⟩
  rw [new_eq_ok hconsistent] at h
  cases h
  exact mem_ofConsistent

end Patch

theorem consistent_iff (ops : List Operation) :
    Consistent ops ↔ ¬ ∃ q, ⟨.add, q⟩ ∈ ops ∧ ⟨.delete, q⟩ ∈ ops := by
  constructor
  · rintro h ⟨q, hadd, hdelete⟩
    cases h _ hadd _ hdelete rfl
  · intro h a ha b hb hq
    by_contra hkind
    obtain ⟨ka, qa⟩ := a
    obtain ⟨kb, qb⟩ := b
    cases hq
    cases ka <;> cases kb
    · exact hkind rfl
    · exact h ⟨_, ha, hb⟩
    · exact h ⟨_, hb, ha⟩
    · exact hkind rfl

/-! ## States -/

@[simp] theorem Quad.finishLine_text (q : Quad) :
    finishLine q.text.toList.reverse = q.text.toList := by
  obtain ⟨front, hfront⟩ := q.text_toList
  simp [finishLine, hfront]

theorem linesFrom_quads (qs : List Quad) :
    linesFrom [] (qs.flatMap fun q => q.text.toList ++ ['\n']) = qs.map fun q => q.text.toList :=
  linesFrom_flatMap (fun q _ => q.text_no_break) fun q _ => q.finishLine_text

theorem canonicalStateBytes_injective : Function.Injective canonicalStateBytes := by
  intro s s' h
  have htext := congrArg String.toList (asBytes_injective h)
  rw [String.toList_ofList, String.toList_ofList, List.append_cancel_left_eq] at htext
  have hlines := congrArg (linesFrom []) htext
  rw [linesFrom_quads, linesFrom_quads] at hlines
  have hinjective : Function.Injective fun q : Quad => q.text.toList := fun q q' hq =>
    Quad.text_injective (String.toList_injective hq)
  have hquads : ascending s = ascending s' := List.map_injective_iff.mpr hinjective hlines
  rw [← toFinset_ascending s, hquads, toFinset_ascending]

/-- Patches and states have one canonical text each, and each text has one reading. -/
theorem texts_are_canonical :
    (∀ ops ops' : List Operation, (∀ op, op ∈ ops ↔ op ∈ ops') → Patch.new ops = Patch.new ops') ∧
    (∀ ops : List Operation, (∃ e, Patch.new ops = .error e) ↔
      ∃ q, ⟨.add, q⟩ ∈ ops ∧ ⟨.delete, q⟩ ∈ ops) ∧
    (∀ (ops : List Operation) (p : Patch), Patch.new ops = .ok p →
      ∀ op, op ∈ p.operations ↔ op ∈ ops) ∧
    (∀ p : Patch, Patch.fromCanonicalBytes p.canonicalBytes = .ok p) ∧
    (∀ (bytes : Bytes) (p : Patch), Patch.fromCanonicalBytes bytes = .ok p →
      p.canonicalBytes = bytes) ∧
    Function.Injective canonicalStateBytes := by
  refine ⟨fun _ _ => Patch.new_congr, fun ops => ?_, fun _ _ => Patch.mem_of_new,
    Patch.fromCanonicalBytes_canonicalBytes, fun _ _ => Patch.canonicalBytes_of_fromCanonicalBytes,
    canonicalStateBytes_injective⟩
  rw [← not_iff_not, ← consistent_iff, ← Patch.exists_new_iff]
  cases Patch.new ops with
  | ok p => simp
  | error e => simp

end CognitiveLedger
