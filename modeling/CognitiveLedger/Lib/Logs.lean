import Mathlib.Data.List.Induction
import Mathlib.Data.List.Nodup

/-!
# Append-only logs

A log only grows at its end. What was found in it is found again, and a property
of logs that every entry keeps, given what came before it, holds of the whole.
-/

namespace Logs

variable {α β : Type} {l l' : List α} {a : α}

theorem prefix_induction {P : List α → Prop} (l : List α) (hnil : P [])
    (hstep : ∀ pre a post, l = pre ++ a :: post → P pre → P (pre ++ [a])) : P l := by
  have hall : ∀ pre, pre <+: l → P pre := by
    intro pre
    induction pre using List.reverseRecOn with
    | nil => exact fun _ => hnil
    | append_singleton pre a ih =>
        rintro ⟨post, hl⟩
        have hsplit : l = pre ++ a :: post := by rw [← hl, List.append_assoc]; rfl
        exact hstep pre a post hsplit (ih ⟨a :: post, hsplit.symm⟩)
  exact hall l (List.prefix_refl l)

theorem extension_induction {P : List α → Prop} {l₀ l : List α} (hl : l₀ <+: l) (hstart : P l₀)
    (hstep : ∀ pre a post, l = pre ++ a :: post → l₀ <+: pre → P pre → P (pre ++ [a])) : P l := by
  obtain ⟨rest, rfl⟩ := hl
  refine prefix_induction (P := fun r => P (l₀ ++ r)) rest (by simpa using hstart)
    fun pre a post hsplit ih => ?_
  rw [← List.append_assoc]
  exact hstep (l₀ ++ pre) a post (by rw [hsplit, List.append_assoc]) (List.prefix_append _ _) ih

theorem find?_of_prefix (h : l <+: l') {p : α → Bool} (hf : l.find? p = some a) :
    l'.find? p = some a := by
  obtain ⟨t, rfl⟩ := h
  rw [List.find?_append, hf]
  rfl

/-- The entry that a log was extended with is found by a key it is the first to have. -/
theorem find?_append_self {p : α → Bool} (hnew : ∀ x ∈ l, p x = false) (ha : p a = true) :
    (l ++ [a]).find? p = some a := by
  have hnone : l.find? p = none := List.find?_eq_none.mpr fun x hx => by simp [hnew x hx]
  rw [List.find?_append, hnone]
  simp [ha]

theorem filter_eq_nil {p : α → Bool} (h : ∀ x ∈ l, p x = false) : l.filter p = [] :=
  List.filter_eq_nil_iff.mpr fun x hx => by simp [h x hx]

theorem nodup_map_append {f : α → β} (h : (l.map f).Nodup) (hnew : ∀ x ∈ l, f x ≠ f a) :
    ((l ++ [a]).map f).Nodup := by
  rw [List.map_append, List.map_singleton, List.nodup_append]
  refine ⟨h, List.nodup_singleton _, fun b hb c hc => ?_⟩
  obtain ⟨x, hx, rfl⟩ := List.mem_map.mp hb
  obtain rfl := List.mem_singleton.mp hc
  exact hnew x hx

theorem eq_of_nodup_map {f : α → β} (h : (l.map f).Nodup) {x y : α} (hx : x ∈ l) (hy : y ∈ l)
    (hxy : f x = f y) : x = y := List.inj_on_of_nodup_map h hx hy hxy

/-- With distinct keys an entry is what a search for its key finds. -/
theorem find?_eq_of_mem {f : α → β} [DecidableEq β] (h : (l.map f).Nodup) {x : α} (hx : x ∈ l) :
    l.find? (fun y => f y = f x) = some x := by
  cases hf : l.find? (fun y => decide (f y = f x)) with
  | none => exact absurd (List.find?_eq_none.mp hf x hx) (by simp)
  | some y =>
      have hy : f y = f x := by simpa using List.find?_some hf
      rw [eq_of_nodup_map h (List.mem_of_find?_eq_some hf) hx hy]

/-- With distinct keys an entry is the only one of its key. -/
theorem filter_eq_singleton {f : α → β} [DecidableEq β] (h : (l.map f).Nodup) {x : α} (hx : x ∈ l) :
    l.filter (fun y => f y = f x) = [x] := by
  have hnodup : (l.filter fun y => decide (f y = f x)).Nodup := h.of_map.filter _
  have hmem : ∀ y, y ∈ l.filter (fun y => decide (f y = f x)) ↔ y = x := by
    intro y
    rw [List.mem_filter, decide_eq_true_eq]
    exact ⟨fun hy => eq_of_nodup_map h hy.1 hx hy.2, fun hy => ⟨by rwa [hy], by rw [hy]⟩⟩
  exact List.perm_singleton.mp ((List.perm_ext_iff_of_nodup hnodup (List.nodup_singleton x)).mpr
    fun y => by rw [hmem, List.mem_singleton])

/-- Of two logs that agree on keys and contents, a key of the second finds one entry of the
first. -/
theorem filter_map_eq_singleton {κ γ : Type} [DecidableEq κ] {m : List β} {f : α → κ × γ}
    {g : β → κ × γ} (h : l.map f = m.map g) (hkeys : (m.map fun y => (g y).1).Nodup) {y : β}
    (hy : y ∈ m) : (l.filter fun x => (f x).1 = (g y).1).map (fun x => (f x).2) = [(g y).2] := by
  have hfilter : (l.filter fun x => (f x).1 = (g y).1).map f =
      (m.filter fun z => (g z).1 = (g y).1).map g := by
    have hboth := congrArg (List.filter fun t => decide (t.1 = (g y).1)) h
    rwa [List.filter_map, List.filter_map] at hboth
  rw [filter_eq_singleton hkeys hy] at hfilter
  have hsnd := congrArg (List.map Prod.snd) hfilter
  rwa [List.map_map] at hsnd

/-- Where the entry at a position of a filtered log stands in the log. -/
theorem exists_split_of_filter {p : α → Bool} {i : ℕ} (h : (l.filter p)[i]? = some a) :
    ∃ pre post, l = pre ++ a :: post ∧ pre.filter p = (l.filter p).take i := by
  obtain ⟨hi, ha⟩ := List.getElem?_eq_some_iff.mp h
  have hsplit : l.filter p = (l.filter p).take i ++ a :: (l.filter p).drop (i + 1) := by
    rw [← ha, List.getElem_cons_drop, List.take_append_drop]
  obtain ⟨l₁, l₂, hl, htake, hrest⟩ := List.filter_eq_append_iff.mp hsplit
  obtain ⟨skipped, post, hl₂, hskipped, -, -⟩ := List.filter_eq_cons_iff.mp hrest
  refine ⟨l₁ ++ skipped, post, by rw [hl, hl₂, List.append_assoc], ?_⟩
  have hnone : skipped.filter p = [] := filter_eq_nil fun x hx => by simpa using hskipped x hx
  rw [List.filter_append, htake, hnone, List.append_nil]

/-- Two entries of a log of which neither comes before the other. -/
theorem eq_of_two_splits {pre pre' post post' : List α} {a b : α}
    (h : pre ++ a :: post = pre' ++ b :: post') (ha : a ∉ pre') (hb : b ∉ pre) : a = b := by
  rcases List.append_eq_append_iff.mp h with ⟨t, rfl, ht⟩ | ⟨t, rfl, ht⟩
  · cases t with
    | nil => exact (List.cons.inj ht).1
    | cons x t =>
        obtain rfl := (List.cons.inj ht).1
        exact absurd (List.mem_append_right _ (List.mem_cons_self ..)) ha
  · cases t with
    | nil => exact (List.cons.inj ht).1.symm
    | cons x t =>
        obtain rfl := (List.cons.inj ht).1
        exact absurd (List.mem_append_right _ (List.mem_cons_self ..)) hb

/-- The last entry for which `p` holds. -/
def lastWhere (p : α → Bool) (l : List α) : Option α := (l.filter p).getLast?

theorem lastWhere_append_pos {p : α → Bool} (ha : p a = true) : lastWhere p (l ++ [a]) = some a := by
  simp [lastWhere, List.filter_append, ha]

theorem lastWhere_append_neg {p : α → Bool} (ha : p a = false) :
    lastWhere p (l ++ [a]) = lastWhere p l := by
  simp [lastWhere, List.filter_append, ha]

theorem lastWhere_append (p : α → Bool) (l l' : List α) :
    lastWhere p (l ++ l') = (lastWhere p l').or (lastWhere p l) := by
  rw [lastWhere, List.filter_append, List.getLast?_append]
  rfl

theorem lastWhere_of_take {p : α → Bool} {pre : List α} {i : ℕ}
    (h : pre.filter p = (l.filter p).take i) :
    lastWhere p pre = if i = 0 then none else (l.filter p)[i - 1]?.or (lastWhere p l) := by
  rw [lastWhere, h, List.getLast?_take]
  rfl

@[simp] theorem lastWhere_nil (p : α → Bool) : lastWhere p [] = none := rfl

theorem mem_of_lastWhere {p : α → Bool} (h : lastWhere p l = some a) : a ∈ l ∧ p a = true :=
  List.mem_filter.mp (List.mem_of_getLast? h)

theorem lastWhere_isSome {p : α → Bool} (ha : a ∈ l) (hp : p a = true) : (lastWhere p l).isSome := by
  simpa [lastWhere] using ⟨a, ha, hp⟩

end Logs
