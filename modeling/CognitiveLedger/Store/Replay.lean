import CognitiveLedger.Store.CommitRows
import CognitiveLedger.Store.WindowedScalar

/-!
# The state of a commit

A commit of a sound index has one line of patches, along its first parents, and
its state is what they yield from the empty state. Reconstruction returns that
state when the line stays within the limits and reports a resource limit when it
does not; nothing else can happen, and publication changes neither.
-/

namespace CognitiveLedger

open ExceptRules

variable [NQuadsParser] [Sha256] [TimeCrate] [StrDebug]

omit [TimeCrate] [StrDebug] in
theorem usePatch_id {id : PatchId} {bytes : Option Bytes} {p : Patch}
    (h : usePatch id bytes = .ok p) : p.id = id := by
  obtain ⟨b, -, hb⟩ := bind_eq_ok.mp h
  unfold validatePatchBytes at hb
  split_ifs at hb with hhash
  cases hdec : Patch.fromCanonicalBytes b with
  | error e => simp [hdec] at hb
  | ok q =>
      obtain rfl : q = p := by simpa [hdec] using hb
      have hbytes := Patch.canonicalBytes_of_fromCanonicalBytes hdec
      obtain ⟨content⟩ := id
      simp only [Patch.id, hbytes]
      exact congrArg PatchId.mk (not_not.mp hhash)

/-- `line` lists the patches along the first parents, newest first. -/
inductive ImmutableRows.Replays (rows : ImmutableRows) : Option CommitId → List Patch → Prop
  | nil : Replays rows none []
  | cons {c : CommitId} {commit : AnyCommit} {patch : Patch} {line : List Patch}
      (decodes : useCommit c (rows.objects c.text) = .ok commit)
      (used : usePatch commit.patch (rows.objects commit.patch.text) = .ok patch)
      (rest : Replays rows commit.parents.head? line) : Replays rows (some c) (patch :: line)

def replay (line : List Patch) : State := line.foldr (fun p s => applyPatch s p) ∅

/-- `c` has the state `s`. -/
def ImmutableRows.StateAt (rows : ImmutableRows) (c : CommitId) (s : State) : Prop :=
  ∃ line, rows.Replays (some c) line ∧ replay line = s

namespace ImmutableRows

variable {rows rows' : ImmutableRows} {o : Option CommitId} {c : CommitId} {line line' : List Patch}

theorem Replays.unique (h : rows.Replays o line) (h' : rows.Replays o line') : line = line' := by
  induction h generalizing line' with
  | nil => cases h'; rfl
  | cons hc hp _ ih =>
      cases h' with
      | cons hc' hp' hrest' =>
          obtain rfl := Except.ok.inj (hc.symm.trans hc')
          obtain rfl := Except.ok.inj (hp.symm.trans hp')
          rw [ih hrest']

theorem Replays.grow (h : rows.Replays o line) (hext : rows.Extends rows') :
    rows'.Replays o line := by
  induction h with
  | nil => exact .nil
  | cons hc hp _ ih => exact .cons (useCommit_grow hext hc) (usePatch_grow hext hp) ih

theorem StateAt.unique {s s' : State} (h : rows.StateAt c s) (h' : rows.StateAt c s') : s = s' := by
  obtain ⟨line, hline, rfl⟩ := h
  obtain ⟨line', hline', rfl⟩ := h'
  rw [hline.unique hline']

theorem Sound.head_inGraph (h : rows.Sound) {g : String} (hc : rows.InGraph g c)
    {commit : AnyCommit} (hcommit : useCommit c (rows.objects c.text) = .ok commit) {p : CommitId}
    (hp : commit.parents.head? = some p) : rows.InGraph g p ∧ rows.Parent c p := by
  have hmem : p ∈ rows.parentsOf c := parentsOf_eq hcommit ▸ List.mem_of_head? hp
  exact ⟨h.parent_inGraph hc ⟨hc.isSome, hmem⟩, hc.isSome, hmem⟩

theorem Sound.exists_replays (h : rows.Sound) {g : String} (hc : rows.InGraph g c) :
    ∃ line, rows.Replays (some c) line := by
  obtain ⟨rank, hrank⟩ := h.rank
  induction hn : rank c using Nat.strong_induction_on generalizing c with
  | _ n ih =>
      obtain ⟨row, hrow, hg⟩ := hc
      obtain ⟨commit, hcommit⟩ := h.indexes hrow
      obtain ⟨patch, hpatch⟩ := hcommit.patch
      cases hhead : commit.parents.head? with
      | none => exact ⟨[patch], .cons hcommit.decodes hpatch (hhead ▸ .nil)⟩
      | some p =>
          obtain ⟨hp, hparent⟩ := h.head_inGraph ⟨row, hrow, hg⟩ hcommit.decodes hhead
          obtain ⟨line, hline⟩ := ih (rank p) (hn ▸ hrank c p hparent) hp rfl
          exact ⟨patch :: line, .cons hcommit.decodes hpatch (hhead ▸ hline)⟩

theorem Sound.exists_stateAt (h : rows.Sound) {g : String} (hc : rows.InGraph g c) :
    ∃ s, rows.StateAt c s := by
  obtain ⟨line, hline⟩ := h.exists_replays hc
  exact ⟨replay line, line, hline, rfl⟩

end ImmutableRows

/-! ## Reconstruction -/

namespace ReconstructionLimits

/-- Every state on the way from `s` along `patches`, oldest first, is within the limits. -/
def Within (limits : ReconstructionLimits) : State → List Patch → Prop
  | _, [] => True
  | s, p :: patches =>
      ((applyPatch s p).card ≤ limits.maxQuads ∧ (applyPatch s p).lineBytes ≤ limits.maxBytes) ∧
        Within limits (applyPatch s p) patches

def Fits (limits : ReconstructionLimits) (line : List Patch) : Prop :=
  line.length ≤ limits.maxDepth ∧ limits.Within ∅ line.reverse

variable {limits : ReconstructionLimits}

omit [Sha256] [TimeCrate] [StrDebug] in
theorem within_append (s : State) (l : List Patch) (p : Patch) :
    limits.Within s (l ++ [p]) ↔ limits.Within s l ∧
      (applyPatch (l.foldl applyPatch s) p).card ≤ limits.maxQuads ∧
        (applyPatch (l.foldl applyPatch s) p).lineBytes ≤ limits.maxBytes := by
  induction l generalizing s with
  | nil => simp [Within]
  | cons q l ih => simp only [List.cons_append, Within, ih, List.foldl_cons, and_assoc]

omit [Sha256] [TimeCrate] [StrDebug] in
theorem foldl_reverse_eq_replay (line : List Patch) :
    line.reverse.foldl applyPatch ∅ = replay line := by
  rw [List.foldl_reverse]
  rfl

omit [Sha256] [TimeCrate] [StrDebug] in
theorem fits_cons (p : Patch) (line : List Patch) :
    limits.Fits (p :: line) ↔ limits.Fits line ∧ line.length + 1 ≤ limits.maxDepth ∧
      (applyPatch (replay line) p).card ≤ limits.maxQuads ∧
        (applyPatch (replay line) p).lineBytes ≤ limits.maxBytes := by
  simp only [Fits, List.reverse_cons, within_append, foldl_reverse_eq_replay, List.length_cons]
  constructor
  · rintro ⟨hlen, hw, hfit⟩
    exact ⟨⟨Nat.le_of_succ_le hlen, hw⟩, hlen, hfit⟩
  · rintro ⟨⟨-, hw⟩, hlen, hfit⟩
    exact ⟨hlen, hw, hfit⟩

end ReconstructionLimits

open ReconstructionLimits

variable {rows : ImmutableRows} {limits : ReconstructionLimits}

theorem ImmutableRows.Replays.chainScalar (h : rows.Sound) {rank : CommitId → ℕ}
    (hrank : ∀ c p, rows.Parent c p → rank p < rank c) {o : Option CommitId} {line : List Patch}
    (hline : rows.Replays o line) {g : String} {seen : List CommitId} {fuel : ℕ}
    (ho : ∀ c ∈ o, rows.InGraph g c ∧ ∀ s ∈ seen, rank c < rank s)
    (hseen : seen.length ≤ limits.maxDepth) (hfuel : limits.maxDepth < fuel + seen.length) :
    chainScalar rows limits fuel seen o =
      if line.length + seen.length ≤ limits.maxDepth then .ok (line.map Patch.id)
      else .error limits.depthExceeded := by
  induction hline generalizing seen fuel with
  | nil =>
      cases fuel with
      | zero => simp [CognitiveLedger.chainScalar, hseen]
      | succ fuel => simp [CognitiveLedger.chainScalar, hseen]
  | @cons c commit patch line hcommit hpatch hrest ih =>
      obtain ⟨fuel, rfl⟩ : ∃ m, fuel = m + 1 := Nat.exists_eq_succ_of_ne_zero (by omega)
      obtain ⟨hc, hlt⟩ := ho c rfl
      have hnew : c ∉ seen := fun hmem => Nat.lt_irrefl _ (hlt c hmem)
      simp only [CognitiveLedger.chainScalar, ensure_pos hnew, ok_bind]
      by_cases hdepth : (c :: seen).length ≤ limits.maxDepth
      · have hstep : ∀ p ∈ commit.parents.head?, rows.InGraph g p ∧
            ∀ s ∈ c :: seen, rank p < rank s := by
          intro p hp
          obtain ⟨hpg, hparent⟩ := h.head_inGraph hc hcommit hp
          refine ⟨hpg, List.forall_mem_cons.mpr ⟨hrank c p hparent, fun s hs => ?_⟩⟩
          exact (hrank c p hparent).trans (hlt s hs)
        rw [(checkDepth_eq_ok_iff limits _).mpr hdepth, ok_bind, hcommit, ok_bind,
          ih hstep hdepth (by simp only [List.length_cons]; omega)]
        have hsum : line.length + (c :: seen).length = (patch :: line).length + seen.length := by
          simp only [List.length_cons]
          omega
        rw [hsum, List.map_cons, usePatch_id hpatch]
        by_cases hle : (patch :: line).length + seen.length ≤ limits.maxDepth
        · simp only [if_pos hle, ok_bind, pure_eq_ok]
        · simp only [if_neg hle, error_bind]
      · have hlong : ¬ (patch :: line).length + seen.length ≤ limits.maxDepth := by
          simp only [List.length_cons] at hdepth ⊢
          omega
        rw [if_neg hlong, show limits.checkDepth (c :: seen).length = .error limits.depthExceeded
          from if_pos (not_le.mp hdepth), error_bind]

omit [TimeCrate] [StrDebug] in
/-- The fold returns the last state unless one on the way exceeds the limits. -/
theorem foldScalar_spec {l : List Patch}
    (hl : ∀ p ∈ l, usePatch p.id (rows.objects p.id.text) = .ok p) (s : State) :
    (limits.Within s l → foldScalar rows limits (l.map Patch.id) (s, s.lineBytes) =
      .ok (l.foldl applyPatch s, (l.foldl applyPatch s).lineBytes)) ∧
    (¬ limits.Within s l → ∃ m, foldScalar rows limits (l.map Patch.id) (s, s.lineBytes) =
      .error (.resourceLimit m)) := by
  induction l generalizing s with
  | nil => exact ⟨fun _ => rfl, fun h => absurd trivial h⟩
  | cons p l ih =>
      obtain ⟨hp, hrest⟩ := List.forall_mem_cons.mp hl
      simp only [List.map_cons, foldScalar, hp, ok_bind, applyBounded_eq, Within, List.foldl_cons]
      by_cases hfit : (applyPatch s p).card ≤ limits.maxQuads ∧
          (applyPatch s p).lineBytes ≤ limits.maxBytes
      · simpa only [(checkState_eq_ok_iff limits _ _).mpr hfit, ok_bind, pure_eq_ok, hfit, true_and]
          using ih hrest (applyPatch s p)
      · refine ⟨fun h => absurd h.1 hfit, fun _ => ?_⟩
        have herror : ∃ m, limits.checkState (applyPatch s p).card (applyPatch s p).lineBytes =
            .error (.resourceLimit m) := by
          by_cases hq : (applyPatch s p).card > limits.maxQuads
          · exact ⟨_, if_pos hq⟩
          · have hb : (applyPatch s p).lineBytes > limits.maxBytes :=
              not_le.mp fun hb => hfit ⟨not_lt.mp hq, hb⟩
            exact ⟨_, (if_neg hq).trans (if_pos hb)⟩
        obtain ⟨m, hm⟩ := herror
        exact ⟨m, by simp [hm]⟩

theorem ImmutableRows.Replays.used {o : Option CommitId} {line : List Patch}
    (h : rows.Replays o line) : ∀ p ∈ line, usePatch p.id (rows.objects p.id.text) = .ok p := by
  induction h with
  | nil => simp
  | cons _ hpatch _ ih =>
      refine List.forall_mem_cons.mpr ⟨?_, ih⟩
      rw [usePatch_id hpatch]
      exact hpatch

theorem ImmutableRows.Sound.rowsAgree (h : rows.Sound) {g : String} (n : ℕ) {o : Option CommitId}
    (ho : ∀ c ∈ o, rows.InGraph g c) : RowsAgree rows n o := by
  induction n generalizing o with
  | zero => trivial
  | succ n ih =>
      cases o with
      | none => trivial
      | some c =>
          intro commit hcommit
          obtain ⟨row, hrow, hg⟩ := ho c rfl
          obtain ⟨commit', hc⟩ := h.indexes hrow
          obtain rfl := Except.ok.inj (hcommit.symm.trans hc.decodes)
          refine ⟨fun hint hhint => ?_, ih fun p hp => ?_⟩
          · rw [hc.parents 0] at hhint
            rw [← hhint, List.head?_eq_getElem?]
          · exact (h.head_inGraph ⟨row, hrow, hg⟩ hcommit hp).1

theorem stateAtOnWindowed_spec (h : rows.Sound) {g : String} {c : CommitId} (hc : rows.InGraph g c)
    {line : List Patch} (hline : rows.Replays (some c) line) (limits : ReconstructionLimits)
    (windows : RetrievalWindows) :
    (limits.Fits line → stateAtOnWindowed rows c limits windows =
      .ok ⟨replay line, (replay line).lineBytes, line.length⟩) ∧
    (¬ limits.Fits line → ∃ m, stateAtOnWindowed rows c limits windows =
      .error (.resourceLimit m)) := by
  obtain ⟨rank, hrank⟩ := h.rank
  have ho : ∀ x ∈ some c, rows.InGraph g x := by
    rintro x hx
    obtain rfl := Option.some.inj hx
    exact hc
  rw [stateAtOnWindowed_eq_scalar windows (h.rowsAgree limits.maxDepth ho)]
  have hchain : chainScalar rows limits (limits.maxDepth + 1) [] (some c) =
      if line.length + ([] : List CommitId).length ≤ limits.maxDepth then .ok (line.map Patch.id)
      else .error limits.depthExceeded :=
    hline.chainScalar h hrank (fun x hx => ⟨ho x hx, by simp⟩) (Nat.zero_le _)
      (Nat.lt_succ_self limits.maxDepth)
  have hused : ∀ p ∈ line.reverse, usePatch p.id (rows.objects p.id.text) = .ok p :=
    fun p hp => hline.used p (List.mem_reverse.mp hp)
  obtain ⟨hok, herror⟩ := @foldScalar_spec _ _ rows limits _ hused ∅
  rw [foldl_reverse_eq_replay] at hok
  have hzero : State.lineBytes ∅ = 0 := rfl
  rw [hzero, List.map_reverse] at hok herror
  simp only [stateAtOnScalar, hchain, List.length_nil, Nat.add_zero]
  by_cases hlen : line.length ≤ limits.maxDepth
  · simp only [if_pos hlen, ok_bind]
    refine ⟨fun hfits => ?_, fun hfits => ?_⟩
    · simp [hok hfits.2]
    · obtain ⟨m, hm⟩ := herror fun hw => hfits ⟨hlen, hw⟩
      exact ⟨m, by simp [hm]⟩
  · simp only [if_neg hlen, error_bind]
    exact ⟨fun hfits => absurd hfits.1 hlen, fun _ => ⟨_, rfl⟩⟩

theorem stateAtOnWindowed_eq_ok (h : rows.Sound) {g : String} {c : CommitId}
    (hc : rows.InGraph g c) {limits : ReconstructionLimits} {windows : RetrievalWindows}
    {r : Reconstructed} (hr : stateAtOnWindowed rows c limits windows = .ok r) :
    ∃ line, rows.Replays (some c) line ∧ limits.Fits line ∧
      r = ⟨replay line, (replay line).lineBytes, line.length⟩ := by
  obtain ⟨line, hline⟩ := h.exists_replays hc
  obtain ⟨hok, herror⟩ := stateAtOnWindowed_spec h hc hline limits windows
  by_cases hfits : limits.Fits line
  · exact ⟨line, hline, hfits, Except.ok.inj (hr.symm.trans (hok hfits))⟩
  · obtain ⟨m, hm⟩ := herror hfits
    simp [hm] at hr

end CognitiveLedger
