import Mathlib.Data.List.Sort
import CognitiveLedger.Dag.MergeBase
import CognitiveLedger.Store.CommitRows
import CognitiveLedger.Store.Reconstruct

/-!
# Parents from the commit index

The provider of a graph reads a commit's parents from its index and parent rows,
and a window from one recursive statement: commits reached level by level through
the graph's index, capped, each at its least depth, nearest first. Entries with
damaged rows are left out unless they are the anchor's own.

Windows agree with single reads whatever the rows hold. On a sound index the
provider's ancestors are the ancestors of the index, every ancestor is known and
there is no cycle.
-/

namespace CognitiveLedger

open ExceptRules Ascending Lineage

/-- `REACH_PAIRS_PER_COMMIT`. -/
def reachPairsPerCommit : ℕ := 4

section Provider

variable (rows : ImmutableRows) (graph : GraphId)

/-- The rows of `commit_parents` of one commit, by position. -/
def ImmutableRows.parentRowsOf (id : String) : List (ℕ × String) :=
  [0, 1].filterMap fun position => (rows.commitParents id position).map (position, ·)

def ImmutableRows.inGraph (id : String) : Bool :=
  (rows.commitIndex id).any fun row => row.graphId = graph.asStr

def parentsFromRows (commit : CommitId) (parentCount : ℕ) (parents : List (ℕ × String)) :
    Except LedgerError (List CommitId) := do
  ensure (parents.length = parentCount ∧ parents.map (·.1) = List.range parents.length)
    (.corruptObject commit.content s!"commit_parents rows disagree with parent_count {parentCount}")
  parents.mapM fun p => CommitId.fromStr p.2

def graphParentsOf (commit : CommitId) : Except LedgerError (Option (List CommitId)) :=
  match rows.commitIndex commit.text with
  | none => .ok none
  | some row =>
      if row.graphId = graph.asStr then
        some <$> parentsFromRows commit row.parentCount (rows.parentRowsOf commit.text)
      else .ok none

/-- The next level of the recursive statement. -/
def reachLevel (firstParentOnly : Bool) (level : List String) : List String :=
  (level.flatMap fun id => (rows.parentRowsOf id).filterMap fun (position, parent) =>
    if (firstParentOnly = true → position = 0) ∧ rows.inGraph graph parent = true then some parent
    else none).dedup

def reach (firstParentOnly : Bool) : ℕ → ℕ → List String → List (String × ℕ)
  | 0, _, _ => []
  | n + 1, depth, level =>
      level.map (·, depth) ++ reach firstParentOnly n (depth + 1)
        (reachLevel rows graph firstParentOnly level)

/-- Each id at its least depth. -/
def nearest : List (String × ℕ) → List (String × ℕ)
  | [] => []
  | p :: rest => p :: (nearest rest).filter (·.1 ≠ p.1)

def byDepth (a b : String × ℕ) : Prop := a.2 < b.2 ∨ a.2 = b.2 ∧ a.1 ≤ b.1

instance : DecidableRel byDepth := fun _ _ => inferInstanceAs (Decidable (_ ∨ _))

def windowIds (start : CommitId) (max : ℕ) (firstParentOnly : Bool) : List String :=
  let level := if rows.inGraph graph start.text then [start.text] else []
  let capped := (reach rows graph firstParentOnly max 0 level).take
    (toI64 (max * reachPairsPerCommit))
  (((nearest capped).insertionSort byDepth).take max).map (·.1)

def windowEntry (id : String) : Except LedgerError (CommitId × List CommitId) := do
  let commit ← CommitId.fromStr id
  let count := (rows.commitIndex id).elim 0 (·.parentCount)
  let parents ← parentsFromRows commit count (rows.parentRowsOf id)
  return (commit, parents)

/-- Only the anchor's own damage is reported. -/
def windowEntries (start : CommitId) : List String → Except LedgerError (List (CommitId × List CommitId))
  | [] => .ok []
  | id :: rest =>
      match windowEntry rows id with
      | .ok entry => (entry :: ·) <$> windowEntries start rest
      | .error e => if id = start.text then .error e else windowEntries start rest

def graphParents (window : ℕ) : ParentProvider CommitId LedgerError where
  parents := graphParentsOf rows graph
  ancestryWindow start max kind :=
    if window ≤ 1 then
      (ParentProvider.ofParents (graphParentsOf rows graph)).ancestryWindow start max kind
    else do
      let max := Max.max 1 (min window max)
      let ids := ascending ((windowIds rows graph start max (decide (kind = .firstParent))).filter
        (rows.inGraph graph ·)).toFinset
      ensure (ids.length ≤ max) (.storage "ancestry window returned more commits than requested")
      windowEntries rows start ids

end Provider

/-! ## Windows agree with single reads -/

section Windows

variable {rows : ImmutableRows} {graph : GraphId}

theorem inGraph_eq_true {id : String} :
    rows.inGraph graph id = true ↔ ∃ row, rows.commitIndex id = some row ∧
      row.graphId = graph.asStr := by
  cases h : rows.commitIndex id <;> simp [ImmutableRows.inGraph, h]

theorem graphParentsOf_inGraph {c : CommitId} {row : IndexRow}
    (hrow : rows.commitIndex c.text = some row) (hg : row.graphId = graph.asStr) :
    graphParentsOf rows graph c =
      some <$> parentsFromRows c row.parentCount (rows.parentRowsOf c.text) := by
  simp [graphParentsOf, hrow, hg]

theorem graphParentsOf_not_inGraph {c : CommitId} (h : ¬ rows.inGraph graph c.text = true) :
    graphParentsOf rows graph c = .ok none := by
  unfold graphParentsOf
  cases hrow : rows.commitIndex c.text with
  | none => rfl
  | some row =>
      have hg : row.graphId ≠ graph.asStr := fun hg => h (inGraph_eq_true.mpr ⟨row, hrow, hg⟩)
      simp [hg]

theorem windowEntry_eq {c : CommitId} (h : rows.inGraph graph c.text = true) :
    graphParentsOf rows graph c = (fun e => some e.2) <$> windowEntry rows c.text := by
  obtain ⟨row, hrow, hg⟩ := inGraph_eq_true.mp h
  rw [graphParentsOf_inGraph hrow hg]
  simp only [windowEntry, CommitId.fromStr_text, ok_bind, hrow, Option.elim_some]
  cases parentsFromRows c row.parentCount (rows.parentRowsOf c.text) <;> rfl

theorem windowEntry_id {id : String} {entry : CommitId × List CommitId}
    (h : windowEntry rows id = .ok entry) : entry.1.text = id := by
  obtain ⟨c, hc, h⟩ := bind_eq_ok.mp h
  obtain ⟨ps, -, h⟩ := bind_eq_ok.mp h
  obtain rfl := Except.ok.inj h
  unfold CommitId.fromStr ContentId.fromStr at hc
  split_ifs at hc with hshape
  · obtain rfl := Except.ok.inj hc
    rfl
  · cases hc

theorem windowEntries_eq_ok {start : CommitId} {ids : List String}
    {window : List (CommitId × List CommitId)} (h : windowEntries rows start ids = .ok window) :
    (∀ entry ∈ window, ∃ id ∈ ids, windowEntry rows id = .ok entry) ∧
      (start.text ∈ ids → ∃ entry ∈ window, windowEntry rows start.text = .ok entry) := by
  induction ids generalizing window with
  | nil =>
      obtain rfl := Except.ok.inj h
      simp
  | cons id ids ih =>
      unfold windowEntries at h
      cases he : windowEntry rows id with
      | ok entry =>
          simp only [he] at h
          cases hrest : windowEntries rows start ids with
          | error e => simp [hrest] at h
          | ok rest =>
              obtain rfl : entry :: rest = window := by simpa [hrest] using h
              obtain ⟨hall, hstart⟩ := ih hrest
              refine ⟨List.forall_mem_cons.mpr ⟨⟨id, List.mem_cons_self, he⟩, fun x hx => ?_⟩, ?_⟩
              · obtain ⟨i, hi, hx⟩ := hall x hx
                exact ⟨i, List.mem_cons_of_mem _ hi, hx⟩
              · intro hmem
                rcases List.mem_cons.mp hmem with hid | hmem
                · exact ⟨entry, List.mem_cons_self, hid ▸ he⟩
                · obtain ⟨x, hx, hxe⟩ := hstart hmem
                  exact ⟨x, List.mem_cons_of_mem _ hx, hxe⟩
      | error e =>
          simp only [he] at h
          split_ifs at h with hid
          obtain ⟨hall, hstart⟩ := ih h
          refine ⟨fun x hx => ?_, fun hmem => ?_⟩
          · obtain ⟨i, hi, hx⟩ := hall x hx
            exact ⟨i, List.mem_cons_of_mem _ hi, hx⟩
          · exact hstart ((List.mem_cons.mp hmem).resolve_left fun heq => hid heq.symm)

theorem windowEntries_eq_error {start : CommitId} {ids : List String} {e : LedgerError}
    (h : windowEntries rows start ids = .error e) :
    start.text ∈ ids ∧ windowEntry rows start.text = .error e := by
  induction ids with
  | nil => cases h
  | cons id ids ih =>
      unfold windowEntries at h
      cases he : windowEntry rows id with
      | ok entry =>
          simp only [he] at h
          cases hrest : windowEntries rows start ids with
          | error e' =>
              obtain rfl : e' = e := by simpa [hrest] using h
              exact ⟨List.mem_cons_of_mem _ (ih hrest).1, (ih hrest).2⟩
          | ok rest => simp [hrest] at h
      | error e' =>
          simp only [he] at h
          split_ifs at h with hid
          · obtain rfl := Except.error.inj h
            exact ⟨by simp [hid], hid ▸ he⟩
          · exact ⟨List.mem_cons_of_mem _ (ih h).1, (ih h).2⟩

theorem depth_of_mem_reach {firstParentOnly : Bool} {n depth : ℕ} {level : List String}
    {p : String × ℕ} (hp : p ∈ reach rows graph firstParentOnly n depth level) : depth ≤ p.2 := by
  induction n generalizing depth level with
  | zero => cases hp
  | succ n ih =>
      rcases List.mem_append.mp hp with hp | hp
      · obtain ⟨id, -, rfl⟩ := List.mem_map.mp hp
        exact le_rfl
      · exact Nat.le_of_succ_le (ih hp)

theorem mem_nearest {p : String × ℕ} {l : List (String × ℕ)} (h : p ∈ nearest l) : p ∈ l := by
  induction l with
  | nil => cases h
  | cons q l ih =>
      rcases List.mem_cons.mp h with rfl | h
      · exact List.mem_cons_self
      · exact List.mem_cons_of_mem _ (ih (List.mem_filter.mp h).1)

theorem start_mem_windowIds {start : CommitId} {max : ℕ} (hmax : 0 < max) (firstParentOnly : Bool)
    (h : rows.inGraph graph start.text = true) :
    start.text ∈ windowIds rows graph start max firstParentOnly := by
  obtain ⟨max, rfl⟩ := Nat.exists_eq_succ_of_ne_zero hmax.ne'
  obtain ⟨cap, hcap⟩ : ∃ cap, toI64 ((max + 1) * reachPairsPerCommit) = cap + 1 := by
    refine Nat.exists_eq_succ_of_ne_zero (Nat.pos_iff_ne_zero.mp ?_)
    exact lt_min (by simp [reachPairsPerCommit]) (by decide)
  simp only [windowIds, h, if_true, Nat.succ_eq_add_one, hcap, reach, List.map_cons, List.map_nil,
    List.cons_append, List.nil_append, List.take_succ_cons, nearest, List.insertionSort_cons]
  cases hsorted : List.insertionSort byDepth _ with
  | nil => simp
  | cons p sorted =>
      have hp : p ∈ List.insertionSort byDepth _ := hsorted ▸ List.mem_cons_self
      have hmem := mem_nearest (List.mem_filter.mp ((List.mem_insertionSort byDepth).mp hp)).1
      have hle : byDepth (start.text, 0) p :=
        Or.inl (depth_of_mem_reach (List.mem_of_mem_take hmem))
      rw [List.orderedInsert_cons_of_le _ _ hle]
      simp

theorem length_windowIds (start : CommitId) (max : ℕ) (firstParentOnly : Bool) :
    (windowIds rows graph start max firstParentOnly).length ≤ max := by
  simp [windowIds]

theorem graphParents_honest (rows : ImmutableRows) (graph : GraphId) (window : ℕ)
    (kind : WindowKind) : (graphParents rows graph window).Honest kind := by
  by_cases hwindow : window ≤ 1
  · -- the window is the start alone
    have hw : ∀ start n, (graphParents rows graph window).ancestryWindow start n kind =
        (do return ((← graphParentsOf rows graph start).map fun ps => [(start, ps)]).getD []) := by
      intro start n
      simp [graphParents, hwindow, ParentProvider.ofParents]
    constructor
    · intro start n out hout entry hentry
      rw [hw] at hout
      obtain ⟨ps, hps, hout⟩ := bind_eq_ok.mp hout
      obtain rfl := Except.ok.inj hout
      cases ps with
      | none => cases hentry
      | some ps =>
          obtain rfl : entry = (start, ps) := by simpa using hentry
          exact hps
    · intro start n out hout hne
      rw [hw] at hout
      obtain ⟨ps, hps, hout⟩ := bind_eq_ok.mp hout
      obtain rfl := Except.ok.inj hout
      cases ps with
      | none => exact hps
      | some ps => exact absurd rfl (hne (start, ps) (by simp))
    · intro start n e he
      rw [hw] at he
      rcases bind_eq_error.mp he with he | ⟨_, _, he⟩
      · exact he
      · cases he
  · set ids : CommitId → ℕ → List String := fun start n =>
      ascending ((windowIds rows graph start (max 1 (min window n))
        (decide (kind = .firstParent))).filter (rows.inGraph graph ·)).toFinset with hids
    have hw : ∀ start n, (graphParents rows graph window).ancestryWindow start n kind =
        windowEntries rows start (ids start n) := by
      intro start n
      have hlen : (ids start n).length ≤ max 1 (min window n) := by
        rw [hids, length_ascending]
        exact (List.toFinset_card_le _).trans
          ((List.length_filter_le _ _).trans (length_windowIds _ _ _))
      simp only [hids] at hlen
      simp only [graphParents, hwindow, if_false, ensure_pos hlen, ok_bind, hids]
    have hin : ∀ start n id, id ∈ ids start n → rows.inGraph graph id = true := by
      intro start n id hid
      simp only [hids, mem_ascending, List.mem_toFinset, List.mem_filter] at hid
      exact hid.2
    constructor
    · intro start n out hout entry hentry
      rw [hw] at hout
      obtain ⟨id, hid, hentry⟩ := (windowEntries_eq_ok hout).1 entry hentry
      obtain rfl := windowEntry_id hentry
      refine (windowEntry_eq (hin _ _ _ hid)).trans ?_
      rw [hentry]
      rfl
    · intro start n out hout hne
      rw [hw] at hout
      refine graphParentsOf_not_inGraph fun hstart => ?_
      have hmem : start.text ∈ ids start n := by
        simp only [hids, mem_ascending, List.mem_toFinset, List.mem_filter]
        exact ⟨start_mem_windowIds (by omega) _ hstart, hstart⟩
      obtain ⟨entry, hentry, he⟩ := (windowEntries_eq_ok hout).2 hmem
      exact hne entry hentry (CommitId.text_injective (windowEntry_id he))
    · intro start n e he
      rw [hw] at he
      obtain ⟨hmem, he⟩ := windowEntries_eq_error he
      refine (windowEntry_eq (hin _ _ _ hmem)).trans ?_
      rw [he]
      rfl

end Windows

/-! ## The provider of a sound index -/

section SoundIndex

variable [NQuadsParser] [Sha256] [TimeCrate] [StrDebug]
variable {rows : ImmutableRows} {graph : GraphId} {window : ℕ}

omit [NQuadsParser] [Sha256] [TimeCrate] [StrDebug] in
theorem parentsFromRows_eq_ok {c : CommitId} {parents : List CommitId} (htwo : parents.length ≤ 2)
    (h : ∀ i, rows.commitParents c.text i = (parents[i]?).map CommitId.text) :
    parentsFromRows c parents.length (rows.parentRowsOf c.text) = .ok parents := by
  have hrows : rows.parentRowsOf c.text = parents.zipIdx.map fun p => (p.2, p.1.text) := by
    unfold ImmutableRows.parentRowsOf
    match parents, htwo with
    | [], _ => simp [h]
    | [a], _ => simp [h]
    | [a, b], _ => simp [h]
  have hpositions : (rows.parentRowsOf c.text).map (·.1) =
      List.range (rows.parentRowsOf c.text).length := by
    rw [hrows, List.map_map, List.length_map, List.length_zipIdx]
    exact List.zipIdx_map_snd 0 parents |>.trans List.range_eq_range'.symm
  have hlength : (rows.parentRowsOf c.text).length = parents.length := by
    rw [hrows, List.length_map, List.length_zipIdx]
  rw [parentsFromRows, ensure_pos ⟨hlength, hpositions⟩, ok_bind, hrows, List.mapM_map,
    mapM_eq_ok (g := fun p : CommitId × ℕ => p.1) (by simp)]
  rw [List.zipIdx_map_fst]

theorem ImmutableRows.Sound.graphParents_parents (h : rows.Sound) {c : CommitId}
    (hc : rows.InGraph graph.asStr c) :
    (graphParents rows graph window).parents c = .ok (some (rows.parentsOf c)) := by
  obtain ⟨row, hrow, hg⟩ := hc
  obtain ⟨commit, hcommit⟩ := h.indexes hrow
  refine (graphParentsOf_inGraph hrow hg).trans ?_
  rw [hcommit.count, parentsFromRows_eq_ok hcommit.two hcommit.parents,
    parentsOf_eq hcommit.decodes]
  rfl

omit [NQuadsParser] [Sha256] [TimeCrate] [StrDebug] in
theorem inGraph_of_graphParents {c p : CommitId} (h : (graphParents rows graph window).Parent c p) :
    rows.InGraph graph.asStr c := by
  obtain ⟨ps, hps, -⟩ := h
  by_contra hc
  have hnone : graphParentsOf rows graph c = .ok none :=
    graphParentsOf_not_inGraph fun hin => hc (inGraph_eq_true.mp hin)
  exact absurd (hps.symm.trans hnone) (by simp)

theorem ImmutableRows.Sound.graphParents_parent_iff (h : rows.Sound) {c p : CommitId}
    (hc : rows.InGraph graph.asStr c) :
    (graphParents rows graph window).Parent c p ↔ rows.Parent c p := by
  rw [ParentProvider.parent_iff (h.graphParents_parents hc)]
  exact ⟨fun hp => ⟨hc.isSome, hp⟩, fun hp => hp.2⟩

theorem ImmutableRows.Sound.graphParents_ancestors (h : rows.Sound) {c : CommitId}
    (hc : rows.InGraph graph.asStr c) :
    ancestors (graphParents rows graph window).Parent c = ancestors rows.Parent c :=
  ancestors_congr fun _ hx _ => h.graphParents_parent_iff (h.ancestors_inGraph hc hx)

theorem ImmutableRows.Sound.graphParents_known (h : rows.Sound) {c : CommitId}
    (hc : rows.InGraph graph.asStr c) :
    ∀ x ∈ ancestors (graphParents rows graph window).Parent c,
      ∃ ps, (graphParents rows graph window).parents x = .ok (some ps) := by
  rw [h.graphParents_ancestors hc]
  exact fun x hx => ⟨_, h.graphParents_parents (h.ancestors_inGraph hc hx)⟩

theorem ImmutableRows.Sound.graphParents_acyclic (h : rows.Sound) :
    Acyclic (graphParents rows graph window).Parent := by
  obtain ⟨rank, hrank⟩ := h.rank
  refine acyclic_of_rank rank fun x p hp => hrank x p ?_
  exact (h.graphParents_parent_iff (inGraph_of_graphParents hp)).mp hp

end SoundIndex

end CognitiveLedger
