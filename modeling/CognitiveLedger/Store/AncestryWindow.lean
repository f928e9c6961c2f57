import CognitiveLedger.Lib.Grouping
import CognitiveLedger.Lib.Levels
import CognitiveLedger.Store.GraphParents

/-!
# Ancestry windows over arbitrary rows

`GraphParents` reads two tables whose rows need not make sense: a count that no rows
match, positions with gaps, parents that are missing, foreign or on a cycle. A window is
one recursive statement whose result rows are grouped by commit again. The engine is free
in the order of the rows of one level, of commits at the same depth and of the result;
what a window returns is the same for all of them up to which commits fit.

The anchor stands first in the discovery, so no cut removes it, and what is returned for
any commit is what a single read of that commit returns.
-/

namespace CognitiveLedger

open ExceptRules Grouping

/-- The two index tables: `commit_index` by id, and the rows of `commit_parents` of one
commit by position. -/
structure CommitTables where
  index : String → Option (String × ℤ)
  parents : String → List (ℤ × String)
  byPosition : ∀ id, (parents id).Pairwise fun a b => a.1 < b.1

/-- One row of the window statement: the outer join leaves the parent open for a commit
without parent rows. -/
structure WindowRow where
  id : String
  parentCount : ℤ
  parent : Option (ℤ × String)
  deriving DecidableEq

/-- The orders a statement leaves to the engine. -/
structure QueryOrder where
  level : ℕ → List String → List String
  byDepth : List (String × ℕ) → List (String × ℕ)
  rows : List WindowRow → List WindowRow
  level_perm : ∀ depth ids, (level depth ids).Perm ids
  byDepth_perm : ∀ pairs, (byDepth pairs).Perm pairs
  byDepth_sorted : ∀ pairs, (byDepth pairs).Pairwise fun a b => a.2 ≤ b.2
  rows_perm : ∀ result, (rows result).Perm result

namespace CommitTables

variable (tables : CommitTables) (graph : GraphId)

/-- `commit_index` has the id under the graph. -/
def inGraph (id : String) : Bool := (tables.index id).any fun row => row.1 = graph.asStr

def parentsFromRows (commit : CommitId) (parentCount : ℤ) (rows : List (ℤ × String)) :
    Except LedgerError (List CommitId) := do
  ensure (rows.length = (if 0 ≤ parentCount then parentCount.toNat else usizeMax) ∧
      rows.map (·.1) = (List.range rows.length).map fun i : ℕ => (i : ℤ))
    (.corruptObject commit.content s!"commit_parents rows disagree with parent_count {parentCount}")
  rows.mapM fun p => CommitId.fromStr p.2

/-- A single read. -/
def parentsOf (commit : CommitId) : Except LedgerError (Option (List CommitId)) :=
  match tables.index commit.text with
  | none => .ok none
  | some (graphId, parentCount) =>
      if graphId = graph.asStr then
        some <$> parentsFromRows commit parentCount (tables.parents commit.text)
      else .ok none

def followed (firstParentOnly : Bool) (id : String) : List String :=
  (tables.parents id).filterMap fun (position, parent) =>
    if (firstParentOnly = true → position = 0) ∧ tables.inGraph graph parent = true then
      some parent
    else none

/-- The commits of the statement: `reach`, `capped`, `nearest` and `w`. -/
def windowIds (order : QueryOrder) (start : CommitId) (max : ℕ) (firstParentOnly : Bool) :
    List String :=
  let anchor := if tables.inGraph graph start.text then [start.text] else []
  let reach := Levels.discover order.level (tables.followed graph firstParentOnly)
    (toI64 max) 0 anchor
  let capped := reach.take (toI64 (max * reachPairsPerCommit))
  ((order.byDepth (Levels.nearest capped)).take (toI64 max)).map (·.1)

def rowsOf (id : String) : List WindowRow :=
  match tables.index id with
  | none => []
  | some (graphId, parentCount) =>
      if graphId = graph.asStr then
        match tables.parents id with
        | [] => [⟨id, parentCount, none⟩]
        | parents => parents.map fun p => ⟨id, parentCount, some p⟩
      else []

def putRow (row : WindowRow) (group : Option (ℤ × List (ℤ × String))) :
    Option (ℤ × List (ℤ × String)) :=
  let (parentCount, parents) := group.getD (row.parentCount, [])
  some (parentCount, parents ++ row.parent.toList)

def windowEntry (id : String) (group : Option (ℤ × List (ℤ × String))) :
    Except LedgerError (CommitId × List CommitId) := do
  let commit ← CommitId.fromStr id
  let (parentCount, parents) := group.getD (0, [])
  let parents ← parentsFromRows commit parentCount
    (parents.insertionSort fun a b => a.1 ≤ b.1)
  return (commit, parents)

/-- Only the anchor's own damage is reported. -/
def windowEntries (start : CommitId) :
    List (String × Option (ℤ × List (ℤ × String))) →
      Except LedgerError (List (CommitId × List CommitId))
  | [] => .ok []
  | (id, group) :: rest =>
      match windowEntry id group with
      | .ok entry => (entry :: ·) <$> windowEntries start rest
      | .error e => if id = start.text then .error e else windowEntries start rest

def windowGroups (order : QueryOrder) (start : CommitId) (max : ℕ) (firstParentOnly : Bool) :
    Std.TreeMap String (Option (ℤ × List (ℤ × String))) :=
  groupInto WindowRow.id putRow none ∅
    (order.rows ((tables.windowIds graph order start max firstParentOnly).flatMap
      (tables.rowsOf graph)))

def ancestryWindow (order : QueryOrder) (window : ℕ) (start : CommitId) (max : ℕ)
    (kind : WindowKind) : Except LedgerError (List (CommitId × List CommitId)) :=
  if window ≤ 1 then do
    return ((← tables.parentsOf graph start).map fun parents => [(start, parents)]).getD []
  else do
    let max := Max.max 1 (min window max)
    let groups := tables.windowGroups graph order start max (decide (kind = .firstParent))
    ensure (groups.size ≤ max) (.storage "ancestry window returned more commits than requested")
    windowEntries start groups.toList

/-! ## The commits of a window -/

variable {tables} {graph} {order : QueryOrder} {start : CommitId} {max : ℕ}
variable {firstParentOnly : Bool} {id : String}

theorem inGraph_iff : tables.inGraph graph id = true ↔
    ∃ parentCount, tables.index id = some (graph.asStr, parentCount) := by
  cases h : tables.index id with
  | none => simp [inGraph, h]
  | some row =>
      obtain ⟨graphId, parentCount⟩ := row
      simp [inGraph, h]

theorem toI64_pos {n : ℕ} (hn : 0 < n) : 0 < toI64 n := lt_min hn (by decide)

theorem toI64_le (n : ℕ) : toI64 n ≤ n := min_le_left _ _

theorem nodup_windowIds : (tables.windowIds graph order start max firstParentOnly).Nodup := by
  unfold windowIds
  refine List.Nodup.sublist ((List.take_sublist _ _).map _) ?_
  refine ((order.byDepth_perm _).map Prod.fst).nodup_iff.mpr (Levels.nodup_nearest ?_)
  refine (Levels.nodup_discover order.level_perm ?_).sublist (List.take_sublist _ _)
  split
  · exact List.nodup_singleton _
  · exact List.nodup_nil

theorem length_windowIds :
    (tables.windowIds graph order start max firstParentOnly).length ≤ max := by
  refine (List.length_map _).trans_le ?_
  exact (List.length_take_le _ _).trans (toI64_le max)

theorem start_mem_windowIds (order : QueryOrder) (firstParentOnly : Bool) (hmax : 0 < max)
    (h : tables.inGraph graph start.text = true) :
    start.text ∈ tables.windowIds graph order start max firstParentOnly := by
  simp only [windowIds, h, if_true]
  refine List.mem_map.mpr ⟨(start.text, 0), ?_, rfl⟩
  refine Levels.anchor_mem (toI64_pos hmax) (toI64_pos ?_) (toI64_pos hmax)
    (order.byDepth_sorted _) (order.byDepth_perm _)
  exact Nat.mul_pos hmax (by decide)

/-- Reached from the anchor over rows of the graph, along the edges of the window. -/
def Reaches (tables : CommitTables) (graph : GraphId) (firstParentOnly : Bool) (start id : String) :
    Prop :=
  tables.inGraph graph start = true ∧ Relation.ReflTransGen (fun a b => ∃ position,
    (position, b) ∈ tables.parents a ∧ (firstParentOnly = true → position = 0) ∧
      tables.inGraph graph b = true) start id

theorem reaches_of_mem_windowIds
    (h : id ∈ tables.windowIds graph order start max firstParentOnly) :
    tables.Reaches graph firstParentOnly start.text id := by
  obtain ⟨p, hp, rfl⟩ := List.mem_map.mp h
  have hmem := (order.byDepth_perm _).mem_iff.mp (List.mem_of_mem_take hp)
  obtain ⟨c, hc, hreach⟩ := Levels.reached order.level_perm
    (List.mem_of_mem_take (Levels.mem_of_mem_nearest hmem))
  split at hc
  · rename_i hin
    obtain rfl := List.mem_singleton.mp hc
    refine ⟨hin, Relation.ReflTransGen.mono (fun a b hb => ?_) _ _ hreach⟩
    obtain ⟨⟨position, parent⟩, hrow, hparent⟩ := List.mem_filterMap.mp hb
    simp only [] at hparent
    split_ifs at hparent with hfollow
    obtain rfl := Option.some.inj hparent
    exact ⟨position, hrow, hfollow.1, hfollow.2⟩
  · cases hc

theorem Reaches.inGraph (h : tables.Reaches graph firstParentOnly start.text id) :
    tables.inGraph graph id = true := by
  obtain ⟨hstart, hreach⟩ := h
  cases hreach with
  | refl => exact hstart
  | tail _ hstep =>
      obtain ⟨_, _, _, hin⟩ := hstep
      exact hin

/-! ## The groups of a window -/

theorem id_of_mem_rowsOf {row : WindowRow} (h : row ∈ tables.rowsOf graph id) : row.id = id := by
  unfold rowsOf at h
  split at h
  · cases h
  · split_ifs at h
    · split at h
      · obtain rfl := List.mem_singleton.mp h
        rfl
      · obtain ⟨p, -, rfl⟩ := List.mem_map.mp h
        rfl
    · cases h

theorem rowsOf_indexed {parentCount : ℤ}
    (h : tables.index id = some (graph.asStr, parentCount)) :
    tables.rowsOf graph id ≠ [] ∧
      (∀ row ∈ tables.rowsOf graph id, row.parentCount = parentCount) ∧
      (tables.rowsOf graph id).flatMap (·.parent.toList) = tables.parents id := by
  simp only [rowsOf, h, if_true]
  cases hps : tables.parents id with
  | nil => simp
  | cons p ps =>
      refine ⟨by simp, ?_, by simp [List.flatMap_map]⟩
      intro row hrow
      obtain ⟨q, -, rfl⟩ := List.mem_map.mp hrow
      rfl

/-- The rows of one commit among the rows of distinct commits. -/
theorem filter_flatMap_rowsOf {ids : List String} (hids : ids.Nodup) (k : String) :
    (ids.flatMap (tables.rowsOf graph)).filter (fun row => row.id = k) =
      if k ∈ ids then tables.rowsOf graph k else [] := by
  induction ids with
  | nil => rfl
  | cons id ids ih =>
      obtain ⟨hid, hids⟩ := List.nodup_cons.mp hids
      rw [List.flatMap_cons, List.filter_append, ih hids]
      by_cases hk : k = id
      · subst hk
        have hall : (tables.rowsOf graph k).filter (fun row => row.id = k) =
            tables.rowsOf graph k :=
          List.filter_eq_self.mpr fun row hrow => by simp [id_of_mem_rowsOf hrow]
        simp [hall, hid]
      · have hnone : (tables.rowsOf graph id).filter (fun row => row.id = k) = [] :=
          List.filter_eq_nil_iff.mpr fun row hrow => by
            simp [id_of_mem_rowsOf hrow, Ne.symm hk]
        simp [hnone, hk]

theorem foldl_putRow {parentCount : ℤ} {rows : List WindowRow}
    (hcount : ∀ row ∈ rows, row.parentCount = parentCount) (parents : List (ℤ × String)) :
    rows.foldl (fun group row => putRow row group) (some (parentCount, parents)) =
      some (parentCount, parents ++ rows.flatMap (·.parent.toList)) := by
  induction rows generalizing parents with
  | nil => simp
  | cons row rows ih =>
      obtain ⟨-, hrest⟩ := List.forall_mem_cons.mp hcount
      rw [List.foldl_cons, putRow, Option.getD_some, ih hrest]
      simp

theorem foldl_putRow_none {parentCount : ℤ} {rows : List WindowRow} (hrows : rows ≠ [])
    (hcount : ∀ row ∈ rows, row.parentCount = parentCount) :
    rows.foldl (fun group row => putRow row group) none =
      some (parentCount, rows.flatMap (·.parent.toList)) := by
  cases rows with
  | nil => exact absurd rfl hrows
  | cons row rows =>
      obtain ⟨hrow, hrest⟩ := List.forall_mem_cons.mp hcount
      rw [List.foldl_cons, putRow, Option.getD_none, hrow, foldl_putRow hrest]
      simp

theorem windowGroups_getElem {parentCount : ℤ}
    (hid : id ∈ tables.windowIds graph order start max firstParentOnly)
    (h : tables.index id = some (graph.asStr, parentCount)) :
    ∃ parents, (tables.windowGroups graph order start max firstParentOnly)[id]? =
        some (some (parentCount, parents)) ∧ parents.Perm (tables.parents id) := by
  obtain ⟨hne, hcount, hparents⟩ := rowsOf_indexed h
  let rows := order.rows ((tables.windowIds graph order start max firstParentOnly).flatMap
    (tables.rowsOf graph))
  have hperm : (rows.filter fun row => row.id = id).Perm (tables.rowsOf graph id) := by
    have hfilter := (order.rows_perm ((tables.windowIds graph order start max
      firstParentOnly).flatMap (tables.rowsOf graph))).filter fun row => row.id = id
    rwa [filter_flatMap_rowsOf nodup_windowIds, if_pos hid] at hfilter
  have hgroup : (tables.windowGroups graph order start max firstParentOnly)[id]?.getD none =
      some (parentCount, (rows.filter fun row => row.id = id).flatMap (·.parent.toList)) := by
    rw [windowGroups, getD_groupInto, Std.TreeMap.getElem?_emptyc, Option.getD_none]
    refine foldl_putRow_none (fun hnil => ?_) fun row hrow => hcount row (hperm.mem_iff.mp hrow)
    rw [hnil] at hperm
    exact hne hperm.nil_eq.symm
  refine ⟨_, ?_, hparents ▸ hperm.flatMap_right _⟩
  cases hget : (tables.windowGroups graph order start max firstParentOnly)[id]? with
  | none => simp [hget] at hgroup
  | some group =>
      rw [hget, Option.getD_some] at hgroup
      rw [hgroup]

theorem mem_windowIds_of_mem_groups {group : Option (ℤ × List (ℤ × String))}
    (h : (id, group) ∈ (tables.windowGroups graph order start max firstParentOnly).toList) :
    id ∈ tables.windowIds graph order start max firstParentOnly := by
  have hsome : (tables.windowGroups graph order start max firstParentOnly)[id]?.isSome := by
    rw [Std.TreeMap.mem_toList_iff_getElem?_eq_some.mp h]
    rfl
  rw [windowGroups, mem_groupInto] at hsome
  rcases hsome with hempty | ⟨row, hrow, rfl⟩
  · simp at hempty
  · obtain ⟨id, hid, hrow⟩ := List.mem_flatMap.mp ((order.rows_perm _).mem_iff.mp hrow)
    exact id_of_mem_rowsOf hrow ▸ hid

theorem group_of_mem {group : Option (ℤ × List (ℤ × String))}
    (h : (id, group) ∈ (tables.windowGroups graph order start max firstParentOnly).toList) :
    ∃ parentCount parents, tables.index id = some (graph.asStr, parentCount) ∧
      group = some (parentCount, parents) ∧ parents.Perm (tables.parents id) := by
  have hid := mem_windowIds_of_mem_groups h
  obtain ⟨parentCount, hindex⟩ := inGraph_iff.mp (reaches_of_mem_windowIds hid).inGraph
  obtain ⟨parents, hget, hperm⟩ := windowGroups_getElem hid hindex
  have hgroup := Std.TreeMap.mem_toList_iff_getElem?_eq_some.mp h
  rw [hget] at hgroup
  exact ⟨parentCount, parents, hindex, (Option.some.inj hgroup).symm, hperm⟩

theorem nodup_groups {groups : Std.TreeMap String (Option (ℤ × List (ℤ × String)))} :
    (groups.toList.map Prod.fst).Nodup := by
  rw [Std.TreeMap.map_fst_toList_eq_keys]
  exact groups.nodup_keys

theorem size_windowGroups :
    (tables.windowGroups graph order start max firstParentOnly).size ≤ max := by
  rw [← Std.TreeMap.length_toList, ← List.length_map (f := Prod.fst)]
  have hsub : (tables.windowGroups graph order start max firstParentOnly).toList.map Prod.fst ⊆
      tables.windowIds graph order start max firstParentOnly := by
    intro id hid
    obtain ⟨⟨id, group⟩, hmem, rfl⟩ := List.mem_map.mp hid
    exact mem_windowIds_of_mem_groups hmem
  exact (nodup_groups.subperm hsub).length_le.trans length_windowIds

/-! ## The entries of a window -/

theorem insertionSort_parents {parents : List (ℤ × String)}
    (h : parents.Perm (tables.parents id)) :
    (parents.insertionSort fun a b => a.1 ≤ b.1) = tables.parents id := by
  have hsorted := tables.byPosition id
  have hpair : (parents.insertionSort fun a b => a.1 ≤ b.1).Pairwise fun a b => a.1 ≤ b.1 :=
    List.pairwise_insertionSort _ _
  refine List.Perm.eq_of_pairwise ?_ hpair (hsorted.imp le_of_lt)
    ((List.perm_insertionSort _ _).trans h)
  intro a b ha hb hab hba
  have hmem : a ∈ tables.parents id :=
    h.mem_iff.mp ((List.perm_insertionSort _ _).mem_iff.mp ha)
  have hnodup : ((tables.parents id).map Prod.fst).Nodup :=
    List.pairwise_map.mpr (hsorted.imp fun hlt => hlt.ne)
  exact List.inj_on_of_nodup_map hnodup hmem hb (le_antisymm hab hba)

theorem windowEntry_eq {c : CommitId} {parentCount : ℤ} {parents : List (ℤ × String)}
    (h : tables.index c.text = some (graph.asStr, parentCount))
    (hperm : parents.Perm (tables.parents c.text)) :
    tables.parentsOf graph c =
      (fun entry => some entry.2) <$> windowEntry c.text (some (parentCount, parents)) := by
  simp only [parentsOf, h, if_true, windowEntry, CommitId.fromStr_text, ok_bind,
    Option.getD_some, insertionSort_parents hperm]
  cases parentsFromRows c parentCount (tables.parents c.text) with
  | error e => rfl
  | ok ps => rfl

theorem windowEntry_id {group : Option (ℤ × List (ℤ × String))}
    {entry : CommitId × List CommitId} (h : windowEntry id group = .ok entry) :
    entry.1.text = id := by
  obtain ⟨c, hc, h⟩ := bind_eq_ok.mp h
  obtain ⟨ps, -, h⟩ := bind_eq_ok.mp h
  obtain rfl := Except.ok.inj h
  exact CommitId.text_of_fromStr hc

/-- Without damage of the anchor's own, the sound groups are returned in order. -/
theorem windowEntries_eq_ok {groups : List (String × Option (ℤ × List (ℤ × String)))}
    (h : ∀ group, (start.text, group) ∈ groups → ∃ entry, windowEntry start.text group = .ok entry) :
    windowEntries start groups =
      .ok (groups.filterMap fun g => (windowEntry g.1 g.2).toOption) := by
  induction groups with
  | nil => rfl
  | cons g rest ih =>
      obtain ⟨id, group⟩ := g
      have hrest := ih fun group hgroup => h group (List.mem_cons_of_mem _ hgroup)
      rw [windowEntries]
      cases hentry : windowEntry id group with
      | ok entry => simp [hentry, hrest, Except.toOption]
      | error e =>
          have hid : id ≠ start.text := by
            rintro rfl
            obtain ⟨entry, hok⟩ := h group List.mem_cons_self
            cases hok.symm.trans hentry
          simp [hentry, hid, hrest, Except.toOption]

theorem windowEntries_eq_error {groups : List (String × Option (ℤ × List (ℤ × String)))}
    {group : Option (ℤ × List (ℤ × String))} {e : LedgerError}
    (hnodup : (groups.map Prod.fst).Nodup) (hmem : (start.text, group) ∈ groups)
    (he : windowEntry start.text group = .error e) : windowEntries start groups = .error e := by
  induction groups with
  | nil => cases hmem
  | cons g rest ih =>
      obtain ⟨id, group'⟩ := g
      obtain ⟨hfresh, hnodup⟩ := List.nodup_cons.mp hnodup
      rw [windowEntries]
      rcases List.mem_cons.mp hmem with heq | hlater
      · obtain ⟨rfl, rfl⟩ := Prod.mk.inj heq
        simp [he]
      · have hid : id ≠ start.text := by
          rintro rfl
          exact hfresh (List.mem_map.mpr ⟨_, hlater, rfl⟩)
        have hrest := ih hnodup hlater
        cases windowEntry id group' with
        | ok entry => simp [hrest]
        | error e' => simp [hid, hrest]

theorem parentsOf_of_not_inGraph {c : CommitId} (h : ¬ tables.inGraph graph c.text = true) :
    tables.parentsOf graph c = .ok none := by
  unfold parentsOf
  split
  · rfl
  · rename_i graphId parentCount hindex
    have hg : graphId ≠ graph.asStr := by
      rintro rfl
      exact h (inGraph_iff.mpr ⟨parentCount, hindex⟩)
    rw [if_neg hg]

theorem inGraph_of_parentsOf {c : CommitId} {ps : List CommitId}
    (h : tables.parentsOf graph c = .ok (some ps)) : tables.inGraph graph c.text = true := by
  by_contra hout
  cases h.symm.trans (parentsOf_of_not_inGraph hout)

structure IsWindow (tables : CommitTables) (graph : GraphId) (start : CommitId) (max : ℕ)
    (firstParentOnly : Bool) (out : List (CommitId × List CommitId)) : Prop where
  length_le : out.length ≤ max
  nodup : (out.map Prod.fst).Nodup
  start_iff : (∃ ps, (start, ps) ∈ out) ↔ ∃ ps, tables.parentsOf graph start = .ok (some ps)
  entries : ∀ entry ∈ out, tables.Reaches graph firstParentOnly start.text entry.1.text ∧
    tables.parentsOf graph entry.1 = .ok (some entry.2)

theorem toOption_eq_some {α : Type} {x : Except LedgerError α} {a : α} :
    x.toOption = some a ↔ x = .ok a := by
  cases x with
  | error e => simp [Except.toOption]
  | ok b => simp [Except.toOption]

theorem isWindow_groups (tables : CommitTables) (graph : GraphId) (order : QueryOrder)
    (start : CommitId) (firstParentOnly : Bool) (hmax : 0 < max) :
    tables.IsWindow graph start max firstParentOnly
      ((tables.windowGroups graph order start max firstParentOnly).toList.filterMap
        fun g => (windowEntry g.1 g.2).toOption) := by
  have hread : ∀ entry ∈ (tables.windowGroups graph order start max
      firstParentOnly).toList.filterMap fun g => (windowEntry g.1 g.2).toOption,
      tables.Reaches graph firstParentOnly start.text entry.1.text ∧
        tables.parentsOf graph entry.1 = .ok (some entry.2) := by
    intro entry hentry
    obtain ⟨⟨id, group⟩, hmem, hok⟩ := List.mem_filterMap.mp hentry
    have hok := toOption_eq_some.mp hok
    obtain rfl := windowEntry_id hok
    obtain ⟨parentCount, parents, hindex, rfl, hperm⟩ := group_of_mem hmem
    refine ⟨reaches_of_mem_windowIds (mem_windowIds_of_mem_groups hmem), ?_⟩
    rw [windowEntry_eq hindex hperm, hok]
    rfl
  refine ⟨?_, ?_, ⟨?_, ?_⟩, hread⟩
  · refine (List.length_filterMap_le _ _).trans ?_
    rw [Std.TreeMap.length_toList]
    exact size_windowGroups
  · refine List.pairwise_map.mpr (List.Pairwise.filterMap _ ?_ (List.pairwise_map.mp nodup_groups))
    intro g g' hne entry hentry entry' hentry' heq
    have hid := windowEntry_id (toOption_eq_some.mp hentry)
    have hid' := windowEntry_id (toOption_eq_some.mp hentry')
    exact hne (hid.symm.trans ((congrArg CommitId.text heq).trans hid'))
  · rintro ⟨ps, hps⟩
    exact ⟨ps, (hread _ hps).2⟩
  · rintro ⟨ps, hps⟩
    have hin := inGraph_of_parentsOf hps
    obtain ⟨parentCount, hindex⟩ := inGraph_iff.mp hin
    obtain ⟨parents, hget, hperm⟩ :=
      windowGroups_getElem (start_mem_windowIds order firstParentOnly hmax hin) hindex
    rw [windowEntry_eq hindex hperm] at hps
    cases hentry : windowEntry start.text (some (parentCount, parents)) with
    | error e =>
        rw [hentry] at hps
        cases hps
    | ok entry =>
        obtain ⟨c, ps⟩ := entry
        obtain rfl : c = start := CommitId.text_injective (windowEntry_id hentry)
        refine ⟨ps, List.mem_filterMap.mpr ⟨(c.text, _), ?_, toOption_eq_some.mpr hentry⟩⟩
        exact Std.TreeMap.mem_toList_iff_getElem?_eq_some.mpr hget

/-- Beyond one commit a window is one statement. -/
theorem ancestryWindow_of_lt {window : ℕ} (hwindow : ¬ window ≤ 1) (kind : WindowKind) :
    tables.ancestryWindow graph order window start max kind = windowEntries start
      (tables.windowGroups graph order start (Max.max 1 (min window max))
        (decide (kind = .firstParent))).toList := by
  rw [ancestryWindow, if_neg hwindow]
  simp only [ensure_pos size_windowGroups, ok_bind]

theorem ancestryWindow_cases (tables : CommitTables) (graph : GraphId) (order : QueryOrder)
    (window : ℕ) (start : CommitId) (max : ℕ) (kind : WindowKind) :
    (∃ e, tables.ancestryWindow graph order window start max kind = .error e ∧
      tables.parentsOf graph start = .error e) ∨
    ∃ out answer, tables.ancestryWindow graph order window start max kind = .ok out ∧
      tables.parentsOf graph start = .ok answer ∧
      tables.IsWindow graph start (Max.max 1 (min window max)) (decide (kind = .firstParent))
        out := by
  by_cases hwindow : window ≤ 1
  · -- the window is the anchor alone
    rw [ancestryWindow, if_pos hwindow]
    cases hread : tables.parentsOf graph start with
    | error e => exact .inl ⟨e, rfl, rfl⟩
    | ok answer =>
        refine .inr ⟨_, answer, rfl, rfl, ?_⟩
        cases answer with
        | none => exact ⟨Nat.zero_le _, List.nodup_nil, by simp [hread], by simp⟩
        | some ps =>
            refine ⟨by simp, by simp, by simp [hread], fun entry hentry => ?_⟩
            obtain rfl : entry = (start, ps) := by simpa using hentry
            exact ⟨⟨inGraph_of_parentsOf hread, .refl⟩, hread⟩
  · rw [ancestryWindow_of_lt hwindow]
    have hmax : 0 < Max.max 1 (min window max) := by omega
    generalize Max.max 1 (min window max) = cap at hmax
    generalize decide (kind = .firstParent) = firstParentOnly
    have hgroups := isWindow_groups tables graph order start firstParentOnly hmax
    by_cases hin : tables.inGraph graph start.text = true
    · obtain ⟨parentCount, hindex⟩ := inGraph_iff.mp hin
      obtain ⟨parents, hget, hperm⟩ :=
        windowGroups_getElem (start_mem_windowIds order firstParentOnly hmax hin) hindex
      have hmem := Std.TreeMap.mem_toList_iff_getElem?_eq_some.mpr hget
      rw [windowEntry_eq hindex hperm]
      cases hentry : windowEntry start.text (some (parentCount, parents)) with
      | error e => exact .inl ⟨e, windowEntries_eq_error nodup_groups hmem hentry, rfl⟩
      | ok entry =>
          refine .inr ⟨_, _, windowEntries_eq_ok fun group hgroup => ?_, rfl, hgroups⟩
          have hget' := Std.TreeMap.mem_toList_iff_getElem?_eq_some.mp hgroup
          obtain rfl := Option.some.inj (hget.symm.trans hget')
          exact ⟨entry, hentry⟩
    · refine .inr ⟨_, _, windowEntries_eq_ok fun group hgroup => ?_,
        parentsOf_of_not_inGraph hin, hgroups⟩
      have hreach := reaches_of_mem_windowIds (mem_windowIds_of_mem_groups hgroup)
      exact absurd hreach.1 hin

/-- A window holds at most the commits it may, each once; it holds the anchor exactly when
a single read knows it and fails exactly as a single read of the anchor does; every entry
is reached inside the graph and carries what a single read of it returns. -/
theorem ancestryWindow_exact (tables : CommitTables) (graph : GraphId) (order : QueryOrder)
    (window : ℕ) (start : CommitId) (max : ℕ) (kind : WindowKind) :
    (∀ e, tables.ancestryWindow graph order window start max kind = .error e ↔
      tables.parentsOf graph start = .error e) ∧
    ∀ out, tables.ancestryWindow graph order window start max kind = .ok out →
      out.length ≤ Max.max 1 (min window max) ∧ (out.map Prod.fst).Nodup ∧
      ((∃ ps, (start, ps) ∈ out) ↔ ∃ ps, tables.parentsOf graph start = .ok (some ps)) ∧
      ∀ entry ∈ out,
        tables.Reaches graph (decide (kind = .firstParent)) start.text entry.1.text ∧
        tables.parentsOf graph entry.1 = .ok (some entry.2) := by
  obtain ⟨e, hwindow, hread⟩ | ⟨out, answer, hwindow, hread, hout⟩ :=
    ancestryWindow_cases tables graph order window start max kind
  · simp [hwindow, hread]
  · simp only [hwindow, hread, reduceCtorEq, implies_true, true_and]
    intro out' hout'
    obtain rfl := Except.ok.inj hout'
    exact ⟨hout.length_le, hout.nodup, hread ▸ hout.start_iff, hout.entries⟩

end CommitTables

/-! ## The tables of the ledger -/

instance : Inhabited QueryOrder where
  default :=
    { level := fun _ ids => ids
      byDepth := fun pairs => pairs.insertionSort fun a b => a.2 ≤ b.2
      rows := id
      level_perm := fun _ _ => .refl _
      byDepth_perm := fun _ => List.perm_insertionSort _ _
      byDepth_sorted := fun _ => List.pairwise_insertionSort _ _
      rows_perm := fun _ => .refl _ }

def ImmutableRows.tables (rows : ImmutableRows) : CommitTables where
  index id := (rows.commitIndex id).map fun row => (row.graphId, (row.parentCount : ℤ))
  parents id := (rows.parentRowsOf id).map fun p => ((p.1 : ℤ), p.2)
  byPosition id := by
    refine List.pairwise_map.mpr (List.Pairwise.filterMap _ ?_
      (show [0, 1].Pairwise (· < ·) by decide))
    intro i j hij p hp q hq
    obtain ⟨_, _, rfl⟩ := Option.map_eq_some_iff.mp hp
    obtain ⟨_, _, rfl⟩ := Option.map_eq_some_iff.mp hq
    exact Int.ofNat_lt.mpr hij

/-- The provider of the walks reads what the statements read. -/
theorem tables_parentsOf (rows : ImmutableRows) (graph : GraphId) (c : CommitId) :
    rows.tables.parentsOf graph c = graphParentsOf rows graph c := by
  have hrows : ∀ (count : ℕ) (l : List (ℕ × String)),
      CommitTables.parentsFromRows c count (l.map fun p => ((p.1 : ℤ), p.2)) =
        parentsFromRows c count l := by
    intro count l
    have hpositions : (l.map fun p => ((p.1 : ℤ), p.2)).map (·.1) =
        (List.range l.length).map (fun i : ℕ => (i : ℤ)) ↔ l.map (·.1) = List.range l.length := by
      rw [List.map_map]
      have hcast : ((fun p : ℤ × String => p.1) ∘ fun p : ℕ × String => ((p.1 : ℤ), p.2)) =
          (fun i : ℕ => (i : ℤ)) ∘ fun p => p.1 := rfl
      rw [hcast, ← List.map_map]
      exact (List.map_injective_iff.mpr fun a b hab => Int.ofNat.inj hab).eq_iff
    simp only [CommitTables.parentsFromRows, parentsFromRows, List.length_map, hpositions,
      Int.natCast_nonneg, if_true, Int.toNat_natCast, List.mapM_map]
    rfl
  unfold CommitTables.parentsOf graphParentsOf
  simp only [ImmutableRows.tables]
  cases rows.commitIndex c.text with
  | none => rfl
  | some row => simp [hrows]

theorem tables_honest (rows : ImmutableRows) (graph : GraphId) (order : QueryOrder) (window : ℕ)
    (kind : WindowKind) : ParentProvider.Honest
      ⟨graphParentsOf rows graph, rows.tables.ancestryWindow graph order window⟩ kind := by
  have hcases := fun start max =>
    CommitTables.ancestryWindow_cases rows.tables graph order window start max kind
  simp only [tables_parentsOf] at hcases
  refine ⟨fun {start n out} hwindow entry hentry => ?_, fun {start n out} hwindow hmissing => ?_,
    fun {start n e} herror => ?_⟩
  · obtain ⟨e, he, -⟩ | ⟨out', answer, hout, hread, hspec⟩ := hcases start n
    · cases he.symm.trans hwindow
    · obtain rfl := Except.ok.inj (hout.symm.trans hwindow)
      exact (tables_parentsOf rows graph entry.1).symm.trans (hspec.entries entry hentry).2
  · obtain ⟨e, he, -⟩ | ⟨out', answer, hout, hread, hspec⟩ := hcases start n
    · cases he.symm.trans hwindow
    · obtain rfl := Except.ok.inj (hout.symm.trans hwindow)
      cases answer with
      | none => exact hread
      | some ps =>
          have hknown := hspec.start_iff.mpr ⟨ps, (tables_parentsOf rows graph start).trans hread⟩
          obtain ⟨qs, hqs⟩ := hknown
          exact absurd rfl (hmissing (start, qs) hqs)
  · obtain ⟨e', he', hread⟩ | ⟨out', answer, hout, hread, hspec⟩ := hcases start n
    · obtain rfl := Except.error.inj (he'.symm.trans herror)
      exact hread
    · cases hout.symm.trans herror

end CognitiveLedger
