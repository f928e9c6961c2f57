import CognitiveLedger.Core.Commit
import CognitiveLedger.Lib.Ascending
import CognitiveLedger.Lib.PostOrder

/-!
# The order in which commits are copied

A migration publishes the commits of a file store parents first. The order is a
depth-first post-order of the decoded commits; it exists unless a parent is missing
or the parents form a cycle, and the failure then names such a parent or a commit on
a cycle.
-/

namespace CognitiveLedger.Migrate

open Ascending DepthFirst PostOrder

/-- `BTreeMap<CommitId, (AnyCommit, Vec<u8>)>`: the decoded commits of a store, with their bytes. -/
structure CommitMap where
  keys : Finset CommitId
  get : CommitId → Option (AnyCommit × Bytes)
  mem_keys : ∀ id, id ∈ keys ↔ (get id).isSome

namespace CommitMap

variable (commits : CommitMap)

/-- `p` is a parent of the commit stored for `c`. -/
def Parent (c p : CommitId) : Prop := ∃ entry, commits.get c = some entry ∧ p ∈ entry.1.parents

/-- What the order is computed from. -/
def parentMap : ParentMap CommitId where
  keys := commits.keys
  parents id := (commits.get id).map fun entry => entry.1.parents
  mem_keys id := by simp [commits.mem_keys id]

theorem edge_parentMap : Edge commits.parentMap.parents = commits.Parent := by
  funext c p
  simp [Edge, Parent, parentMap]

theorem Parent.mem_keys {commits : CommitMap} {c p : CommitId} (h : commits.Parent c p) :
    c ∈ commits.keys := by
  obtain ⟨entry, hentry, -⟩ := h
  exact (commits.mem_keys c).mpr (Option.isSome_of_mem hentry)

end CommitMap

/-- The errors of `topological_order`. -/
def orderError : Failure CommitId → LedgerError
  | .missing p => .missingParent p
  | .cycle c => .corruptObject c.content "commit ancestry cycle"

/-- `topological_order`. -/
def topologicalOrder (commits : CommitMap) : Except LedgerError (List CommitId) :=
  (order commits.parentMap (ascending commits.keys)).mapError orderError

theorem topologicalOrder_eq_ok {commits : CommitMap} {l : List CommitId}
    (h : topologicalOrder commits = .ok l) : l.Nodup ∧ (∀ c, c ∈ l ↔ c ∈ commits.keys) ∧
      ∀ front c back, l = front ++ c :: back → ∀ p, commits.Parent c p → p ∈ front := by
  rw [← commits.edge_parentMap]
  exact order_eq_ok (fun c => mem_ascending) (ExceptRules.mapError_eq_ok.mp h)

theorem parent_mem_keys {commits : CommitMap} {l : List CommitId}
    (h : topologicalOrder commits = .ok l) {c p : CommitId} (hp : commits.Parent c p) :
    p ∈ commits.keys := by
  obtain ⟨-, hmem, hfirst⟩ := topologicalOrder_eq_ok h
  obtain ⟨front, back, rfl⟩ := List.append_of_mem ((hmem c).mpr hp.mem_keys)
  exact (hmem p).mp (List.mem_append_left _ (hfirst front c back rfl p hp))

/-- An order is found exactly if every parent is in the map and no commit is its own ancestor. It
then lists every commit once and after its parents; otherwise the failure names a parent that is
not in the map or a commit on a cycle. -/
theorem topologicalOrder_exact (commits : CommitMap) :
    ((∃ l, topologicalOrder commits = .ok l) ↔
        (∀ c p, commits.Parent c p → p ∈ commits.keys) ∧ ∀ c, ¬ Relation.TransGen commits.Parent c c) ∧
      (∀ l, topologicalOrder commits = .ok l → l.Nodup ∧ (∀ c, c ∈ l ↔ c ∈ commits.keys) ∧
        ∀ front c back, l = front ++ c :: back → ∀ p, commits.Parent c p → p ∈ front) ∧
      ∀ e, topologicalOrder commits = .error e →
        (∃ p, e = .missingParent p ∧ p ∉ commits.keys ∧ ∃ c ∈ commits.keys, commits.Parent c p) ∨
          ∃ c ∈ commits.keys, e = .corruptObject c.content "commit ancestry cycle" ∧
            Relation.TransGen commits.Parent c c := by
  have hroots : ∀ c, c ∈ ascending commits.keys ↔ c ∈ commits.parentMap.keys :=
    fun c => mem_ascending
  have hedge := commits.edge_parentMap
  refine ⟨?_, fun l hl => ?_, fun e he => ?_⟩
  · simp only [topologicalOrder, ExceptRules.mapError_eq_ok]
    rw [exists_order_iff hroots, hedge]
    rfl
  · exact topologicalOrder_eq_ok hl
  · obtain ⟨failure, hfailure, rfl⟩ := ExceptRules.mapError_eq_error.mp he
    have hreal := order_eq_error hroots hfailure
    cases failure with
    | missing p =>
        obtain ⟨hp, c, hc⟩ := hreal
        rw [hedge] at hc
        exact .inl ⟨p, rfl, hp, c, hc.mem_keys, hc⟩
    | cycle c =>
        have hcycle : Relation.TransGen (Edge commits.parentMap.parents) c c := hreal
        rw [hedge] at hcycle
        obtain ⟨p, hp, -⟩ := Relation.TransGen.head'_iff.mp hcycle
        exact .inr ⟨c, hp.mem_keys, rfl, hcycle⟩

end CognitiveLedger.Migrate
