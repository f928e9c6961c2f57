import CognitiveLedger.Core.CommitExact
import CognitiveLedger.Store.Scope

/-!
# The index as a view of the stored bytes

Every column of an index row that the bytes of a commit determine holds what they
say; only the graph of a v1 commit comes from the binding of the store that published
it. The parent rows are the parents in the bytes, and every parent is indexed under
the graph of its child. Publication of a commit of either version keeps this,
whatever was there before: a row that exists is not replaced, and one that is new is
computed from the bytes stored with it.
-/

namespace CognitiveLedger

open ExceptRules Lineage

theorem isCommitFamily_canonicalBytes {commit : AnyCommit} {bytes : Bytes}
    (h : commit.canonicalBytes = .ok bytes) : isCommitFamily bytes = true := by
  unfold isCommitFamily
  cases commit with
  | v1 c =>
      obtain ⟨-, rfl⟩ := CommitV1.canonicalBytes_eq_ok_iff.mp h
      rw [startsWith_append_of_length_le (by decide), startsWith_append_of_length_le (by decide)]
      decide
  | v2 c =>
      obtain ⟨-, rfl⟩ := CommitV2.canonicalBytes_eq_ok_iff.mp h
      rw [startsWith_append_of_length_le (by decide), startsWith_append_of_length_le (by decide)]
      decide

/-- A published commit is decoded as its normal form. -/
theorem useCommit_canonicalBytes [Sha256] [TimeCrate] [StrDebug] {commit : AnyCommit} {bytes : Bytes} {id : CommitId}
    (h : commit.canonicalBytes = .ok bytes) (hid : commit.id = .ok id) :
    useCommit id (some bytes) = .ok commit.normalized := by
  have hhash : id = ⟨Sha256.forBytes bytes⟩ := by
    rw [AnyCommit.id, h] at hid
    exact (Except.ok.inj hid).symm
  subst hhash
  have hid' : commit.normalized.id = .ok ⟨Sha256.forBytes bytes⟩ := by
    rw [AnyCommit.id, AnyCommit.canonicalBytes_normalized h]
    rfl
  simp [useCommit, useObject, verified, decodeCommitObject, isCommitFamily_canonicalBytes h,
    AnyCommit.fromCanonicalBytes_of_canonicalBytes h, hid']

theorem graphFor_eq_ok {binding : V1Binding} {commit : AnyCommit} {graph : GraphId}
    (h : graphFor binding commit = .ok graph) : ∀ g, commit.graphId = some g → g = graph := by
  intro g hg
  cases commit with
  | v1 c => cases hg
  | v2 c =>
      cases hg
      exact Except.ok.inj h

/-- The index row of a commit published under `graph`. -/
def AnyCommit.indexRow (commit : AnyCommit) (graph : GraphId) : IndexRow :=
  ⟨graph.asStr, commit.version, commit.patch.text, commit.parents.length⟩

namespace ImmutableRows

variable {rows rows' : ImmutableRows}

def commitRows (graph : GraphId) (commit : AnyCommit) (bytes : Bytes) (id : CommitId) :
    List ImmutableRow := publication id bytes (commit.indexRow graph) commit.parents

variable [Sha256] [TimeCrate] [StrDebug]

/-- The rows of `c` are what its stored bytes say. -/
structure DerivedAt (rows : ImmutableRows) (c : CommitId) (row : IndexRow) (commit : AnyCommit) :
    Prop where
  decodes : useCommit c (rows.objects c.text) = .ok commit
  graph : ∀ g, commit.graphId = some g → row.graphId = g.asStr
  version : row.version = commit.version
  patchId : row.patchId = commit.patch.text
  count : row.parentCount = commit.parents.length
  two : commit.parents.length ≤ 2
  parents : ∀ i, rows.commitParents c.text i = (commit.parents[i]?).map CommitId.text
  indexed : ∀ p ∈ commit.parents, rows.InGraph row.graphId p
  patch : (rows.objects commit.patch.text).isSome

structure Derived (rows : ImmutableRows) : Prop where
  index : ∀ id row, rows.commitIndex id = some row →
    ∃ c commit, c.text = id ∧ rows.DerivedAt c row commit
  parents : ∀ id i p, rows.commitParents id i = some p → (rows.commitIndex id).isSome

theorem Derived.at (h : rows.Derived) {c : CommitId} {row : IndexRow}
    (hrow : rows.commitIndex c.text = some row) : ∃ commit, rows.DerivedAt c row commit := by
  obtain ⟨c', commit, hc, hcommit⟩ := h.index _ row hrow
  obtain rfl := CommitId.text_injective hc
  exact ⟨commit, hcommit⟩

theorem derived_of_empty (hindex : ∀ id, rows.commitIndex id = none)
    (hparents : ∀ id i, rows.commitParents id i = none) : rows.Derived where
  index id row h := by
    rw [hindex] at h
    cases h
  parents id i p h := by
    rw [hparents] at h
    cases h

theorem Derived.parent_inGraph (h : rows.Derived) {g : String} {c p : CommitId}
    (hc : rows.InGraph g c) (hp : rows.Parent c p) : rows.InGraph g p := by
  obtain ⟨row, hrow, rfl⟩ := hc
  obtain ⟨commit, hcommit⟩ := h.at hrow
  exact hcommit.indexed p (parentsOf_eq hcommit.decodes ▸ hp.2)

theorem Derived.ancestors_inGraph (h : rows.Derived) {g : String} {c a : CommitId}
    (hc : rows.InGraph g c) (ha : a ∈ ancestors rows.Parent c) : rows.InGraph g a :=
  ancestors_subset_of_closed (S := {x | rows.InGraph g x}) hc
    (fun _ hx _ hp => h.parent_inGraph hx hp) ha

theorem Derived.parent_grow (h : rows.Derived) (hext : rows.Extends rows') {c p : CommitId}
    (hp : rows.Parent c p) : rows'.Parent c p := by
  obtain ⟨row, hrow⟩ := Option.isSome_iff_exists.mp hp.1
  obtain ⟨commit, hcommit⟩ := h.at hrow
  refine ⟨by rw [hext.index _ _ hrow]; rfl, ?_⟩
  rw [parentsOf_eq (useCommit_grow hext hcommit.decodes), ← parentsOf_eq hcommit.decodes]
  exact hp.2

theorem Derived.ancestors_grow (h : rows.Derived) (hext : rows.Extends rows') (c : CommitId) :
    ancestors rows.Parent c ⊆ ancestors rows'.Parent c :=
  ancestors_mono (fun _ _ hp => h.parent_grow hext hp) c

theorem Derived.parent_of_graphParents (h : rows.Derived) {graph : GraphId} {window : ℕ}
    {c p : CommitId} (hp : (graphParents rows graph window).Parent c p) : rows.Parent c p := by
  obtain ⟨row, hrow, hg⟩ := inGraph_of_graphParents hp
  obtain ⟨commit, hcommit⟩ := h.at hrow
  obtain ⟨ps, hps, hmem⟩ := hp
  have hread : graphParentsOf rows graph c = .ok (some commit.parents) := by
    rw [graphParentsOf_inGraph hrow hg, hcommit.count,
      parentsFromRows_eq_ok hcommit.two hcommit.parents]
    rfl
  obtain rfl := Option.some.inj (Except.ok.inj (hps.symm.trans hread))
  exact ⟨by rw [hrow]; rfl, parentsOf_eq hcommit.decodes ▸ hmem⟩

omit [Sha256] [TimeCrate] [StrDebug] in
theorem isSome_object_grow (hext : rows.Extends rows') {id : String}
    (h : (rows.objects id).isSome) : (rows'.objects id).isSome :=
  hext.has (k := .object id) h

theorem DerivedAt.grow {c : CommitId} {row : IndexRow} {commit : AnyCommit}
    (h : rows.DerivedAt c row commit) (hext : rows.Extends rows')
    (hparents : ∀ i, rows'.commitParents c.text i = rows.commitParents c.text i) :
    rows'.DerivedAt c row commit where
  decodes := useCommit_grow hext h.decodes
  graph := h.graph
  version := h.version
  patchId := h.patchId
  count := h.count
  two := h.two
  parents i := (hparents i).trans (h.parents i)
  indexed p hp := (h.indexed p hp).grow hext
  patch := isSome_object_grow hext h.patch

theorem Derived.insert_object (h : rows.Derived) (id : String) (bytes : Bytes) :
    (rows.insert (.object id bytes)).Derived where
  index x row hrow := by
    obtain ⟨c, commit, hc, hcommit⟩ := h.index x row hrow
    exact ⟨c, commit, hc, hcommit.grow (extends_insert rows _) fun _ => rfl⟩
  parents := h.parents

structure Checked (rows : ImmutableRows) (graph : GraphId) (commit : AnyCommit) (bytes : Bytes)
    (id : CommitId) : Prop where
  encodes : commit.canonicalBytes = .ok bytes
  isId : commit.id = .ok id
  embedded : ∀ g, commit.graphId = some g → g = graph
  parents : ∀ p ∈ commit.parents, rows.InGraph graph.asStr p
  patch : (rows.objects commit.patch.text).isSome

variable {graph : GraphId} {commit : AnyCommit} {bytes : Bytes} {id : CommitId}

theorem Derived.insertAll_commitRows_eq (h : rows.Derived)
    (hc : rows.Checked graph commit bytes id)
    (hobject : (rows.insertAll (commitRows graph commit bytes id)).objects id.text = some bytes)
    (hindexed : (rows.commitIndex id.text).isSome) :
    rows.insertAll (commitRows graph commit bytes id) = rows := by
  obtain ⟨row, hrow⟩ := Option.isSome_iff_exists.mp hindexed
  obtain ⟨stored, hstored⟩ := h.at hrow
  obtain ⟨b, hb, -⟩ := bind_eq_ok.mp hstored.decodes
  have hsome : rows.objects id.text = some b := useObject_eq_ok hb
  have hbytes : some b = some bytes :=
    ((extends_insertAll rows _).objects _ b hsome).symm.trans hobject
  have hsame : stored.parents = commit.parents := by
    have hdecodes := hstored.decodes
    rw [hsome, hbytes, useCommit_canonicalBytes hc.encodes hc.isId] at hdecodes
    rw [← Except.ok.inj hdecodes, AnyCommit.parents_normalized]
  refine insertAll_eq_self fun r hr => ?_
  rcases List.mem_cons.mp hr with rfl | hr
  · simp [ImmutableRow.key, has, hsome]
  rcases List.mem_cons.mp hr with rfl | hr
  · simpa [ImmutableRow.key, has] using hindexed
  obtain ⟨⟨p, i⟩, hpi, rfl⟩ := List.mem_map.mp hr
  have hpi' : commit.parents[i]? = some p := by simpa using List.mem_zipIdx_iff_getElem?.mp hpi
  have hp := hstored.parents i
  rw [hsame, hpi'] at hp
  simp [ImmutableRow.key, has, hp]

theorem Derived.derivedAt_commitRows (h : rows.Derived) (hc : rows.Checked graph commit bytes id)
    (hobject : (rows.insertAll (commitRows graph commit bytes id)).objects id.text = some bytes)
    (hindexed : rows.commitIndex id.text = none) :
    (rows.insertAll (commitRows graph commit bytes id)).DerivedAt id (commit.indexRow graph)
      commit.normalized := by
  have hext := extends_insertAll rows (commitRows graph commit bytes id)
  have hparents : ∀ i, rows.commitParents id.text i = none := by
    intro i
    cases hp : rows.commitParents id.text i with
    | none => rfl
    | some p => exact absurd (h.parents _ _ _ hp) (by simp [hindexed])
  refine ⟨?_, fun g hg => ?_, by simp [AnyCommit.indexRow], by simp [AnyCommit.indexRow],
    by simp [AnyCommit.indexRow], ?_, fun i => ?_, fun p hp => ?_, ?_⟩
  · rw [hobject]
    exact useCommit_canonicalBytes hc.encodes hc.isId
  · rw [AnyCommit.graphId_normalized] at hg
    rw [hc.embedded g hg]
    rfl
  · rw [AnyCommit.parents_normalized]
    exact AnyCommit.parents_le_two hc.encodes
  · rw [AnyCommit.parents_normalized]
    exact commitParents_publication rows id _ _ commit.parents hparents i
  · rw [AnyCommit.parents_normalized] at hp
    exact (hc.parents p hp).grow hext
  · rw [AnyCommit.patch_normalized]
    exact isSome_object_grow hext hc.patch

theorem Derived.publish (h : rows.Derived) (hc : rows.Checked graph commit bytes id)
    (hobject : (rows.insertAll (commitRows graph commit bytes id)).objects id.text = some bytes) :
    (rows.insertAll (commitRows graph commit bytes id)).Derived := by
  cases hindexed : rows.commitIndex id.text with
  | some row =>
      rw [h.insertAll_commitRows_eq hc hobject (by simp [hindexed])]
      exact h
  | none =>
      have hext := extends_insertAll rows (commitRows graph commit bytes id)
      refine ⟨fun x row hrow => ?_, fun x i p hp => ?_⟩
      · have hat := h.derivedAt_commitRows hc hobject hindexed
        unfold commitRows at hrow
        rw [commitIndex_publication] at hrow
        by_cases hx : x = id.text
        · subst hx
          rw [if_pos rfl, hindexed, Option.none_or] at hrow
          obtain rfl := Option.some.inj hrow
          exact ⟨id, _, rfl, hat⟩
        · rw [if_neg hx] at hrow
          obtain ⟨c, stored, hc', hstored⟩ := h.index x row hrow
          refine ⟨c, stored, hc', hstored.grow hext fun i => ?_⟩
          exact commitParents_publication_ne rows id _ _ commit.parents (by rwa [hc']) i
      · unfold commitRows at hp ⊢
        rw [commitIndex_publication]
        by_cases hx : x = id.text
        · simp [hx, hindexed]
        · rw [commitParents_publication_ne rows id _ _ commit.parents hx] at hp
          rw [if_neg hx]
          exact h.parents x i p hp

end ImmutableRows

end CognitiveLedger
