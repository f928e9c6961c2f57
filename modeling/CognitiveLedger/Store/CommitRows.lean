import Mathlib.Algebra.Order.BigOperators.Group.List
import CognitiveLedger.Lib.Lineage
import CognitiveLedger.Store.Db

/-!
# The commit index

An index row is sound when the stored bytes of its commit decode, its parent
rows are the parents of those bytes, the parents are indexed in the same graph
and the patch decodes. Sound rows stay sound under publication: a commit that is
not indexed yet gets rows derived from its own bytes, and for one that is indexed
nothing changes. Parents are published before their children, so the index is
acyclic.
-/

namespace CognitiveLedger

open ExceptRules Lineage

namespace ImmutableRows

def insertAll (rows : ImmutableRows) (l : List ImmutableRow) : ImmutableRows := l.foldl insert rows

variable {rows rows' : ImmutableRows}

theorem extends_insertAll (rows : ImmutableRows) (l : List ImmutableRow) :
    rows.Extends (rows.insertAll l) := by
  induction l generalizing rows with
  | nil => exact .refl rows
  | cons r l ih => exact (extends_insert rows r).trans (ih (rows.insert r))

theorem SameAt.trans {a b c : ImmutableRows} {k : RowKey} (h : a.SameAt b k) (h' : b.SameAt c k) :
    a.SameAt c k := by
  cases k <;> exact Eq.trans h' h

theorem sameAt_insertAll (rows : ImmutableRows) (l : List ImmutableRow) (k : RowKey)
    (h : (∀ r ∈ l, r.key ≠ k) ∨ rows.has k = true) : rows.SameAt (rows.insertAll l) k := by
  induction l generalizing rows with
  | nil => cases k <;> exact rfl
  | cons r l ih =>
      refine (sameAt_insert rows r k ?_).trans (ih (rows.insert r) ?_)
      · exact h.imp_left fun h => (h r List.mem_cons_self).symm
      · exact h.imp (fun h x hx => h x (List.mem_cons_of_mem _ hx)) (extends_insert rows r).has

def parentRows (id : String) (parents : List CommitId) (n : ℕ) : List ImmutableRow :=
  (parents.zipIdx n).map fun (p, i) => .parent id i p.text

theorem commitParents_parentRows (rows : ImmutableRows) (id : String) (parents : List CommitId)
    (n i : ℕ) (h : ∀ i, n ≤ i → rows.commitParents id i = none) (hi : n ≤ i) :
    (rows.insertAll (parentRows id parents n)).commitParents id i =
      (parents[i - n]?).map CommitId.text := by
  induction parents generalizing rows n with
  | nil => simpa [parentRows, insertAll] using h i hi
  | cons p parents ih =>
      have hcons : rows.insertAll (parentRows id (p :: parents) n) =
          (rows.insert (.parent id n p.text)).insertAll (parentRows id parents (n + 1)) := rfl
      rw [hcons]
      rcases Nat.lt_or_eq_of_le hi with hlt | rfl
      · rw [ih _ (n + 1) (fun j hj => ?_) hlt]
        · rw [show i - n = (i - (n + 1)) + 1 by omega, List.getElem?_cons_succ]
        · have hne : j ≠ n := by omega
          simpa [insert, hne] using h j (by omega)
      · have hsame := sameAt_insertAll (rows.insert (.parent id n p.text))
          (parentRows id parents (n + 1)) (.parent id n) (Or.inr (by simp [has, insert]))
        have hnone := h n (Nat.le_refl n)
        simpa [SameAt, insert, hnone] using hsame

variable [NQuadsParser] [Sha256] [TimeCrate] [StrDebug]

/-- The commit that the stored bytes of `c` decode to. -/
def commit (rows : ImmutableRows) (c : CommitId) : Option AnyCommit :=
  (useCommit c (rows.objects c.text)).toOption

/-- The parents in the stored bytes of `c`. -/
def parentsOf (rows : ImmutableRows) (c : CommitId) : List CommitId :=
  ((rows.commit c).map AnyCommit.parents).getD []

/-- `c` is an indexed commit of the graph named `g`. -/
def InGraph (rows : ImmutableRows) (g : String) (c : CommitId) : Prop :=
  ∃ row, rows.commitIndex c.text = some row ∧ row.graphId = g

/-- `p` is a parent of the indexed commit `c`. -/
def Parent (rows : ImmutableRows) (c p : CommitId) : Prop :=
  (rows.commitIndex c.text).isSome ∧ p ∈ rows.parentsOf c

structure Indexes (rows : ImmutableRows) (c : CommitId) (row : IndexRow) (commit : AnyCommit) :
    Prop where
  decodes : useCommit c (rows.objects c.text) = .ok commit
  count : row.parentCount = commit.parents.length
  two : commit.parents.length ≤ 2
  parents : ∀ i, rows.commitParents c.text i = (commit.parents[i]?).map CommitId.text
  indexed : ∀ p ∈ commit.parents, rows.InGraph row.graphId p
  patch : ∃ patch, usePatch commit.patch (rows.objects commit.patch.text) = .ok patch

structure Sound (rows : ImmutableRows) : Prop where
  index : ∀ id row, rows.commitIndex id = some row →
    ∃ c commit, c.text = id ∧ rows.Indexes c row commit
  parents : ∀ id i p, rows.commitParents id i = some p → (rows.commitIndex id).isSome
  rank : ∃ rank : CommitId → ℕ, ∀ c p, rows.Parent c p → rank p < rank c

omit [NQuadsParser] in
theorem parentsOf_eq {c : CommitId} {commit : AnyCommit}
    (h : useCommit c (rows.objects c.text) = .ok commit) : rows.parentsOf c = commit.parents := by
  simp [parentsOf, ImmutableRows.commit, h, Except.toOption]

omit [Sha256] [NQuadsParser] [TimeCrate] [StrDebug] in
theorem InGraph.grow {g : String} {c : CommitId} (h : rows.InGraph g c)
    (hext : rows.Extends rows') : rows'.InGraph g c := by
  obtain ⟨row, hrow, hg⟩ := h
  exact ⟨row, hext.index _ row hrow, hg⟩

omit [Sha256] [NQuadsParser] [TimeCrate] [StrDebug] in
theorem InGraph.isSome {g : String} {c : CommitId} (h : rows.InGraph g c) :
    (rows.commitIndex c.text).isSome := by
  obtain ⟨row, hrow, -⟩ := h
  simp [hrow]

/-! ## What sound rows say about an indexed commit -/

theorem Sound.indexes (h : rows.Sound) {c : CommitId} {row : IndexRow}
    (hrow : rows.commitIndex c.text = some row) : ∃ commit, rows.Indexes c row commit := by
  obtain ⟨c', commit, hc, hcommit⟩ := h.index _ row hrow
  obtain rfl := CommitId.text_injective hc
  exact ⟨commit, hcommit⟩

omit [TimeCrate] [StrDebug] [NQuadsParser] in
theorem useObject_eq_ok {id : ContentId} {bytes : Option Bytes} {b : Bytes}
    (h : useObject id bytes = .ok b) : bytes = some b := by
  cases bytes with
  | none => simp [useObject, verified] at h
  | some b' =>
      by_cases hb : Sha256.forBytes b' = id
      · simpa [useObject, verified, hb] using h
      · simp [useObject, verified, hb] at h

omit [NQuadsParser] in
theorem useCommit_grow (hext : rows.Extends rows') {c : CommitId} {commit : AnyCommit}
    (h : useCommit c (rows.objects c.text) = .ok commit) :
    useCommit c (rows'.objects c.text) = .ok commit := by
  obtain ⟨b, hb, -⟩ := bind_eq_ok.mp h
  have hsome := useObject_eq_ok hb
  rw [hext.objects c.text b hsome]
  rwa [hsome] at h

omit [TimeCrate] [StrDebug] in
theorem usePatch_grow (hext : rows.Extends rows') {p : PatchId} {patch : Patch}
    (h : usePatch p (rows.objects p.text) = .ok patch) :
    usePatch p (rows'.objects p.text) = .ok patch := by
  obtain ⟨b, hb, -⟩ := bind_eq_ok.mp h
  have hsome := useObject_eq_ok hb
  rw [show rows'.objects p.text = some b from hext.objects p.text b hsome]
  rwa [show rows.objects p.text = some b from hsome] at h

theorem Indexes.grow {c : CommitId} {row : IndexRow} {commit : AnyCommit}
    (h : rows.Indexes c row commit) (hext : rows.Extends rows')
    (hparents : ∀ i, rows'.commitParents c.text i = rows.commitParents c.text i) :
    rows'.Indexes c row commit where
  decodes := useCommit_grow hext h.decodes
  count := h.count
  two := h.two
  parents i := (hparents i).trans (h.parents i)
  indexed p hp := (h.indexed p hp).grow hext
  patch := h.patch.imp fun _ hp => usePatch_grow hext hp

theorem Sound.parentsOf_grow (h : rows.Sound) (hext : rows.Extends rows') {c : CommitId}
    (hc : (rows.commitIndex c.text).isSome) : rows'.parentsOf c = rows.parentsOf c := by
  obtain ⟨row, hrow⟩ := Option.isSome_iff_exists.mp hc
  obtain ⟨commit, hcommit⟩ := h.indexes hrow
  rw [parentsOf_eq hcommit.decodes, parentsOf_eq (useCommit_grow hext hcommit.decodes)]

theorem Sound.parent_inGraph (h : rows.Sound) {g : String} {c p : CommitId}
    (hc : rows.InGraph g c) (hp : rows.Parent c p) : rows.InGraph g p := by
  obtain ⟨row, hrow, rfl⟩ := hc
  obtain ⟨commit, hcommit⟩ := h.indexes hrow
  exact hcommit.indexed p (parentsOf_eq hcommit.decodes ▸ hp.2)

theorem Sound.ancestors_inGraph (h : rows.Sound) {g : String} {c a : CommitId}
    (hc : rows.InGraph g c) (ha : a ∈ ancestors rows.Parent c) : rows.InGraph g a :=
  ancestors_subset_of_closed (S := {x | rows.InGraph g x}) hc
    (fun _ hx _ hp => h.parent_inGraph hx hp) ha

theorem Sound.acyclic (h : rows.Sound) : Acyclic rows.Parent := by
  obtain ⟨rank, hrank⟩ := h.rank
  exact acyclic_of_rank rank hrank

theorem Sound.parent_iff_grow (h : rows.Sound) (hext : rows.Extends rows') {c p : CommitId}
    (hc : (rows.commitIndex c.text).isSome) : rows'.Parent c p ↔ rows.Parent c p := by
  have hc' : (rows'.commitIndex c.text).isSome := hext.has (k := .index c.text) hc
  simp only [Parent, hc, hc', true_and, h.parentsOf_grow hext hc]

theorem Sound.ancestors_subset_grow (h : rows.Sound) (hext : rows.Extends rows') (c : CommitId) :
    ancestors rows.Parent c ⊆ ancestors rows'.Parent c :=
  ancestors_mono (fun _ _ hp => (h.parent_iff_grow hext hp.1).mpr hp) c

theorem Sound.ancestors_grow (h : rows.Sound) (hext : rows.Extends rows') {g : String}
    {c : CommitId} (hc : rows.InGraph g c) :
    ancestors rows'.Parent c = ancestors rows.Parent c :=
  ancestors_congr fun _ hx _ => h.parent_iff_grow hext (h.ancestors_inGraph hc hx).isSome

/-! ## Publication -/

theorem Sound.insert_object (h : rows.Sound) (id : String) (bytes : Bytes) :
    (rows.insert (.object id bytes)).Sound := by
  have hext := extends_insert rows (.object id bytes)
  refine ⟨fun x row hrow => ?_, h.parents, ?_⟩
  · obtain ⟨c, commit, hc, hcommit⟩ := h.index x row hrow
    exact ⟨c, commit, hc, hcommit.grow hext fun _ => rfl⟩
  · obtain ⟨rank, hrank⟩ := h.rank
    exact ⟨rank, fun c p hp => hrank c p ((h.parent_iff_grow hext hp.1).mp hp)⟩

def publication (id : CommitId) (bytes : Bytes) (row : IndexRow) (parents : List CommitId) :
    List ImmutableRow :=
  .object id.text bytes :: .index id.text row :: parentRows id.text parents 0

omit [Sha256] [NQuadsParser] [TimeCrate] [StrDebug] in
theorem key_parentRows {id : String} {parents : List CommitId} {n : ℕ} {r : ImmutableRow}
    (h : r ∈ parentRows id parents n) : ∃ i, r.key = .parent id i := by
  obtain ⟨⟨p, i⟩, -, rfl⟩ := List.mem_map.mp h
  exact ⟨i, rfl⟩

omit [Sha256] [NQuadsParser] [TimeCrate] [StrDebug] in
theorem commitIndex_publication (rows : ImmutableRows) (id : CommitId) (bytes : Bytes)
    (row : IndexRow) (parents : List CommitId) (x : String) :
    (rows.insertAll (publication id bytes row parents)).commitIndex x =
      if x = id.text then (rows.commitIndex x).or (some row) else rows.commitIndex x := by
  have hsame := sameAt_insertAll ((rows.insert (.object id.text bytes)).insert (.index id.text row))
    (parentRows id.text parents 0) (.index x) (Or.inl fun r hr => by
      obtain ⟨i, hi⟩ := key_parentRows hr
      simp [hi])
  refine Eq.trans hsame ?_
  by_cases hx : x = id.text
  · subst hx; simp [insert]
  · simp [insert, hx]

omit [Sha256] [NQuadsParser] [TimeCrate] [StrDebug] in
theorem commitParents_publication_ne (rows : ImmutableRows) (id : CommitId) (bytes : Bytes)
    (row : IndexRow) (parents : List CommitId) {x : String} (hx : x ≠ id.text) (i : ℕ) :
    (rows.insertAll (publication id bytes row parents)).commitParents x i =
      rows.commitParents x i := by
  refine sameAt_insertAll rows (publication id bytes row parents) (.parent x i) (Or.inl ?_)
  intro r hr
  rcases List.mem_cons.mp hr with rfl | hr
  · simp [ImmutableRow.key]
  rcases List.mem_cons.mp hr with rfl | hr
  · simp [ImmutableRow.key]
  obtain ⟨j, hj⟩ := key_parentRows hr
  simp [hj, hx.symm]

omit [Sha256] [NQuadsParser] [TimeCrate] [StrDebug] in
theorem commitParents_publication (rows : ImmutableRows) (id : CommitId) (bytes : Bytes)
    (row : IndexRow) (parents : List CommitId) (h : ∀ i, rows.commitParents id.text i = none)
    (i : ℕ) : (rows.insertAll (publication id bytes row parents)).commitParents id.text i =
      (parents[i]?).map CommitId.text :=
  commitParents_parentRows ((rows.insert (.object id.text bytes)).insert (.index id.text row))
    id.text parents 0 i (fun j _ => h j) (Nat.zero_le i)

omit [Sha256] [NQuadsParser] [TimeCrate] [StrDebug] in
/-- An insertion of rows that are all there changes nothing. -/
theorem insertAll_eq_self {l : List ImmutableRow} (h : ∀ r ∈ l, rows.has r.key = true) :
    rows.insertAll l = rows := by
  have hsame : ∀ k, rows.SameAt (rows.insertAll l) k := by
    intro k
    by_cases hk : rows.has k = true
    · exact sameAt_insertAll rows l k (Or.inr hk)
    · exact sameAt_insertAll rows l k (Or.inl fun r hr hrk => hk (hrk ▸ h r hr))
  have ho : (rows.insertAll l).objects = rows.objects := funext fun x => hsame (.object x)
  have hi : (rows.insertAll l).commitIndex = rows.commitIndex := funext fun x => hsame (.index x)
  have hp : (rows.insertAll l).commitParents = rows.commitParents :=
    funext fun x => funext fun i => hsame (.parent x i)
  calc rows.insertAll l = ⟨(rows.insertAll l).objects, (rows.insertAll l).commitIndex,
        (rows.insertAll l).commitParents⟩ := rfl
    _ = rows := by rw [ho, hi, hp]

structure Publishable (rows : ImmutableRows) (c : CommitV2) (id : CommitId) : Prop where
  valid : c.Valid
  isId : c.id = .ok id
  parents : ∀ p ∈ c.parents, rows.InGraph c.graphId.asStr p
  patch : ∃ patch, usePatch c.patch (rows.objects c.patch.text) = .ok patch

def publicationOf (c : CommitV2) (id : CommitId) : List ImmutableRow :=
  publication id (commitV2Header ++ c.bodyBytes)
    ⟨c.graphId.asStr, 2, c.patch.text, c.parents.length⟩ c.parents

theorem Sound.insertAll_publicationOf_eq (h : rows.Sound) {c : CommitV2} {id : CommitId}
    (hc : rows.Publishable c id) (hobject : (rows.insertAll (publicationOf c id)).objects id.text =
      some (commitV2Header ++ c.bodyBytes)) (hindexed : (rows.commitIndex id.text).isSome) :
    rows.insertAll (publicationOf c id) = rows ∧
      useCommit id (rows.objects id.text) = .ok (.v2 c.normalized) := by
  obtain ⟨row, hrow⟩ := Option.isSome_iff_exists.mp hindexed
  obtain ⟨commit, hcommit⟩ := h.indexes hrow
  obtain ⟨b, hb, -⟩ := bind_eq_ok.mp hcommit.decodes
  have hsome : rows.objects id.text = some b := useObject_eq_ok hb
  have hbytes : some b = some (commitV2Header ++ c.bodyBytes) :=
    ((extends_insertAll rows _).objects _ b hsome).symm.trans hobject
  have hdecodes : useCommit id (rows.objects id.text) = .ok (.v2 c.normalized) := by
    rw [hsome, hbytes]
    exact useCommit_v2 hc.valid hc.isId
  refine ⟨insertAll_eq_self fun r hr => ?_, hdecodes⟩
  obtain rfl : commit = .v2 c.normalized := Except.ok.inj (hcommit.decodes.symm.trans hdecodes)
  rcases List.mem_cons.mp hr with rfl | hr
  · simp [ImmutableRow.key, has, hsome]
  rcases List.mem_cons.mp hr with rfl | hr
  · simpa [ImmutableRow.key, has] using hindexed
  obtain ⟨⟨p, i⟩, hpi, rfl⟩ := List.mem_map.mp hr
  have hpi' : c.parents[i]? = some p := by simpa using List.mem_zipIdx_iff_getElem?.mp hpi
  have hp := hcommit.parents i
  rw [show (AnyCommit.v2 c.normalized).parents[i]? = some p from hpi'] at hp
  simp [ImmutableRow.key, has, hp]

theorem Publishable.decodes {c : CommitV2} {id : CommitId} (hc : rows.Publishable c id)
    (hobject : rows'.objects id.text = some (commitV2Header ++ c.bodyBytes)) :
    useCommit id (rows'.objects id.text) = .ok (.v2 c.normalized) := by
  rw [hobject]
  exact useCommit_v2 hc.valid hc.isId

theorem Sound.publish (h : rows.Sound) {c : CommitV2} {id : CommitId}
    (hc : rows.Publishable c id) (hobject : (rows.insertAll (publicationOf c id)).objects id.text =
      some (commitV2Header ++ c.bodyBytes)) : (rows.insertAll (publicationOf c id)).Sound := by
  cases hindexed : rows.commitIndex id.text with
  | some row =>
      rw [(h.insertAll_publicationOf_eq hc hobject (by simp [hindexed])).1]
      exact h
  | none =>
      have hext := extends_insertAll rows (publicationOf c id)
      have hparents : ∀ i, rows.commitParents id.text i = none := by
        intro i
        cases hp : rows.commitParents id.text i with
        | none => rfl
        | some p => exact absurd (h.parents _ _ _ hp) (by simp [hindexed])
      have hother : ∀ x, (rows.commitIndex x).isSome → x ≠ id.text := by
        rintro x hx rfl
        simp [hindexed] at hx
      have hindexes : (rows.insertAll (publicationOf c id)).Indexes id
          ⟨c.graphId.asStr, 2, c.patch.text, c.parents.length⟩ (.v2 c.normalized) := by
        refine ⟨hc.decodes hobject, rfl, hc.valid.parents_le, fun i => ?_, fun p hp => ?_, ?_⟩
        · exact commitParents_publication rows id _ _ c.parents hparents i
        · exact (hc.parents p hp).grow hext
        · exact hc.patch.imp fun _ hp => usePatch_grow hext hp
      refine ⟨fun x row hrow => ?_, fun x i p hp => ?_, ?_⟩
      · unfold publicationOf at hrow
        rw [commitIndex_publication] at hrow
        by_cases hx : x = id.text
        · subst hx
          rw [if_pos rfl, hindexed, Option.none_or] at hrow
          obtain rfl := Option.some.inj hrow
          exact ⟨id, _, rfl, hindexes⟩
        · rw [if_neg hx] at hrow
          obtain ⟨c', commit, hc', hcommit⟩ := h.index x row hrow
          refine ⟨c', commit, hc', hcommit.grow hext fun i => ?_⟩
          exact commitParents_publication_ne rows id _ _ c.parents (by rwa [hc']) i
      · unfold publicationOf at hp ⊢
        rw [commitIndex_publication]
        by_cases hx : x = id.text
        · simp [hx, hindexed]
        · rw [commitParents_publication_ne rows id _ _ c.parents hx] at hp
          rw [if_neg hx]
          exact h.parents x i p hp
      · -- the new commit ranks above its parents, and nothing has it as a parent
        refine exists_rank_extend (c := id) h.rank c.parents fun x p hp => ?_
        have hpindexed : (rows.commitIndex p.text).isSome ∧ (x = id → p ∈ c.parents) ∧
            (x ≠ id → rows.Parent x p) := by
          by_cases hx : x = id
          · have hmem : p ∈ c.parents := by
              have := hp.2
              rwa [hx, parentsOf_eq hindexes.decodes] at this
            exact ⟨(hc.parents p hmem).isSome, fun _ => hmem, fun hne => absurd hx hne⟩
          · have hx' : (rows.commitIndex x.text).isSome := by
              have := hp.1
              unfold publicationOf at this
              rwa [commitIndex_publication,
                if_neg fun h => hx (CommitId.text_injective h)] at this
            have hparent := (h.parent_iff_grow hext hx').mp hp
            obtain ⟨row, hrow⟩ := Option.isSome_iff_exists.mp hx'
            exact ⟨(h.parent_inGraph ⟨row, hrow, rfl⟩ hparent).isSome, fun he => absurd he hx,
              fun _ => hparent⟩
        exact ⟨fun he => hother _ hpindexed.1 (by rw [he]), hpindexed.2⟩

end ImmutableRows

end CognitiveLedger
