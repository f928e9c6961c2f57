import CognitiveLedger.Store.CommitRows

/-!
# A published candidate

A candidate is published with the patches it names: first the patches as objects,
then the commit with its index and parent rows. Every one of these rows is either
there already or inserted under its own lock, so what was read back after the
insertions is what the commit of the transaction leaves.
-/

namespace CognitiveLedger

namespace ImmutableRows

variable {rows rows' : ImmutableRows}

theorem SameAt.insert {k : RowKey} (h : rows.SameAt rows' k) (r : ImmutableRow) :
    (rows.insert r).SameAt (rows'.insert r) k := by
  cases r with
  | object id bytes =>
      cases k with
      | object x => by_cases hx : x = id <;> simp_all [SameAt, ImmutableRows.insert]
      | index x => exact h
      | parent x i => exact h
  | index id row =>
      cases k with
      | object x => exact h
      | index x => by_cases hx : x = id <;> simp_all [SameAt, ImmutableRows.insert]
      | parent x i => exact h
  | parent id j p =>
      cases k with
      | object x => exact h
      | index x => exact h
      | parent x i =>
          by_cases hx : x = id ∧ i = j
          · obtain ⟨rfl, rfl⟩ := hx
            simp_all [SameAt, ImmutableRows.insert]
          · simp only [SameAt, ImmutableRows.insert, if_neg hx]
            exact h

/-- What an insertion leaves under a key depends on the row of that key alone. -/
theorem SameAt.insertAll {k : RowKey} (h : rows.SameAt rows' k) (l : List ImmutableRow) :
    (rows.insertAll l).SameAt (rows'.insertAll l) k := by
  induction l generalizing rows rows' with
  | nil => exact h
  | cons r l ih => exact ih (h.insert r)

theorem insertAll_append (rows : ImmutableRows) (l l' : List ImmutableRow) :
    rows.insertAll (l ++ l') = (rows.insertAll l).insertAll l' := List.foldl_append

theorem Extends.sameAt (h : rows.Extends rows') {k : RowKey} (hk : rows.has k = true) :
    rows.SameAt rows' k := by
  cases k with
  | object id =>
      obtain ⟨b, hb⟩ := Option.isSome_iff_exists.mp hk
      exact (h.objects id b hb).trans hb.symm
  | index id =>
      obtain ⟨r, hr⟩ := Option.isSome_iff_exists.mp hk
      exact (h.index id r hr).trans hr.symm
  | parent id i =>
      obtain ⟨p, hp⟩ := Option.isSome_iff_exists.mp hk
      exact (h.parents id i p hp).trans hp.symm

end ImmutableRows

open ImmutableRows

variable [NQuadsParser] [Sha256]

def Patch.row (p : Patch) : ImmutableRow := .object p.id.text p.canonicalBytes

def candidateRows (patches : List Patch) (c : CommitV2) (id : CommitId) : List ImmutableRow :=
  patches.map Patch.row ++ publicationOf c id

/-- `c` and the patches were published over `rows`. -/
structure Published (rows : ImmutableRows) (patches : List Patch) (c : CommitV2) (id : CommitId) :
    Prop where
  valid : c.Valid
  isId : c.id = .ok id
  parents : ∀ p ∈ c.parents, rows.InGraph c.graphId.asStr p
  patch : ∃ q ∈ patches, c.patch = q.id
  stored : ∀ q ∈ patches,
    (rows.insertAll (patches.map Patch.row)).objects q.id.text = some q.canonicalBytes
  object : (rows.insertAll (candidateRows patches c id)).objects id.text =
    some (commitV2Header ++ c.bodyBytes)
  inGraph : (rows.insertAll (candidateRows patches c id)).InGraph c.graphId.asStr id

namespace Published

variable {rows : ImmutableRows} {patches : List Patch} {c : CommitV2} {id : CommitId}

theorem commitIndex_objects (rows : ImmutableRows) (patches : List Patch) :
    (rows.insertAll (patches.map Patch.row)).commitIndex = rows.commitIndex := by
  induction patches generalizing rows with
  | nil => rfl
  | cons q patches ih => exact ih (rows.insert q.row)

variable [TimeCrate] [StrDebug]

theorem sound_objects (h : rows.Sound) (patches : List Patch) :
    (rows.insertAll (patches.map Patch.row)).Sound := by
  induction patches generalizing rows with
  | nil => exact h
  | cons q patches ih => exact ih (h.insert_object q.id.text q.canonicalBytes)

omit [TimeCrate] [StrDebug] in
theorem usePatch_of_mem (h : Published rows patches c id) : ∃ q ∈ patches, c.patch = q.id ∧
    usePatch c.patch ((rows.insertAll (patches.map Patch.row)).objects c.patch.text) = .ok q := by
  obtain ⟨q, hq, hpatch⟩ := h.patch
  exact ⟨q, hq, hpatch, by rw [hpatch, h.stored q hq, usePatch_canonicalBytes]⟩

theorem sound (h : Published rows patches c id) (hrows : rows.Sound) :
    (rows.insertAll (candidateRows patches c id)).Sound := by
  have hobject := h.object
  rw [candidateRows, insertAll_append] at hobject ⊢
  refine (sound_objects hrows patches).publish ⟨h.valid, h.isId, fun p hp => ?_, ?_⟩ hobject
  · obtain ⟨row, hrow, hg⟩ := h.parents p hp
    exact ⟨row, by rw [commitIndex_objects]; exact hrow, hg⟩
  · obtain ⟨q, -, -, hq⟩ := h.usePatch_of_mem
    exact ⟨q, hq⟩

theorem decodes (h : Published rows patches c id) :
    useCommit id ((rows.insertAll (candidateRows patches c id)).objects id.text) =
      .ok (.v2 c.normalized) := by
  rw [h.object]
  exact useCommit_v2 h.valid h.isId

theorem parentsOf (h : Published rows patches c id) :
    (rows.insertAll (candidateRows patches c id)).parentsOf id = c.parents :=
  parentsOf_eq h.decodes

end Published

end CognitiveLedger
