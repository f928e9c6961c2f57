import CognitiveLedger.Core.Commit

/-!
# The decoder accepts what the encoder writes, and nothing else

Every reader of the envelope format consumes exactly the bytes that the writer of
the same field produces for the value it yields. So a byte string that the strict
decoder accepts is the encoding of the commit it was read as, and, with the round
trip of the encoder, acceptance and being an encoding are the same.
-/

namespace CognitiveLedger

open Ascending ExceptRules Reading

/-! ## Words, texts and fields -/

theorem toBeBytes_fromBeBytes (a b c d : UInt8) : toBeBytes (fromBeBytes a b c d) = [a, b, c, d] := by
  have ha := a.toNat_lt
  have hb := b.toNat_lt
  have hc := c.toNat_lt
  have hd := d.toNat_lt
  have hbyte : ∀ (n : ℕ) (x : UInt8), n % 256 = x.toNat → UInt8.ofNat n = x := by
    intro n x hn
    apply UInt8.toNat_inj.mp
    rw [UInt8.toNat_ofNat']
    exact hn
  simp only [toBeBytes, fromBeBytes]
  rw [hbyte _ a (by omega), hbyte _ b (by omega), hbyte _ c (by omega), hbyte _ d (by omega)]

theorem fromBeBytes_lt (a b c d : UInt8) : fromBeBytes a b c d < 2 ^ 32 := by
  have ha := a.toNat_lt
  have hb := b.toNat_lt
  have hc := c.toNat_lt
  have hd := d.toNat_lt
  simp only [fromBeBytes]
  omega

theorem asBytes_of_fromUtf8 {bytes : Bytes} {s : String} (h : fromUtf8 bytes = some s) :
    asBytes s = bytes := by
  unfold fromUtf8 String.fromUTF8? at h
  split_ifs at h with hvalid
  obtain rfl := Option.some.inj h
  simp [asBytes, String.fromUTF8]

theorem readU8_consumes (field : String) : Consumes (readU8 field) fun b => [b] := by
  intro l b l' h
  cases l with
  | nil => cases h
  | cons first tail =>
      cases h
      rfl

theorem readU32_consumes (field : String) : Consumes (readU32 field) toBeBytes := by
  intro l n l' h
  match l, h with
  | a :: b :: c :: d :: tail, h =>
      cases h
      rw [toBeBytes_fromBeBytes]
      rfl

theorem readField_run {l l' : Bytes} {s : String} (h : readField.run l = .ok (s, l')) :
    l = fieldBytes s ++ l' ∧ s.utf8ByteSize < 2 ^ 32 := by
  match l, h with
  | a :: b :: c :: d :: tail, h =>
      have h : readField (a :: b :: c :: d :: tail) = .ok (s, l') := h
      simp only [readField] at h
      split_ifs at h with hlen
      cases hutf : fromUtf8 (tail.take (fromBeBytes a b c d)) with
      | none =>
          rw [hutf] at h
          cases h
      | some value =>
          rw [hutf] at h
          cases h
          have hbytes := asBytes_of_fromUtf8 hutf
          have hsize : s.utf8ByteSize = fromBeBytes a b c d := by
            rw [← length_asBytes, hbytes, List.length_take]
            exact min_eq_left (not_lt.mp hlen)
          refine ⟨?_, hsize ▸ fromBeBytes_lt a b c d⟩
          rw [fieldBytes, hsize, toBeBytes_fromBeBytes, hbytes, List.append_assoc,
            List.take_append_drop]
          rfl

theorem readField_consumes : Consumes readField fieldBytes := fun _ _ _ h => (readField_run h).1

theorem readOptional_consumes (field : String) : Consumes (readOptional field) optionalBytes := by
  intro l value l' h
  obtain ⟨tag, mid, htag, h⟩ := run_bind_eq_ok.mp h
  rw [readU8_consumes field _ _ _ htag]
  split_ifs at h with hzero hone
  · obtain ⟨rfl, rfl⟩ := run_pure_eq_ok.mp h
    rw [hzero]
    rfl
  · obtain ⟨s, mid', hs, h⟩ := run_bind_eq_ok.mp h
    obtain ⟨_, -, h⟩ := run_lift_bind_eq_ok.mp h
    obtain ⟨rfl, rfl⟩ := run_pure_eq_ok.mp h
    rw [readField_consumes _ _ _ hs, hone]
    rfl
  · cases h

/-! ## Values read from texts -/

theorem PrincipalType.wireByte_of_fromWireByte {b : UInt8} {t : PrincipalType}
    (h : PrincipalType.fromWireByte b = .ok t) : t.wireByte = b := by
  unfold PrincipalType.fromWireByte at h
  split_ifs at h with h0 h1 h2
  · cases h
    exact h0.symm
  · cases h
    exact h1.symm
  · cases h
    exact h2.symm

theorem readParents_run {n : ℕ} {l l' : Bytes} {parents : List CommitId}
    (h : (readParents n).run l = .ok (parents, l')) : parents.length = n ∧
      l = (parents.map fun p => fieldBytes p.text).flatten ++ l' := by
  refine Consumes.many (fun l id l' h => ?_) h
  obtain ⟨s, mid, hs, h⟩ := run_bind_eq_ok.mp h
  obtain ⟨hid, rfl⟩ := run_lift_eq_ok.mp h
  rw [CommitId.text_of_fromStr hid]
  exact readField_consumes _ _ _ hs

/-! ## The bootstrap envelope -/

theorem stripFront_eq_some {α : Type} [DecidableEq α] {front l rest : List α}
    (h : stripFront front l = some rest) : l = front ++ rest := by
  induction front generalizing l with
  | nil => exact Option.some.inj h
  | cons a front ih =>
      cases l with
      | nil => cases h
      | cons b l =>
          simp only [stripFront] at h
          split_ifs at h with hab
          rw [ih h, hab]
          rfl

theorem encodeField_eq_ok_iff {s : String} {bytes : Bytes} :
    encodeField s = .ok bytes ↔ s.utf8ByteSize < 2 ^ 32 ∧ fieldBytes s = bytes := by
  simp [encodeField, bind_unit_eq_ok, ensure_eq_ok]

theorem mapM_encodeField_eq_ok {l : List String} {fields : List Bytes} :
    l.mapM encodeField = .ok fields ↔
      (∀ s ∈ l, s.utf8ByteSize < 2 ^ 32) ∧ l.map fieldBytes = fields := by
  induction l generalizing fields with
  | nil => simp
  | cons s l ih =>
      simp only [List.mapM_cons, bind_eq_ok, encodeField_eq_ok_iff, ih, pure_eq_ok, Except.ok.injEq,
        List.forall_mem_cons, List.map_cons]
      constructor
      · rintro ⟨_, ⟨hs, rfl⟩, _, ⟨hl, rfl⟩, rfl⟩
        exact ⟨⟨hs, hl⟩, rfl⟩
      · rintro ⟨⟨hs, hl⟩, rfl⟩
        exact ⟨_, ⟨hs, rfl⟩, _, ⟨hl, rfl⟩, rfl⟩

namespace CommitV1

/-- The texts of the envelope after its parents, in order. -/
def fields (c : CommitV1) : List String :=
  [c.patch.text, c.author, c.message, c.eventTime, c.recordedTime]

/-- What `validate_shape` and the length words require. -/
structure Valid (c : CommitV1) : Prop where
  parents_le : c.parents.length ≤ 2
  parents_distinct : parentsDistinct c.parents
  fields_lt : ∀ s ∈ c.fields, s.utf8ByteSize < 2 ^ 32

def bodyBytes (c : CommitV1) : Bytes :=
  toBeBytes c.parents.length ++ ((c.parents.map fun p => fieldBytes p.text).flatten ++
    (c.fields.map fieldBytes).flatten)

theorem canonicalBytes_eq_ok_iff {c : CommitV1} {bytes : Bytes} :
    c.canonicalBytes = .ok bytes ↔ c.Valid ∧ commitV1Header ++ c.bodyBytes = bytes := by
  have hparents : c.parents.mapM (fun p => encodeField p.text) =
      .ok (c.parents.map fun p => fieldBytes p.text) :=
    mapM_eq_ok fun p _ => encodeField_eq_ok (CommitV2.text_lt p.content)
  constructor
  · intro h
    obtain ⟨_, hshape, h⟩ := bind_eq_ok.mp h
    obtain ⟨hle, hdistinct⟩ := bind_unit_eq_ok.mp hshape
    rw [hparents, ok_bind] at h
    obtain ⟨_, hfields, h⟩ := bind_eq_ok.mp h
    obtain ⟨hlt, rfl⟩ := mapM_encodeField_eq_ok.mp hfields
    refine ⟨⟨ensure_eq_ok.mp hle, ensure_eq_ok.mp hdistinct, hlt⟩, ?_⟩
    simpa [bodyBytes, fields] using h
  · rintro ⟨⟨hle, hdistinct, hlt⟩, rfl⟩
    have hfields := mapM_encodeField_eq_ok.mpr ⟨hlt, rfl⟩
    rw [fields] at hfields
    simp [canonicalBytes, validateShape, hle, hdistinct, hparents, hfields, bodyBytes, fields]

theorem read_reads {c : CommitV1} (h : c.Valid) : read.run c.bodyBytes = .ok (c, []) := by
  have hparents : c.parents.length < 2 ^ 32 := lt_of_le_of_lt h.parents_le (by decide)
  have hfield : ∀ s ∈ c.fields, Reads readField (fieldBytes s) s := fun s hs =>
    readField_reads (h.fields_lt s hs)
  have hbody : c.bodyBytes = toBeBytes c.parents.length ++
      ((c.parents.map fun p => fieldBytes p.text).flatten ++ (fieldBytes c.patch.text ++
      (fieldBytes c.author ++ (fieldBytes c.message ++ (fieldBytes c.eventTime ++
      (fieldBytes c.recordedTime ++ [])))))) := by
    simp [bodyBytes, fields]
  rw [hbody]
  refine run_bind_eq_ok.mpr ⟨_, _, readU32_reads _ hparents _, ?_⟩
  refine run_lift_bind_eq_ok.mpr ⟨(), ensure_pos h.parents_le, ?_⟩
  refine run_bind_eq_ok.mpr ⟨_, _, CommitV2.readParents_reads c.parents _, ?_⟩
  refine run_lift_bind_eq_ok.mpr ⟨(), ensure_pos h.parents_distinct, ?_⟩
  refine run_bind_eq_ok.mpr ⟨_, _, hfield c.patch.text (by simp [fields]) _, ?_⟩
  refine run_bind_eq_ok.mpr ⟨_, _, hfield c.author (by simp [fields]) _, ?_⟩
  refine run_bind_eq_ok.mpr ⟨_, _, hfield c.message (by simp [fields]) _, ?_⟩
  refine run_bind_eq_ok.mpr ⟨_, _, hfield c.eventTime (by simp [fields]) _, ?_⟩
  refine run_bind_eq_ok.mpr ⟨_, _, hfield c.recordedTime (by simp [fields]) _, ?_⟩
  refine run_bind_eq_ok.mpr ⟨_, _, rfl, ?_⟩
  refine run_lift_bind_eq_ok.mpr ⟨(), ensure_pos rfl, ?_⟩
  exact run_lift_bind_eq_ok.mpr ⟨c.patch, c.patch.fromStr_text, rfl⟩

theorem read_run {l l' : Bytes} {c : CommitV1} (h : read.run l = .ok (c, l')) :
    c.Valid ∧ l = c.bodyBytes := by
  obtain ⟨count, l₁, hcount, h⟩ := run_bind_eq_ok.mp h
  obtain ⟨_, hle, h⟩ := run_lift_bind_eq_ok.mp h
  obtain ⟨parents, l₃, hparents, h⟩ := run_bind_eq_ok.mp h
  obtain ⟨_, hdistinct, h⟩ := run_lift_bind_eq_ok.mp h
  obtain ⟨patchText, l₅, hpatchText, h⟩ := run_bind_eq_ok.mp h
  obtain ⟨author, l₆, hauthor, h⟩ := run_bind_eq_ok.mp h
  obtain ⟨message, l₇, hmessage, h⟩ := run_bind_eq_ok.mp h
  obtain ⟨eventTime, l₈, heventTime, h⟩ := run_bind_eq_ok.mp h
  obtain ⟨recordedTime, l₉, hrecordedTime, h⟩ := run_bind_eq_ok.mp h
  obtain ⟨rest, l₁₀, hrest, h⟩ := run_bind_eq_ok.mp h
  cases hrest
  obtain ⟨_, hend, h⟩ := run_lift_bind_eq_ok.mp h
  obtain ⟨patch, hpatch, h⟩ := run_lift_bind_eq_ok.mp h
  obtain ⟨rfl, rfl⟩ := run_pure_eq_ok.mp h
  obtain rfl := ensure_eq_ok.mp hend
  obtain rfl := PatchId.text_of_fromStr hpatch
  obtain ⟨rfl, hl₁⟩ := readParents_run hparents
  obtain ⟨hl₃, hpatchLt⟩ := readField_run hpatchText
  obtain ⟨hl₅, hauthorLt⟩ := readField_run hauthor
  obtain ⟨hl₆, hmessageLt⟩ := readField_run hmessage
  obtain ⟨hl₇, heventTimeLt⟩ := readField_run heventTime
  obtain ⟨hl₈, hrecordedTimeLt⟩ := readField_run hrecordedTime
  refine ⟨⟨ensure_eq_ok.mp hle, ensure_eq_ok.mp hdistinct, ?_⟩, ?_⟩
  · simp only [fields, List.forall_mem_cons]
    exact ⟨hpatchLt, hauthorLt, hmessageLt, heventTimeLt, hrecordedTimeLt, by simp⟩
  · rw [readU32_consumes _ _ _ _ hcount, hl₁, hl₃, hl₅, hl₆, hl₇, hl₈]
    simp [bodyBytes, fields]

theorem fromCanonicalBytes_eq_ok_iff {bytes : Bytes} {c : CommitV1} :
    fromCanonicalBytes bytes = .ok c ↔ c.canonicalBytes = .ok bytes := by
  rw [canonicalBytes_eq_ok_iff]
  constructor
  · intro h
    unfold fromCanonicalBytes at h
    cases hstrip : stripFront commitV1Header bytes with
    | none =>
        rw [hstrip] at h
        cases h
    | some rest =>
        rw [hstrip] at h
        obtain ⟨⟨_, l'⟩, hread, rfl⟩ := map_eq_ok.mp h
        obtain ⟨hvalid, hbody⟩ := read_run hread
        exact ⟨hvalid, by rw [stripFront_eq_some hstrip, hbody]⟩
  · rintro ⟨hvalid, rfl⟩
    simp only [fromCanonicalBytes, stripFront_append]
    exact map_eq_ok.mpr ⟨_, read_reads hvalid, rfl⟩

end CommitV1

/-! ## The provenance envelope -/

namespace CommitV2

theorem readEvidence_run {n : ℕ} {previous : Option String} {l l' : Bytes} {refs : List String}
    (h : (readEvidence previous n).run l = .ok (refs, l')) : refs.length = n ∧
      l = (refs.map fieldBytes).flatten ++ l' ∧ refs.Pairwise (· < ·) ∧
      ∀ p ∈ previous, ∀ e ∈ refs, p < e := by
  induction n generalizing previous l refs with
  | zero =>
      obtain ⟨rfl, rfl⟩ := run_pure_eq_ok.mp h
      exact ⟨rfl, rfl, .nil, by simp⟩
  | succ n ih =>
      obtain ⟨reference, l₁, hreference, h⟩ := run_bind_eq_ok.mp h
      obtain ⟨_, hafter, h⟩ := run_lift_bind_eq_ok.mp h
      obtain ⟨rest, l₂, hrest, h⟩ := run_bind_eq_ok.mp h
      obtain ⟨rfl, rfl⟩ := run_pure_eq_ok.mp h
      obtain ⟨rfl, hl, hsorted, habove⟩ := ih hrest
      have hafter := ensure_eq_ok.mp hafter
      have habove := habove reference rfl
      refine ⟨rfl, ?_, List.pairwise_cons.mpr ⟨habove, hsorted⟩, fun p hp => ?_⟩
      · rw [readField_consumes _ _ _ hreference, hl, List.map_cons, List.flatten_cons,
          List.append_assoc]
      · exact List.forall_mem_cons.mpr ⟨hafter p hp, fun e he => (hafter p hp).trans (habove e he)⟩

theorem asStr_of_principalOf {raw : Option String} {p : Option PrincipalId}
    (h : principalOf raw = .ok p) : p.map (·.asStr) = raw := by
  cases raw with
  | none =>
      cases h
      rfl
  | some s =>
      obtain ⟨t, ht, rfl⟩ := map_eq_ok.mp h
      rw [Option.map_some, ValidatedToken.asStr_of_new ht]

section Decoder

variable [TimeCrate] [StrDebug]

theorem canonical_of_parseCanonical {s : String} {t : LedgerTimestamp}
    (h : LedgerTimestamp.parseCanonical s = .ok t) : t.canonical = s := by
  obtain ⟨parsed, -, h⟩ := bind_eq_ok.mp h
  by_cases hform : parsed.canonical = s
  · simp only [hform, ne_eq, not_true_eq_false, if_false] at h
    cases h
    exact hform
  · simp only [ne_eq, hform, not_false_eq_true, if_true] at h
    cases h

theorem canonical_of_timestampOf {raw : Option String} {t : Option LedgerTimestamp}
    (h : timestampOf raw = .ok t) : t.map (·.canonical) = raw := by
  cases raw with
  | none =>
      cases h
      rfl
  | some s =>
      obtain ⟨t, ht, rfl⟩ := map_eq_ok.mp h
      rw [Option.map_some, canonical_of_parseCanonical ht]

theorem read_run {l l' : Bytes} {c : CommitV2} (h : read.run l = .ok (c, l')) :
    c.evidenceRefs.Pairwise (· < ·) ∧ l = c.bodyBytes ++ l' := by
  obtain ⟨graphText, l₁, hgraphText, h⟩ := run_bind_eq_ok.mp h
  obtain ⟨graphId, hgraphId, h⟩ := run_lift_bind_eq_ok.mp h
  obtain ⟨count, l₂, hcount, h⟩ := run_bind_eq_ok.mp h
  obtain ⟨_, -, h⟩ := run_lift_bind_eq_ok.mp h
  obtain ⟨parents, l₃, hparents, h⟩ := run_bind_eq_ok.mp h
  obtain ⟨patchText, l₄, hpatchText, h⟩ := run_bind_eq_ok.mp h
  obtain ⟨patch, hpatch, h⟩ := run_lift_bind_eq_ok.mp h
  obtain ⟨principalText, l₅, hprincipalText, h⟩ := run_bind_eq_ok.mp h
  obtain ⟨principalId, hprincipalId, h⟩ := run_lift_bind_eq_ok.mp h
  obtain ⟨typeByte, l₆, htypeByte, h⟩ := run_bind_eq_ok.mp h
  obtain ⟨principalType, hprincipalType, h⟩ := run_lift_bind_eq_ok.mp h
  obtain ⟨behalfText, l₇, hbehalfText, h⟩ := run_bind_eq_ok.mp h
  obtain ⟨onBehalfOf, honBehalfOf, h⟩ := run_lift_bind_eq_ok.mp h
  obtain ⟨activity, l₈, hactivity, h⟩ := run_bind_eq_ok.mp h
  obtain ⟨eventText, l₉, heventText, h⟩ := run_bind_eq_ok.mp h
  obtain ⟨eventTime, heventTime, h⟩ := run_lift_bind_eq_ok.mp h
  obtain ⟨recordedText, l₁₀, hrecordedText, h⟩ := run_bind_eq_ok.mp h
  obtain ⟨recordedAt, hrecordedAt, h⟩ := run_lift_bind_eq_ok.mp h
  obtain ⟨evidenceCount, l₁₁, hevidenceCount, h⟩ := run_bind_eq_ok.mp h
  obtain ⟨_, -, h⟩ := run_lift_bind_eq_ok.mp h
  obtain ⟨evidenceRefs, l₁₂, hevidence, h⟩ := run_bind_eq_ok.mp h
  obtain ⟨sourceSystem, l₁₃, hsource, h⟩ := run_bind_eq_ok.mp h
  obtain ⟨message, l₁₄, hmessage, h⟩ := run_bind_eq_ok.mp h
  obtain ⟨rfl, rfl⟩ := run_pure_eq_ok.mp h
  obtain ⟨rfl, hl₂⟩ := readParents_run hparents
  obtain ⟨rfl, hl₁₁, hsorted, -⟩ := readEvidence_run hevidence
  obtain rfl := ValidatedToken.asStr_of_new hgraphId
  obtain rfl := PatchId.text_of_fromStr hpatch
  obtain rfl := ValidatedToken.asStr_of_new hprincipalId
  obtain rfl := PrincipalType.wireByte_of_fromWireByte hprincipalType
  obtain rfl := asStr_of_principalOf honBehalfOf
  obtain rfl := canonical_of_timestampOf heventTime
  obtain rfl := canonical_of_parseCanonical hrecordedAt
  refine ⟨hsorted, ?_⟩
  rw [readField_consumes _ _ _ hgraphText, readU32_consumes _ _ _ _ hcount, hl₂,
    readField_consumes _ _ _ hpatchText, readField_consumes _ _ _ hprincipalText,
    readU8_consumes _ _ _ _ htypeByte, readOptional_consumes _ _ _ _ hbehalfText,
    readField_consumes _ _ _ hactivity, readOptional_consumes _ _ _ _ heventText,
    readField_consumes _ _ _ hrecordedText, readU32_consumes _ _ _ _ hevidenceCount, hl₁₁,
    readOptional_consumes _ _ _ _ hsource, readField_consumes _ _ _ hmessage]
  simp only [bodyBytes, canonicalEvidenceRefs, ascending_toFinset hsorted, List.append_assoc]

omit [TimeCrate] [StrDebug] in
theorem canonicalBytes_eq_ok_iff {c : CommitV2} {bytes : Bytes} :
    c.canonicalBytes = .ok bytes ↔ c.Valid ∧ commitV2Header ++ c.bodyBytes = bytes := by
  constructor
  · intro h
    obtain ⟨_, hvalid, -⟩ := bind_eq_ok.mp h
    have hvalid := (validate_eq_ok_iff c).mp hvalid
    exact ⟨hvalid, Except.ok.inj ((canonicalBytes_eq_ok hvalid).symm.trans h)⟩
  · rintro ⟨hvalid, rfl⟩
    exact canonicalBytes_eq_ok hvalid

/-- What the decoder yields is valid, in canonical order, and encoded by the bytes. -/
theorem fromCanonicalBytes_eq_ok {bytes : Bytes} {c : CommitV2}
    (h : fromCanonicalBytes bytes = .ok c) :
    c.normalized = c ∧ c.canonicalBytes = .ok bytes := by
  unfold fromCanonicalBytes at h
  cases hstrip : stripFront commitV2Header bytes with
  | none =>
      rw [hstrip] at h
      cases h
  | some rest =>
      rw [hstrip] at h
      obtain ⟨⟨c', l'⟩, hread, h⟩ := bind_eq_ok.mp h
      obtain ⟨_, hend, h⟩ := bind_eq_ok.mp h
      obtain ⟨_, hvalid, h⟩ := bind_eq_ok.mp h
      cases h
      obtain rfl : l' = [] := ensure_eq_ok.mp hend
      obtain ⟨hsorted, hrest⟩ := read_run hread
      refine ⟨?_, canonicalBytes_eq_ok_iff.mpr ⟨(validate_eq_ok_iff c).mp hvalid, ?_⟩⟩
      · rw [normalized, canonicalEvidenceRefs, ascending_toFinset hsorted]
      · rw [stripFront_eq_some hstrip, hrest, List.append_nil]

end Decoder

end CommitV2

/-! ## Any envelope -/

namespace AnyCommit

/-- The commit with its evidence references sorted and deduplicated. -/
def normalized : AnyCommit → AnyCommit
  | .v1 c => .v1 c
  | .v2 c => .v2 c.normalized

@[simp] theorem parents_normalized (c : AnyCommit) : c.normalized.parents = c.parents := by
  cases c <;> rfl

@[simp] theorem patch_normalized (c : AnyCommit) : c.normalized.patch = c.patch := by
  cases c <;> rfl

@[simp] theorem version_normalized (c : AnyCommit) : c.normalized.version = c.version := by
  cases c <;> rfl

@[simp] theorem graphId_normalized (c : AnyCommit) : c.normalized.graphId = c.graphId := by
  cases c <;> rfl

theorem parents_le_two {c : AnyCommit} {bytes : Bytes} (h : c.canonicalBytes = .ok bytes) :
    c.parents.length ≤ 2 := by
  cases c with
  | v1 c => exact (CommitV1.canonicalBytes_eq_ok_iff.mp h).1.parents_le
  | v2 c => exact (CommitV2.canonicalBytes_eq_ok_iff.mp h).1.parents_le

variable [TimeCrate] [StrDebug]

theorem fromCanonicalBytes_of_canonicalBytes {c : AnyCommit} {bytes : Bytes}
    (h : c.canonicalBytes = .ok bytes) : fromCanonicalBytes bytes = .ok c.normalized := by
  cases c with
  | v1 c =>
      have hread := CommitV1.fromCanonicalBytes_eq_ok_iff.mpr h
      obtain ⟨-, rfl⟩ := CommitV1.canonicalBytes_eq_ok_iff.mp h
      rw [fromCanonicalBytes, if_pos (startsWith_append _ _), hread]
      rfl
  | v2 c =>
      obtain ⟨hvalid, rfl⟩ := CommitV2.canonicalBytes_eq_ok_iff.mp h
      exact fromCanonicalBytes_v2 hvalid

theorem canonicalBytes_of_fromCanonicalBytes {bytes : Bytes} {c : AnyCommit}
    (h : fromCanonicalBytes bytes = .ok c) : c.canonicalBytes = .ok bytes := by
  unfold fromCanonicalBytes at h
  split_ifs at h
  · obtain ⟨c, hc, rfl⟩ := map_eq_ok.mp h
    exact CommitV1.fromCanonicalBytes_eq_ok_iff.mp hc
  · obtain ⟨c, hc, rfl⟩ := map_eq_ok.mp h
    exact (CommitV2.fromCanonicalBytes_eq_ok hc).2

theorem canonicalBytes_normalized {commit : AnyCommit} {bytes : Bytes}
    (h : commit.canonicalBytes = .ok bytes) : commit.normalized.canonicalBytes = .ok bytes :=
  canonicalBytes_of_fromCanonicalBytes
    (fromCanonicalBytes_of_canonicalBytes h)

/-- Encoding and decoding are inverse up to the order of the evidence references: the decoder
accepts exactly the encoder's image, and no two byte strings decode to one commit. -/
theorem fromCanonicalBytes_inverts_canonicalBytes :
    (∀ (c : AnyCommit) (bytes : Bytes), c.canonicalBytes = .ok bytes →
      fromCanonicalBytes bytes = .ok c.normalized) ∧
    (∀ (bytes : Bytes) (c : AnyCommit), fromCanonicalBytes bytes = .ok c →
      c.canonicalBytes = .ok bytes) ∧
    (∀ bytes : Bytes, (∃ c, fromCanonicalBytes bytes = .ok c) ↔
      ∃ c : AnyCommit, c.canonicalBytes = .ok bytes) ∧
    ∀ (a b : Bytes) (c : AnyCommit), fromCanonicalBytes a = .ok c → fromCanonicalBytes b = .ok c →
      a = b := by
  refine ⟨fun c bytes => fromCanonicalBytes_of_canonicalBytes,
    fun bytes c => canonicalBytes_of_fromCanonicalBytes, fun bytes => ⟨?_, ?_⟩, ?_⟩
  · rintro ⟨c, hc⟩
    exact ⟨c, canonicalBytes_of_fromCanonicalBytes hc⟩
  · rintro ⟨c, hc⟩
    exact ⟨c.normalized, fromCanonicalBytes_of_canonicalBytes hc⟩
  · intro a b c ha hb
    exact Except.ok.inj ((canonicalBytes_of_fromCanonicalBytes ha).symm.trans
      (canonicalBytes_of_fromCanonicalBytes hb))

end AnyCommit

end CognitiveLedger
