import CognitiveLedger.Core.CommitExact
import CognitiveLedger.Lib.SortedSet
import CognitiveLedger.Protocol.RequestedContext
import Mathlib.Data.List.Lex
import Mathlib.Data.Prod.Lex

/-!
# The strict cursor

The objects of the validation protocol are read by a cursor that takes integers,
fields, tagged texts and counted sets off the front of the bytes. A set must arrive
in strictly ascending order of its elements' own encodings. For each reader the lemma
says exactly which inputs it takes a value from and what it leaves.
-/

namespace CognitiveLedger

open ExceptRules Reading SortedSet

namespace ByteOrder

/-- Bytes by value; byte strings are then compared from the left. -/
scoped instance linearOrderByte : LinearOrder UInt8 where
  le_refl := UInt8.le_refl
  le_trans _ _ _ := UInt8.le_trans
  le_antisymm _ _ := UInt8.le_antisymm
  le_total := UInt8.le_total
  lt_iff_le_not_ge a b := by
    rw [UInt8.not_le]
    exact ⟨fun h => ⟨UInt8.le_of_lt h, h⟩, fun h => h.2⟩
  toDecidableLE := inferInstance

end ByteOrder

open scoped ByteOrder

namespace Protocol

/-- `encoding::u32be`. -/
def u32be (value : Nat) : Except ProtocolError Bytes :=
  if value < 2 ^ 32 then .ok (toBeBytes value) else .error (.invalid "count exceeds u32")

theorem u32be_of_lt {n : Nat} (h : n < 2 ^ 32) : u32be n = .ok (toBeBytes n) := if_pos h

/-- `encoding::canonical_set`. -/
def canonicalSet (elements : List Bytes) : List Bytes := sortDedup id elements

/-- The readers over the remaining bytes; `what` names the object in errors. -/
abbrev Cursor := Reader UInt8 ProtocolError

namespace Cursor

def invalid (what reason : String) : ProtocolError := .invalid (what ++ ": " ++ reason)

/-- `Cursor::new`: the bytes after the header. -/
def new (bytes header : Bytes) (what : String) : Except ProtocolError Bytes :=
  match stripFront header bytes with
  | none => .error (invalid what "unknown header")
  | some rest => .ok rest

/-- `Cursor::u8`. -/
def u8 (what name : String) : Cursor UInt8 := fun input =>
  match input with
  | [] => .error (invalid what ("truncated " ++ name))
  | first :: tail => .ok (first, tail)

/-- `Cursor::u32`. -/
def u32 (what name : String) : Cursor Nat := fun input =>
  match input with
  | a :: b :: c :: d :: tail => .ok (fromBeBytes a b c d, tail)
  | _ => .error (invalid what ("truncated " ++ name))

def text (what name : String) (len : Nat) : Cursor String := fun input =>
  if input.length < len then .error (invalid what ("truncated " ++ name))
  else
    match fromUtf8 (input.take len) with
    | none => .error (invalid what (name ++ " is not UTF-8"))
    | some value => .ok (value, input.drop len)

/-- `Cursor::field`. -/
def field (what name : String) : Cursor String := do
  let len ← u32 what ("length of " ++ name)
  text what name len

/-- `Cursor::opt`. -/
def opt (what name : String) : Cursor (Option String) := do
  let tag ← u8 what (name ++ " tag")
  if tag = 0 then return none
  else if tag = 1 then
    let value ← field what name
    check (value ≠ "") (invalid what (name ++ ": present-but-empty is not a valid encoding"))
    return some value
  else throw (invalid what (name ++ ": unknown optional tag " ++ toString tag))

section Sets

variable {α : Type} (what name : String) (element : Cursor α)
  (encode : α → Except ProtocolError Bytes)

/-- The loop of `Cursor::set`. -/
def elements : Nat → Option Bytes → Cursor (List α)
  | 0, _ => return []
  | n + 1, previous => do
      let value ← element
      let encoded ← encode value
      check (∀ prev ∈ previous, prev < encoded)
        (invalid what (name ++ " must be strictly ascending (sorted, unique)"))
      let rest ← elements n (some encoded)
      return value :: rest

/-- `Cursor::set`. -/
def set (max : Nat) : Cursor (List α) := do
  let count ← u32 what (name ++ " count")
  check (count ≤ max) (invalid what ("more than " ++ toString max ++ " " ++ name))
  elements what name element encode count none

end Sets

/-- `Cursor::finish`. -/
def finish (what : String) : Cursor Unit := fun input =>
  if input = [] then .ok ((), []) else .error (invalid what "trailing bytes")

/-! ## What is read -/

variable {what name : String} {l l' : Bytes}

theorem new_eq_ok {bytes header rest : Bytes} :
    new bytes header what = .ok rest ↔ bytes = header ++ rest := by
  unfold new
  constructor
  · intro h
    split at h
    · cases h
    · rename_i hstrip
      cases h
      exact stripFront_eq_some hstrip
  · rintro rfl
    rw [stripFront_append]

theorem run_u8 {b : UInt8} : (u8 what name).run l = .ok (b, l') ↔ l = b :: l' := by
  cases l with
  | nil => simp [u8, StateT.run]
  | cons first tail => simp [u8, StateT.run]

theorem run_u32 {n : Nat} :
    (u32 what name).run l = .ok (n, l') ↔ n < 2 ^ 32 ∧ l = toBeBytes n ++ l' := by
  constructor
  · intro h
    match l, h with
    | a :: b :: c :: d :: tail, h =>
        cases h
        exact ⟨fromBeBytes_lt a b c d, by rw [toBeBytes_fromBeBytes]; rfl⟩
  · rintro ⟨hn, rfl⟩
    simp only [toBeBytes, StateT.run, u32, List.cons_append, List.nil_append,
      fromBeBytes_toBeBytes hn]

theorem run_text {len : Nat} {s : String} :
    (text what name len).run l = .ok (s, l') ↔ s.utf8ByteSize = len ∧ l = asBytes s ++ l' := by
  constructor
  · intro h
    have h : text what name len l = .ok (s, l') := h
    unfold text at h
    split_ifs at h with hlen
    split at h
    · cases h
    · rename_i value hutf
      cases h
      have hbytes := asBytes_of_fromUtf8 hutf
      refine ⟨?_, by rw [hbytes, List.take_append_drop]⟩
      rw [← length_asBytes, hbytes, List.length_take]
      exact min_eq_left (not_lt.mp hlen)
  · rintro ⟨rfl, rfl⟩
    have hlen := length_asBytes s
    have hfits : ¬ (asBytes s ++ l').length < s.utf8ByteSize := by
      rw [List.length_append, hlen]
      exact not_lt.mpr (Nat.le_add_right _ _)
    simp only [StateT.run, text, hfits, if_false, List.take_left' hlen, fromUtf8_asBytes,
      List.drop_left' hlen]

theorem run_field {s : String} :
    (field what name).run l = .ok (s, l') ↔
      s.utf8ByteSize < 2 ^ 32 ∧ l = fieldBytes s ++ l' := by
  simp only [field, run_bind_eq_ok, run_u32, run_text, fieldBytes, List.append_assoc]
  constructor
  · rintro ⟨len, mid, ⟨hlen, rfl⟩, rfl, rfl⟩
    exact ⟨hlen, rfl⟩
  · rintro ⟨hlen, rfl⟩
    exact ⟨_, _, ⟨hlen, rfl⟩, rfl, rfl⟩

theorem run_opt {value : Option String} :
    (opt what name).run l = .ok (value, l') ↔
      (∀ s, value = some s → s ≠ "" ∧ s.utf8ByteSize < 2 ^ 32) ∧ l = optionalBytes value ++ l' := by
  simp only [opt, run_bind_eq_ok, run_u8]
  constructor
  · rintro ⟨tag, mid, rfl, h⟩
    split_ifs at h with hzero hone
    · obtain ⟨rfl, rfl⟩ := run_pure_eq_ok.mp h
      exact ⟨nofun, by rw [hzero]; rfl⟩
    · obtain ⟨s, mid', hs, h⟩ := run_bind_eq_ok.mp h
      obtain ⟨_, hne, h⟩ := run_lift_bind_eq_ok.mp h
      obtain ⟨rfl, rfl⟩ := run_pure_eq_ok.mp h
      obtain ⟨hlen, rfl⟩ := run_field.mp hs
      refine ⟨?_, by rw [hone]; rfl⟩
      rintro _ ⟨⟩
      exact ⟨check_eq_ok.mp hne, hlen⟩
    · cases h
  · rintro ⟨hvalue, rfl⟩
    cases value with
    | none => exact ⟨0, l', rfl, by rw [if_pos rfl]; rfl⟩
    | some s =>
        obtain ⟨hne, hlen⟩ := hvalue s rfl
        refine ⟨1, fieldBytes s ++ l', rfl, ?_⟩
        rw [if_neg (by decide), if_pos rfl]
        refine run_bind_eq_ok.mpr ⟨s, l', run_field.mpr ⟨hlen, rfl⟩, ?_⟩
        exact run_lift_bind_eq_ok.mpr ⟨(), check_eq_ok.mpr hne, rfl⟩

theorem run_finish {u : Unit} : (finish what).run l = .ok (u, l') ↔ l = [] ∧ l' = [] := by
  by_cases h : l = []
  · simp [finish, StateT.run, h, eq_comm]
  · simp [finish, StateT.run, h]

section Sets

variable {α : Type} {element : Cursor α} {encode : α → Except ProtocolError Bytes}
  {P : α → Prop} {w : α → Bytes} {values : List α}

/-- The elements are read one after the other, each encoding above the one before. -/
theorem run_elements
    (helement : ∀ l a l', element.run l = .ok (a, l') ↔ P a ∧ l = w a ++ l')
    (hencode : ∀ a, P a → encode a = .ok (w a)) {n : Nat} {previous : Option Bytes} :
    (elements what name element encode n previous).run l = .ok (values, l') ↔
      values.length = n ∧ (∀ a ∈ values, P a) ∧
        (previous.toList ++ values.map w).IsChain (· < ·) ∧ l = (values.map w).flatten ++ l' := by
  induction n generalizing l previous values with
  | zero =>
      rw [elements, run_pure_eq_ok]
      constructor
      · rintro ⟨rfl, rfl⟩
        exact ⟨rfl, nofun, by cases previous <;> simp, rfl⟩
      · rintro ⟨hlen, -, -, hl⟩
        obtain rfl := List.length_eq_zero_iff.mp hlen
        exact ⟨rfl, by simpa using hl⟩
  | succ n ih =>
      rw [elements, run_bind_eq_ok]
      constructor
      · rintro ⟨a, mid, ha, h⟩
        obtain ⟨hP, rfl⟩ := (helement _ _ _).mp ha
        obtain ⟨encoded, hencoded, h⟩ := run_lift_bind_eq_ok.mp h
        rw [hencode a hP] at hencoded
        cases hencoded
        obtain ⟨_, hascending, h⟩ := run_lift_bind_eq_ok.mp h
        obtain ⟨rest, mid', hrest, h⟩ := run_bind_eq_ok.mp h
        obtain ⟨rfl, rfl⟩ := run_pure_eq_ok.mp h
        obtain ⟨hlen, hall, hchain, rfl⟩ := ih.mp hrest
        refine ⟨by rw [List.length_cons, hlen], List.forall_mem_cons.mpr ⟨hP, hall⟩, ?_, by simp⟩
        cases previous with
        | none => exact hchain
        | some prev => exact List.isChain_cons_cons.mpr ⟨check_eq_ok.mp hascending prev rfl, hchain⟩
      · rintro ⟨hlen, hall, hchain, rfl⟩
        obtain ⟨a, rest, rfl⟩ := List.exists_cons_of_length_eq_add_one hlen
        obtain ⟨hP, hall⟩ := List.forall_mem_cons.mp hall
        have hprevious : ∀ prev ∈ previous, prev < w a := by
          rintro prev rfl
          exact (List.isChain_cons_cons.mp hchain).1
        have hrest : (some (w a)).toList ++ rest.map w = w a :: rest.map w := rfl
        have hchain' : (w a :: rest.map w).IsChain (· < ·) := by
          cases previous with
          | none => exact hchain
          | some prev => exact (List.isChain_cons_cons.mp hchain).2
        refine ⟨a, (rest.map w).flatten ++ l', (helement _ _ _).mpr ⟨hP, by simp⟩, ?_⟩
        refine run_lift_bind_eq_ok.mpr ⟨w a, hencode a hP, ?_⟩
        refine run_lift_bind_eq_ok.mpr ⟨(), check_eq_ok.mpr hprevious, ?_⟩
        refine run_bind_eq_ok.mpr ⟨rest, l', ih.mpr ⟨Nat.succ.inj hlen, hall, ?_, rfl⟩, rfl⟩
        exact hrest ▸ hchain'

theorem run_set
    (helement : ∀ l a l', element.run l = .ok (a, l') ↔ P a ∧ l = w a ++ l')
    (hencode : ∀ a, P a → encode a = .ok (w a)) {max : Nat} (hmax : max < 2 ^ 32) :
    (set what name element encode max).run l = .ok (values, l') ↔
      (∀ a ∈ values, P a) ∧ values.length ≤ max ∧ (values.map w).Pairwise (· < ·) ∧
        l = toBeBytes values.length ++ ((values.map w).flatten ++ l') := by
  rw [set, run_bind_eq_ok]
  constructor
  · rintro ⟨count, mid, hcount, h⟩
    obtain ⟨-, rfl⟩ := run_u32.mp hcount
    obtain ⟨_, hle, h⟩ := run_lift_bind_eq_ok.mp h
    obtain ⟨rfl, hall, hchain, rfl⟩ := (run_elements helement hencode).mp h
    exact ⟨hall, check_eq_ok.mp hle, List.isChain_iff_pairwise.mp hchain, rfl⟩
  · rintro ⟨hall, hle, hsorted, rfl⟩
    refine ⟨values.length, _, run_u32.mpr ⟨hle.trans_lt hmax, rfl⟩, ?_⟩
    refine run_lift_bind_eq_ok.mpr ⟨(), check_eq_ok.mpr hle, ?_⟩
    exact (run_elements helement hencode).mpr
      ⟨rfl, hall, List.isChain_iff_pairwise.mpr hsorted, rfl⟩

end Sets

end Cursor

/-! ## Identifiers -/

section Identifiers

variable [StrDebug] {what name : String} {l l' : Bytes}

def ofLedger {α : Type} (x : Except LedgerError α) : Except ProtocolError α :=
  x.mapError fun e => .invalid e.display

def Cursor.parsed {α : Type} (what name : String) (parse : String → Except LedgerError α) :
    Cursor α := do
  let value ← Cursor.field what name
  ofLedger (parse value)

theorem Cursor.run_parsed {α : Type} {parse : String → Except LedgerError α} {text : α → String}
    (hparse : ∀ s a, parse s = .ok a ↔ s = text a) (hlt : ∀ a, (text a).utf8ByteSize < 2 ^ 32)
    {a : α} :
    (Cursor.parsed what name parse).run l = .ok (a, l') ↔ l = fieldBytes (text a) ++ l' := by
  simp only [Cursor.parsed, run_bind_eq_ok, Cursor.run_field, run_lift_eq_ok, ofLedger,
    mapError_eq_ok, hparse]
  constructor
  · rintro ⟨_, _, ⟨-, rfl⟩, rfl, rfl⟩
    rfl
  · rintro rfl
    exact ⟨text a, l', ⟨hlt a, rfl⟩, rfl, rfl⟩

theorem Cursor.run_contentId {id : ContentId} :
    (Cursor.parsed what name ContentId.fromStr).run l = .ok (id, l') ↔
      l = fieldBytes id.text ++ l' :=
  Cursor.run_parsed (fun _ a => ⟨fun h => (ContentId.text_of_fromStr h).symm,
    fun h => by rw [h, a.fromStr_text]⟩) CommitV2.text_lt

theorem Cursor.run_commitId {id : CommitId} :
    (Cursor.parsed what name CommitId.fromStr).run l = .ok (id, l') ↔
      l = fieldBytes id.text ++ l' :=
  Cursor.run_parsed (fun _ a => ⟨fun h => (CommitId.text_of_fromStr h).symm,
    fun h => by rw [h, a.fromStr_text]⟩) fun a => CommitV2.text_lt a.content

theorem Cursor.run_graphId {id : GraphId} :
    (Cursor.parsed what name (ValidatedToken.new validateGraphId)).run l = .ok (id, l') ↔
      l = fieldBytes id.asStr ++ l' :=
  Cursor.run_parsed (fun _ a => ⟨fun h => (ValidatedToken.asStr_of_new h).symm,
    fun h => by rw [h, a.new_asStr]⟩) GraphId.asStr_lt

end Identifiers

/-! ## The order of fields -/

/-- Big-endian words are compared like their values. -/
theorem toBeBytes_append_lt {m n : Nat} (hm : m < 2 ^ 32) (hn : n < 2 ^ 32) (x y : Bytes) :
    toBeBytes m ++ x < toBeBytes n ++ y ↔ m < n ∨ m = n ∧ x < y := by
  simp only [toBeBytes, List.cons_append, List.nil_append, List.cons_lt_cons_iff,
    UInt8.lt_iff_toNat_lt, ← UInt8.toNat_inj, UInt8.toNat_ofNat']
  by_cases hxy : x < y
  · simp only [hxy, and_true]
    omega
  · simp only [hxy, and_false, or_false]
    omega

/-- Fields are compared by their length, then by their text. -/
theorem fieldBytes_lt {a b : String} (ha : a.utf8ByteSize < 2 ^ 32) (hb : b.utf8ByteSize < 2 ^ 32) :
    fieldBytes a < fieldBytes b ↔
      toLex (a.utf8ByteSize, asBytes a) < toLex (b.utf8ByteSize, asBytes b) := by
  rw [fieldBytes, fieldBytes, toBeBytes_append_lt ha hb, Prod.Lex.toLex_lt_toLex]

end Protocol

end CognitiveLedger
