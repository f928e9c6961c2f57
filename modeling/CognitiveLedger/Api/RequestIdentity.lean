import CognitiveLedger.Core.Temporal
import CognitiveLedger.Lib.Ascending
import CognitiveLedger.Lib.Decimal
import CognitiveLedger.Lib.OptionRules
import CognitiveLedger.Protocol.RequestedContext
import Mathlib.Data.Fintype.Defs

/-!
# The identity of a mutation request

The API derives the digest that scopes idempotency from the typed content of a
request. The eleven kinds are laid out under four headers, each as a sequence of
items: fields, tagged optional texts, a counted set of evidence references, flags and
context hints. Nothing in the source reads the bytes back. That they can be read,
item by item, is why two requests share a digest only when they ask for the same
thing.

The encoder panics on a text or a count of `2 ^ 32` or more; that is `none` here.
-/

namespace CognitiveLedger

open ExceptRules OptionRules Reading Ascending

structure ValidationId where
  content : ContentId
  deriving DecidableEq

structure SemanticEnvironmentId where
  content : ContentId
  deriving DecidableEq

/-- The `Display` form. -/
def ValidationId.text (id : ValidationId) : String := id.content.text

/-- The `Display` form. -/
def SemanticEnvironmentId.text (id : SemanticEnvironmentId) : String := id.content.text

theorem ValidationId.text_injective : Function.Injective ValidationId.text := by
  rintro ⟨a⟩ ⟨b⟩ h
  exact congrArg ValidationId.mk (ContentId.text_injective h)

theorem SemanticEnvironmentId.text_injective : Function.Injective SemanticEnvironmentId.text := by
  rintro ⟨a⟩ ⟨b⟩ h
  exact congrArg SemanticEnvironmentId.mk (ContentId.text_injective h)

/-- The typed content of a mutation request. -/
inductive CanonicalRequest where
  | prepare (graph : GraphId) (branch : String) (expectedHead : Option CommitId)
      (requestedPatch : PatchId) (activity : String) (eventTime : Option LedgerTimestamp)
      (evidenceRefs : List String) (sourceSystem : Option String) (message : String)
  | accept (graph : GraphId) (branch : String) (expectedHead : Option CommitId)
      (candidate : CommitId) (reason : Option String) (validationPolicy : String)
  | reject (graph : GraphId) (branch : String) (candidate : CommitId) (reason : String)
  | acceptValidated (graph : GraphId) (branch : String) (expectedHead : Option CommitId)
      (candidate : CommitId) (reason : Option String) (validationId : ValidationId)
      (semanticEnvironmentId : SemanticEnvironmentId)
  | rejectValidated (graph : GraphId) (branch : String) (candidate : CommitId)
      (reason : String) (validationId : ValidationId)
  | validate (graph : GraphId) (candidate : CommitId) (requested : RequestedContext)
  | branchCreate (graph : GraphId) (name source : String) (fromCommit : Option CommitId)
      (isProtected requireValidation requireDistinctReviewer : Bool)
  | branchDelete (graph : GraphId) (name : String) (reason : Option String)
  | branchRestore (graph : GraphId) (name : String) (reason : Option String)
  | mergePropose (graph : GraphId) (source target strategy : String) (base : Option CommitId)
      (previewToken : String) (message : Option String) (evidenceRefs : List String)
  | mergeApply (graph : GraphId) (proposalId : Int64) (previewToken : String)
      (validationId : Option ValidationId)
      (semanticEnvironmentId : Option SemanticEnvironmentId) (reason : Option String)

namespace Api

/-- `field`. -/
def field (value : String) : Option Bytes :=
  if value.utf8ByteSize < 2 ^ 32 then some (fieldBytes value) else none

/-- `opt`: an empty text is written as an absent one. -/
def opt : Option String → Option Bytes
  | none => some [0]
  | some v => if v = "" then some [0] else (field v).map (1 :: ·)

/-- The evidence references, sorted and without repetition, after their count. -/
def evidence (evidenceRefs : List String) : Option Bytes :=
  let refs := ascending evidenceRefs.toFinset
  if refs.length < 2 ^ 32 then do
    let fields ← refs.mapM field
    return toBeBytes refs.length ++ fields.flatten
  else none

/-- What one statement of the encoder appends. -/
inductive Item where
  | field (value : String)
  | opt (value : Option String)
  | evidence (refs : List String)
  | flag (value : Bool)
  | hints (requested : RequestedContext)

def Item.encode [StrDebug] : Item → Option Bytes
  | .field value => Api.field value
  | .opt value => Api.opt value
  | .evidence refs => Api.evidence refs
  | .flag value => some [if value then 1 else 0]
  | .hints requested => requested.encodeInto.toOption

def requestIdentityHeader : Bytes := asBytes "sculpin-ledger-request/v1\x00"
def requestIdentityV2Header : Bytes := asBytes "sculpin-ledger-request/v2\x00"
def branchRequestIdentityHeader : Bytes := asBytes "sculpin-ledger-branch-request/v1\x00"
def mergeRequestIdentityHeader : Bytes := asBytes "sculpin-ledger-merge-request/v1\x00"

end Api

namespace CanonicalRequest

open Api

def header : CanonicalRequest → Bytes
  | prepare .. | accept .. | reject .. => requestIdentityHeader
  | acceptValidated .. | rejectValidated .. | validate .. => requestIdentityV2Header
  | branchCreate .. | branchDelete .. | branchRestore .. => branchRequestIdentityHeader
  | mergePropose .. | mergeApply .. => mergeRequestIdentityHeader

/-- What follows the header. -/
def items : CanonicalRequest → List Item
  | prepare graph branch expectedHead requestedPatch activity eventTime evidenceRefs
      sourceSystem message =>
      [.field "prepare", .field graph.asStr, .field branch,
        .opt (expectedHead.map CommitId.text), .field requestedPatch.text, .field activity,
        .opt (eventTime.map LedgerTimestamp.canonical), .evidence evidenceRefs,
        .opt sourceSystem, .field message]
  | accept graph branch expectedHead candidate reason validationPolicy =>
      [.field "accept", .field graph.asStr, .field branch,
        .opt (expectedHead.map CommitId.text), .field candidate.text, .opt reason,
        .field validationPolicy]
  | reject graph branch candidate reason =>
      [.field "reject", .field graph.asStr, .field branch, .field candidate.text,
        .field reason]
  | acceptValidated graph branch expectedHead candidate reason validationId
      semanticEnvironmentId =>
      [.field "accept", .field graph.asStr, .field branch,
        .opt (expectedHead.map CommitId.text), .field candidate.text, .opt reason,
        .field "validated", .field validationId.text, .field semanticEnvironmentId.text]
  | rejectValidated graph branch candidate reason validationId =>
      [.field "reject", .field graph.asStr, .field branch, .field candidate.text,
        .field reason, .field validationId.text]
  | validate graph candidate requested =>
      [.field "validate", .field graph.asStr, .field candidate.text, .hints requested]
  | branchCreate graph name source fromCommit isProtected requireValidation
      requireDistinctReviewer =>
      [.field "branch_create", .field graph.asStr, .field name, .field source,
        .opt (fromCommit.map CommitId.text), .flag isProtected, .flag requireValidation,
        .flag requireDistinctReviewer]
  | branchDelete graph name reason =>
      [.field "branch_delete", .field graph.asStr, .field name, .opt reason]
  | branchRestore graph name reason =>
      [.field "branch_restore", .field graph.asStr, .field name, .opt reason]
  | mergePropose graph source target strategy base previewToken message evidenceRefs =>
      [.field "merge_propose", .field graph.asStr, .field source, .field target,
        .field strategy, .opt (base.map CommitId.text), .field previewToken, .opt message,
        .evidence evidenceRefs]
  | mergeApply graph proposalId previewToken validationId semanticEnvironmentId reason =>
      [.field "merge_apply", .field graph.asStr, .field proposalId.toInt.repr,
        .field previewToken, .opt (validationId.map ValidationId.text),
        .opt (semanticEnvironmentId.map SemanticEnvironmentId.text), .opt reason]

/-- `CanonicalRequest::canonical_bytes`. -/
def canonicalBytes [StrDebug] (r : CanonicalRequest) : Option Bytes := do
  let parts ← r.items.mapM Item.encode
  return r.header ++ parts.flatten

/-- `CanonicalRequest::digest`. -/
def digest [StrDebug] [Sha256] (r : CanonicalRequest) : Option ContentId :=
  r.canonicalBytes.map Sha256.forBytes

end CanonicalRequest

/-! ## The logical request -/

/-- An optional text, where an empty one counts as absent. -/
def presentText : Option String → Option String
  | none => none
  | some text => if text = "" then none else some text

/-- The same kind of request with the same fields; evidence references are a set and an
empty optional text is an absent one. -/
def SameRequest : CanonicalRequest → CanonicalRequest → Prop
  | .prepare graph branch head patch activity time refs source message,
    .prepare graph' branch' head' patch' activity' time' refs' source' message' =>
      graph = graph' ∧ branch = branch' ∧ head = head' ∧ patch = patch' ∧
        activity = activity' ∧ time = time' ∧ refs.toFinset = refs'.toFinset ∧
        presentText source = presentText source' ∧ message = message'
  | .accept graph branch head candidate reason policy,
    .accept graph' branch' head' candidate' reason' policy' =>
      graph = graph' ∧ branch = branch' ∧ head = head' ∧ candidate = candidate' ∧
        presentText reason = presentText reason' ∧ policy = policy'
  | .reject graph branch candidate reason, .reject graph' branch' candidate' reason' =>
      graph = graph' ∧ branch = branch' ∧ candidate = candidate' ∧ reason = reason'
  | .acceptValidated graph branch head candidate reason validation environment,
    .acceptValidated graph' branch' head' candidate' reason' validation' environment' =>
      graph = graph' ∧ branch = branch' ∧ head = head' ∧ candidate = candidate' ∧
        presentText reason = presentText reason' ∧ validation = validation' ∧
        environment = environment'
  | .rejectValidated graph branch candidate reason validation,
    .rejectValidated graph' branch' candidate' reason' validation' =>
      graph = graph' ∧ branch = branch' ∧ candidate = candidate' ∧ reason = reason' ∧
        validation = validation'
  | .validate graph candidate requested, .validate graph' candidate' requested' =>
      graph = graph' ∧ candidate = candidate' ∧ requested = requested'
  | .branchCreate graph name source fromCommit isProtected validation reviewer,
    .branchCreate graph' name' source' fromCommit' isProtected' validation' reviewer' =>
      graph = graph' ∧ name = name' ∧ source = source' ∧ fromCommit = fromCommit' ∧
        isProtected = isProtected' ∧ validation = validation' ∧ reviewer = reviewer'
  | .branchDelete graph name reason, .branchDelete graph' name' reason' =>
      graph = graph' ∧ name = name' ∧ presentText reason = presentText reason'
  | .branchRestore graph name reason, .branchRestore graph' name' reason' =>
      graph = graph' ∧ name = name' ∧ presentText reason = presentText reason'
  | .mergePropose graph source target strategy base token message refs,
    .mergePropose graph' source' target' strategy' base' token' message' refs' =>
      graph = graph' ∧ source = source' ∧ target = target' ∧ strategy = strategy' ∧
        base = base' ∧ token = token' ∧ presentText message = presentText message' ∧
        refs.toFinset = refs'.toFinset
  | .mergeApply graph proposal token validation environment reason,
    .mergeApply graph' proposal' token' validation' environment' reason' =>
      graph = graph' ∧ proposal = proposal' ∧ token = token' ∧ validation = validation' ∧
        environment = environment' ∧ presentText reason = presentText reason'
  | _, _ => False

namespace Api

/-! ## Items are read back -/

theorem field_eq_some {value : String} {bs : Bytes} (h : field value = some bs) :
    value.utf8ByteSize < 2 ^ 32 ∧ bs = fieldBytes value := by
  unfold field at h
  split_ifs at h with hlen
  cases h
  exact ⟨hlen, rfl⟩

theorem field_fits {value : String} (h : value.utf8ByteSize < 2 ^ 32) :
    field value = some (fieldBytes value) := if_pos h

theorem reads_field {value : String} {bs : Bytes} (h : field value = some bs) :
    Reads readField bs value := by
  obtain ⟨hlen, rfl⟩ := field_eq_some h
  exact readField_reads hlen

theorem reads_opt {value : Option String} {bs : Bytes} (h : opt value = some bs) :
    Reads (readOptional "optional") bs (presentText value) := by
  have habsent : Reads (readOptional "optional") [0] none :=
    (readU8_reads "optional" 0).andThen (Reads.pure none)
  cases value with
  | none =>
      cases h
      exact habsent
  | some v =>
      simp only [opt] at h
      simp only [presentText]
      split_ifs at h ⊢ with hempty
      · cases h
        exact habsent
      · obtain ⟨bs, hfield, rfl⟩ := Option.map_eq_some_iff.mp h
        obtain ⟨hlen, rfl⟩ := field_eq_some hfield
        have hfits : ∀ s, some v = some s → s ≠ "" ∧ s.utf8ByteSize < 2 ^ 32 := by
          rintro s ⟨⟩
          exact ⟨hempty, hlen⟩
        exact readOptional_reads "optional" hfits

def readRefs : Read (List String) := do
  let count ← readU32 "evidence_count"
  readMany readField count

theorem reads_evidence {refs : List String} {bs : Bytes} (h : evidence refs = some bs) :
    Reads readRefs bs (ascending refs.toFinset) := by
  simp only [evidence] at h
  split_ifs at h with hcount
  obtain ⟨fields, hfields, h⟩ := Option.bind_eq_some_iff.mp h
  cases h
  have hreads : List.Forall₂ (Reads readField) fields (ascending refs.toFinset) :=
    ((mapM_eq_some.mp hfields).imp fun _ _ => reads_field).flip
  exact (readU32_reads _ hcount).bind (Reads.many hreads)

namespace Item

variable [StrDebug] {x y : Item} {bs bs' : Bytes}

/-- The kinds of items. -/
inductive Shape where
  | field
  | opt
  | evidence
  | flag
  | hints

def shape : Item → Shape
  | .field _ => .field
  | .opt _ => .opt
  | .evidence _ => .evidence
  | .flag _ => .flag
  | .hints _ => .hints

/-- An item without what the encoder forgets. -/
def normal : Item → Item
  | .opt value => .opt (presentText value)
  | .evidence refs => .evidence (ascending refs.toFinset)
  | item => item

def read : Shape → Read Item
  | .field => Item.field <$> readField
  | .opt => Item.opt <$> readOptional "optional"
  | .evidence => Item.evidence <$> readRefs
  | .flag => (fun b => Item.flag (b = 1)) <$> readU8 "flag"
  | .hints => Item.hints <$> RequestedContext.read

theorem encode_reads (h : x.encode = some bs) : Reads (read x.shape) bs x.normal := by
  cases x with
  | field value => exact (reads_field h).map Item.field
  | opt value => exact (reads_opt h).map Item.opt
  | evidence refs => exact (reads_evidence h).map Item.evidence
  | flag value =>
      cases h
      have hread := (readU8_reads "flag" (if value then 1 else 0)).map fun b => Item.flag (b = 1)
      cases value <;> exact hread
  | hints requested =>
      have hok : requested.encodeInto = .ok bs := by
        simp only [encode] at h
        cases hrun : requested.encodeInto with
        | error e => simp [hrun, Except.toOption] at h
        | ok written => simpa [hrun, Except.toOption] using h
      exact (RequestedContext.encodeInto_reads hok).map Item.hints

/-- The encoder only sees what it does not forget. -/
theorem encode_normal (x : Item) : x.normal.encode = x.encode := by
  cases x with
  | opt value =>
      simp only [normal, encode]
      cases value with
      | none => rfl
      | some v => by_cases hempty : v = "" <;> simp [presentText, Api.opt, hempty]
  | evidence refs => simp only [normal, encode, Api.evidence, toFinset_ascending]
  | field value => rfl
  | flag value => rfl
  | hints requested => rfl

/-- Sequences of items of the same shapes are told apart by their bytes. -/
theorem normal_of_flatten : ∀ {xs ys : List Item} {ps qs : List Bytes},
    xs.map shape = ys.map shape → List.Forall₂ (fun x bs => encode x = some bs) xs ps →
    List.Forall₂ (fun x bs => encode x = some bs) ys qs → ps.flatten = qs.flatten →
    xs.map normal = ys.map normal
  | [], [], _, _, _, _, _, _ => rfl
  | x :: xs, y :: ys, _, _, hshape, .cons hp hps, .cons hq hqs, h => by
      rw [List.map_cons, List.map_cons, List.cons.injEq] at hshape
      rw [List.flatten_cons, List.flatten_cons] at h
      have hread := encode_reads hq
      rw [← hshape.1] at hread
      obtain ⟨hnormal, hrest⟩ := (encode_reads hp).unique hread h
      rw [List.map_cons, List.map_cons, hnormal, normal_of_flatten hshape.2 hps hqs hrest]

/-- Texts are below `2 ^ 32` bytes, hints are valid. -/
def Fits : Item → Prop
  | .field value => value.utf8ByteSize < 2 ^ 32
  | .opt value => ∀ s, value = some s → s.utf8ByteSize < 2 ^ 32
  | .evidence refs => ∀ ref ∈ refs, ref.utf8ByteSize < 2 ^ 32
  | .flag _ => True
  | .hints requested => requested.validate = .ok ()

/-- Among items that fit, only a set too large for its count cannot be written. -/
theorem encode_eq_none (h : x.Fits) :
    x.encode = none ↔ ∃ refs, x = .evidence refs ∧ 2 ^ 32 ≤ refs.toFinset.card := by
  cases x with
  | field value => simp [encode, field_fits h]
  | opt value =>
      cases value with
      | none => simp [encode, Api.opt]
      | some v =>
          have hfield := field_fits (h v rfl)
          by_cases hempty : v = "" <;> simp [encode, Api.opt, hempty, hfield]
  | evidence refs =>
      have hfields : (ascending refs.toFinset).mapM Api.field ≠ none := by
        rw [Ne, mapM_eq_none]
        rintro ⟨ref, href, hnone⟩
        rw [field_fits (h ref (by simpa using href))] at hnone
        cases hnone
      obtain ⟨fields, hfields⟩ := Option.ne_none_iff_exists'.mp hfields
      simp [encode, Api.evidence, hfields]
  | flag value => simp [encode]
  | hints requested =>
      obtain ⟨bs, hbs⟩ := RequestedContext.exists_encodeInto h
      simp [encode, hbs, Except.toOption]

end Item

/-! ## Kinds -/

inductive Kind where
  | prepare
  | accept
  | reject
  | acceptValidated
  | rejectValidated
  | validate
  | branchCreate
  | branchDelete
  | branchRestore
  | mergePropose
  | mergeApply
  deriving DecidableEq

namespace Kind

instance : Fintype Kind where
  elems := {prepare, accept, reject, acceptValidated, rejectValidated, validate, branchCreate,
    branchDelete, branchRestore, mergePropose, mergeApply}
  complete k := by cases k <;> decide

def header : Kind → Bytes
  | prepare | accept | reject => requestIdentityHeader
  | acceptValidated | rejectValidated | validate => requestIdentityV2Header
  | branchCreate | branchDelete | branchRestore => branchRequestIdentityHeader
  | mergePropose | mergeApply => mergeRequestIdentityHeader

def operation : Kind → String
  | prepare => "prepare"
  | accept | acceptValidated => "accept"
  | reject | rejectValidated => "reject"
  | validate => "validate"
  | branchCreate => "branch_create"
  | branchDelete => "branch_delete"
  | branchRestore => "branch_restore"
  | mergePropose => "merge_propose"
  | mergeApply => "merge_apply"

def shapes : Kind → List Item.Shape
  | prepare => [.field, .field, .field, .opt, .field, .field, .opt, .evidence, .opt, .field]
  | accept => [.field, .field, .field, .opt, .field, .opt, .field]
  | reject => [.field, .field, .field, .field, .field]
  | acceptValidated => [.field, .field, .field, .opt, .field, .opt, .field, .field, .field]
  | rejectValidated => [.field, .field, .field, .field, .field, .field]
  | validate => [.field, .field, .field, .hints]
  | branchCreate => [.field, .field, .field, .field, .opt, .flag, .flag, .flag]
  | branchDelete | branchRestore => [.field, .field, .field, .opt]
  | mergePropose => [.field, .field, .field, .field, .field, .opt, .field, .opt, .evidence]
  | mergeApply => [.field, .field, .field, .field, .opt, .opt, .opt]

theorem header_unique {k k' : Kind} {bs bs' : Bytes}
    (h : k.header ++ bs = k'.header ++ bs') : k.header = k'.header ∧ bs = bs' := by
  have hlen : ∀ k : Kind, 26 ≤ k.header.length := by decide +kernel
  have hfronts : ∀ k k' : Kind, k.header.take 26 = k'.header.take 26 → k.header = k'.header := by
    decide +kernel
  have hfront : k.header.take 26 = k'.header.take 26 := by
    have htake := congrArg (List.take 26) h
    rwa [List.take_append_of_le_length (hlen k), List.take_append_of_le_length (hlen k')]
      at htake
  have heq := hfronts k k' hfront
  rw [heq] at h
  exact ⟨heq, List.append_cancel_left h⟩

theorem eq_of_operation : ∀ k k' : Kind, k.header = k'.header → k.operation = k'.operation →
    k = k' := by
  decide +kernel

end Kind

end Api

namespace CanonicalRequest

open Api

variable {r r' : CanonicalRequest}

def kind : CanonicalRequest → Kind
  | prepare .. => .prepare
  | accept .. => .accept
  | reject .. => .reject
  | acceptValidated .. => .acceptValidated
  | rejectValidated .. => .rejectValidated
  | validate .. => .validate
  | branchCreate .. => .branchCreate
  | branchDelete .. => .branchDelete
  | branchRestore .. => .branchRestore
  | mergePropose .. => .mergePropose
  | mergeApply .. => .mergeApply

theorem header_eq (r : CanonicalRequest) : r.header = r.kind.header := by
  cases r <;> rfl

theorem shapes_items (r : CanonicalRequest) : r.items.map Item.shape = r.kind.shapes := by
  cases r <;> rfl

theorem items_eq_cons (r : CanonicalRequest) :
    ∃ rest, r.items = .field r.kind.operation :: rest := by
  cases r <;> exact ⟨_, rfl⟩

/-- An optional identifier is never an empty text. -/
theorem presentText_map_inj {α : Type} {f : α → String} (hf : Function.Injective f)
    (hne : ∀ a, f a ≠ "") {o o' : Option α} :
    presentText (o.map f) = presentText (o'.map f) ↔ o = o' := by
  have hsame (o : Option α) : presentText (o.map f) = o.map f := by
    cases o with
    | none => rfl
    | some a => exact if_neg (hne a)
  rw [hsame, hsame, (Option.map_injective hf).eq_iff]

theorem presentText_commit {o o' : Option CommitId} :
    presentText (o.map CommitId.text) = presentText (o'.map CommitId.text) ↔ o = o' :=
  presentText_map_inj CommitId.text_injective fun id => id.content.text_ne_empty

theorem presentText_time {o o' : Option LedgerTimestamp} :
    presentText (o.map LedgerTimestamp.canonical) = presentText (o'.map LedgerTimestamp.canonical) ↔
      o = o' :=
  presentText_map_inj LedgerTimestamp.canonical_injective LedgerTimestamp.canonical_ne_empty

theorem presentText_validation {o o' : Option ValidationId} :
    presentText (o.map ValidationId.text) = presentText (o'.map ValidationId.text) ↔ o = o' :=
  presentText_map_inj ValidationId.text_injective fun id => id.content.text_ne_empty

theorem presentText_environment {o o' : Option SemanticEnvironmentId} :
    presentText (o.map SemanticEnvironmentId.text) =
      presentText (o'.map SemanticEnvironmentId.text) ↔ o = o' :=
  presentText_map_inj SemanticEnvironmentId.text_injective fun id => id.content.text_ne_empty

theorem proposal_inj {n n' : Int64} : n.toInt.repr = n'.toInt.repr ↔ n = n' := by
  constructor
  · intro h
    have hread (n : Int64) : Decimal.signed (2 ^ 63) n.toInt.repr = some n.toInt :=
      Decimal.signed_repr (by simpa using n.le_toInt) (by simpa using n.toInt_lt)
    have hn := hread n
    rw [h, hread n', Option.some.injEq] at hn
    exact (Int64.toInt_inj.mp hn).symm
  · rintro rfl
    rfl

theorem ascending_inj {s t : Finset String} : ascending s = ascending t ↔ s = t := by
  constructor
  · intro h
    rw [← toFinset_ascending s, h, toFinset_ascending]
  · rintro rfl
    rfl

theorem sameRequest_iff : SameRequest r r' ↔
    r.kind = r'.kind ∧ r.items.map Item.normal = r'.items.map Item.normal := by
  -- requests of different kinds are neither; the rest goes field by field
  cases r <;> cases r' <;> first
    | exact iff_of_false id fun h => Kind.noConfusion h.1
    | simp only [SameRequest, kind, items, Item.normal, ValidatedToken.asStr_injective.eq_iff,
        CommitId.text_injective.eq_iff, PatchId.text_injective.eq_iff,
        ValidationId.text_injective.eq_iff, SemanticEnvironmentId.text_injective.eq_iff,
        presentText_commit, presentText_time, presentText_validation,
        presentText_environment, proposal_inj, ascending_inj, List.map_cons, List.map_nil,
        List.cons.injEq, Item.field.injEq, Item.opt.injEq, Item.evidence.injEq,
        Item.flag.injEq, Item.hints.injEq, true_and, and_true]

variable [StrDebug]

theorem canonicalBytes_eq_some {bs : Bytes} : r.canonicalBytes = some bs ↔
    ∃ parts, List.Forall₂ (fun x part => Item.encode x = some part) r.items parts ∧
      r.header ++ parts.flatten = bs := by
  simp only [canonicalBytes, Option.bind_eq_bind, Option.bind_eq_some_iff, mapM_eq_some,
    Option.pure_def, Option.some.injEq]

theorem items_of_canonicalBytes {bs : Bytes} (h : r.canonicalBytes = some bs)
    (h' : r'.canonicalBytes = some bs) :
    r.kind = r'.kind ∧ r.items.map Item.normal = r'.items.map Item.normal := by
  obtain ⟨parts, hparts, rfl⟩ := canonicalBytes_eq_some.mp h
  obtain ⟨parts', hparts', heq⟩ := canonicalBytes_eq_some.mp h'
  rw [header_eq, header_eq] at heq
  obtain ⟨hheader, hflat⟩ := Kind.header_unique heq.symm
  have hoperation : r.kind.operation = r'.kind.operation := by
    obtain ⟨rest, hrest⟩ := r.items_eq_cons
    obtain ⟨rest', hrest'⟩ := r'.items_eq_cons
    rw [hrest] at hparts
    rw [hrest'] at hparts'
    cases hparts with
    | cons hfirst _ =>
        cases hparts' with
        | cons hfirst' _ =>
            rw [List.flatten_cons, List.flatten_cons] at hflat
            exact ((reads_field hfirst).unique (reads_field hfirst') hflat).1
  have hkind := Kind.eq_of_operation _ _ hheader hoperation
  refine ⟨hkind, Item.normal_of_flatten ?_ hparts hparts' hflat⟩
  rw [shapes_items, shapes_items, hkind]

theorem canonicalBytes_congr (h : SameRequest r r') : r.canonicalBytes = r'.canonicalBytes := by
  obtain ⟨hkind, hitems⟩ := sameRequest_iff.mp h
  have hencode (l : List Item) : (l.map Item.normal).mapM Item.encode = l.mapM Item.encode := by
    rw [List.mapM_map]
    exact congrArg l.mapM (funext Item.encode_normal)
  rw [canonicalBytes, canonicalBytes, ← hencode, hitems, hencode, header_eq, header_eq, hkind]

/-- Fields are below `2 ^ 32` bytes and hints are valid. -/
def Bounded (r : CanonicalRequest) : Prop := ∀ x ∈ r.items, x.Fits

/-- Only a set of evidence too large for its count keeps a bounded request from being written. -/
theorem canonicalBytes_eq_none (hr : r.Bounded) : r.canonicalBytes = none ↔
    ∃ refs, Item.evidence refs ∈ r.items ∧ 2 ^ 32 ≤ refs.toFinset.card := by
  have hnone : r.canonicalBytes = none ↔ ∃ x ∈ r.items, x.encode = none := by
    rw [← mapM_eq_none]
    cases hparts : r.items.mapM Item.encode with
    | none => simp [canonicalBytes, hparts]
    | some parts => simp [canonicalBytes, hparts]
  rw [hnone]
  constructor
  · rintro ⟨x, hx, hencode⟩
    obtain ⟨refs, rfl, hcard⟩ := (Item.encode_eq_none (hr x hx)).mp hencode
    exact ⟨refs, hx, hcard⟩
  · rintro ⟨refs, hmem, hcard⟩
    exact ⟨_, hmem, (Item.encode_eq_none (hr _ hmem)).mpr ⟨refs, rfl, hcard⟩⟩

theorem canonicalBytes_eq_iff {bs bs' : Bytes} (h : r.canonicalBytes = some bs)
    (h' : r'.canonicalBytes = some bs') : bs = bs' ↔ SameRequest r r' := by
  constructor
  · rintro rfl
    exact sameRequest_iff.mpr (items_of_canonicalBytes h h')
  · intro hsame
    have heq := canonicalBytes_congr hsame
    rw [h, h'] at heq
    exact Option.some.inj heq

/-- The bytes of a request, and its digest under a hash without collisions, are equal for
two requests exactly when they are the same logical request. -/
theorem requests_are_identified [Sha256] (r r' : CanonicalRequest) :
    (r.Bounded → (r.canonicalBytes = none ↔
      ∃ refs, Item.evidence refs ∈ r.items ∧ 2 ^ 32 ≤ refs.toFinset.card)) ∧
    ∀ bs bs', r.canonicalBytes = some bs → r'.canonicalBytes = some bs' →
      (bs = bs' ↔ SameRequest r r') ∧
      ∀ used : Set Bytes, bs ∈ used → bs' ∈ used → used.InjOn Sha256.forBytes →
        (r.digest = r'.digest ↔ SameRequest r r') := by
  refine ⟨canonicalBytes_eq_none, fun bs bs' h h' => ⟨canonicalBytes_eq_iff h h', ?_⟩⟩
  intro used hbs hbs' hhash
  rw [digest, digest, h, h', Option.map_some, Option.map_some, Option.some.injEq,
    hhash.eq_iff hbs hbs', canonicalBytes_eq_iff h h']

/-- A proposal to bring `b` into `main`. -/
def proposal (message : Option String) (refs : List String) : CanonicalRequest :=
  mergePropose ⟨"g", rfl⟩ "b" "main" "union" none "t" message refs

omit [StrDebug] in
/-- Evidence in another order and an empty message leave the identity of a proposal. -/
theorem requests_are_identified_proposal :
    letI : StrDebug := ⟨id⟩
    ∃ bs, (proposal (some "") ["y", "x", "y"]).canonicalBytes = some bs ∧
      (proposal none ["x", "y"]).canonicalBytes = some bs := by
  let _ : StrDebug := ⟨id⟩
  let _ : Sha256 := ⟨fun _ => ⟨"sha256:" ++ String.ofList (List.replicate 64 '0'), by decide⟩⟩
  have hsome (message : Option String) (refs : List String)
      (hbounded : (proposal message refs).Bounded) (hcard : refs.toFinset.card < 2 ^ 32) :
      ∃ bs, (proposal message refs).canonicalBytes = some bs := by
    have hnone := (requests_are_identified (proposal message refs) (proposal none [])).1 hbounded
    refine Option.ne_none_iff_exists'.mp fun h => ?_
    obtain ⟨refs', hmem, hle⟩ := hnone.mp h
    have hrefs : refs' = refs := by simpa [proposal, items] using hmem
    exact absurd hcard (not_lt.mpr (hrefs ▸ hle))
  obtain ⟨bs, hbs⟩ := hsome (some "") ["y", "x", "y"] (by
    simp [Bounded, proposal, items, Item.Fits]
    decide) (by decide)
  obtain ⟨bs', hbs'⟩ := hsome none ["x", "y"] (by
    simp [Bounded, proposal, items, Item.Fits]
    decide) (by decide)
  have hsame : SameRequest (proposal (some "") ["y", "x", "y"]) (proposal none ["x", "y"]) :=
    ⟨rfl, rfl, rfl, rfl, rfl, rfl, rfl, by decide⟩
  obtain ⟨hiff, -⟩ := (requests_are_identified _ _).2 bs bs' hbs hbs'
  exact ⟨bs, hbs, by rw [hbs', hiff.mpr hsame]⟩

end CanonicalRequest

end CognitiveLedger
