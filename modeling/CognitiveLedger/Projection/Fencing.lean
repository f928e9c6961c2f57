import CognitiveLedger.Projection.Constants
import CognitiveLedger.Projection.Streams
import CognitiveLedger.Projection.UpdateEffect

/-!
# Leases against delayed requests

A worker claims a stream, observes the target, checks that it still holds the lease
and sends one request guarded by what it observed. The target may run a request at
any later time, any number of times. A worker of a stream that is being disabled
sends a fence, reads it back and marks the stream disabled.

A marker never returns to what it was, because every request that applies leaves a
write id of its own. So a request can apply only while the marker has not changed
since its observation, and a fence that was read back has changed it after every
observation under an earlier epoch.
-/

namespace CognitiveLedger.Projection

open ExceptRules Sparql

/-! ## Markers and requests -/

/-- The statements that observed pairs stand for. -/
def marks (graph : CognitiveGraph) (terms : List (String × MarkerTerm)) : Finset Triple :=
  (terms.map fun pair => ⟨.iri graph.asIri, pair.1, pair.2.denoted⟩).toFinset

def lexical : Term → String
  | .resource (.iri value) => value
  | .resource (.blank label) => label
  | .typed value _ => value
  | .tagged value _ => value

/-- A write id of the marker has this value, whatever its type. -/
def Mentions (marker : Finset Triple) (writeId : String) : Prop :=
  ∃ t ∈ marker, t.predicate = MarkerPredicate.writeId.iri ∧ lexical t.object = writeId

/-- `fence_out` looks for its write id in what it reads back. -/
def readsBack (terms : List (String × MarkerTerm)) (writeId : String) : Bool :=
  terms.any fun pair => pair.1 == MarkerPredicate.writeId.iri && pair.2.value == writeId

inductive Body
  | write (state : ProjectedState) (marker : ProjectionMarker) (mode : WriteMode)
  | fence (writeId : String)

def Body.writeId : Body → String
  | .write _ marker _ => marker.writeId
  | .fence writeId => writeId

/-- A worker writes its own stream's state, or fences if the stream is being disabled. -/
def Body.Suits (claim : Claim) : Body → Prop
  | .write _ marker _ => claim.disabling = false ∧ marker.graphId = claim.key.graphId ∧
      marker.branch = claim.key.branch
  | .fence _ => claim.disabling = true

def Body.update [StatementReader] (graph : CognitiveGraph) (expected : List (String × MarkerTerm)) :
    Body → Except ProjectionError (List (Update String))
  | .write state marker mode => writeUpdate graph state marker mode expected
  | .fence writeId => fenceUpdate graph expected writeId

theorem mentions_of_readsBack {graph : CognitiveGraph} {terms : List (String × MarkerTerm)}
    {writeId : String} (h : readsBack terms writeId = true) : Mentions (marks graph terms) writeId := by
  obtain ⟨pair, hmem, hpair⟩ := List.any_eq_true.mp h
  simp only [Bool.and_eq_true, beq_iff_eq] at hpair
  refine ⟨_, List.mem_toFinset.mpr (List.mem_map.mpr ⟨pair, hmem, rfl⟩), hpair.1, ?_⟩
  rw [← hpair.2]
  unfold MarkerTerm.denoted
  split
  · rfl
  · split
    · rfl
    · split <;> rfl

theorem pairConstant_eq {pair : String × MarkerTerm} {c : String × Term}
    (h : pairConstant pair = .ok c) : c = (pair.1, pair.2.denoted) := by
  obtain ⟨p, hp, o, ho, rfl⟩ : ∃ p, okOr (iriConstant pair.1) (unrepresentable "predicate IRI") = .ok p ∧
      ∃ o, okOr (termConstant pair.2) (unrepresentable "object term") = .ok o ∧ (p, o) = c := by
    simpa [pairConstant, bind_eq_ok] using h
  obtain ⟨rfl, -⟩ := iriConstant_eq_some (okOr_eq_ok.mp hp)
  rw [okOr_eq_ok, termConstant_eq, Option.map_eq_some_iff] at ho
  obtain ⟨_, -, rfl⟩ := ho
  rfl

section

variable {d : Dataset} {graph : CognitiveGraph} {terms : List (String × MarkerTerm)} {writeId : String}

theorem constants_of_precondition {guard : GraphPattern String}
    (h : precondition graph terms = .ok guard) : ∀ pair ∈ terms, ∃ c, pairConstant pair = .ok c := by
  unfold precondition at h
  split at h
  · rename_i hempty
    simp [List.isEmpty_iff.mp hempty]
  · simp only [bind_eq_ok] at h
    obtain ⟨_, -, pairs, hpairs, -⟩ := h
    exact exists_of_mapM hpairs

/-- What a precondition that can be written tests. -/
theorem markerTriples_of_holdsExactly {guard : GraphPattern String}
    (h : precondition graph terms = .ok guard) (hholds : HoldsExactly d graph terms) :
    markerTriples d graph = marks graph terms := by
  ext t
  rw [hholds t, marks, List.mem_toFinset, List.mem_map]
  constructor
  · rintro ⟨hsubject, pair, hmem, hpair⟩
    obtain ⟨hp, ho⟩ := Prod.mk.inj (pairConstant_eq hpair)
    exact ⟨pair, hmem, by rw [← hsubject, ← hp, ← ho]⟩
  · rintro ⟨pair, hmem, rfl⟩
    obtain ⟨c, hc⟩ := constants_of_precondition h pair hmem
    exact ⟨rfl, pair, hmem, pairConstant_eq hc ▸ hc⟩

theorem mentions_writtenMarker [StatementReader] {state : ProjectedState}
    {marker : ProjectionMarker} :
    Mentions (writtenMarker graph state marker) writeId ↔ writeId = marker.writeId := by
  simp [Mentions, writtenMarker, ProjectionMarker.triples, countTriple,
    MarkerPredicate.iri_injective.eq_iff, lexical, eq_comm]

theorem mentions_fencedMarker {id : String} :
    Mentions (fencedMarker d graph id) writeId ↔ writeId = id := by
  simp only [Mentions, fencedMarker, Finset.mem_insert, Finset.mem_filter]
  constructor
  · rintro ⟨t, rfl | ⟨-, hne⟩, hpredicate, rfl⟩
    · rfl
    · exact absurd hpredicate hne
  · rintro rfl
    exact ⟨_, .inl rfl, rfl, rfl⟩

/-- The marker of another graph stays. -/
theorem Framed.markerTriples_eq {d' : Dataset} (h : Framed graph d d') {other : CognitiveGraph}
    (hother : other ≠ graph) : markerTriples d' other = markerTriples d other := by
  have hiri : other.asIri ≠ graph.asIri := fun heq => hother (CognitiveGraph.asIri_injective heq)
  ext t
  simp only [mem_markerTriples]
  refine and_congr_left fun hsubject => (h _ ?_ ?_).trans (and_iff_left ?_)
  · exact fun hg => graph.asIri_ne_markerGraph (Option.some.inj hg).symm
  · exact fun hg => hiri (Resource.iri.inj (hsubject.symm.trans hg.2))
  · exact not_isToken_of_subject hsubject

/-- A request that was built from `terms` leaves the graph and its marker, or it found exactly
these terms and its write id is now the only one. -/
theorem Body.effect [Operators] [StatementReader] {body : Body} {ops : List (Update String)}
    (h : body.update graph terms = .ok ops) : Framed graph d (exec ops d) ∧
      (Holds graph (d.graph graph.asIri) (markerTriples d graph) (exec ops d) ∨
        markerTriples d graph = marks graph terms ∧
          ∀ id, Mentions (markerTriples (exec ops d) graph) id ↔ id = body.writeId) := by
  cases body with
  | write state marker mode =>
      have heffect := writeUpdate_effect (d := d) h
      refine ⟨heffect.frame, ?_⟩
      by_cases hadmits : Admits d graph terms mode marker.refVersion
      · obtain ⟨guard, hguard, -⟩ := bind_eq_ok.mp h
        refine .inr ⟨markerTriples_of_holdsExactly hguard hadmits.1, fun id => ?_⟩
        rw [(heffect.applied hadmits).marker, mentions_writtenMarker]
        rfl
      · exact .inl (heffect.refused hadmits)
  | fence writeId =>
      have heffect := fenceUpdate_effect (d := d) h
      refine ⟨heffect.frame, ?_⟩
      by_cases hholds : HoldsExactly d graph terms
      · obtain ⟨guard, hguard, -⟩ := bind_eq_ok.mp h
        refine .inr ⟨markerTriples_of_holdsExactly hguard hholds, fun id => ?_⟩
        rw [(heffect.applied hholds).marker, mentions_fencedMarker]
        rfl
      · exact .inl (heffect.refused hholds)

end

/-! ## The system -/

structure Sighting where
  terms : List (String × MarkerTerm)
  /-- How often the marker had changed. -/
  seen : ℕ

structure Sent where
  sighting : Sighting
  body : Body
  ops : List (Update String)

/-- A claim and how far its worker came with it. -/
structure Worker where
  claim : Claim
  sighting : Option Sighting := none
  sent : Option Sent := none
  readBack : Bool := false

abbrev Worker.graph (w : Worker) : CognitiveGraph := w.claim.cognitiveGraph

/-- The target and the graph that a worker writes. -/
abbrev Worker.place (w : Worker) : String × CognitiveGraph := (w.claim.key.targetId, w.graph)

inductive Event
  | claimed (key : StreamKey) (epoch : ℕ)
  | settled (key : StreamKey) (epoch : ℕ) (disabled : Bool)

/-- The epochs of a stream ascend; a claim is settled once, while its epoch is the last. -/
def Event.Follows (earlier : List Event) : Event → Prop
  | claimed key epoch => ∀ e, claimed key e ∈ earlier → e < epoch
  | settled key epoch _ => claimed key epoch ∈ earlier ∧ (∀ e, claimed key e ∈ earlier → e ≤ epoch) ∧
      ∀ disabled, settled key epoch disabled ∉ earlier

/-- `changes` counts what happened to each marker and `log` lists what happened to the claims,
the latest first; no step reads them. -/
structure Sys where
  now : ℕ
  streams : StreamKey → Option StreamRow
  targets : String → Dataset
  workers : StreamKey → ℕ → Option Worker
  changes : String × CognitiveGraph → ℕ
  log : List Event

namespace Sys

def start (now : ℕ) (targets : String → Dataset) : Sys where
  now := now
  streams _ := none
  targets := targets
  workers _ _ := none
  changes _ := 0
  log := []

variable (σ : Sys)

def marker (place : String × CognitiveGraph) : Finset Triple :=
  markerTriples (σ.targets place.1) place.2

def setRow (key : StreamKey) (row : StreamRow) : Sys :=
  { σ with streams := Function.update σ.streams key (some row) }

def Has (w : Worker) : Prop := σ.workers w.claim.key w.claim.epoch = some w

def setWorker (w : Worker) : Sys :=
  { σ with workers := fun key epoch =>
      if key = w.claim.key ∧ epoch = w.claim.epoch then some w else σ.workers key epoch }

def record (event : Event) : Sys := { σ with log := event :: σ.log }

/-- A target runs a request. -/
def deliver [Operators] (target : String) (ops : List (Update String)) : Sys :=
  let targets := Function.update σ.targets target (exec ops (σ.targets target))
  { σ with
    targets := targets
    changes := fun place => σ.changes place +
      if markerTriples (targets place.1) place.2 = σ.marker place then 0 else 1 }

/-- A write id stands on a marker, or stood there when it was observed. -/
def Shows (place : String × CognitiveGraph) (writeId : String) : Prop :=
  Mentions (σ.marker place) writeId ∨ ∃ w s, σ.Has w ∧ w.place = place ∧ w.sighting = some s ∧
    Mentions (marks w.graph s.terms) writeId

def Unused (writeId : String) : Prop :=
  (∀ place, ¬ σ.Shows place writeId) ∧ ∀ w r, σ.Has w → w.sent = some r → r.body.writeId ≠ writeId

/-- No other stream that is not disabled writes this graph of the target: the condition of
`projection_state_graph_unique`. -/
def Free (key : StreamKey) (graph : CognitiveGraph) : Prop :=
  ∀ key' row, key' ≠ key → σ.streams key' = some row → key'.targetId = key.targetId →
    row.cognitiveGraph = graph → row.status = .disabled

/-- One step of the operators, the workers, the clock or a target. Between two steps of a worker
anything can happen, and it may take no further step. What a worker decides to write is left
open. -/
inductive Step [Operators] [StatementReader] (σ : Sys) : Sys → Prop
  | tick (now : ℕ) (later : σ.now ≤ now) : Step σ { σ with now := now }
  | create {key : StreamKey} {tenant : TenantId} {graph : CognitiveGraph}
      (absent : σ.streams key = none) (free : σ.Free key graph) :
      Step σ (σ.setRow key { tenantId := tenant, cognitiveGraph := graph, nextAttemptAt := σ.now })
  | enable {key : StreamKey} {row : StreamRow} (found : σ.streams key = some row)
      (free : σ.Free key row.cognitiveGraph) : Step σ (σ.setRow key (row.enable σ.now))
  | disable {key : StreamKey} {row : StreamRow} (found : σ.streams key = some row) :
      Step σ (σ.setRow key (row.disable σ.now))
  | disableUnfenced {key : StreamKey} {row : StreamRow} (found : σ.streams key = some row) :
      Step σ (σ.setRow key row.disableUnfenced)
  | claim {key : StreamKey} {row : StreamRow} {mode : StreamRow.ClaimMode} {owner : String} {ttl : ℕ}
      (found : σ.streams key = some row) (claimable : row.claimable σ.now key mode = true) :
      Step σ (((σ.setRow key (row.leaseTo σ.now owner ttl)).record
        (.claimed key (row.leaseEpoch + 1))).setWorker
          { claim := (row.leaseTo σ.now owner ttl).claimFromRow key owner })
  | observe {w : Worker} {terms : List (String × MarkerTerm)} (worker : σ.Has w)
      (first : w.sighting = none) (observed : σ.marker w.place = marks w.graph terms) :
      Step σ (σ.setWorker { w with sighting := some ⟨terms, σ.changes w.place⟩ })
  | send {w : Worker} {s : Sighting} {row : StreamRow} {body : Body} {ops : List (Update String)}
      (worker : σ.Has w) (sighted : w.sighting = some s) (first : w.sent = none)
      (found : σ.streams w.claim.key = some row) (holds : row.holds σ.now w.claim = true)
      (suits : body.Suits w.claim) (unused : σ.Unused body.writeId)
      (built : body.update w.graph s.terms = .ok ops) :
      Step σ (σ.setWorker { w with sent := some ⟨s, body, ops⟩ })
  | deliver {w : Worker} {r : Sent} (worker : σ.Has w) (sent : w.sent = some r) :
      Step σ (σ.deliver w.claim.key.targetId r.ops)
  | readBack {w : Worker} {r : Sent} {terms : List (String × MarkerTerm)} (worker : σ.Has w)
      (fences : w.claim.disabling = true) (sent : w.sent = some r)
      (observed : σ.marker w.place = marks w.graph terms)
      (shows : readsBack terms r.body.writeId = true) : Step σ (σ.setWorker { w with readBack := true })
  | settle {w : Worker} {row row' : StreamRow} {outcome : StreamRow.Outcome} (worker : σ.Has w)
      (found : σ.streams w.claim.key = some row)
      (settles : row.settle σ.now w.claim outcome = some row') :
      Step σ ((σ.setRow w.claim.key row').record (.settled w.claim.key w.claim.epoch false))
  | finish {w : Worker} {row row' : StreamRow} (worker : σ.Has w) (readBack : w.readBack = true)
      (found : σ.streams w.claim.key = some row) (finishes : row.finishDisable w.claim = some row') :
      Step σ ((σ.setRow w.claim.key row').record (.settled w.claim.key w.claim.epoch true))

variable {σ} {w x : Worker} {key : StreamKey} {row row' : StreamRow} {event : Event}

theorem has_setWorker (h : (σ.setWorker w).Has x) : x = w ∨ σ.Has x := by
  change (if _ then _ else σ.workers _ _) = _ at h
  split at h
  · exact .inl (Option.some.inj h).symm
  · exact .inr h

theorem Has.eq (hw : σ.Has w) (hx : σ.Has x) (hkey : w.claim.key = x.claim.key)
    (hepoch : w.claim.epoch = x.claim.epoch) : w = x :=
  Option.some.inj (hw.symm.trans (by rw [hkey, hepoch]; exact hx))

/-! ## Leases -/

/-- What the rows and the workers keep of an event. -/
def Accounts (σ : Sys) : Event → Prop
  | .claimed key epoch => ∃ row, σ.streams key = some row ∧ epoch ≤ row.leaseEpoch
  | .settled key epoch disabled => (∃ row, σ.streams key = some row ∧ epoch ≤ row.leaseEpoch ∧
      (row.leaseEpoch = epoch → row.lease = none)) ∧ (disabled = true →
        ∃ w, σ.Has w ∧ w.claim.key = key ∧ w.claim.epoch = epoch ∧ w.readBack = true)

structure Leased (σ : Sys) : Prop where
  worker : ∀ w, σ.Has w → .claimed w.claim.key w.claim.epoch ∈ σ.log ∧
    ∃ row, σ.streams w.claim.key = some row ∧ row.cognitiveGraph = w.graph
  log : ∀ event ∈ σ.log, σ.Accounts event
  follows : ∀ later event earlier, σ.log = later ++ event :: earlier → event.Follows earlier

theorem Leased.record (h : σ.Leased) (haccounts : σ.Accounts event) (hfollows : event.Follows σ.log) :
    (σ.record event).Leased := by
  refine ⟨fun w hw => (h.worker w hw).imp_left (List.mem_cons_of_mem _),
    List.forall_mem_cons.mpr ⟨haccounts, h.log⟩, fun later e earlier hsplit => ?_⟩
  cases later with
  | nil =>
      obtain ⟨rfl, rfl⟩ := List.cons.inj hsplit
      exact hfollows
  | cons _ later => exact h.follows later e earlier (List.cons.inj hsplit).2

/-- A statement that finds a row, or creates one. -/
theorem Leased.setRow (h : σ.Leased) (hrow : ∀ row, σ.streams key = some row → row.Follows row') :
    (σ.setRow key row').Leased := by
  have hnew : ∀ k r, σ.streams k = some r → ∃ r', (σ.setRow key row').streams k = some r' ∧
      r.Follows r' := by
    intro k r hr
    by_cases hk : k = key
    · subst hk
      exact ⟨row', Function.update_self .., hrow r hr⟩
    · exact ⟨r, (Function.update_of_ne hk ..).trans hr, rfl, Nat.le_refl _, fun _ h => h⟩
  refine ⟨fun w hw => ?_, fun e he => ?_, h.follows⟩
  · obtain ⟨hclaimed, r, hr, hgraph⟩ := h.worker w hw
    obtain ⟨r', hr', hf⟩ := hnew _ r hr
    exact ⟨hclaimed, r', hr', hf.graph.trans hgraph⟩
  · have haccounts := h.log e he
    cases e with
    | claimed k e =>
        obtain ⟨r, hr, hle⟩ := haccounts
        obtain ⟨r', hr', hf⟩ := hnew k r hr
        exact ⟨r', hr', hle.trans hf.epoch⟩
    | settled k e b =>
        obtain ⟨⟨r, hr, hle, hnone⟩, hread⟩ := haccounts
        obtain ⟨r', hr', hf⟩ := hnew k r hr
        have hmono := hf.epoch
        exact ⟨⟨r', hr', hle.trans hmono, fun heq => hf.lease (by omega) (hnone (by omega))⟩, hread⟩

theorem Leased.found (h : σ.Leased) (hfound : σ.streams key = some row) (hf : row.Follows row') :
    (σ.setRow key row').Leased :=
  h.setRow fun _ hr => Option.some.inj (hfound.symm.trans hr) ▸ hf

/-- A worker moves on, or a new one takes a free place. -/
theorem Leased.setWorker (h : σ.Leased) (hx : .claimed x.claim.key x.claim.epoch ∈ σ.log ∧
      ∃ row, σ.streams x.claim.key = some row ∧ row.cognitiveGraph = x.graph)
    (hback : ∀ w, σ.Has w → w.claim.key = x.claim.key → w.claim.epoch = x.claim.epoch →
      w.readBack = true → x.readBack = true) : (σ.setWorker x).Leased := by
  refine ⟨fun y hy => ?_, fun e he => ?_, h.follows⟩
  · rcases has_setWorker hy with rfl | hy
    · exact hx
    · exact h.worker y hy
  · have haccounts := h.log e he
    cases e with
    | claimed k e => exact haccounts
    | settled k e b =>
        refine ⟨haccounts.1, fun hb => ?_⟩
        obtain ⟨y, hy, rfl, rfl, hread⟩ := haccounts.2 hb
        by_cases hslot : y.claim.key = x.claim.key ∧ y.claim.epoch = x.claim.epoch
        · exact ⟨x, if_pos ⟨rfl, rfl⟩, hslot.1.symm, hslot.2.symm, hback y hy hslot.1 hslot.2 hread⟩
        · exact ⟨y, (if_neg hslot).trans hy, rfl, rfl, hread⟩

theorem Leased.le_epoch (h : σ.Leased) (hfound : σ.streams key = some row) {e : ℕ}
    (he : .claimed key e ∈ σ.log) : e ≤ row.leaseEpoch := by
  obtain ⟨r, hr, hle⟩ := h.log _ he
  exact Option.some.inj (hfound.symm.trans hr) ▸ hle

theorem Leased.settle (h : σ.Leased) (hw : σ.Has w) (hfound : σ.streams w.claim.key = some row)
    (hends : row.Ends w.claim row') (b : Bool) (hb : b = true → w.readBack = true) :
    ((σ.setRow w.claim.key row').record (.settled w.claim.key w.claim.epoch b)).Leased := by
  refine (h.found hfound hends.follows).record ⟨⟨row', Function.update_self ..,
    (hends.epoch.trans hends.held).ge, fun _ => hends.lease⟩, fun hb' => ⟨w, hw, rfl, rfl, hb hb'⟩⟩
    ⟨(h.worker w hw).1, fun e he => hends.held ▸ h.le_epoch hfound he, fun b' hb' => ?_⟩
  obtain ⟨⟨r, hr, -, hnone⟩, -⟩ := h.log _ hb'
  obtain rfl := Option.some.inj (hfound.symm.trans hr)
  exact hends.leased (hnone hends.held)

theorem Leased.claim (h : σ.Leased) (hfound : σ.streams key = some row) (owner : String) (ttl : ℕ) :
    (((σ.setRow key (row.leaseTo σ.now owner ttl)).record (.claimed key (row.leaseEpoch + 1))).setWorker
      { claim := (row.leaseTo σ.now owner ttl).claimFromRow key owner }).Leased := by
  have hset : (σ.setRow key (row.leaseTo σ.now owner ttl)).Leased :=
    h.found hfound ⟨rfl, Nat.le_succ _, fun heq => absurd heq (Nat.succ_ne_self _)⟩
  have hrecord : ((σ.setRow key (row.leaseTo σ.now owner ttl)).record
      (.claimed key (row.leaseEpoch + 1))).Leased :=
    hset.record ⟨_, Function.update_self .., Nat.le_refl _⟩
      fun e he => Nat.lt_succ_of_le (h.le_epoch hfound he)
  refine hrecord.setWorker ⟨List.mem_cons_self, _, Function.update_self .., rfl⟩
    fun w hw hkey hepoch _ => ?_
  -- the new worker takes no place that was taken before
  have hle := h.le_epoch ((congrArg σ.streams hkey).trans hfound) (h.worker w hw).1
  exact absurd (hepoch.symm.trans_le hle) (Nat.not_succ_le_self _)

theorem Leased.step [Operators] [StatementReader] {σ' : Sys} (h : σ.Leased) (hstep : σ.Step σ') :
    σ'.Leased := by
  have hmoves : ∀ {w x}, σ.Has w → x.claim = w.claim → (w.readBack = true → x.readBack = true) →
      (σ.setWorker x).Leased := by
    intro w x hw hx hback
    refine h.setWorker (by rw [Worker.graph, hx]; exact h.worker w hw) fun y hy hkey hepoch => ?_
    rw [hx] at hkey hepoch
    exact hy.eq hw hkey hepoch ▸ hback
  cases hstep with
  | tick => exact ⟨h.worker, h.log, h.follows⟩
  | create absent => exact h.setRow fun r hr => absurd (absent.symm.trans hr) (by simp)
  | enable found => exact h.found found StreamRow.follows_enable
  | disable found => exact h.found found ⟨rfl, Nat.le_refl _, fun _ h => h⟩
  | disableUnfenced found => exact h.found found ⟨rfl, Nat.le_refl _, fun _ _ => rfl⟩
  | claim found => exact h.claim found _ _
  | observe worker => exact hmoves worker rfl id
  | send worker => exact hmoves worker rfl id
  | deliver => exact ⟨h.worker, h.log, h.follows⟩
  | readBack worker => exact hmoves worker rfl fun _ => rfl
  | settle worker found settles =>
      exact h.settle worker found (StreamRow.ends_of_settle settles) _ nofun
  | finish worker readBack found finishes =>
      exact h.settle worker found (StreamRow.ends_of_finishDisable finishes) _ fun _ => readBack

theorem Leased.place_eq (h : σ.Leased) (hw : σ.Has w) (hx : σ.Has x)
    (hkey : x.claim.key = w.claim.key) : x.place = w.place := by
  obtain ⟨-, row, hrow, hgraph⟩ := h.worker w hw
  obtain ⟨-, row', hrow', hgraph'⟩ := h.worker x hx
  rw [hkey] at hrow'
  obtain rfl := Option.some.inj (hrow.symm.trans hrow')
  exact Prod.ext (congrArg StreamKey.targetId hkey) (hgraph'.symm.trans hgraph)

/-! ## Markers -/

/-- Two workers use different write ids, and the observations of a stream are in the order of its
epochs. -/
structure Apart (w x : Worker) : Prop where
  own : ∀ r q, w.sent = some r → x.sent = some q → r.body.writeId = q.body.writeId →
    w.claim.key = x.claim.key ∧ w.claim.epoch = x.claim.epoch
  ordered : ∀ r s, w.sent = some r → x.sighting = some s → w.claim.key = x.claim.key →
    w.claim.epoch < x.claim.epoch → r.sighting.seen ≤ s.seen

theorem Apart.of_claim (h : w.claim = x.claim) : Apart w x :=
  ⟨fun _ _ _ _ _ => ⟨h ▸ rfl, h ▸ rfl⟩, fun _ _ _ _ _ hlt => absurd (h ▸ hlt) (lt_irrefl _)⟩

variable [StatementReader]

/-- What the observation and the request of a worker say of the markers as they stand. -/
structure Fits (σ : Sys) (w : Worker) : Prop where
  sighting : ∀ s, w.sighting = some s → s.seen ≤ σ.changes w.place ∧
    (σ.marker w.place = marks w.graph s.terms → s.seen = σ.changes w.place)
  sent : ∀ r, w.sent = some r → w.sighting = some r.sighting ∧
    r.body.update w.graph r.sighting.terms = .ok r.ops ∧
      (σ.Shows w.place r.body.writeId → r.sighting.seen < σ.changes w.place)
  apart : ∀ x, σ.Has x → Apart w x ∧ Apart x w
  readBack : w.readBack = true → ∃ r, w.sent = some r ∧ r.sighting.seen < σ.changes w.place

def Fenced (σ : Sys) : Prop := ∀ w, σ.Has w → σ.Fits w

theorem Fenced.congr {σ' : Sys} (h : σ.Fenced) (hworkers : σ'.workers = σ.workers)
    (htargets : σ'.targets = σ.targets) (hchanges : σ'.changes = σ.changes) : σ'.Fenced := by
  obtain ⟨now, streams, targets, workers, changes, log⟩ := σ'
  cases hworkers
  cases htargets
  cases hchanges
  exact fun w hw => ⟨(h w hw).sighting, (h w hw).sent, (h w hw).apart, (h w hw).readBack⟩

/-- A worker moves on, or a new one comes. -/
theorem Fenced.setWorker (h : σ.Fenced) (hw : σ.Fits w)
    (hnew : ∀ s, w.sighting = some s → ∀ id, Mentions (marks w.graph s.terms) id → σ.Shows w.place id) :
    (σ.setWorker w).Fenced := by
  have hshows : ∀ place id, (σ.setWorker w).Shows place id → σ.Shows place id := by
    rintro place id (hid | ⟨x, s, hx, rfl, hs, hid⟩)
    · exact .inl hid
    · rcases has_setWorker hx with rfl | hx
      · exact hnew s hs id hid
      · exact .inr ⟨x, s, hx, rfl, hs, hid⟩
  have hfits : ∀ y, (σ.setWorker w).Has y → σ.Fits y ∧ (Apart y w ∧ Apart w y) := by
    intro y hy
    rcases has_setWorker hy with rfl | hy
    · exact ⟨hw, .of_claim rfl, .of_claim rfl⟩
    · exact ⟨h y hy, (hw.apart y hy).symm⟩
  intro y hy
  obtain ⟨hfit, hapart⟩ := hfits y hy
  refine ⟨hfit.sighting, fun r hr => ?_, fun x hx => ?_, hfit.readBack⟩
  · obtain ⟨hs, hbuilt, hshown⟩ := hfit.sent r hr
    exact ⟨hs, hbuilt, fun hid => hshown (hshows _ _ hid)⟩
  · rcases has_setWorker hx with rfl | hx
    · exact hapart
    · exact hfit.apart x hx

theorem Fenced.observe (h : σ.Fenced) (hleased : σ.Leased) (hw : σ.Has w) (hfirst : w.sighting = none)
    {terms : List (String × MarkerTerm)} (hmarker : σ.marker w.place = marks w.graph terms) :
    (σ.setWorker { w with sighting := some ⟨terms, σ.changes w.place⟩ }).Fenced := by
  have hunsent : ∀ r, w.sent ≠ some r := fun r hr => by simp [((h w hw).sent r hr).1] at hfirst
  refine h.setWorker ⟨fun s hs => ?_, fun r hr => absurd hr (hunsent r), fun x hx => ⟨?_, ?_⟩,
    (h w hw).readBack⟩ fun s hs id hid => ?_
  · cases hs
    exact ⟨Nat.le_refl _, fun _ => rfl⟩
  · exact ⟨fun r _ hr => absurd hr (hunsent r), fun r _ hr => absurd hr (hunsent r)⟩
  · refine ⟨fun _ r _ hr => absurd hr (hunsent r), fun q s hq hs hkey _ => ?_⟩
    cases hs
    obtain ⟨hsighting, -, -⟩ := (h x hx).sent q hq
    exact hleased.place_eq hw hx hkey ▸ ((h x hx).sighting _ hsighting).1
  · cases hs
    exact .inl (hmarker ▸ hid)

theorem Fenced.send (h : σ.Fenced) (hleased : σ.Leased) (hw : σ.Has w) {s : Sighting} {body : Body}
    {ops : List (Update String)} (hs : w.sighting = some s) (hfirst : w.sent = none)
    (hfound : σ.streams w.claim.key = some row) (hholds : row.holds σ.now w.claim = true)
    (hunused : σ.Unused body.writeId) (hbuilt : body.update w.graph s.terms = .ok ops) :
    (σ.setWorker { w with sent := some ⟨s, body, ops⟩ }).Fenced := by
  refine h.setWorker ⟨(h w hw).sighting, fun r hr => ?_, fun x hx => ⟨⟨fun r q hr hq hid => ?_,
    fun r s hr hs hkey hlt => ?_⟩, fun q r hq hr hid => ?_, ((h w hw).apart x hx).2.ordered⟩,
    fun hread => ?_⟩ fun s hs id hid => .inr ⟨w, s, hw, rfl, hs, hid⟩
  · cases hr
    exact ⟨hs, hbuilt, fun hid => absurd hid (hunused.1 _)⟩
  · cases hr
    exact absurd hid.symm (hunused.2 x q hx hq)
  · -- the lease is held, so no later epoch was given out
    have hle := hleased.le_epoch (hkey ▸ hfound) (hleased.worker x hx).1
    exact absurd (hle.trans (StreamRow.epoch_of_holds hholds).le) hlt.not_ge
  · cases hr
    exact absurd hid (hunused.2 x q hx hq)
  · obtain ⟨r, hr, -⟩ := (h w hw).readBack hread
    simp [hr] at hfirst

variable [Operators]

/-- A request leaves a marker, or it applies for the first time. -/
theorem Fenced.deliver_cases (h : σ.Fenced) (hw : σ.Has w) {r : Sent} (hr : w.sent = some r)
    (place : String × CognitiveGraph) {σ' : Sys} (hσ' : σ.deliver w.claim.key.targetId r.ops = σ') :
    (σ'.marker place = σ.marker place ∧ σ'.changes place = σ.changes place) ∨
      place = w.place ∧ σ'.changes place = σ.changes place + 1 ∧
        r.sighting.seen = σ.changes place ∧ ¬ σ.Shows place r.body.writeId ∧
          ∀ id, Mentions (σ'.marker place) id ↔ id = r.body.writeId := by
  obtain ⟨target, graph⟩ := place
  have hchanges : σ'.changes (target, graph) = σ.changes (target, graph) +
      if σ'.marker (target, graph) = σ.marker (target, graph) then 0 else 1 := hσ' ▸ rfl
  have hmarker : σ'.marker (target, graph) = markerTriples (Function.update σ.targets
      w.claim.key.targetId (exec r.ops (σ.targets w.claim.key.targetId)) target) graph := hσ' ▸ rfl
  by_cases hsame : σ'.marker (target, graph) = σ.marker (target, graph)
  · exact .inl ⟨hsame, hchanges.trans (congrArg _ (if_pos hsame))⟩
  rw [if_neg hsame] at hchanges
  have htarget : target = w.claim.key.targetId := by
    by_contra hne
    exact hsame (by rw [hmarker, Function.update_of_ne hne, Sys.marker])
  subst htarget
  rw [Function.update_self] at hmarker
  obtain ⟨hs, hbuilt, hshown⟩ := (h w hw).sent r hr
  obtain ⟨hframe, heffect⟩ := Body.effect (d := σ.targets w.claim.key.targetId) hbuilt
  have hgraph : graph = w.graph := by
    by_contra hne
    exact hsame (hmarker.trans (hframe.markerTriples_eq hne))
  subst hgraph
  rcases heffect with hholds | ⟨hold, honly⟩
  · exact absurd (hmarker.trans hholds.marker) hsame
  · have hseen := ((h w hw).sighting _ hs).2 hold
    exact .inr ⟨rfl, hchanges, hseen, fun hid => (hshown hid).ne hseen, hmarker ▸ honly⟩

theorem Fenced.deliver (h : σ.Fenced) (hw : σ.Has w) {r : Sent} (hr : w.sent = some r) :
    (σ.deliver w.claim.key.targetId r.ops).Fenced := by
  intro y hy
  have hfit := h y hy
  rcases h.deliver_cases hw hr y.place rfl with ⟨hm, hc⟩ | ⟨hplace, hc, hseen, hnot, honly⟩
  · refine ⟨hm ▸ hc ▸ hfit.sighting, ?_, hfit.apart, hc ▸ hfit.readBack⟩
    rw [hc]
    simp only [Shows, hm]
    exact hfit.sent
  · refine ⟨fun s hs => ⟨hc ▸ Nat.le_succ_of_le (hfit.sighting s hs).1, fun hmarks => ?_⟩,
      fun q hq => ?_, hfit.apart, fun hread => ?_⟩
    · exact absurd (.inr ⟨y, s, hy, rfl, hs, hmarks ▸ (honly _).mpr rfl⟩) hnot
    · obtain ⟨hs, hbuilt, hshown⟩ := hfit.sent q hq
      refine ⟨hs, hbuilt, fun hid => hc ▸ Nat.lt_succ_of_le ?_⟩
      rcases hid with hid | hid
      · obtain ⟨hkey, hepoch⟩ := (hfit.apart w hw).1.own q r hq hr ((honly _).mp hid)
        obtain rfl := Has.eq hy hw hkey hepoch
        exact Option.some.inj (hr.symm.trans hq) ▸ hseen.le
      · exact (hshown (.inr hid)).le
    · obtain ⟨q, hq, hlt⟩ := hfit.readBack hread
      exact ⟨q, hq, hc ▸ Nat.lt_succ_of_lt hlt⟩

theorem Fenced.step {σ' : Sys} (h : σ.Fenced) (hleased : σ.Leased) (hstep : σ.Step σ') : σ'.Fenced := by
  cases hstep with
  | tick => exact h.congr rfl rfl rfl
  | create => exact h.congr rfl rfl rfl
  | enable => exact h.congr rfl rfl rfl
  | disable => exact h.congr rfl rfl rfl
  | disableUnfenced => exact h.congr rfl rfl rfl
  | settle => exact h.congr rfl rfl rfl
  | finish => exact h.congr rfl rfl rfl
  | claim =>
      refine (Fenced.setWorker (h.congr rfl rfl rfl) ⟨?_, ?_, fun x hx => ⟨⟨?_, ?_⟩, ?_, ?_⟩, ?_⟩
        ?_).congr rfl rfl rfl
      all_goals
        intros
        contradiction
  | observe worker first observed => exact h.observe hleased worker first observed
  | send worker sighted first found holds _ unused built =>
      exact h.send hleased worker sighted first found holds unused built
  | deliver worker sent => exact h.deliver worker sent
  | @readBack w r _ worker _ sent observed shows =>
      have hfit := h w worker
      refine h.setWorker ⟨hfit.sighting, hfit.sent, fun x hx => ?_, fun _ => ⟨r, sent, ?_⟩⟩
        fun s hs id hid => .inr ⟨w, s, worker, rfl, hs, hid⟩
      · exact ⟨⟨(hfit.apart x hx).1.own, (hfit.apart x hx).1.ordered⟩, (hfit.apart x hx).2.own,
          (hfit.apart x hx).2.ordered⟩
      · exact (hfit.sent r sent).2.2 (.inl (observed ▸ mentions_of_readsBack shows))

end Sys

/-! ## Runs -/

variable [Operators] [StatementReader]

/-- A state of the system, from any targets and no streams. -/
structure ProjectorRun where
  now : ℕ
  targets : String → Dataset
  state : Sys
  steps : Relation.ReflTransGen Sys.Step (Sys.start now targets) state

theorem ProjectorRun.invariant (run : ProjectorRun) : run.state.Leased ∧ run.state.Fenced := by
  obtain ⟨now, targets, state, steps⟩ := run
  induction steps with
  | refl =>
      refine ⟨⟨fun _ h => ?_, fun _ h => ?_, fun later _ _ h => ?_⟩, fun _ h => ?_⟩
      · contradiction
      · contradiction
      · cases later <;> cases h
      · contradiction
  | tail _ hstep ih => exact ⟨ih.1.step hstep, ih.2.step ih.1 hstep⟩

/-- The request of `w` can do nothing to its graph. -/
def Sys.Harmless (σ : Sys) (w : Worker) : Prop :=
  ∀ r, w.sent = some r → Holds w.graph ((σ.targets w.claim.key.targetId).graph w.graph.asIri)
    (σ.marker w.place) (exec r.ops (σ.targets w.claim.key.targetId))

def Sys.RidOfRequests (σ : Sys) : Prop :=
  ∀ later key epoch earlier, σ.log = later ++ .settled key epoch true :: earlier →
    ∀ w, σ.Has w → w.claim.key = key → .claimed key w.claim.epoch ∈ earlier → σ.Harmless w

/-- Epochs ascend, and a claim is settled at most once and before any later claim. -/
theorem claims_are_settled_once (run : ProjectorRun) :
    (∀ later event earlier, run.state.log = later ++ event :: earlier → event.Follows earlier) ∧
    ∀ w, run.state.Has w → .claimed w.claim.key w.claim.epoch ∈ run.state.log :=
  ⟨run.invariant.1.follows, fun w hw => (run.invariant.1.worker w hw).1⟩

/-- Once a stream was disabled behind a fence, no request of a claim taken before can change its
graph or its marker, however late it runs and whoever uses the graph then. -/
theorem disabled_streams_are_fenced (run : ProjectorRun) : run.state.RidOfRequests := by
  obtain ⟨hleased, hfenced⟩ := run.invariant
  intro later key epoch earlier hlog w hw hkey hbefore r hr
  obtain ⟨-, hlast, -⟩ := hleased.follows later _ earlier hlog
  obtain ⟨f, hf, hfkey, hfepoch, hread⟩ :=
    (hleased.log (.settled key epoch true) (by simp [hlog])).2 rfl
  obtain ⟨q, hq, hchanged⟩ := (hfenced f hf).readBack hread
  have hsight := ((hfenced f hf).sent q hq).1
  -- the fence's observation is no earlier than the request's, and the marker has changed since
  have hseen : r.sighting.seen ≤ q.sighting.seen := by
    rcases (hlast _ hbefore).lt_or_eq with hlt | heq
    · exact ((hfenced w hw).apart f hf).1.ordered r _ hr hsight (hkey.trans hfkey.symm) (hfepoch ▸ hlt)
    · obtain rfl := Sys.Has.eq hw hf (hkey.trans hfkey.symm) (heq.trans hfepoch.symm)
      rw [Option.some.inj (hr.symm.trans hq)]
  have hplace := hleased.place_eq hw hf (hfkey.trans hkey.symm)
  obtain ⟨hs, hbuilt, -⟩ := (hfenced w hw).sent r hr
  rcases (Body.effect hbuilt).2 with hholds | ⟨hold, -⟩
  · exact hholds
  · have hnow := ((hfenced w hw).sighting _ hs).2 hold
    rw [hplace, ← hnow] at hchanged
    exact absurd hchanged hseen.not_gt

end CognitiveLedger.Projection
