import CognitiveLedger.Store.EffectGrowth

/-!
# Every new result can be replayed

A transaction of a scope records its result with its rows. Whoever asks again
with the same digest is answered from these rows as the transaction answered.
-/

set_option linter.unusedSectionVars false

namespace CognitiveLedger

open Logs ExceptRules

section Replay

variable [NQuadsParser] {d : Db} {row : IdempotencyRow} {scope scope' : RequestScope}

theorem replayReply_congr (hdigest : scope'.requestDigest = scope.requestDigest)
    (hgraph : scope'.graph = scope.graph) (operation : WorkflowOperation) :
    replayReply operation row scope' d = replayReply operation row scope d := by
  cases operation <;>
    simp only [replayReply, replayPrepared, replayAccepted, replayRejected, replayBranch,
      replayMergeProposed, replayMergeApplied, checkDigest, hdigest, hgraph]

theorem Replayable.of_reply {reply : Reply} (hkey : scope.key row.scope.operation = row.scope)
    (hdigest : scope.requestDigest = row.requestDigest)
    (h : replayReply row.scope.operation row scope d = .ok reply) : Replayable d row := by
  intro scope' hkey' hdigest'
  refine ⟨reply, ?_⟩
  rw [replayReply_congr (hdigest'.trans hdigest.symm), h]
  exact congrArg ScopeKey.graphId (hkey'.trans hkey.symm)

end Replay

variable [NQuadsParser] [Sha256] [TimeCrate] [StrDebug]
variable {host : Host} {pid : ℕ} {d d' : Db}

theorem Db.DecisionsOk.exists_event (h : d.DecisionsOk) {o : OutboxRow} (ho : o ∈ d.outbox) :
    ∃ e ∈ d.refEvents, e.audited = true ∧ e.eventId = o.refEventId ∧ e.graphId = o.graphId ∧
      e.branch = o.branch ∧ e.newHead = o.commitId ∧ e.newVersion = o.refVersion := by
  have hmem := List.mem_map_of_mem (f := fun o : OutboxRow =>
    (o.refEventId, o.graphId, o.branch, o.commitId, o.refVersion)) ho
  rw [h.outbox] at hmem
  obtain ⟨e, he, heq⟩ := List.mem_map.mp hmem
  obtain ⟨hmem, haudited⟩ := List.mem_filter.mp he
  simp only [Prod.mk.injEq] at heq
  exact ⟨e, hmem, haudited, heq⟩

theorem movementOf_append (hinv : d.Inv) (hfresh : d.Fresh host pid) {x : DecisionRow}
    {o : OutboxRow} (hdecisions : d'.decisions = d.decisions ++ [x])
    (houtbox : d'.outbox = d.outbox ++ [o]) (hx : x.decisionId = host.next .decisions pid)
    (hevent : x.refEventId = some (host.next .refEvents pid))
    (ho : o.refEventId = host.next .refEvents pid) (hid : o.outboxId = host.next .outbox pid) :
    d'.movementOf (host.next .decisions pid) =
      some (host.next .refEvents pid, host.next .outbox pid) := by
  have hdecision : d'.decisions.find? (·.decisionId = host.next .decisions pid) = some x := by
    rw [hdecisions]
    exact find?_append_self (fun y hy => by simpa using hfresh.decisions y hy) (by simpa using hx)
  have hrow : d'.outbox.find? (·.refEventId = host.next .refEvents pid) = some o := by
    rw [houtbox]
    refine find?_append_self (fun y hy => ?_) (by simpa using ho)
    obtain ⟨e, he, -, hid, -⟩ := hinv.decisions.exists_event hy
    simpa [← hid] using hfresh.refEvents e he
  rw [Db.movementOf, hdecision, Option.bind_some, hevent, Option.bind_some, hrow, Option.map_some,
    hid]

theorem PrepareEffect.answer {deployment : Deployment} {r : PrepareRequest} {effective : Patch}
    {recordedAt : LedgerTimestamp} {id : CommitId}
    (h : PrepareEffect host pid deployment r effective recordedAt id d d') :
    replayReply .prepare (r.result id (host.next .proposals pid)) r.scope d' =
      .ok (.prepared ⟨host.next .proposals pid, id, r.requested.id, effective.id, true⟩) := by
  have hfind : d'.proposals.find? (·.proposalId = host.next .proposals pid) =
      some (r.proposal effective id (host.next .proposals pid)) := by
    rw [h.after]
    exact find?_append_self (fun y hy => by simpa using h.admitted.fresh.proposals y hy)
      (by simp [PrepareRequest.proposal])
  simp [replayReply, replayPrepared, checkDigest, PrepareRequest.result, expect, hfind,
    PrepareRequest.proposal]

theorem AcceptRequest.replay_result {r : AcceptRequest} {version proposalId : ℕ}
    (h : d'.movementOf (host.next .decisions pid) =
      some (host.next .refEvents pid, host.next .outbox pid)) :
    replayReply .accept (r.result host pid version proposalId) r.scope d' =
      .ok (.accepted ⟨host.next .decisions pid, host.next .refEvents pid, host.next .outbox pid,
        version, r.candidate, true⟩) := by
  simp [replayReply, replayAccepted, checkDigest, AcceptRequest.result, expect, h]

/-- The version that an acceptance or a merge gives its branch. -/
def nextVersion (old : Option RefRow) : ℕ := old.elim 1 (·.version + 1)

theorem AcceptMove.answer {r : AcceptRequest} {p : ProposalRow} {cited : Option ValidationRow}
    (hinv : d.Inv) (hfresh : d.Fresh host pid) (h : AcceptMove host pid r p cited d d') :
    d'.idempotency = d.idempotency ++ [r.result host pid
        (nextVersion (d.refs r.scope.graph r.branch)) p.proposalId] ∧
      d'.movementOf (host.next .decisions pid) =
        some (host.next .refEvents pid, host.next .outbox pid) := by
  cases h with
  | genesis main first noRef noBranch root =>
      rw [noRef]
      exact ⟨rfl, movementOf_append hinv hfresh rfl rfl rfl rfl rfl rfl⟩
  | advance ref branch active current parents distinct validated =>
      rw [ref]
      exact ⟨rfl, movementOf_append hinv hfresh rfl rfl rfl rfl rfl rfl⟩

theorem RejectRequest.replay_result {r : RejectRequest} {proposalId : ℕ} :
    replayReply .reject (r.result host pid proposalId) r.scope d' =
      .ok (.rejected ⟨host.next .decisions pid, true⟩) := by
  simp [replayReply, replayRejected, checkDigest, RejectRequest.result, expect]

theorem replayBranch_result {scope : RequestScope} {operation : WorkflowOperation}
    {kind : ResultKind} {event : BranchEventRow} (hgraph : event.graphId = scope.graph)
    (hid : event.eventId = host.next .branchEvents pid) (hfresh : d.Fresh host pid)
    (hevents : d'.branchEvents = d.branchEvents ++ [event]) :
    replayBranch kind (branchResult scope operation kind event) scope d' = .ok ⟨event, true⟩ := by
  have hfind : d'.branchEvents.find? (fun e => e.eventId = event.eventId ∧ e.graphId = scope.graph) =
      some event := by
    rw [hevents]
    refine find?_append_self (fun y hy => ?_) (by simp [hgraph])
    have hne : y.eventId ≠ event.eventId := hid ▸ hfresh.branchEvents y hy
    simp [hne]
  simp [replayBranch, checkDigest, branchResult, expect, hfind, -Bool.decide_and]

theorem ProposeEffect.answer {deployment : Deployment} {r : ProposeMergeRequest} {q : Proposal}
    (hinv : d.Inv) (h : ProposeEffect host pid deployment r q d d') :
    d'.mergeRow r.scope.graph (host.next .proposals pid) = some (r.row host pid q) ∧
      replayReply .mergePropose (r.result q.id (host.next .proposals pid)) r.scope d' =
        .ok (.mergeProposed (proposedFromRow (r.row host pid q) true)) := by
  have hfind : d'.mergeRow r.scope.graph (host.next .proposals pid) = some (r.row host pid q) := by
    rw [h.after]
    refine find?_append_self (fun m hm => ?_) (by
      simp [ProposeMergeRequest.row, ProposeMergeRequest.mergeRow])
    -- a merge row has the number of its proposal
    obtain ⟨p, hp, hid, -⟩ := (hinv.merges.merges m hm).proposal
    have hne : m.proposalId ≠ host.next .proposals pid := hid ▸ h.admitted.fresh.proposals p hp
    simp [hne]
  refine ⟨hfind, ?_⟩
  simp [replayReply, replayMergeProposed, checkDigest, ProposeMergeRequest.result, expect, hfind]

theorem ApplyMergeRequest.replay_result {r : ApplyMergeRequest} {m : MergeRow}
    {version proposalId : ℕ} (h : d'.movementOf (host.next .decisions pid) =
      some (host.next .refEvents pid, host.next .outbox pid)) :
    replayReply .mergeApply (r.result host pid m version proposalId) r.scope d' =
      .ok (.mergeApplied ⟨host.next .decisions pid, host.next .refEvents pid,
        host.next .outbox pid, version, m.candidate, true⟩) := by
  simp [replayReply, replayMergeApplied, checkDigest, ApplyMergeRequest.result, expect, h]

end CognitiveLedger
