import CognitiveLedger.Store.DecisionSteps
import CognitiveLedger.Store.Locked

/-!
# The transactions have their effects

Each program commits only with its effect, holding an exclusive lock on whatever
it changes, and a successful reply is what the stored result of its scope says.
-/

set_option linter.unusedSectionVars false

namespace CognitiveLedger

open ReadCommitted Logs ExceptRules ImmutableRows

variable [NQuadsParser] [Sha256] [TimeCrate] [StrDebug]
variable {host : Host} {pid : ℕ} {held : List (LockName × Mode)} {d₀ : Db} {X : List LockName}
variable {K : Db → Prop}

/-- The scope's stored result says `reply`. -/
def Answers (scope : RequestScope) (operation : WorkflowOperation) (reply : Reply) (d : Db) : Prop :=
  ∃ row, d.storedResult (scope.key operation) = some row ∧
    replayReply operation row scope d = .ok reply.asReplay

theorem Answers.of_append {scope : RequestScope} {operation : WorkflowOperation} {reply : Reply}
    {d d' : Db} {row : IdempotencyRow} (hresults : d'.idempotency = d.idempotency ++ [row])
    (hunstored : ∀ r ∈ d.idempotency, r.scope ≠ scope.key operation)
    (hkey : row.scope = scope.key operation)
    (hreply : replayReply operation row scope d' = .ok reply.asReplay) :
    Answers scope operation reply d' := by
  refine ⟨row, ?_, hreply⟩
  rw [Db.storedResult, hresults]
  exact find?_append_self (fun r hr => by simpa using hunstored r hr) (by simpa using hkey)

section Replays

variable {scope : RequestScope} {row : IdempotencyRow} {d : Db}

theorem Answers.of_prepared {a : Prepared} (hstored : d.storedResult (scope.key .prepare) = some row)
    (h : replayPrepared row scope d = .ok a) : Answers scope .prepare (.prepared a) d := by
  have hflag := h
  simp only [replayPrepared, bind_eq_ok, pure_eq_ok, Except.ok.injEq] at hflag
  obtain ⟨_, -, _, -, _, -, _, -, _, -, rfl⟩ := hflag
  exact ⟨row, hstored, by rw [replayReply, h]; rfl⟩

theorem Answers.of_accepted {a : Accepted} (hstored : d.storedResult (scope.key .accept) = some row)
    (h : replayAccepted row scope d = .ok a) : Answers scope .accept (.accepted a) d := by
  have hflag := h
  simp only [replayAccepted, bind_eq_ok, pure_eq_ok, Except.ok.injEq] at hflag
  obtain ⟨_, -, _, -, _, -, _, -, _, -, _, -, rfl⟩ := hflag
  exact ⟨row, hstored, by rw [replayReply, h]; rfl⟩

theorem Answers.of_rejected {a : Rejected} (hstored : d.storedResult (scope.key .reject) = some row)
    (h : replayRejected row scope d = .ok a) : Answers scope .reject (.rejected a) d := by
  have hflag := h
  simp only [replayRejected, bind_eq_ok, pure_eq_ok, Except.ok.injEq] at hflag
  obtain ⟨_, -, _, -, _, -, rfl⟩ := hflag
  exact ⟨row, hstored, by rw [replayReply, h]; rfl⟩

theorem replayBranch_asReplay {kind : ResultKind} {a : BranchOutcome}
    (h : replayBranch kind row scope d = .ok a) : (Reply.branch a).asReplay = .branch a := by
  simp only [replayBranch, bind_eq_ok, pure_eq_ok, Except.ok.injEq] at h
  obtain ⟨_, -, _, -, _, -, _, -, rfl⟩ := h
  rfl

theorem Answers.of_mergeProposed {a : MergeProposed}
    (hstored : d.storedResult (scope.key .mergePropose) = some row)
    (h : replayMergeProposed row scope d = .ok a) :
    Answers scope .mergePropose (.mergeProposed a) d := by
  have hflag := h
  simp only [replayMergeProposed, bind_eq_ok, pure_eq_ok, Except.ok.injEq] at hflag
  obtain ⟨_, -, _, -, _, -, _, -, rfl⟩ := hflag
  exact ⟨row, hstored, by rw [replayReply, h]; rfl⟩

theorem Answers.of_mergeApplied {a : MergeApplied}
    (hstored : d.storedResult (scope.key .mergeApply) = some row)
    (h : replayMergeApplied row scope d = .ok a) :
    Answers scope .mergeApply (.mergeApplied a) d := by
  have hflag := h
  simp only [replayMergeApplied, bind_eq_ok, pure_eq_ok, Except.ok.injEq] at hflag
  obtain ⟨_, -, _, -, _, -, _, -, _, -, _, -, rfl⟩ := hflag
  exact ⟨row, hstored, by rw [replayReply, h]; rfl⟩

end Replays

/-! ## Prepare -/

section Prepare

variable {deployment : Deployment} {r : PrepareRequest}

theorem meets_prepareCandidate {effective : Patch}
    (hk : Knows (ledgerDiscipline host) pid ⟨held, id, d₀⟩ X fun x =>
      Admitted host pid r.scope .prepare x ∧
        (∀ h, r.expectedHead = some h → x.WasHead r.scope.graph r.branch h) ∧
        ∃ line isProtected, x.rows.Replays r.expectedHead line ∧ deployment.limits.Fits line ∧
          effectivePatch deployment (reconstructed line) r.requested isProtected = .ok effective)
    (hX : .idempotency (r.scope.key .prepare) ∈ X) :
    Meets (ledgerDiscipline host) pid (Effect host pid (.prepare deployment r))
      (prepareCandidate host deployment r effective pid).run
      (Oks fun a v => Answers r.scope .prepare (.prepared a) v.seen) ⟨held, id, d₀⟩ := by
  refine meets_publishObject (.start hk) fun held₁ d₁ X₁ hX₁ _ hk₁ => ?_
  refine meets_publishObject hk₁ fun held₂ d₂ X₂ hX₂ _ hk₂ => ?_
  refine Tx.oks_lift fun recordedAt _ => ?_
  refine meets_publishCandidate hk₂ (fun rows => Published.commitIndex_objects rows
    [r.requested, effective]) fun held₃ d₃ X₃ id hX₃ hvalid hid hk₃ => ?_
  refine meets_insertProposal hk₃.finish (fun _ => rfl) fun held₄ d₄ hk₄ => Tx.meets_write ?_
  refine Tx.knows_commit (fun x => x.proposed
    (candidateRows [r.requested, effective] (r.candidate effective recordedAt) id)
    (r.proposal effective id (host.next .proposals pid)) (r.result id (host.next .proposals pid)))
    (hk₄.pending _) rfl fun d hinv hK => ?_
  obtain ⟨⟨⟨⟨⟨⟨⟨hadmitted, hexpected, hdelta⟩, hrequested⟩, heffective⟩, hparents⟩, hleft⟩,
    hcovered⟩, hnew⟩ := hK
  have heffect : PrepareEffect host pid deployment r effective recordedAt id d (d.proposed
      (candidateRows [r.requested, effective] (r.candidate effective recordedAt) id)
      (r.proposal effective id (host.next .proposals pid))
      (r.result id (host.next .proposals pid))) := by
    refine ⟨hadmitted, hexpected, hdelta, ⟨hvalid, hid, hparents, ⟨effective, by simp, rfl⟩, ?_, hleft.1,
      hleft.2⟩, hnew, rfl⟩
    intro q hq
    rcases List.mem_pair.mp hq with hq | hq
    · rw [hq]
      exact (extends_insertAll (d.rows.insertAll [r.requested.row]) [effective.row]).objects _ _
        hrequested
    · rw [hq]
      exact heffective
  refine ⟨⟨effective, recordedAt, id, heffect⟩, fun l hl => ?_, ?_⟩
  · refine Db.stable_proposed (fun h => hl ?_) (fun h => hl ?_) fun row hrow h => ?_
    · rw [h]
      exact List.mem_cons_of_mem _ (hX₃ (hX₂ (hX₁ hX)))
    · rw [h]
      exact List.mem_cons_self ..
    · refine (hcovered row hrow).resolve_right fun hmem => hl ?_
      rw [h]
      exact List.mem_cons_of_mem _ hmem
  · exact Answers.of_append rfl hadmitted.unstored rfl heffect.answer

theorem baseState_eq_ok {rows : ImmutableRows} (hrows : rows.Sound) {g : String}
    {expected : Option CommitId} (hexpected : ∀ h, expected = some h → rows.InGraph g h)
    {base : Reconstructed} (h : baseState deployment rows expected = .ok base) :
    ∃ line, rows.Replays expected line ∧ deployment.limits.Fits line ∧ base = reconstructed line := by
  cases expected with
  | none => exact ⟨[], .nil, ⟨Nat.zero_le _, trivial⟩, (Except.ok.inj h).symm⟩
  | some head => exact stateAtOnWindowed_eq_ok hrows (hexpected head rfl) h

theorem meets_prepareNew (hk : Knows (ledgerDiscipline host) pid ⟨held, id, d₀⟩ X fun x =>
      (x.Fresh host pid ∧ K x) ∧ ∀ row ∈ x.idempotency, row.scope ≠ r.scope.key .prepare)
    (hX : .idempotency (r.scope.key .prepare) ∈ X) :
    Meets (ledgerDiscipline host) pid (Effect host pid (.prepare deployment r))
      (prepareNew host deployment r pid).run
      (Oks fun a v => Answers r.scope .prepare (.prepared a) v.seen) ⟨held, id, d₀⟩ := by
  refine meets_graphMustBeActiveFor hk (fun _ => rfl) fun held₁ d₁ hk₁ => ?_
  refine meets_lockBranch hk₁ (fun _ => rfl) fun held₂ d₂ _ hk₂ => Tx.oks_lift fun _ _ => ?_
  refine meets_readRef hk₂ (fun _ => rfl) fun d₃ hk₃ => Tx.oks_lift fun _ hhead => ?_
  have hk₃' : Knows (ledgerDiscipline host) pid ⟨held₂, id, d₃⟩ X fun x =>
      Admitted host pid r.scope .prepare x ∧
        ∀ h, r.expectedHead = some h → x.WasHead r.scope.graph r.branch h := by
    refine hk₃.imp fun x hx => ?_
    obtain ⟨⟨⟨⟨⟨hfresh, -⟩, hunstored⟩, hactive⟩, -⟩, hwas⟩ := hx
    refine ⟨⟨hfresh, hunstored, hactive⟩, fun h hh => ?_⟩
    obtain ⟨row, hrow, rfl⟩ := Option.map_eq_some_iff.mp ((ensure_eq_ok.mp hhead).trans hh)
    exact hwas row hrow
  refine Tx.knows_query hk₃' fun d₄ hk₄ => Tx.oks_lift fun base hbase =>
    Tx.oks_lift fun effective heffective => ?_
  obtain ⟨line, hline, hfits, rfl⟩ := baseState_eq_ok hk₄.inv.rows
    (fun h hh => (hk₄.now.2 h hh).inGraph hk₄.inv) hbase
  refine meets_prepareCandidate ((hk₄.learn fun x hrely => hline.grow hrely.grow.rows).imp
    fun x hx => ⟨hx.1.1, hx.1.2, line, _, hx.2, hfits, heffective⟩) hX

theorem meets_prepare (hinv : d₀.Inv) (hfresh : d₀.Fresh host pid) :
    Meets (ledgerDiscipline host) pid (Effect host pid (.prepare deployment r))
      (prepare host deployment r pid).run
      (Oks fun a v => Answers r.scope .prepare (.prepared a) v.seen) { seen := d₀ } := by
  have hk := Knows.start (Δ := ledgerDiscipline host) (L := LockName) hinv hfresh
  refine Tx.oks_lift fun _ _ => Tx.oks_lift fun _ _ => meets_scoped hk ?_ fun held d hk₁ =>
    meets_prepareNew hk₁ (List.mem_cons_self ..)
  exact fun row d a held _ _ hstored hreplay => .of_prepared hstored hreplay

end Prepare

end CognitiveLedger
