import CognitiveLedger.Store.Programs

/-!
# Accept, reject and supersede have their effects
-/

set_option linter.unusedSectionVars false

namespace CognitiveLedger

open ReadCommitted Logs ExceptRules ImmutableRows

variable [NQuadsParser] [Sha256] [TimeCrate] [StrDebug]
variable {host : Host} {pid : ℕ} {held : List (LockName × Mode)} {d₀ : Db} {X : List LockName}
variable {K : Db → Prop}

/-! ## Accept -/

section Accept

variable {deployment : Deployment} {r : AcceptRequest} {p : ProposalRow}
variable {cited : Option ValidationRow}

def LineageOk (rows : ImmutableRows) (candidate : CommitId) (expected : Option CommitId)
    (operation : RefOperation) : Prop :=
  rows.parentsOf candidate = expected.toList ∧
    operation = expected.elim RefOperation.genesis fun _ => .advance

theorem checkLineage_eq_ok {d : Db} (hinv : d.Inv) {candidate : CommitId}
    {expected : Option CommitId} {row : IndexRow} {operation : RefOperation}
    (hrow : d.rows.commitIndex candidate.text = some row)
    (h : checkLineage candidate expected row.parentCount (d.rows.commitParents candidate.text 0) =
      .ok operation) : LineageOk d.rows candidate expected operation := by
  obtain ⟨commit, hindexes⟩ := hinv.rows.indexes hrow
  have hparents := parentsOf_eq hindexes.decodes
  rw [hindexes.count, hindexes.parents 0] at h
  obtain ⟨_, hone, h⟩ := bind_eq_ok.mp h
  have hone := ensure_eq_ok.mp hone
  cases expected with
  | none =>
      obtain ⟨_, hzero, h⟩ := bind_eq_ok.mp h
      obtain rfl := Except.ok.inj h
      exact ⟨by rw [hparents]; exact List.length_eq_zero_iff.mp (ensure_eq_ok.mp hzero), rfl⟩
  | some head =>
      obtain ⟨_, hfirst, h⟩ := bind_eq_ok.mp h
      obtain rfl := Except.ok.inj h
      obtain ⟨hnonzero, hfirst⟩ := ensure_eq_ok.mp hfirst
      refine ⟨?_, rfl⟩
      rw [hparents]
      match hps : commit.parents, hone, hnonzero, hfirst with
      | [], _, hnonzero, _ => exact absurd rfl hnonzero
      | [a], _, _, hfirst =>
          have htext : a.text = head.text := by simpa using hfirst
          rw [CommitId.text_injective htext]
          rfl
      | _ :: _ :: _, hone, _, _ => simp at hone

/-- The acceptance of a candidate on a locked, existing branch. -/
theorem meets_acceptRecords_advance {old : RefRow}
    (hk : Knows (ledgerDiscipline host) pid ⟨held, id, d₀⟩ X fun x =>
      AcceptEffect host pid deployment r p cited x (x.moved (r.event host pid (some old) .advance)
        old.isProtected (r.decision host pid p.proposalId cited) (r.outbox host pid (old.version + 1))
        (r.result host pid (old.version + 1) p.proposalId)))
    (hX : .idempotency (r.scope.key .accept) ∈ X ∧ .proposalDecision p.proposalId ∈ X ∧
      .ref r.scope.graph r.branch ∈ X) :
    Meets (ledgerDiscipline host) pid (Effect host pid (.accept deployment r)) (do
      moveRef r (some old)
      acceptRecords host r pid (some old) .advance p cited : LedgerTx Accepted).run
      (Oks fun a v => Answers r.scope .accept (.accepted a) v.seen) ⟨held, id, d₀⟩ := by
  refine meets_advanceRef hk fun held₁ d₁ hk₁ => Tx.meets_write ?_
  refine meets_insertDecision (hk₁.pending _) fun d₂ hk₂ => Tx.meets_write (Tx.meets_write ?_)
  refine Tx.knows_commit (fun x => x.moved (r.event host pid (some old) .advance) old.isProtected
    (r.decision host pid p.proposalId cited) (r.outbox host pid (old.version + 1))
    (r.result host pid (old.version + 1) p.proposalId)) (hk₂.pending _) rfl
    fun d hinv heffect => ⟨⟨p, cited, heffect⟩, fun l hl => ?_, ?_⟩
  · exact Db.stable_moved (fun h => hl (h ▸ hX.2.2)) (fun h => hl (h ▸ hX.2.1))
      fun h => hl (h ▸ hX.1)
  · obtain ⟨-, hmovement⟩ := heffect.move.answer hinv heffect.admitted.fresh
    exact Answers.of_append rfl heffect.admitted.unstored rfl
      (AcceptRequest.replay_result hmovement)

theorem meets_acceptRecords_genesis
    (hk : Knows (ledgerDiscipline host) pid ⟨held, id, d₀⟩ X fun x =>
      Admitted host pid r.scope .accept x ∧
      Bound r.scope.graph r.branch r.expectedHead r.candidate p x ∧
      Cites deployment.trust r.scope r.candidate x cited r.validation ∧
      r.expectedHead = none ∧ x.rows.parentsOf r.candidate = [] ∧
      (x.branches r.scope.graph r.branch = none → r.branch = "main"))
    (hX : .idempotency (r.scope.key .accept) ∈ X ∧ .proposalDecision p.proposalId ∈ X) :
    Meets (ledgerDiscipline host) pid (Effect host pid (.accept deployment r)) (do
      moveRef r none
      acceptRecords host r pid none .genesis p cited : LedgerTx Accepted).run
      (Oks fun a v => Answers r.scope .accept (.accepted a) v.seen) ⟨held, id, d₀⟩ := by
  refine Tx.oks_bind (meets_insertRef hk (fun _ => rfl) (fun held₁ d₁ hk₁ => ?_) fun _ _ _ _ _ => ?_)
  swap
  · exact Tx.meets_query fun d _ => trivial
  refine Tx.meets_write (Tx.oks_bind ?_)
  refine meets_insertBranch (hk₁.pending _) (fun _ => rfl) fun held₂ d₂ hk₂ => ?_
  refine meets_insertDecision (hk₂.pending _) fun d₃ hk₃ => Tx.meets_write (Tx.meets_write ?_)
  refine Tx.knows_commit (fun x => (x.moved (r.event host pid none .genesis) true
    (r.decision host pid p.proposalId cited) (r.outbox host pid 1)
    (r.result host pid 1 p.proposalId)).withBranch r.scope.graph r.branch
      (genesisBranch r.scope.principal.tenantId)
      (branchEvent host r.scope pid r.branch 1 .genesis .active r.candidate 1 none none))
    (hk₃.pending _) rfl fun d hinv hK => ?_
  obtain ⟨⟨⟨hadmitted, hbound, hcites, hnone, hroot, hmain⟩, hnoRef⟩, hnoBranch⟩ := hK
  have hmove : AcceptMove host pid r p cited d _ :=
    .genesis (hmain hnoBranch) hnone hnoRef hnoBranch hroot
  refine ⟨⟨p, cited, hadmitted, hbound, hcites, hmove⟩, fun l hl => ?_, ?_⟩
  · refine (Db.stable_moved (fun h => hl ?_) (fun h => hl ?_) fun h => hl ?_).trans
      (Db.stable_withBranch fun h => hl ?_)
    · rw [h]
      exact List.mem_cons_of_mem _ (List.mem_cons_self ..)
    · rw [h]
      exact List.mem_cons_of_mem _ (List.mem_cons_of_mem _ hX.2)
    · rw [h]
      exact List.mem_cons_of_mem _ (List.mem_cons_of_mem _ hX.1)
    · rw [h]
      exact List.mem_cons_self ..
  · obtain ⟨-, hmovement⟩ := hmove.answer hinv hadmitted.fresh
    exact Answers.of_append rfl hadmitted.unstored rfl (AcceptRequest.replay_result hmovement)

structure Locked (r : AcceptRequest) (current : Option RefRow) (branch : Option BranchRow) (d : Db) :
    Prop where
  ref : ∀ row, current = some row → d.refs r.scope.graph r.branch = some row
  branch : ∀ row, branch = some row → d.branches r.scope.graph r.branch = some row

theorem meets_acceptReviewed {current : Option RefRow} {branch : Option BranchRow}
    (hk : Knows (ledgerDiscipline host) pid ⟨held, id, d₀⟩ X fun x =>
      Admitted host pid r.scope .accept x ∧ Locked r current branch x)
    (hX : .idempotency (r.scope.key .accept) ∈ X)
    (href : current.isSome → .ref r.scope.graph r.branch ∈ X)
    (hbranch : checkAcceptBranch r.branch current.isSome branch = .ok ())
    (hvalidation : ¬ (branch.any (·.requireValidation) ∧ r.validation = .noValidation))
    (hcurrent : current.map (·.head) = r.expectedHead) :
    Meets (ledgerDiscipline host) pid (Effect host pid (.accept deployment r))
      (acceptReviewed host deployment r pid current
        (branch.any (·.requireDistinctReviewer))).run
      (Oks fun a v => Answers r.scope .accept (.accepted a) v.seen) ⟨held, id, d₀⟩ := by
  refine meets_boundUndecidedProposal hk fun held₁ d₁ p hk₁ => ?_
  refine meets_requireDistinctIf hk₁ (fun x hx => hx.2.mem) fun d₂ hdistinct hk₂ => ?_
  refine meets_citeValidation hk₂ fun d₃ cited hk₃ => ?_
  refine Tx.knows_query hk₃ fun d₄ hk₄ => Tx.oks_lift fun row hrow => ?_
  have hrow := expect_eq_ok.mp hrow
  have hk₄ := hk₄.learn (F := fun x => x.rows.commitIndex r.candidate.text = some row)
    fun x hrely => hrely.grow.rows.index _ _ hrow
  refine Tx.knows_query hk₄ fun d₅ hk₅ => Tx.oks_lift fun operation hoperation => ?_
  obtain ⟨hparents, hop⟩ := checkLineage_eq_ok hk₅.inv hk₅.now.2 hoperation
  have hk₆ := hk₅.learn (F := fun x => x.rows.parentsOf r.candidate = r.expectedHead.toList)
    fun x hrely => (hk₅.inv.rows.parentsOf_grow hrely.grow.rows hk₅.now.1.1.2.inGraph.isSome).trans
      hparents
  rw [← hcurrent] at hop
  cases current with
  | none =>
      obtain rfl : operation = .genesis := hop
      refine meets_acceptRecords_genesis (hk₆.imp fun x hx => ?_)
        ⟨List.mem_cons_of_mem _ hX, List.mem_cons_self ..⟩
      obtain ⟨⟨⟨⟨⟨hadmitted, hlocked⟩, hbound⟩, hcites⟩, -⟩, hparents⟩ := hx
      refine ⟨hadmitted, hbound, hcites, hcurrent.symm, by rw [hparents, ← hcurrent]; rfl, fun hnone => ?_⟩
      cases branch with
      | none => exact (ensure_eq_ok.mp hbranch).1
      | some row => exact absurd ((hlocked.branch row rfl).symm.trans hnone) (by simp)
  | some old =>
      obtain rfl : operation = .advance := hop
      refine meets_acceptRecords_advance (hk₆.imp fun x hx => ?_)
        ⟨List.mem_cons_of_mem _ hX, List.mem_cons_self .., List.mem_cons_of_mem _ (href rfl)⟩
      obtain ⟨⟨⟨⟨⟨hadmitted, hlocked⟩, hbound⟩, hcites⟩, -⟩, hparents⟩ := hx
      cases branch with
      | none => exact absurd (ensure_eq_ok.mp hbranch).2 (by simp)
      | some row =>
          refine ⟨hadmitted, hbound, hcites, .advance (hlocked.ref old rfl) (hlocked.branch row rfl)
            (ensure_eq_ok.mp hbranch) hcurrent.symm (by rw [hparents, ← hcurrent]; rfl) hdistinct
            fun hrequired hpolicy => hvalidation ⟨hrequired, hpolicy⟩⟩

theorem meets_acceptNew (hk : Knows (ledgerDiscipline host) pid ⟨held, id, d₀⟩ X fun x =>
      (x.Fresh host pid ∧ K x) ∧ ∀ row ∈ x.idempotency, row.scope ≠ r.scope.key .accept)
    (hX : .idempotency (r.scope.key .accept) ∈ X) :
    Meets (ledgerDiscipline host) pid (Effect host pid (.accept deployment r))
      (acceptNew host deployment r pid).run
      (Oks fun a v => Answers r.scope .accept (.accepted a) v.seen) ⟨held, id, d₀⟩ := by
  refine Tx.oks_lift fun _ _ => ?_
  refine meets_graphMustBeActiveFor hk (fun _ => rfl) fun held₁ d₁ hk₁ => ?_
  refine meets_lockRef hk₁ (fun _ => rfl) fun held₂ d₂ hlock₂ hk₂ => ?_
  obtain ⟨X', hsub, href, hk₂⟩ : ∃ X', X ⊆ X' ∧ ((d₂.refs r.scope.graph r.branch).isSome →
      .ref r.scope.graph r.branch ∈ X') ∧ Knows (ledgerDiscipline host) pid ⟨held₂, id, d₂⟩ X' _ := by
    cases hcurrent : d₂.refs r.scope.graph r.branch with
    | none => exact ⟨X, List.Subset.refl X, by simp, hk₂⟩
    | some row =>
        exact ⟨_, List.subset_cons_self .., fun _ => List.mem_cons_self .., hk₂.hold (hlock₂ row hcurrent)⟩
  refine meets_lockBranch hk₂ (fun _ => rfl) fun held₃ d₃ _ hk₃ => Tx.oks_lift fun _ hbranch =>
    Tx.oks_lift fun _ hvalidation => Tx.oks_lift fun _ hcurrent => ?_
  refine meets_acceptReviewed (hk₃.imp fun x hx => ?_) (hsub hX) href hbranch
    (ensure_eq_ok.mp hvalidation) (ensure_eq_ok.mp hcurrent)
  obtain ⟨⟨⟨⟨⟨hfresh, -⟩, hunstored⟩, hactive⟩, href⟩, hbranch⟩ := hx
  exact ⟨⟨hfresh, hunstored, hactive⟩, ⟨href, hbranch⟩⟩

theorem meets_accept (hinv : d₀.Inv) (hfresh : d₀.Fresh host pid) :
    Meets (ledgerDiscipline host) pid (Effect host pid (.accept deployment r))
      (accept host deployment r pid).run
      (Oks fun a v => Answers r.scope .accept (.accepted a) v.seen) { seen := d₀ } := by
  have hk := Knows.start (Δ := ledgerDiscipline host) (L := LockName) hinv hfresh
  refine Tx.oks_lift fun _ _ => Tx.oks_lift fun _ _ => Tx.oks_lift fun _ _ => meets_scoped hk ?_
    fun held d hk₁ => meets_acceptNew hk₁ (List.mem_cons_self ..)
  exact fun row d a held _ _ hstored hreplay => .of_accepted hstored hreplay

end Accept

/-! ## Reject and supersede -/

section Decline

theorem meets_citeIfAny {G : Db → Db → Prop} {β : Type} {Q : β → View Db LockName → Prop}
    {scope : RequestScope} {candidate : CommitId} {validation : Option ContentId}
    {f : Option ValidationRow → LedgerTx β}
    (hk : Knows (ledgerDiscipline host) pid ⟨held, id, d₀⟩ X K)
    (h : ∀ d cited, Knows (ledgerDiscipline host) pid ⟨held, id, d⟩ X K →
      Meets (ledgerDiscipline host) pid G (f cited).run (Oks Q) ⟨held, id, d⟩) :
    Meets (ledgerDiscipline host) pid G (citeIfAny scope candidate validation >>= f).run (Oks Q)
      ⟨held, id, d₀⟩ := by
  cases validation with
  | none => exact h d₀ none hk
  | some id' =>
      exact Tx.oks_bind (meets_citedValidation hk fun d cited _ hk₁ =>
        h d (some cited) (hk₁.imp fun x hx => hx.1))

variable {r : RejectRequest}

theorem meets_rejectNew (hk : Knows (ledgerDiscipline host) pid ⟨held, id, d₀⟩ X fun x =>
      (x.Fresh host pid ∧ K x) ∧ ∀ row ∈ x.idempotency, row.scope ≠ r.scope.key .reject)
    (hX : .idempotency (r.scope.key .reject) ∈ X) :
    Meets (ledgerDiscipline host) pid (Effect host pid (.reject r)) (rejectNew host r pid).run
      (Oks fun a v => Answers r.scope .reject (.rejected a) v.seen) ⟨held, id, d₀⟩ := by
  refine meets_graphMustBeActiveFor hk (fun _ => rfl) fun held₁ d₁ hk₁ => ?_
  refine Tx.knows_query hk₁ fun d₂ hk₂ => Tx.oks_lift fun p hp => Tx.oks_lift fun _ _ => ?_
  obtain ⟨hmem, hcandidate⟩ := Db.proposalFor_eq_some (expect_eq_ok.mp hp)
  have hk₂ := hk₂.learn (F := fun x => p ∈ x.proposals) fun x hrely =>
    hrely.grow.proposals.subset hmem
  refine meets_boundUndecidedProposal hk₂ fun held₃ d₃ q hk₃ => ?_
  -- the candidate has one proposal, whichever statement reads it
  obtain rfl : p = q := eq_of_nodup_map hk₃.inv.proposals.candidates hk₃.now.1.2 hk₃.now.2.mem
    (hcandidate.trans hk₃.now.2.isCandidate.symm)
  refine meets_citeIfAny hk₃ fun d₄ cited hk₄ => ?_
  refine meets_insertDecision hk₄ fun d₅ hk₅ => Tx.meets_write ?_
  refine Tx.knows_commit (fun x => { x with
    decisions := x.decisions ++ [r.decision host pid p.proposalId cited]
    idempotency := x.idempotency ++ [r.result host pid p.proposalId] }) (hk₅.pending _) rfl
    fun d hinv hK => ?_
  obtain ⟨⟨⟨⟨⟨hfresh, -⟩, hunstored⟩, hactive⟩, -⟩, hbound⟩ := hK
  refine ⟨⟨p, cited, ⟨hfresh, hunstored, hactive⟩, hbound, rfl⟩, fun l hl => ?_, ?_⟩
  · refine (Db.stable_decisions fun h => hl ?_).trans (Db.stable_idempotency fun h => hl ?_)
    · rw [h]
      exact List.mem_cons_self ..
    · rw [h]
      exact List.mem_cons_of_mem _ hX
  · exact Answers.of_append rfl hunstored rfl RejectRequest.replay_result

theorem meets_reject (hinv : d₀.Inv) (hfresh : d₀.Fresh host pid) :
    Meets (ledgerDiscipline host) pid (Effect host pid (.reject r)) (reject host r pid).run
      (Oks fun a v => Answers r.scope .reject (.rejected a) v.seen) { seen := d₀ } := by
  have hk := Knows.start (Δ := ledgerDiscipline host) (L := LockName) hinv hfresh
  refine Tx.oks_lift fun _ _ => Tx.oks_lift fun _ _ => Tx.oks_lift fun _ _ => meets_scoped hk ?_
    fun held d hk₁ => meets_rejectNew hk₁ (List.mem_cons_self ..)
  exact fun row d a held _ _ hstored hreplay => .of_rejected hstored hreplay

theorem ProposalOk.left_behind {d d' : Db} (hinv : d.Inv) (hinv' : d'.Inv) (hgrow : d.Grow d')
    {p : ProposalRow} (hp : ProposalOk d p)
    (hne : p.expectedHead ≠ (d.refs p.graphId p.branch).map (·.head)) :
    ∃ ref, d'.refs p.graphId p.branch = some ref ∧ some ref.head ≠ p.expectedHead := by
  cases href : d.refs p.graphId p.branch with
  | none =>
      -- an expected head was once the head, so there is a ref
      rw [href] at hne
      obtain ⟨h, hh⟩ := Option.ne_none_iff_exists'.mp hne
      obtain ⟨e, he, hg, hb, -⟩ := hp.expected h hh
      obtain ⟨x, hx⟩ := headIn_of_mem he
      rw [hg, hb, hinv.refs.headIn_eq, href] at hx
      cases hx
  | some ref =>
      rw [href] at hne
      obtain ⟨ref', href', -⟩ := Db.head_reaches hinv.refs hgrow hinv'.refs hinv'.events href
      refine ⟨ref', href', fun heq => ?_⟩
      have hwas := hp.expected ref'.head heq.symm
      exact hwas.ne_of_left hinv hgrow hinv'.rows hinv'.refs hinv'.events href
        (fun h => hne (heq.symm.trans (congrArg some h.symm))) href' rfl

theorem meets_markSuperseded {r : SupersedeRequest} (hinv : d₀.Inv)
    (hfresh : d₀.Fresh host pid) :
    Meets (ledgerDiscipline host) pid (Effect host pid (.markSuperseded r))
      (markSuperseded host r pid).run (Oks fun _ _ => True) { seen := d₀ } := by
  have hk := Knows.start (Δ := ledgerDiscipline host) (L := LockName) hinv hfresh
  refine Tx.oks_lift fun _ _ => meets_graphMustBeActiveFor hk (fun _ => rfl) fun held₁ d₁ hk₁ => ?_
  refine Tx.knows_query hk₁ fun d₂ hk₂ => Tx.oks_lift fun _ _ => ?_
  refine Tx.knows_locking hk₂ fun d₃ hk₃ => Tx.knows_query hk₃ fun d₄ hk₄ =>
    Tx.oks_lift fun row hrow => ?_
  obtain ⟨p, hp, rfl⟩ := Option.map_eq_some_iff.mp (expect_eq_ok.mp hrow)
  have hmem : p ∈ d₄.proposals := List.mem_of_find?_eq_some hp
  obtain ⟨hid, hgraph⟩ : p.proposalId = r.proposalId ∧ p.graphId = r.graph := by
    simpa using List.find?_some hp
  have hk₄ := hk₄.learn (F := fun x => p ∈ x.proposals ∧ d₄.Grow x) fun x hrely =>
    ⟨hrely.grow.proposals.subset hmem, hrely.grow⟩
  refine Tx.knows_query hk₄ fun d₅ hk₅ => Tx.oks_lift fun _ hnone => Tx.oks_lift fun _ hmoved => ?_
  have hundecided := hk₅.inv.undecided hk₅.now.2.1 (checkUndecided_eq_ok hnone)
  rw [hid] at hundecided
  have hlock : (LockName.proposalDecision r.proposalId, Mode.exclusive) ∈
      [(LockName.proposalDecision r.proposalId, Mode.exclusive)] ++ held₁ := List.mem_cons_self ..
  have hk₆ := (hk₅.hold hlock).learn (F := fun x => ∀ y ∈ x.decisions, y.proposalId ≠ r.proposalId)
    fun x hrely => undecided_of_stable (hrely.stable _ _ hlock) hundecided
  refine meets_insertDecision hk₆ fun d₇ hk₇ => ?_
  refine Tx.knows_commit (fun x => { x with decisions := x.decisions ++ [r.decision host pid p] })
    (hk₇.pending _) rfl fun d hinv' hK => ?_
  obtain ⟨⟨⟨⟨hfresh, -⟩, hactive⟩, hmem', hgrow⟩, hundecided⟩ := hK
  have hbehind := (hk₄.inv.proposals.proposals p hmem).left_behind hk₄.inv hinv' hgrow
    (ensure_eq_ok.mp hmoved)
  rw [← hid] at hundecided
  refine ⟨⟨p, hfresh, hactive, hmem', hid, hgraph, hundecided, hbehind, rfl⟩, fun l hl => ?_, trivial⟩
  refine Db.stable_decisions fun h => hl ?_
  rw [h]
  exact List.mem_cons_self ..

end Decline

end CognitiveLedger
