import CognitiveLedger.Store.Integration

/-!
# A scope takes effect once

A request commits only while its scope has no stored result, and stores one. From
then on every request of the scope that passes its input checks is answered from
the stored result, before anything else is looked at.
-/

set_option linter.unusedSectionVars false

namespace CognitiveLedger

open ReadCommitted Logs ExceptRules

variable [NQuadsParser] [Sha256] [TimeCrate] [StrDebug]
variable {host : Host} {pid : ℕ} {d d' : Db} {scope : RequestScope}
variable {operation : WorkflowOperation} {row : IdempotencyRow}

/-- The checks that a request makes before it looks for a stored result. -/
def Request.validate : Request → Except LedgerError Unit
  | .prepare _ r => do
      validateScopeFn r.scope
      validateBranch r.branch
  | .accept _ r => do
      validateScopeFn r.scope
      validateBranch r.branch
      validateReason r.reason
  | .reject r => do
      validateScopeFn r.scope
      validateBranch r.branch
      validateReason (some r.reason)
  | .createBranch _ r _ => do
      validateScopeFn r.scope
      validateBranch r.name
      validateBranch r.source
      ensure (r.name ≠ "main")
        (.branchPolicyViolation "`main` is created only by the graph's genesis acceptance")
  | .deleteBranch r => do
      validateScopeFn r.scope
      validateBranch r.name
      validateReason r.reason
  | .restoreBranch r => do
      validateScopeFn r.scope
      validateBranch r.name
      validateReason r.reason
  | .mergePropose _ r _ => do
      validateScopeFn r.scope
      validateReason (some r.message)
  | .mergeApply _ r => do
      validateScopeFn r.scope
      validateReason r.reason
  | _ => .ok ()

/-! ## Stored results -/

theorem storedResult_grow {key : ScopeKey} (hgrow : d.Grow d')
    (h : d.storedResult key = some row) : d'.storedResult key = some row :=
  find?_of_prefix hgrow.idempotency h

theorem scope_of_storedResult {key : ScopeKey} (h : d.storedResult key = some row) :
    row ∈ d.idempotency ∧ row.scope = key :=
  ⟨List.mem_of_find?_eq_some h, by simpa using List.find?_some h⟩

theorem replayReply_conflict (h : scope.requestDigest ≠ row.requestDigest) :
    replayReply operation row scope d = .error .idempotencyConflict := by
  have hcheck : checkDigest row scope = .error .idempotencyConflict :=
    ensure_neg fun heq => h heq.symm
  cases operation <;>
    simp only [replayReply, replayPrepared, replayAccepted, replayRejected, replayBranch,
      replayMergeProposed, replayMergeApplied, hcheck, error_bind] <;> rfl

theorem digest_of_replayReply {reply : Reply}
    (h : replayReply operation row scope d = .ok reply) :
    scope.requestDigest = row.requestDigest := by
  by_contra hne
  rw [replayReply_conflict hne] at h
  cases h

theorem asReplay_of_replayReply {reply : Reply}
    (h : replayReply operation row scope d = .ok reply) : reply.asReplay = reply := by
  have hmap : ∀ {α : Type} {f : α → Reply} {x : Except LedgerError α},
      f <$> x = .ok reply → (∀ a, x = .ok a → (f a).asReplay = f a) → reply.asReplay = reply := by
    intro α f x hx hflag
    obtain ⟨a, ha, rfl⟩ := map_eq_ok.mp hx
    exact hflag a ha
  cases operation <;> refine hmap h fun a ha => ?_
  case branchCreate | branchDelete | branchRestore => exact replayBranch_asReplay ha
  all_goals
    simp only [replayPrepared, replayAccepted, replayRejected, replayMergeProposed,
      replayMergeApplied, bind_eq_ok, pure_eq_ok, Except.ok.injEq] at ha
  case prepare => obtain ⟨_, -, _, -, _, -, _, -, _, -, rfl⟩ := ha; rfl
  case accept => obtain ⟨_, -, _, -, _, -, _, -, _, -, _, -, rfl⟩ := ha; rfl
  case reject => obtain ⟨_, -, _, -, _, -, rfl⟩ := ha; rfl
  case mergePropose => obtain ⟨_, -, _, -, _, -, _, -, rfl⟩ := ha; rfl
  case mergeApply => obtain ⟨_, -, _, -, _, -, _, -, _, -, _, -, rfl⟩ := ha; rfl

/-! ## Requests whose scope has a result -/

section Stored

variable {G : Db → Db → Prop} {start : Db} {held : List (LockName × Mode)} {α : Type}

theorem meets_checked {β : Type} {x : Except LedgerError α} {f : α → LedgerTx β} {a : α}
    {Q : Except LedgerError β → View Db LockName → Prop} {v : View Db LockName} (hx : x = .ok a)
    (h : Meets (ledgerDiscipline host) pid G (f a).run Q v) :
    Meets (ledgerDiscipline host) pid G (Tx.lift x >>= f).run Q v := by
  subst hx
  exact Tx.meets_bind h

theorem meets_lookup {replay : IdempotencyRow → Db → Except LedgerError α} {new : LedgerTx α}
    (hk : Knows (ledgerDiscipline host) pid ⟨held, id, d⟩ [] fun x => start.Grow x)
    (hstored : start.storedResult (scope.key operation) = some row) :
    Meets (ledgerDiscipline host) pid G (do
      let stored ← storedResult scope operation
      match stored with
      | some row => replayed (replay row)
      | none => new : LedgerTx α).run
      (fun result v => result = replay row v.seen) ⟨held, id, d⟩ := by
  refine Tx.knows_query hk fun d₁ hk₁ => ?_
  have hrow := storedResult_grow hk₁.now hstored
  simp only [id_eq, hrow]
  refine Tx.knows_query hk₁ fun d₂ hk₂ => ?_
  exact rfl

theorem meets_scoped_stored {replay : IdempotencyRow → Db → Except LedgerError α}
    {new : LedgerTx α}
    (hk : Knows (ledgerDiscipline host) pid ⟨held, id, d⟩ [] fun x => start.Grow x)
    (hstored : start.storedResult (scope.key operation) = some row) :
    Meets (ledgerDiscipline host) pid G (do
      beginScoped scope operation
      let stored ← storedResult scope operation
      match stored with
      | some row => replayed (replay row)
      | none => new : LedgerTx α).run
      (fun result v => result = replay row v.seen) ⟨held, id, d⟩ :=
  Tx.knows_locking hk fun _ hk₁ => meets_lookup hk₁ hstored

theorem meets_reply {x : LedgerTx α} {f : α → Reply} {replay : Db → Except LedgerError α}
    {v : View Db LockName} (h : Meets (ledgerDiscipline host) pid G x.run
      (fun result v => result = replay v.seen) v) :
    Meets (ledgerDiscipline host) pid G (do return f (← x) : LedgerTx Reply).run
      (fun result v => result = f <$> replay v.seen) v := by
  refine Tx.meets_bind (h.mono (fun _ _ hG => hG) fun result v hresult => ?_)
  cases result with
  | ok a => exact congrArg (Functor.map f) hresult
  | error e => exact congrArg (Functor.map f) hresult

theorem meets_stored {request : Request} (hinv : start.Inv) (hfresh : start.Fresh host pid)
    (hvalid : request.validate = .ok ()) (hscoped : request.scoped = some (scope, operation))
    (hstored : start.storedResult (scope.key operation) = some row) :
    Meets (ledgerDiscipline host) pid G (code host request pid)
      (fun result v => result = replayReply operation row scope v.seen) { seen := start } := by
  have hk : Knows (ledgerDiscipline host) pid ⟨[], id, start⟩ ([] : List LockName)
      fun x => start.Grow x := (Knows.start hinv hfresh).imp fun _ h => h.2
  cases request with
  | prepare deployment r =>
      obtain ⟨rfl, rfl⟩ := Prod.mk.inj (Option.some.inj hscoped)
      simp only [Request.validate, bind_unit_eq_ok] at hvalid
      obtain ⟨hscope, hbranch⟩ := hvalid
      exact meets_reply (meets_checked hscope (meets_checked hbranch (meets_scoped_stored hk hstored)))
  | accept deployment r =>
      obtain ⟨rfl, rfl⟩ := Prod.mk.inj (Option.some.inj hscoped)
      simp only [Request.validate, bind_unit_eq_ok] at hvalid
      obtain ⟨hscope, hbranch, hreason⟩ := hvalid
      exact meets_reply (meets_checked hscope (meets_checked hbranch (meets_checked hreason
        (meets_scoped_stored hk hstored))))
  | reject r =>
      obtain ⟨rfl, rfl⟩ := Prod.mk.inj (Option.some.inj hscoped)
      simp only [Request.validate, bind_unit_eq_ok] at hvalid
      obtain ⟨hscope, hbranch, hreason⟩ := hvalid
      exact meets_reply (meets_checked hscope (meets_checked hbranch (meets_checked hreason
        (meets_scoped_stored hk hstored))))
  | createBranch deployment r limits =>
      obtain ⟨rfl, rfl⟩ := Prod.mk.inj (Option.some.inj hscoped)
      simp only [Request.validate, bind_unit_eq_ok] at hvalid
      obtain ⟨hscope, hname, hsource, hmain⟩ := hvalid
      refine meets_reply (meets_checked hscope (meets_checked hname (meets_checked hsource
        (meets_checked hmain ?_))))
      -- with an explicit commit the lookup comes before the search
      cases hfrom : r.fromCommit with
      | none => exact meets_scoped_stored hk hstored
      | some commit => exact meets_lookup hk hstored
  | deleteBranch r =>
      obtain ⟨rfl, rfl⟩ := Prod.mk.inj (Option.some.inj hscoped)
      simp only [Request.validate, bind_unit_eq_ok] at hvalid
      obtain ⟨hscope, hname, hreason⟩ := hvalid
      exact meets_reply (meets_checked hscope (meets_checked hname (meets_checked hreason
        (meets_scoped_stored hk hstored))))
  | restoreBranch r =>
      obtain ⟨rfl, rfl⟩ := Prod.mk.inj (Option.some.inj hscoped)
      simp only [Request.validate, bind_unit_eq_ok] at hvalid
      obtain ⟨hscope, hname, hreason⟩ := hvalid
      exact meets_reply (meets_checked hscope (meets_checked hname (meets_checked hreason
        (meets_scoped_stored hk hstored))))
  | mergePropose deployment r limits =>
      obtain ⟨rfl, rfl⟩ := Prod.mk.inj (Option.some.inj hscoped)
      simp only [Request.validate, bind_unit_eq_ok] at hvalid
      obtain ⟨hscope, hmessage⟩ := hvalid
      exact meets_reply (meets_checked hscope (meets_checked hmessage (meets_lookup hk hstored)))
  | mergeApply deployment r =>
      obtain ⟨rfl, rfl⟩ := Prod.mk.inj (Option.some.inj hscoped)
      simp only [Request.validate, bind_unit_eq_ok] at hvalid
      obtain ⟨hscope, hreason⟩ := hvalid
      exact meets_reply (meets_checked hscope (meets_checked hreason (meets_scoped_stored hk hstored)))
  | _ => cases hscoped

end Stored

/-! ## Commits of a scope -/

theorem Effect.stores {request : Request} (h : Effect host pid request d d')
    (hscoped : request.scoped = some (scope, operation)) :
    Admitted host pid scope operation d ∧ ∃ row, d'.idempotency = d.idempotency ++ [row] ∧
      row.scope = scope.key operation ∧ row.requestDigest = scope.requestDigest := by
  cases request with
  | prepare deployment r =>
      obtain ⟨rfl, rfl⟩ := Prod.mk.inj (Option.some.inj hscoped)
      obtain ⟨effective, recordedAt, id, h⟩ := h
      exact ⟨h.admitted, _, by rw [h.after]; rfl, rfl, rfl⟩
  | accept deployment r =>
      obtain ⟨rfl, rfl⟩ := Prod.mk.inj (Option.some.inj hscoped)
      obtain ⟨p, cited, h⟩ := h
      cases h.move with
      | genesis => exact ⟨h.admitted, _, rfl, rfl, rfl⟩
      | advance => exact ⟨h.admitted, _, rfl, rfl, rfl⟩
  | reject r =>
      obtain ⟨rfl, rfl⟩ := Prod.mk.inj (Option.some.inj hscoped)
      obtain ⟨p, cited, h⟩ := h
      exact ⟨h.admitted, _, by rw [h.after], rfl, rfl⟩
  | createBranch deployment r limits =>
      obtain ⟨rfl, rfl⟩ := Prod.mk.inj (Option.some.inj hscoped)
      obtain ⟨point, h⟩ := h
      exact ⟨h.admitted, _, by rw [h.after], rfl, rfl⟩
  | deleteBranch r =>
      obtain ⟨rfl, rfl⟩ := Prod.mk.inj (Option.some.inj hscoped)
      obtain ⟨row, ref, h⟩ := h
      exact ⟨h.admitted, _, by rw [h.after], rfl, rfl⟩
  | restoreBranch r =>
      obtain ⟨rfl, rfl⟩ := Prod.mk.inj (Option.some.inj hscoped)
      obtain ⟨row, ref, h⟩ := h
      exact ⟨h.admitted, _, by rw [h.after], rfl, rfl⟩
  | mergePropose deployment r limits =>
      obtain ⟨rfl, rfl⟩ := Prod.mk.inj (Option.some.inj hscoped)
      obtain ⟨q, h⟩ := h
      exact ⟨h.admitted, _, by rw [h.after]; rfl, rfl, rfl⟩
  | mergeApply deployment r =>
      obtain ⟨rfl, rfl⟩ := Prod.mk.inj (Option.some.inj hscoped)
      obtain ⟨m, old, row, p, cited, h⟩ := h
      exact ⟨h.admitted, _, by rw [h.after]; rfl, rfl, rfl⟩
  | _ => cases hscoped

def commitsIn (key : ScopeKey) : Event Request Db (Except LedgerError Reply) → Bool
  | .committed _ request _ _ _ => request.scoped.any fun s => s.1.key s.2 = key
  | .replied .. => false

theorem exists_of_commitsIn {key : ScopeKey} {e : Event Request Db (Except LedgerError Reply)}
    (h : commitsIn key e = true) : ∃ pid request start before after scope operation,
      e = .committed pid request start before after ∧ request.scoped = some (scope, operation) ∧
        scope.key operation = key := by
  cases e with
  | committed pid request start before after =>
      obtain ⟨⟨scope, operation⟩, hscoped, hkey⟩ := (Option.any_eq_true ..).mp h
      exact ⟨pid, request, start, before, after, scope, operation, rfl, hscoped, of_decide_eq_true hkey⟩
  | replied => cases h

structure LedgerRun.ExactlyOnce (run : LedgerRun host) : Prop where
  once : ∀ key, (run.log.filter (commitsIn key)).length ≤ 1
  -- a commit records a result under its digest, for good
  recorded : ∀ pid request start before after scope operation,
    .committed pid request start before after ∈ run.log →
      request.scoped = some (scope, operation) → ∃ row,
        after.storedResult (scope.key operation) = some row ∧
          run.db.storedResult (scope.key operation) = some row ∧
          row.requestDigest = scope.requestDigest
  agree : ∀ pid request start db reply pid' request' start' db' reply' scope scope' operation,
    .replied pid request start db (.ok reply) ∈ run.log →
      .replied pid' request' start' db' (.ok reply') ∈ run.log →
      request.scoped = some (scope, operation) → request'.scoped = some (scope', operation) →
        scope.key operation = scope'.key operation → reply.asReplay = reply'.asReplay
  -- a request that comes after a recorded result
  replayed : ∀ pid request start db result scope operation row,
    .replied pid request start db result ∈ run.log →
      request.scoped = some (scope, operation) → request.validate = .ok () →
      start.storedResult (scope.key operation) = some row →
      scope.requestDigest = row.requestDigest →
        ∃ reply, result = .ok reply ∧ reply.asReplay = reply ∧
          replayReply operation row scope run.db = .ok reply
  refused : ∀ pid request start db result scope operation row,
    .replied pid request start db result ∈ run.log →
      request.scoped = some (scope, operation) → request.validate = .ok () →
      start.storedResult (scope.key operation) = some row →
      scope.requestDigest ≠ row.requestDigest → result = .error .idempotencyConflict
  inert : ∀ pid request start before after scope operation row,
    request.scoped = some (scope, operation) →
      start.storedResult (scope.key operation) = some row →
        .committed pid request start before after ∉ run.log
  -- a request that no lock stands in the way of is answered
  answered : ∀ pid p, run.system.procs pid = some p → (∀ q, q ≠ pid → run.system.held q = []) →
    ∃ later : LedgerRun host, later.start = run.start ∧ run.log <+: later.log ∧
      ∃ db result, .replied pid p.request p.start db result ∈ later.log

/-! ## Runs -/

namespace LedgerRun

variable (run : LedgerRun host)

theorem sound_replies : Sound (ledgerDiscipline host) (fun request pid _ => Effect host pid request)
    (fun request _ start result v => Replied request start result v.seen ∧
      ∀ scope operation row, request.scoped = some (scope, operation) → request.validate = .ok () →
        start.storedResult (scope.key operation) = some row →
          result = replayReply operation row scope v.seen) run.system := by
  refine sound_of_reachable (fun request pid _ d d' hinv h => ?_)
    (fun request pid d hinv hfresh => ?_) run.initial.inv (run.initial.fresh host) run.reachable
  · exact ⟨Effect.inv h hinv, Effect.grow h, fun n hn hfresh => Effect.fresh h hn hfresh⟩
  · have hcode := meets_code request pid d hinv hfresh
    by_cases hreplays : ∃ scope operation row, request.scoped = some (scope, operation) ∧
        request.validate = .ok () ∧ d.storedResult (scope.key operation) = some row
    · obtain ⟨scope, operation, row, hscoped, hvalid, hstored⟩ := hreplays
      refine (hcode.and (meets_stored (G := fun _ _ => True) hinv hfresh hvalid hscoped hstored)).mono
        (fun _ _ hG => hG) fun result v h => ⟨h.1, fun scope' operation' row' hscoped' _ hstored' => ?_⟩
      obtain ⟨rfl, rfl⟩ := Prod.mk.inj (Option.some.inj (hscoped.symm.trans hscoped'))
      obtain rfl := Option.some.inj (hstored.symm.trans hstored')
      exact h.2
    · exact hcode.mono (fun _ _ hG => hG) fun result v h =>
        ⟨h, fun scope operation row hscoped hvalid hstored =>
          absurd ⟨scope, operation, row, hscoped, hvalid, hstored⟩ hreplays⟩

variable {run}

theorem recorded {request : Request} {start before after : Db}
    (hevent : .committed pid request start before after ∈ run.log)
    (hscoped : request.scoped = some (scope, operation)) : ∃ row,
      after.storedResult (scope.key operation) = some row ∧
        row.requestDigest = scope.requestDigest := by
  obtain ⟨hadmitted, row, hresults, hkey, hdigest⟩ :=
    (run.shows_of_committed hevent).effect.stores hscoped
  refine ⟨row, ?_, hdigest⟩
  rw [Db.storedResult, hresults]
  exact find?_append_self (fun r hr => by simpa using hadmitted.unstored r hr) (by simpa using hkey)

theorem not_committed {request : Request} {start before after : Db}
    (hscoped : request.scoped = some (scope, operation))
    (hstored : start.storedResult (scope.key operation) = some row) :
    .committed pid request start before after ∉ run.log := by
  intro hevent
  obtain ⟨heffect, -, -, hstart, -⟩ := run.sound.log _ hevent
  obtain ⟨hmem, hkey⟩ := scope_of_storedResult (storedResult_grow hstart hstored)
  exact (heffect.stores hscoped).1.unstored row hmem hkey

theorem length_commitsIn_le (key : ScopeKey) : (run.log.filter (commitsIn key)).length ≤ 1 := by
  -- of two commits the later one found the result of the earlier one
  have hnone : (run.log.filter (commitsIn key)).Pairwise fun _ _ => False := by
    refine (run.sound.order.filter _).imp_of_mem fun {a b} ha hb horder => ?_
    obtain ⟨hamem, hain⟩ := List.mem_filter.mp ha
    obtain ⟨hbmem, hbin⟩ := List.mem_filter.mp hb
    obtain ⟨pid, request, start, before, after, scope, operation, rfl, hscoped, rfl⟩ :=
      exists_of_commitsIn hain
    obtain ⟨pid', request', start', before', after', scope', operation', rfl, hscoped', hkey⟩ :=
      exists_of_commitsIn hbin
    obtain ⟨row, hstored, -⟩ := recorded hamem hscoped
    obtain ⟨hmem, hrow⟩ := scope_of_storedResult (storedResult_grow horder hstored)
    exact ((run.shows_of_committed hbmem).effect.stores hscoped').1.unstored row hmem
      (hrow.trans hkey.symm)
  match h : run.log.filter (commitsIn key), hnone with
  | [], _ => exact Nat.zero_le 1
  | [_], _ => exact Nat.le_refl 1
  | a :: b :: l, hnone => exact ((List.pairwise_cons.mp hnone).1 b (List.mem_cons_self ..)).elim

theorem answers {request : Request} {start db : Db} {reply : Reply}
    (hevent : .replied pid request start db (.ok reply) ∈ run.log)
    (hscoped : request.scoped = some (scope, operation)) : Answers scope operation reply run.db := by
  obtain ⟨-, hlater, v, hreplied, -, -, hseen⟩ := run.sound.log _ hevent
  obtain ⟨row, hstored, hreply⟩ := hreplied.stored reply scope operation rfl hscoped
  have hgrow := hseen.trans hlater
  exact ⟨row, storedResult_grow hgrow hstored, replayReply_grow hgrow hreply⟩

theorem agree {request request' : Request} {start db start' db' : Db} {reply reply' : Reply}
    {pid' : ℕ} {scope' : RequestScope}
    (hevent : .replied pid request start db (.ok reply) ∈ run.log)
    (hevent' : .replied pid' request' start' db' (.ok reply') ∈ run.log)
    (hscoped : request.scoped = some (scope, operation))
    (hscoped' : request'.scoped = some (scope', operation))
    (hkey : scope.key operation = scope'.key operation) : reply.asReplay = reply'.asReplay := by
  obtain ⟨row, hstored, hreply⟩ := answers hevent hscoped
  obtain ⟨row', hstored', hreply'⟩ := answers hevent' hscoped'
  rw [hkey] at hstored
  obtain rfl := Option.some.inj (hstored.symm.trans hstored')
  have hdigest := (digest_of_replayReply hreply).trans (digest_of_replayReply hreply').symm
  rw [replayReply_congr hdigest (congrArg ScopeKey.graphId hkey)] at hreply
  exact Except.ok.inj (hreply.symm.trans hreply')

theorem replied_of_stored {request : Request} {start db : Db} {result : Except LedgerError Reply}
    (hevent : .replied pid request start db result ∈ run.log)
    (hscoped : request.scoped = some (scope, operation)) (hvalid : request.validate = .ok ())
    (hstored : start.storedResult (scope.key operation) = some row) :
    (scope.requestDigest = row.requestDigest → ∃ reply, result = .ok reply ∧
      reply.asReplay = reply ∧ replayReply operation row scope run.db = .ok reply) ∧
    (scope.requestDigest ≠ row.requestDigest → result = .error .idempotencyConflict) := by
  obtain ⟨-, hlater, v, ⟨-, hreplay⟩, hinv, hstart, hseen⟩ := run.sound_replies.log _ hevent
  obtain rfl := hreplay scope operation row hscoped hvalid hstored
  refine ⟨fun hdigest => ?_, replayReply_conflict⟩
  obtain ⟨hmem, hkey⟩ := scope_of_storedResult (storedResult_grow hstart hstored)
  have hoperation : row.scope.operation = operation := by rw [hkey]; rfl
  obtain ⟨reply, hreply⟩ := hinv.results.results row hmem scope (by rw [hoperation, hkey]) hdigest
  rw [hoperation] at hreply
  exact ⟨reply, hreply, asReplay_of_replayReply hreply, replayReply_grow (hseen.trans hlater) hreply⟩

theorem exists_answer {p : Process Request Db LockName (Except LedgerError Reply)}
    (hp : run.system.procs pid = some p) (hfree : ∀ q, q ≠ pid → run.system.held q = []) :
    ∃ later : LedgerRun host, later.start = run.start ∧ run.log <+: later.log ∧
      ∃ db result, .replied pid p.request p.start db result ∈ later.log := by
  have hreplies : run.system.Replies (code host) pid p.request p.start :=
    System.replies_of_free hp hfree
  obtain ⟨n, s, db, result, hrun, hlog, hmem⟩ := hreplies
  exact ⟨⟨run.start, run.initial, s, run.reachable.run hrun⟩, rfl, hlog, db, result, hmem⟩

end LedgerRun

end CognitiveLedger
