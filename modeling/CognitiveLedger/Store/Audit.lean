import CognitiveLedger.Store.PrepareLimits

/-!
# The audit trail of a branch

The events of a branch number its heads from 1, each a child of the one before.
Apart from the creation of a branch every event comes with one acceptance and one
outbox row, and what was decided once is not decided again.
-/

set_option linter.unusedSectionVars false

namespace CognitiveLedger

open ReadCommitted Lineage Logs

variable [NQuadsParser] [Sha256] [TimeCrate] [StrDebug]

structure Db.Audited (d : Db) (g : GraphId) (b : String) : Prop where
  versions : ∀ i e, (d.eventsOf g b)[i]? = some e → e.newVersion = i + 1
  first : ∀ e, (d.eventsOf g b)[0]? = some e → e.oldHead = none ∧ e.oldVersion = none
  chained : ∀ i p e, (d.eventsOf g b)[i]? = some p → (d.eventsOf g b)[i + 1]? = some e →
    e.oldHead = some p.newHead ∧ e.oldVersion = some p.newVersion
  ref : (d.refs g b).map (fun r => (r.head, r.version)) =
    (d.eventsOf g b).getLast?.map fun e => (e.newHead, e.newVersion)
  parent : ∀ i p e, (d.eventsOf g b)[i]? = some p → (d.eventsOf g b)[i + 1]? = some e →
    (d.rows.parentsOf e.newHead).head? = some p.newHead
  heads : ((d.eventsOf g b).map (·.newHead)).Nodup
  -- exactly one acceptance and exactly one outbox row
  decision : ∀ i e, (d.eventsOf g b)[i]? = some e → 0 < i ∨ b = "main" →
    (d.decisions.filter fun x => x.decision = .accepted ∧ x.refEventId = some e.eventId).map
      (fun x => (x.graphId, x.branch, x.candidateCommit)) = [(g, b, e.newHead)]
  outbox : ∀ i e, (d.eventsOf g b)[i]? = some e → 0 < i ∨ b = "main" →
    (d.outbox.filter fun o => o.refEventId = e.eventId).map
      (fun o => (o.graphId, o.branch, o.commitId, o.refVersion)) = [(g, b, e.newHead, e.newVersion)]

variable {d d' : Db} {g : GraphId} {b : String} {e p : RefEventRow} {i : ℕ}

/-! ## The events by position -/

theorem Db.EventsOk.at_position (h : d.EventsOk) (he : (d.eventsOf g b)[i]? = some e) :
    e ∈ d.refEvents ∧ e.graphId = g ∧ e.branch = b ∧ ∃ pre post, d.refEvents = pre ++ e :: post ∧
      EventOk d pre e ∧ lastIn pre g b = if i = 0 then none else (d.eventsOf g b)[i - 1]? := by
  obtain ⟨hmem, hon⟩ := List.mem_filter.mp (List.mem_of_getElem? he)
  obtain ⟨hg, hb⟩ : e.graphId = g ∧ e.branch = b := by simpa using hon
  obtain ⟨pre, post, hsplit, htake⟩ := exists_split_of_filter he
  refine ⟨hmem, hg, hb, pre, post, hsplit, h.history pre e post hsplit, ?_⟩
  have hlast : lastIn pre g b = if i = 0 then none else
      (d.eventsOf g b)[i - 1]?.or (lastIn d.refEvents g b) := lastWhere_of_take htake
  rw [hlast]
  by_cases hi : i = 0
  · rw [if_pos hi, if_pos hi]
  · have hlt := (List.getElem?_eq_some_iff.mp he).1
    rw [if_neg hi, if_neg hi, List.getElem?_eq_getElem (by omega)]
    rfl

theorem Db.EventsOk.at_zero (h : d.EventsOk) (he : (d.eventsOf g b)[0]? = some e) :
    ∃ pre, EventOk d pre e ∧ lastIn pre e.graphId e.branch = none := by
  obtain ⟨-, rfl, rfl, pre, -, -, hok, hlast⟩ := h.at_position he
  exact ⟨pre, hok, hlast⟩

theorem Db.EventsOk.at_succ (h : d.EventsOk) (hp : (d.eventsOf g b)[i]? = some p)
    (he : (d.eventsOf g b)[i + 1]? = some e) :
    ∃ pre, EventOk d pre e ∧ lastIn pre e.graphId e.branch = some p := by
  obtain ⟨-, rfl, rfl, pre, -, -, hok, hlast⟩ := h.at_position he
  exact ⟨pre, hok, hlast.trans hp⟩

theorem Db.EventsOk.version (h : d.EventsOk) (he : (d.eventsOf g b)[i]? = some e) :
    e.newVersion = i + 1 := by
  induction i generalizing e with
  | zero =>
      obtain ⟨pre, hok, hlast⟩ := h.at_zero he
      rw [hok.newVersion, hlast]
      rfl
  | succ i ih =>
      have hlt := (List.getElem?_eq_some_iff.mp he).1
      have hp : (d.eventsOf g b)[i]? = some (d.eventsOf g b)[i] :=
        List.getElem?_eq_getElem (by omega)
      obtain ⟨pre, hok, hlast⟩ := h.at_succ hp he
      rw [hok.newVersion, hlast]
      exact congrArg (· + 1) (ih hp)

/-- Every event that is not the creation of a branch other than `main` is audited. -/
theorem Db.EventsOk.audited (h : d.EventsOk) (he : (d.eventsOf g b)[i]? = some e)
    (hi : 0 < i ∨ b = "main") : e.audited = true := by
  obtain ⟨-, rfl, rfl, pre, -, -, hok, hlast⟩ := h.at_position he
  have haudited : e.operation ≠ .genesis ∨ e.branch = "main" → e.audited = true := by
    simp [RefEventRow.audited]
  refine haudited (hi.imp_left fun hpos hop => ?_)
  have hlt := (List.getElem?_eq_some_iff.mp he).1
  rw [if_neg (by omega), List.getElem?_eq_getElem (by omega)] at hlast
  cases hok.moves with
  | genesis op main first root => simp [first] at hlast
  | created op other first => simp [first] at hlast
  | advance op => simp [op] at hop
  | merge op => simp [op] at hop

theorem Db.Inv.heads_nodup (hinv : d.Inv) (g : GraphId) (b : String) :
    ((d.eventsOf g b).map (·.newHead)).Nodup := by
  refine prefix_induction (P := fun l => ((l.filter (RefEventRow.on g b)).map (·.newHead)).Nodup)
    d.refEvents List.nodup_nil fun pre a post hsplit ih => ?_
  have hok := hinv.events.history pre a post hsplit
  have hpre : d.History pre := (hsplit ▸ hinv.events.history).left
  cases hon : RefEventRow.on g b a with
  | false => rwa [List.filter_append, List.filter_singleton, hon, cond_false, List.append_nil]
  | true =>
      rw [List.filter_append, List.filter_singleton, hon, cond_true]
      obtain ⟨hg, hb⟩ := RefEventRow.on_eq_true.mp hon
      refine nodup_map_append ih fun x hx => ?_
      obtain ⟨hmem, hxon⟩ := List.mem_filter.mp hx
      obtain ⟨hxg, hxb⟩ := RefEventRow.on_eq_true.mp hxon
      exact hok.newHead_ne hinv.rows hpre hmem ⟨hxg.trans hg.symm, hxb.trans hb.symm⟩

/-! ## Decisions -/

theorem Db.Inv.auditedIds (hinv : d.Inv) :
    ((d.refEvents.filter RefEventRow.audited).map (·.eventId)).Nodup :=
  hinv.events.eventIds.sublist (List.filter_sublist.map _)

theorem Db.Inv.decision_of_audited (hinv : d.Inv) (he : e ∈ d.refEvents) (ha : e.audited = true) :
    (d.decisions.filter fun x => x.decision = .accepted ∧ x.refEventId = some e.eventId).map
      (fun x => (x.graphId, x.branch, x.candidateCommit)) = [(e.graphId, e.branch, e.newHead)] := by
  have hkeys := hinv.auditedIds.map (Option.some_injective ℕ)
  rw [List.map_map] at hkeys
  have honly := filter_map_eq_singleton hinv.decisions.accepted hkeys (List.mem_filter.mpr ⟨he, ha⟩)
  rw [List.filter_filter] at honly
  simpa only [Bool.decide_and, Bool.and_comm] using honly

theorem Db.Inv.outbox_of_audited (hinv : d.Inv) (he : e ∈ d.refEvents) (ha : e.audited = true) :
    (d.outbox.filter fun o => o.refEventId = e.eventId).map
      (fun o => (o.graphId, o.branch, o.commitId, o.refVersion)) =
        [(e.graphId, e.branch, e.newHead, e.newVersion)] :=
  filter_map_eq_singleton hinv.decisions.outbox hinv.auditedIds (List.mem_filter.mpr ⟨he, ha⟩)

theorem Db.Inv.audited (hinv : d.Inv) (g : GraphId) (b : String) : d.Audited g b where
  versions i e he := hinv.events.version he
  first e he := by
    obtain ⟨pre, hok, hlast⟩ := hinv.events.at_zero he
    rw [hok.oldHead, hok.oldVersion, headIn, hlast]
    exact ⟨rfl, rfl⟩
  chained i p e hp he := by
    obtain ⟨pre, hok, hlast⟩ := hinv.events.at_succ hp he
    rw [hok.oldHead, hok.oldVersion, headIn, hlast]
    exact ⟨rfl, rfl⟩
  ref := hinv.refs.refs g b
  parent i p e hp he := by
    obtain ⟨pre, hok, hlast⟩ := hinv.events.at_succ hp he
    exact hok.first_parent (by rw [headIn, hlast]; rfl)
  heads := hinv.heads_nodup g b
  decision i e he hi := by
    obtain ⟨hmem, hg, hb, -⟩ := hinv.events.at_position he
    rw [← hg, ← hb]
    exact hinv.decision_of_audited hmem (hinv.events.audited he hi)
  outbox i e he hi := by
    obtain ⟨hmem, hg, hb, -⟩ := hinv.events.at_position he
    rw [← hg, ← hb]
    exact hinv.outbox_of_audited hmem (hinv.events.audited he hi)

theorem Db.Inv.event_of_accepted (hinv : d.Inv) {x : DecisionRow} (hx : x ∈ d.decisions)
    (haccepted : x.decision = .accepted) : ∃ e ∈ d.refEvents, e.audited = true ∧
      x.refEventId = some e.eventId ∧ x.graphId = e.graphId ∧ x.branch = e.branch ∧
        x.candidateCommit = e.newHead := by
  have hmem : (x.refEventId, x.graphId, x.branch, x.candidateCommit) ∈
      (d.decisions.filter fun x => x.decision = .accepted).map
        fun x => (x.refEventId, x.graphId, x.branch, x.candidateCommit) :=
    List.mem_map.mpr ⟨x, List.mem_filter.mpr ⟨hx, decide_eq_true haccepted⟩, rfl⟩
  rw [hinv.decisions.accepted] at hmem
  obtain ⟨e, he, heq⟩ := List.mem_map.mp hmem
  simp only [Prod.mk.injEq] at heq
  obtain ⟨hmem, haudited⟩ := List.mem_filter.mp he
  exact ⟨e, hmem, haudited, heq.1.symm, heq.2.1.symm, heq.2.2.1.symm, heq.2.2.2.symm⟩

theorem Db.Inv.decided_once (hinv : d.Inv) : (d.decisions.map (·.candidateCommit)).Nodup := by
  have hinj : ∀ x ∈ d.decisions, ∀ y ∈ d.decisions, x.candidateCommit = y.candidateCommit →
      x.proposalId = y.proposalId := by
    intro x hx y hy hxy
    obtain ⟨p, hp, hpx, -⟩ := (hinv.decisions.decisions x hx).decides
    obtain ⟨q, hq, hqy, -⟩ := (hinv.decisions.decisions y hy).decides
    obtain rfl : p = q := eq_of_nodup_map hinv.proposals.candidates hp hq
      (hpx.candidate.trans (hxy.trans hqy.candidate.symm))
    exact hpx.proposalId.symm.trans hqy.proposalId
  rw [List.nodup_map_iff_inj_on hinv.decisions.decided.of_map]
  exact fun x hx y hy hxy => eq_of_nodup_map hinv.decisions.decided hx hy (hinj x hx y hy hxy)

/-- What a database in which `x` supersedes a proposal never does with that proposal. -/
structure Db.LeftBehind (d : Db) (x : DecisionRow) : Prop where
  unaccepted : ∀ y ∈ d.decisions, y.proposalId = x.proposalId → y.decision ≠ .accepted
  stale : ∃ p ∈ d.proposals, p.proposalId = x.proposalId ∧
    ∃ r, d.refs p.graphId p.branch = some r ∧ some r.head ≠ p.expectedHead

theorem Db.Inv.leftBehind (hinv : d.Inv) {x : DecisionRow} (hx : x ∈ d.decisions)
    (hsuperseded : x.decision = .superseded) : d.LeftBehind x where
  unaccepted y hy hid haccepted := by
    obtain rfl := eq_of_nodup_map hinv.decisions.decided hy hx hid
    rw [hsuperseded] at haccepted
    cases haccepted
  stale := by
    obtain ⟨p, hp, hdecides, hmoved⟩ := (hinv.decisions.decisions x hx).decides
    exact ⟨p, hp, hdecides.proposalId, hmoved hsuperseded⟩

/-! ## Deleted branches -/

theorem Effect.refs_of_deleted {host : Host} {pid : ℕ} {request : Request}
    (h : Effect host pid request d d') {row : BranchRow} (hrow : d.branches g b = some row)
    (hdeleted : row.status = .deleted) : d'.refs g b = d.refs g b := by
  -- a ref that is set belongs to another branch
  have hother : ∀ {g' b' ref}, (∀ row', d.branches g' b' = some row' → row'.status = .active) →
      (d.setRef g' b' ref).refs g b = d.refs g b := by
    intro g' b' ref hactive
    refine if_neg ?_
    rintro ⟨rfl, rfl⟩
    have := hactive row hrow
    simp [hdeleted] at this
  match request with
  | .prepare _ r =>
      obtain ⟨effective, recordedAt, id, h⟩ := h
      rw [h.after]
      rfl
  | .accept _ r =>
      obtain ⟨p, cited, h⟩ := h
      cases h.move with
      | genesis main first noRef noBranch =>
          exact hother fun row' h' => absurd (noBranch.symm.trans h') (by simp)
      | advance ref branch active =>
          exact hother fun row' h' => Option.some.inj (branch.symm.trans h') ▸ active
  | .reject r =>
      obtain ⟨p, cited, h⟩ := h
      rw [h.after]
  | .markSuperseded r =>
      obtain ⟨p, h⟩ := h
      rw [h.after]
  | .createBranch _ r _ =>
      obtain ⟨point, h⟩ := h
      rw [h.after]
      exact hother fun row' h' => absurd (h.noBranch.symm.trans h') (by simp)
  | .deleteBranch r =>
      obtain ⟨row, ref, h⟩ := h
      rw [h.after]
      rfl
  | .restoreBranch r =>
      obtain ⟨row, ref, h⟩ := h
      rw [h.after]
      rfl
  | .mergePropose _ r _ =>
      obtain ⟨q, h⟩ := h
      rw [h.after]
      rfl
  | .mergeApply _ r =>
      obtain ⟨m, old, row', p, cited, h⟩ := h
      rw [h.after]
      exact hother fun row'' h' => Option.some.inj (h.targetBranch.symm.trans h') ▸ h.targetActive
  | .setGraphStatus graph status =>
      obtain rfl := h
      rfl
  | .recordValidation row =>
      obtain rfl := h
      rfl

/-- Every reachable ledger keeps its audit trail. -/
theorem ledger_is_audited {host : Host} (run : LedgerRun host) :
    (∀ g b, run.db.Audited g b) ∧
    (run.db.decisions.map (·.candidateCommit)).Nodup ∧
    (∀ x ∈ run.db.decisions, x.decision = .accepted → ∃ e ∈ run.db.refEvents,
      x.refEventId = some e.eventId ∧ x.graphId = e.graphId ∧ x.branch = e.branch ∧
        x.candidateCommit = e.newHead) ∧
    (∀ x ∈ run.db.decisions, x.decision = .superseded → run.db.LeftBehind x) ∧
    (∀ pid request start before after,
      .committed pid request start before after ∈ run.log → ∀ g b row,
        before.branches g b = some row → row.status = .deleted →
          after.refs g b = before.refs g b) := by
  refine ⟨run.inv.audited, run.inv.decided_once, fun x hx haccepted => ?_,
    fun _ hx => run.inv.leftBehind hx, fun _ _ _ _ _ hevent _ _ _ hrow hdeleted =>
      (run.shows_of_committed hevent).effect.refs_of_deleted hrow hdeleted⟩
  obtain ⟨e, he, -, hevent⟩ := run.inv.event_of_accepted hx haccepted
  exact ⟨e, he, hevent⟩

end CognitiveLedger
