import CognitiveLedger.Store.History

/-!
# What growth keeps

Decisions, merge rows and stored results are judged once, when they are written.
Later transactions only add rows and move refs along the history, and that keeps
the judgement.
-/

namespace CognitiveLedger

open Lineage Logs ExceptRules

/-! ## Stored results -/

section Replays

variable {d d' : Db} {stored : IdempotencyRow} {scope : RequestScope}

theorem replayPrepared_grow (hgrow : d.Grow d') {r : Prepared}
    (h : replayPrepared stored scope d = .ok r) : replayPrepared stored scope d' = .ok r := by
  simp only [replayPrepared, bind_eq_ok, expect_eq_ok] at h ⊢
  obtain ⟨u, hdigest, w, hkind, c, hc, id, hid, row, hrow, hr⟩ := h
  exact ⟨u, hdigest, w, hkind, c, hc, id, hid, row, find?_of_prefix hgrow.proposals hrow, hr⟩

theorem Db.movementOf_grow (hgrow : d.Grow d') {id : ℕ} {m : ℕ × ℕ}
    (h : d.movementOf id = some m) : d'.movementOf id = some m := by
  simp only [Db.movementOf, Option.bind_eq_some_iff, Option.map_eq_some_iff] at h ⊢
  obtain ⟨x, hx, event, hevent, o, ho, hm⟩ := h
  exact ⟨x, find?_of_prefix hgrow.decisions hx, event, hevent, o,
    find?_of_prefix hgrow.outbox ho, hm⟩

theorem replayAccepted_grow (hgrow : d.Grow d') {r : Accepted}
    (h : replayAccepted stored scope d = .ok r) : replayAccepted stored scope d' = .ok r := by
  simp only [replayAccepted, bind_eq_ok, expect_eq_ok] at h ⊢
  obtain ⟨u, hdigest, w, hkind, c, hc, id, hid, n, hn, m, hm, hr⟩ := h
  exact ⟨u, hdigest, w, hkind, c, hc, id, hid, n, hn, m, Db.movementOf_grow hgrow hm, hr⟩

theorem replayBranch_grow (hgrow : d.Grow d') {kind : ResultKind} {r : BranchOutcome}
    (h : replayBranch kind stored scope d = .ok r) : replayBranch kind stored scope d' = .ok r := by
  simp only [replayBranch, bind_eq_ok, expect_eq_ok] at h ⊢
  obtain ⟨u, hdigest, w, hkind, id, hid, row, hrow, hr⟩ := h
  exact ⟨u, hdigest, w, hkind, id, hid, row, find?_of_prefix hgrow.branchEvents hrow, hr⟩

theorem replayMergeProposed_grow (hgrow : d.Grow d') {r : MergeProposed}
    (h : replayMergeProposed stored scope d = .ok r) :
    replayMergeProposed stored scope d' = .ok r := by
  simp only [replayMergeProposed, bind_eq_ok, expect_eq_ok, Db.mergeRow] at h ⊢
  obtain ⟨u, hdigest, w, hkind, id, hid, row, hrow, hr⟩ := h
  exact ⟨u, hdigest, w, hkind, id, hid, row, find?_of_prefix hgrow.mergeProposals hrow, hr⟩

theorem replayMergeApplied_grow (hgrow : d.Grow d') {r : MergeApplied}
    (h : replayMergeApplied stored scope d = .ok r) :
    replayMergeApplied stored scope d' = .ok r := by
  simp only [replayMergeApplied, bind_eq_ok, expect_eq_ok] at h ⊢
  obtain ⟨u, hdigest, w, hkind, id, hid, m, hm, hr⟩ := h
  exact ⟨u, hdigest, w, hkind, id, hid, m, Db.movementOf_grow hgrow hm, hr⟩

variable [NQuadsParser]

theorem replayReply_grow (hgrow : d.Grow d') {operation : WorkflowOperation} {r : Reply}
    (h : replayReply operation stored scope d = .ok r) :
    replayReply operation stored scope d' = .ok r := by
  have hmap : ∀ {α : Type} {f : α → Reply} {x y : Except LedgerError α},
      (∀ a, x = .ok a → y = .ok a) → f <$> x = .ok r → f <$> y = .ok r := by
    intro α f x y hxy hx
    cases hxa : x with
    | error e => simp [hxa, Functor.map, Except.map] at hx
    | ok a => rw [hxy a hxa, ← hxa]; exact hx
  cases operation with
  | prepare => exact hmap (fun _ => replayPrepared_grow hgrow) h
  | accept => exact hmap (fun _ => replayAccepted_grow hgrow) h
  | reject => exact h
  | branchCreate => exact hmap (fun _ => replayBranch_grow hgrow) h
  | branchDelete => exact hmap (fun _ => replayBranch_grow hgrow) h
  | branchRestore => exact hmap (fun _ => replayBranch_grow hgrow) h
  | mergePropose => exact hmap (fun _ => replayMergeProposed_grow hgrow) h
  | mergeApply => exact hmap (fun _ => replayMergeApplied_grow hgrow) h

theorem Replayable.grow (hgrow : d.Grow d') {row : IdempotencyRow} (h : Replayable d row) :
    Replayable d' row := fun scope hscope hdigest => by
  obtain ⟨reply, hreply⟩ := h scope hscope hdigest
  exact ⟨reply, replayReply_grow hgrow hreply⟩

end Replays

/-! ## Decisions and merges -/

variable {d d' : Db}

theorem Db.RefsOk.headIn_eq (h : d.RefsOk) (g : GraphId) (b : String) :
    headIn d.refEvents g b = (d.refs g b).map (·.head) := by
  have := congrArg (Option.map Prod.fst) (h.refs g b)
  simpa [headIn, Option.map_map, Function.comp_def] using this.symm

variable [Sha256] [TimeCrate] [StrDebug]

/-- A branch keeps having a ref, and its head only moves to descendants. -/
theorem Db.head_reaches (hrefs : d.RefsOk) (hgrow : d.Grow d') (hrefs' : d'.RefsOk)
    (hevents' : d'.EventsOk) {g : GraphId} {b : String} {r : RefRow} (hr : d.refs g b = some r) :
    ∃ r', d'.refs g b = some r' ∧ r.head ∈ ancestors d'.rows.Parent r'.head := by
  have hhead : headIn d.refEvents g b = some r.head := by rw [hrefs.headIn_eq, hr]; rfl
  obtain ⟨e, he, rfl, rfl, hnew⟩ := exists_of_headIn hhead
  obtain ⟨cur, hcur, hreach⟩ := hevents'.history.reaches e (hgrow.refEvents.subset he)
  rw [hrefs'.headIn_eq] at hcur
  obtain ⟨r', hr', rfl⟩ := Option.map_eq_some_iff.mp hcur
  exact ⟨r', hr', hnew ▸ hreach⟩

variable [NQuadsParser]

theorem Db.WasHead.ne_of_left (hinv : d.Inv) (hgrow : d.Grow d') (hrows' : d'.rows.Sound)
    (hrefs' : d'.RefsOk) (hevents' : d'.EventsOk) {g : GraphId} {b : String} {h : CommitId}
    (hwas : d.WasHead g b h) {r r' : RefRow} (hr : d.refs g b = some r) (hne : r.head ≠ h)
    (hr' : d'.refs g b = some r') : r'.head ≠ h := by
  rintro rfl
  obtain ⟨e, he, rfl, rfl, hnew⟩ := hwas
  obtain ⟨cur, hcur, hreach⟩ := hinv.events.history.reaches e he
  rw [hinv.refs.headIn_eq, hr] at hcur
  obtain rfl := Option.some.inj hcur
  obtain ⟨x, hx, hback⟩ := Db.head_reaches hinv.refs hgrow hrefs' hevents' hr
  obtain rfl := Option.some.inj (hr'.symm.trans hx)
  exact hne (hrows'.acyclic.antisymm hback
    (hinv.rows.ancestors_subset_grow hgrow.rows _ (hnew ▸ hreach)))

theorem DecisionOk.grow (hinv : d.Inv) (hgrow : d.Grow d') (hrows' : d'.rows.Sound)
    (hrefs' : d'.RefsOk) (hevents' : d'.EventsOk) {x : DecisionRow} (h : DecisionOk d x) :
    DecisionOk d' x where
  movement := h.movement
  decides := by
    obtain ⟨p, hp, hdecides, hsuperseded⟩ := h.decides
    refine ⟨p, hgrow.proposals.subset hp, hdecides, fun hx => ?_⟩
    obtain ⟨r, hr, hne⟩ := hsuperseded hx
    obtain ⟨r', hr', -⟩ := Db.head_reaches hinv.refs hgrow hrefs' hevents' hr
    refine ⟨r', hr', fun heq => ?_⟩
    have hwas := (hinv.proposals.proposals p hp).expected r'.head heq.symm
    exact hwas.ne_of_left hinv hgrow hrows' hrefs' hevents' hr (fun h => hne (h ▸ heq)) hr' rfl

theorem Db.WasHead.inGraph (hinv : d.Inv) {g : GraphId} {b : String} {h : CommitId}
    (hwas : d.WasHead g b h) : d.rows.InGraph g.asStr h := by
  obtain ⟨e, he, rfl, rfl, rfl⟩ := hwas
  obtain ⟨pre, post, hsplit⟩ := List.append_of_mem he
  exact (hinv.events.history pre e post hsplit).inGraph

theorem MergeOk.inGraph (hinv : d.Inv) {m : MergeRow} (h : MergeOk d m) :
    d.rows.InGraph m.graphId.asStr m.candidate := by
  obtain ⟨p, hp, -, hc, hg, -⟩ := h.proposal
  exact hc ▸ hg ▸ (hinv.proposals.proposals p hp).inGraph

theorem MergeOk.parent_iff (hinv : d.Inv) {m : MergeRow} (h : MergeOk d m) (c : CommitId) :
    d.rows.Parent m.candidate c ↔ c = m.targetHead ∨ c = m.sourceHead := by
  rw [ImmutableRows.Parent, h.parents, List.mem_pair]
  exact and_iff_right (h.inGraph hinv).isSome

theorem MergeOk.targetWasHead (hinv : d.Inv) {m : MergeRow} (h : MergeOk d m) :
    d.WasHead m.graphId m.targetBranch m.targetHead := by
  obtain ⟨p, hp, -, -, hg, hb, hexpected⟩ := h.proposal
  exact hg ▸ hb ▸ (hinv.proposals.proposals p hp).expected _ hexpected

theorem MergeOk.grow (hinv : d.Inv) (hgrow : d.Grow d')
    (hcandidates : (d'.proposals.map (·.candidateCommit)).Nodup) {m : MergeRow}
    (h : MergeOk d m) : MergeOk d' m where
  proposal := by
    obtain ⟨p, hp, hrest⟩ := h.proposal
    exact ⟨p, hgrow.proposals.subset hp, hrest⟩
  parents := by
    obtain ⟨p, hp, -, hc, -⟩ := h.proposal
    rw [← hc, hinv.rows.parentsOf_grow hgrow.rows (hinv.proposals.proposals p hp).inGraph.isSome, hc]
    exact h.parents
  source := h.source.grow hgrow
  distinct := h.distinct
  parties c hc hnot q hq hg hqc := by
    rw [hinv.rows.ancestors_grow hgrow.rows (h.source.inGraph hinv)] at hc
    rw [hinv.rows.ancestors_grow hgrow.rows ((h.targetWasHead hinv).inGraph hinv)] at hnot
    -- the commit had its proposal before, and has only one
    obtain ⟨e, he, hge, -, hnew⟩ := h.source
    obtain ⟨p, hp, hpc, hpg⟩ := hinv.events.history.proposed c e he (hnew ▸ hc)
    obtain rfl : p = q := eq_of_nodup_map hcandidates (hgrow.proposals.subset hp) hq
      (hpc.trans hqc.symm)
    exact h.parties c hc hnot p hp hg hqc

end CognitiveLedger
