import CognitiveLedger.Store.ReviewPrograms

/-!
# Branch creation, deletion and restoration have their effects
-/

set_option linter.unusedSectionVars false

namespace CognitiveLedger

open ReadCommitted Lineage Logs ExceptRules ImmutableRows

variable [NQuadsParser] [Sha256] [TimeCrate] [StrDebug]
variable {host : Host} {pid : ℕ} {held : List (LockName × Mode)} {d₀ : Db} {X : List LockName}
variable {K : Db → Prop}

def StoresBranch (operation : WorkflowOperation) (kind : ResultKind) : Prop :=
  ∀ row scope d, replayReply operation row scope d = .branch <$> replayBranch kind row scope d

theorem Answers.of_branch {operation : WorkflowOperation} {kind : ResultKind}
    (hkind : StoresBranch operation kind) {scope : RequestScope} {row : IdempotencyRow} {d : Db}
    {a : BranchOutcome} (hstored : d.storedResult (scope.key operation) = some row)
    (h : replayBranch kind row scope d = .ok a) : Answers scope operation (.branch a) d :=
  ⟨row, hstored, by rw [hkind, h, replayBranch_asReplay h]; rfl⟩

theorem storesBranch_create : StoresBranch .branchCreate .branchCreated := fun _ _ _ => rfl

/-! ## Creation -/

section Create

variable {deployment : Deployment} {r : CreateBranchRequest}

theorem meets_attempt {Δ : Discipline Db LockName} {α β : Type} {G : Db → Db → Prop}
    {v : View Db LockName} {x : LedgerTx α}
    {f : Except LedgerError α → LedgerTx β} {Q : Except LedgerError β → View Db LockName → Prop}
    (h : Meets Δ pid G x.run
      (fun result v => Meets Δ pid G (f result).run Q v) v) :
    Meets Δ pid G (attempt x >>= f).run Q v :=
  Tx.meets_bind (Meets.bind h)

theorem reached_later {d d' : Db} (hinv : d.Inv) (hinv' : d'.Inv) (hgrow : d.Grow d') {g : GraphId}
    {b : String} {ref : RefRow} (href : d.refs g b = some ref) {c : CommitId}
    (hc : c ∈ ancestors d.rows.Parent ref.head) {ref' : RefRow} (href' : d'.refs g b = some ref') :
    c ∈ ancestors d'.rows.Parent ref'.head := by
  obtain ⟨x, hx, hreach⟩ := Db.head_reaches hinv.refs hgrow hinv'.refs hinv'.events href
  obtain rfl := Option.some.inj (href'.symm.trans hx)
  exact ancestors_subset hreach (hinv.rows.ancestors_subset_grow hgrow.rows _ hc)

theorem meets_reachableFromSource {G : Db → Db → Prop} {commit : CommitId}
    {limits : TraversalLimits}
    {Q : Except LedgerError (CommitId × ℕ × Bool) → View Db LockName → Prop}
    (hk : Knows (ledgerDiscipline host) pid ⟨held, id, d₀⟩ X K)
    (h : ∀ d result, Knows (ledgerDiscipline host) pid ⟨held, id, d⟩ X (fun x => K x ∧
      ∀ a, result = .ok a → a.2.2 = true → ∀ ref, x.refs r.scope.graph r.source = some ref →
        commit ∈ ancestors x.rows.Parent ref.head) → Q result ⟨held, id, d⟩) :
    Meets (ledgerDiscipline host) pid G (reachableFromSource deployment r commit limits).run Q
      ⟨held, id, d₀⟩ := by
  have hfailed : ∀ d e, Knows (ledgerDiscipline host) pid ⟨held, id, d⟩ X K →
      Q (.error e) ⟨held, id, d⟩ := fun d e hk => h d _ (hk.imp fun x hx => ⟨hx, by simp⟩)
  unfold reachableFromSource
  refine Tx.knows_query hk fun d₁ hk₁ => Tx.meets_lift (fun source hsource => ?_)
    fun e _ => hfailed d₁ e hk₁
  obtain ⟨ref, href, g, -, hif⟩ : ∃ ref, d₁.refs r.scope.graph r.source = some ref ∧ ∃ g,
      d₁.graphs r.scope.graph = some g ∧ (if g.tenantId = r.scope.principal.tenantId ∧
        g.status = .active then some ref else none) = some source := by
    simpa only [id_eq, Option.bind_eq_some_iff] using expect_eq_ok.mp hsource
  obtain rfl : ref = source := by
    split_ifs at hif
    exact Option.some.inj hif
  -- what is an ancestor of this head is one of every later head
  have hin : d₁.rows.InGraph r.scope.graph.asStr ref.head := (hk₁.inv.wasHead href).inGraph hk₁.inv
  have hlearn : ∀ d, Knows (ledgerDiscipline host) pid ⟨held, id, d⟩ X (fun x => K x ∧ d₁.Grow x) →
      ∀ reachable, (reachable = true → commit ∈ ancestors d₁.rows.Parent ref.head) →
      Q (.ok (ref.head, ref.version, reachable)) ⟨held, id, d⟩ := by
    intro d hkd reachable hreach
    refine h d _ ⟨hkd.inv, hkd.locks, fun x hrely => ⟨(hkd.later x hrely).1, ?_⟩⟩
    rintro a ha htrue ref' href'
    obtain rfl := Except.ok.inj ha
    exact reached_later hk₁.inv hrely.inv (hkd.later x hrely).2 href (hreach htrue) href'
  have hk₁' := hk₁.learn (F := fun x => d₁.Grow x) fun x hrely => hrely.grow
  by_cases hhead : commit = ref.head
  · rw [if_pos hhead]
    exact hlearn d₁ hk₁' true fun _ => hhead ▸ self_mem_ancestors _
  rw [if_neg hhead]
  refine Tx.knows_query hk₁' fun d₂ hk₂ => ?_
  by_cases hknown : d₂.rows.inGraph r.scope.graph commit.text = false
  · simp only [id_eq, if_pos hknown]
    exact hlearn d₂ hk₂ false (by simp)
  simp only [id_eq, if_neg hknown]
  refine Tx.knows_query hk₂ fun d₃ hk₃ => Tx.meets_lift (fun reachable hreachable => ?_)
    fun e _ => hfailed d₃ e (hk₃.imp fun x hx => hx.1)
  refine hlearn d₃ hk₃ reachable fun htrue => ?_
  have hwalk : commit ∈ ancestors
      (graphParents d₃.rows r.scope.graph deployment.windows.ancestry).Parent ref.head :=
    isAncestor_eq_true (graphParents_honest ..) (htrue ▸ mapError_eq_ok.mp hreachable)
  have hsound : d₃.rows.Sound := hk₃.inv.rows
  have hgrow : d₁.Grow d₃ := hk₃.now.2
  rwa [hsound.graphParents_ancestors (hin.grow hgrow.rows),
    hk₁.inv.rows.ancestors_grow hgrow.rows hin] at hwalk

theorem branchPoint_eq_ok {events : List RefEventRow} {source : RefRow}
    {reachable : Option (Except LedgerError (CommitId × ℕ × Bool))} {from' : Option CommitId}
    {point : CommitId} (h : branchPoint events source reachable from' = .ok point) :
    (∀ c, from' = some c → point = c) ∧ (point = source.head ∨ from' = some point ∧
      ∃ headThen versionThen, reachable = some (.ok (headThen, versionThen, true)) ∧
        (versionThen = source.version ∨
          movedByAuditedFastForwards events headThen versionThen source.version = true)) := by
  cases from' with
  | none => exact ⟨by simp, Or.inl (Except.ok.inj h).symm⟩
  | some commit =>
      simp only [branchPoint] at h
      split_ifs at h with hhead
      · obtain rfl := Except.ok.inj h
        exact ⟨fun c hc => hhead.symm.trans (Option.some.inj hc), Or.inl rfl⟩
      · split at h
        · split_ifs at h with hmoved
          obtain rfl := Except.ok.inj h
          exact ⟨fun c hc => Option.some.inj hc, Or.inr ⟨rfl, _, _, rfl, hmoved⟩⟩
        all_goals cases h

theorem checkSource_eq_ok {name : String} {ref : Option RefRow} {branch : Option BranchRow}
    {source : RefRow} (h : checkSource name ref branch = .ok source) :
    ref = some source ∧ ∃ row, branch = some row ∧ row.status = .active := by
  match ref, branch, h with
  | some _, some row, h =>
      obtain ⟨_, hactive, h⟩ := bind_eq_ok.mp h
      obtain rfl := Except.ok.inj h
      exact ⟨rfl, row, rfl, ensure_eq_ok.mp hactive⟩

theorem meets_createRecords {point : CommitId} {limits : TraversalLimits} (hmain : r.name ≠ "main")
    (hk : Knows (ledgerDiscipline host) pid ⟨held, id, d₀⟩ X fun x =>
      Admitted host pid r.scope .branchCreate x ∧
      ∃ ref row, x.refs r.scope.graph r.source = some ref ∧
        x.branches r.scope.graph r.source = some row ∧ row.status = .active ∧
        point ∈ ancestors x.rows.Parent ref.head)
    (hX : .idempotency (r.scope.key .branchCreate) ∈ X) :
    Meets (ledgerDiscipline host) pid (Effect host pid (.createBranch deployment r limits))
      (createRecords host r pid point).run
      (Oks fun a v => Answers r.scope .branchCreate (.branch a) v.seen) ⟨held, id, d₀⟩ := by
  refine meets_insertRef hk (fun _ => rfl) (fun held₁ d₁ hk₁ => ?_)
    fun _ _ _ _ _ => Tx.oks_lift fun _ h => absurd (ensure_eq_ok.mp h) (by simp)
  refine Tx.oks_lift fun _ _ => Tx.meets_write ?_
  refine meets_insertBranch (hk₁.pending _) (fun _ => rfl) fun held₂ d₂ hk₂ => ?_
  refine Tx.meets_write (Tx.meets_write ?_)
  refine Tx.knows_commit (fun x => { (x.setRef r.scope.graph r.name
      ⟨point, 1, r.policy.isProtected⟩).withBranch r.scope.graph r.name (r.branch point)
      (r.branchEvent host pid point) with
    refEvents := x.refEvents ++ [r.refEvent host pid point]
    idempotency := x.idempotency ++ [branchResult r.scope .branchCreate .branchCreated
      (r.branchEvent host pid point)] }) (hk₂.pending _) rfl fun d hinv hK => ?_
  obtain ⟨⟨⟨hadmitted, hsource⟩, hnoRef⟩, hnoBranch⟩ := hK
  refine ⟨⟨point, hadmitted, hmain, hnoRef, hnoBranch, hsource, rfl⟩, fun l hl => ?_, ?_⟩
  · refine (Db.stable_setRef (e := r.refEvent host pid point) fun h => hl ?_).trans
      ((Db.stable_withBranch fun h => hl ?_).trans (Db.stable_idempotency fun h => hl ?_))
    · rw [h]
      exact List.mem_cons_of_mem _ (List.mem_cons_self ..)
    · rw [h]
      exact List.mem_cons_self ..
    · rw [h]
      exact List.mem_cons_of_mem _ (List.mem_cons_of_mem _ hX)
  · refine Answers.of_append rfl hadmitted.unstored rfl ?_
    rw [replayReply, replayBranch_result rfl rfl hadmitted.fresh rfl]
    rfl

/-- The search's answer holds of whatever head the source has. -/
def Reached (r : CreateBranchRequest)
    (reachable : Option (Except LedgerError (CommitId × ℕ × Bool))) (d : Db) : Prop :=
  ∀ a, reachable = some (.ok a) → a.2.2 = true → ∀ point, r.fromCommit = some point →
    ∀ ref, d.refs r.scope.graph r.source = some ref → point ∈ ancestors d.rows.Parent ref.head

theorem meets_createNew {limits : TraversalLimits} (hmain : r.name ≠ "main")
    {reachable : Option (Except LedgerError (CommitId × ℕ × Bool))}
    (hk : Knows (ledgerDiscipline host) pid ⟨held, id, d₀⟩ X fun x =>
      (x.Fresh host pid ∧ Reached r reachable x) ∧
      ∀ row ∈ x.idempotency, row.scope ≠ r.scope.key .branchCreate)
    (hX : .idempotency (r.scope.key .branchCreate) ∈ X) :
    Meets (ledgerDiscipline host) pid (Effect host pid (.createBranch deployment r limits))
      (createNew host r pid reachable).run
      (Oks fun a v => Answers r.scope .branchCreate (.branch a) v.seen) ⟨held, id, d₀⟩ := by
  refine meets_graphMustBeActiveFor hk (fun _ => rfl) fun held₁ d₁ hk₁ => ?_
  refine meets_lockRef hk₁ (fun _ => rfl) fun held₂ d₂ _ hk₂ => ?_
  refine meets_lockBranch hk₂ (fun _ => rfl) fun held₃ d₃ _ hk₃ => Tx.oks_lift fun source hsource => ?_
  obtain ⟨href, row, hrow, hactive⟩ := checkSource_eq_ok hsource
  refine Tx.knows_query hk₃ fun d₄ hk₄ => Tx.oks_lift fun point hpoint => ?_
  refine meets_createRecords hmain (hk₄.imp fun x hx => ?_) hX
  obtain ⟨⟨⟨⟨⟨hfresh, hreached⟩, hunstored⟩, hgraph⟩, hrefs⟩, hbranches⟩ := hx
  have hsourceRef := hrefs source href
  refine ⟨⟨hfresh, hunstored, hgraph⟩, source, row, hsourceRef, hbranches row hrow, hactive, ?_⟩
  rcases (branchPoint_eq_ok hpoint).2 with hhead | ⟨hfrom, headThen, versionThen, hreachable, -⟩
  · rw [hhead]
    exact self_mem_ancestors _
  · exact hreached _ hreachable rfl point hfrom source hsourceRef

theorem meets_createBranch {limits : TraversalLimits} (hinv : d₀.Inv) (hfresh : d₀.Fresh host pid) :
    Meets (ledgerDiscipline host) pid (Effect host pid (.createBranch deployment r limits))
      (createBranch host deployment r pid limits).run
      (Oks fun a v => Answers r.scope .branchCreate (.branch a) v.seen) { seen := d₀ } := by
  have hk := Knows.start (Δ := ledgerDiscipline host) (L := LockName) hinv hfresh
  refine Tx.oks_lift fun _ _ => Tx.oks_lift fun _ _ => Tx.oks_lift fun _ _ =>
    Tx.oks_lift fun _ hmain => ?_
  have hmain := ensure_eq_ok.mp hmain
  cases hfrom : r.fromCommit with
  | none =>
      have hk' : Knows (ledgerDiscipline host) pid { seen := d₀ } []
          fun x => x.Fresh host pid ∧ Reached r none x :=
        hk.imp fun x hx => ⟨hx.1, fun a ha => by cases ha⟩
      refine meets_scoped hk' ?_ fun held d hk₁ => meets_createNew hmain hk₁ (List.mem_cons_self ..)
      exact fun row d a held _ _ hstored hreplay => .of_branch storesBranch_create hstored hreplay
  | some commit =>
      refine Tx.knows_query hk fun d₁ hk₁ => ?_
      cases hstored : d₁.storedResult (r.scope.key .branchCreate) with
      | some row =>
          simp only [id_eq, hstored]
          refine Tx.knows_query (hk₁.learn fun x hrely =>
            find?_of_prefix hrely.grow.idempotency hstored) fun d₂ hk₂ => ?_
          exact Tx.oks_done fun a hreplay => .of_branch storesBranch_create hk₂.now.2 hreplay
      | none =>
          simp only [id_eq, hstored]
          refine meets_attempt (meets_reachableFromSource hk₁ fun d₂ reachable hk₂ => ?_)
          have hk₂' : Knows (ledgerDiscipline host) pid { seen := d₂ } []
              fun x => x.Fresh host pid ∧ Reached r (some reachable) x := by
            refine hk₂.imp fun x hx => ⟨hx.1.1, fun a ha htrue point hpoint => ?_⟩
            obtain rfl := Option.some.inj (hfrom.symm.trans hpoint)
            exact hx.2 a (Option.some.inj ha) htrue
          refine meets_scoped hk₂' ?_ fun held d hk₃ =>
            meets_createNew hmain hk₃ (List.mem_cons_self ..)
          exact fun row d a held _ _ hstored hreplay => .of_branch storesBranch_create hstored hreplay

end Create

/-! ## Deletion and restoration -/

section Lifecycle

variable {change : Lifecycle} {r : BranchLifecycleRequest}

theorem checkLifecycle_eq_ok {name : String} {branch : Option BranchRow} {row : BranchRow}
    (h : checkLifecycle change name branch = .ok row) :
    branch = some row ∧ row.status = change.before := by
  obtain ⟨_, hbranch, h⟩ := bind_eq_ok.mp h
  obtain ⟨_, hbefore, h⟩ := bind_eq_ok.mp h
  obtain rfl := Except.ok.inj h
  exact ⟨expect_eq_ok.mp hbranch, ensure_eq_ok.mp hbefore⟩

theorem meets_changeBranchStatus {G : Db → Db → Prop}
    (hkind : StoresBranch change.operation change.kind)
    (hG : ∀ row ref d d', ChangeEffect host pid change r row ref d d' → G d d')
    (hinv : d₀.Inv) (hfresh : d₀.Fresh host pid) :
    Meets (ledgerDiscipline host) pid G (changeBranchStatus host change r pid).run
      (Oks fun a v => Answers r.scope change.operation (.branch a) v.seen) { seen := d₀ } := by
  have hk := Knows.start (Δ := ledgerDiscipline host) (L := LockName) hinv hfresh
  refine Tx.oks_lift fun _ _ => Tx.oks_lift fun _ _ => Tx.oks_lift fun _ _ => meets_scoped hk ?_
    fun held d₁ hk₁ => ?_
  · exact fun row d a held _ _ hstored hreplay => .of_branch hkind hstored hreplay
  refine meets_graphMustBeActiveFor hk₁ (fun _ => rfl) fun held₂ d₂ hk₂ => Tx.oks_lift fun _ hmain => ?_
  refine meets_lockBranch hk₂ (fun _ => rfl) fun held₃ d₃ hlock hk₃ => Tx.oks_lift fun row hrow => ?_
  obtain ⟨hbranch, hbefore⟩ := checkLifecycle_eq_ok hrow
  refine Tx.knows_query (hk₃.hold (hlock row hbranch)) fun d₄ hk₄ => Tx.oks_lift fun ref _ => ?_
  refine Tx.meets_write (Tx.meets_write (Tx.meets_write ?_))
  refine Tx.knows_commit (fun x => { x.withBranch r.scope.graph r.name
      { row with status := change.after, lifecycleVersion := row.lifecycleVersion + 1 }
      (lifecycleEvent host change r pid row ref) with
    idempotency := x.idempotency ++ [branchResult r.scope change.operation change.kind
      (lifecycleEvent host change r pid row ref)] }) (hk₄.pending _) rfl fun d hinv hK => ?_
  obtain ⟨⟨⟨⟨hfresh, -⟩, hunstored⟩, hactive⟩, hrow⟩ := hK
  have heffect : ChangeEffect host pid change r row ref d _ :=
    ⟨⟨hfresh, hunstored, hactive⟩, ensure_eq_ok.mp hmain, hrow row hbranch, hbefore, rfl⟩
  refine ⟨hG row ref d _ heffect, fun l hl => ?_, Answers.of_append rfl hunstored rfl ?_⟩
  · refine (Db.stable_withBranch fun h => hl ?_).trans (Db.stable_idempotency fun h => hl ?_)
    · rw [h]
      exact List.mem_cons_self ..
    · rw [h]
      exact List.mem_cons_of_mem _ (List.mem_cons_self ..)
  · rw [hkind, heffect.answer]
    rfl

end Lifecycle

end CognitiveLedger
