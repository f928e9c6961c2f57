import CognitiveLedger.Store.LockOrder

/-!
# Freedom from deadlock

Every transaction of the ledger takes its locks in the order of
`CognitiveLedger.Store.LockOrder`, in whatever state the others leave the rows
between its statements. So no requests ever wait for each other in a circle.
-/

set_option linter.unusedSectionVars false

open Relation (TransGen ReflTransGen)

namespace CognitiveLedger

open ReadCommitted ExceptRules

variable [NQuadsParser] [Sha256] [TimeCrate] [StrDebug]

section Programs

variable {host : Host} {deployment : Deployment} {pid : ℕ} {α β : Type} {held : List (LockName × Mode)}
variable {pending : Db → Db} {v : View Db LockName} {F : Db → Prop} {r : ℕ ×ₗ String} {d : Db}

/-- A reply that does not matter. -/
abbrev Ignored {α : Type} : α → View Db LockName → Prop := fun _ _ => True

theorem ascends_return {x : LedgerTx α} {f : α → β} (h : AscendsTx host pid x Ignored v) :
    AscendsTx host pid (do return f (← x) : LedgerTx β) Ignored v :=
  Tx.ascends_bind (h.mono fun r _ _ => by cases r <;> trivial)

/-- Bookkeeping at the end of a transaction. -/
theorem ascends_commit {x : LedgerTx α} {f : α → β} (hx : QuietTx x) (hk : Stands host pid v r F) :
    AscendsTx host pid (x >>= fun a => Tx.commit >>= fun _ => pure (f a)) Ignored v :=
  ascends_quiet hx hk fun _ _ _ _ _ _ _ => Tx.ascends_commit

/-! ## Prepare, reject, supersede -/

theorem ascends_prepareCandidate {request : PrepareRequest} {effective : Patch}
    (hk : Stands host pid ⟨held, id, d⟩ r F)
    (hr : (.branch request.scope.graph request.branch, .shared) ∈ held ∨ r ≤ place 6 request.branch)
    (hr' : r ≤ place 7 "") :
    AscendsTx host pid (prepareCandidate host deployment request effective pid) Ignored
      ⟨held, id, d⟩ := by
  refine ascends_quiet (quiet_publishObject _ _) hk fun _ held₁ _ d₁ hsub₁ hp₁ hk₁ => ?_
  refine ascends_quiet (quiet_publishObject _ _) hk₁ fun _ held₂ _ d₂ hsub₂ hp₂ hk₂ => ?_
  refine Tx.ascends_lift fun recordedAt _ => ?_
  refine ascends_quiet (quiet_publishCommitIn _ _) hk₂ fun id' held₃ _ d₃ hsub₃ hp₃ hk₃ => ?_
  have hheld : held ⊆ held₃ := List.Subset.trans hsub₁ (List.Subset.trans hsub₂ hsub₃)
  refine ascends_insertProposal hk₃
    (fun d => congrArg Prod.snd ((hp₃ d).trans ((hp₂ d).trans (hp₁ d))))
    (hr.imp_left fun h => hheld h) hr' fun held₄ _ d₄ hk₄ => ?_
  exact ascends_commit (quiet_recordResult (fun _ _ => rfl) _) hk₄

theorem ascends_prepare {request : PrepareRequest} (hinv : d.Inv) :
    AscendsTx host pid (prepare host deployment request pid) Ignored ⟨[], id, d⟩ := by
  refine Tx.ascends_lift fun _ _ => Tx.ascends_lift fun _ _ => ascends_scoped (StandsBelow.start hinv _) fun _ d₁ hk₁ => ?_
  refine ascends_graphMustBeActiveFor hk₁ fun _ d₂ hk₂ => ?_
  -- the branch is held, or there was none and the request still stands below the branches
  refine ascends_lockBranch (place 7 "") hk₂ (fun _ => rfl)
    (Or.inr (place_lt (by decide)).le) (place_lt (by decide)) (place_lt (by decide)).le
    fun held₃ d₃ _ hheld hk₃ => Tx.ascends_lift fun _ _ => ?_
  have hrest : ∀ r, Stands host pid ⟨held₃, id, d₃⟩ r (fun _ => True) →
      ((.branch request.scope.graph request.branch, .shared) ∈ held₃ ∨ r ≤ place 6 request.branch) →
      r ≤ place 7 "" → AscendsTx host pid (do
        let current ← readRef request.scope.graph request.branch
        Tx.lift (ensure (current.map (·.head) = request.expectedHead)
          (.headChanged request.expectedHead (current.map (·.head))))
        let base ← Tx.query fun db => baseState deployment db.rows request.expectedHead
        let base ← Tx.lift base
        let effective ← Tx.lift
          (effectivePatch deployment base request.requested (current.elim true (·.isProtected)))
        prepareCandidate host deployment request effective pid : LedgerTx Prepared) Ignored
        ⟨held₃, id, d₃⟩ := by
    intro r hk hr hr'
    refine Tx.ascends_query hk fun d₄ hk₄ => Tx.ascends_lift fun _ _ => ?_
    refine Tx.ascends_query hk₄ fun d₅ hk₅ => Tx.ascends_lift fun _ _ => Tx.ascends_lift fun _ _ => ?_
    exact ascends_prepareCandidate hk₅ hr hr'
  rcases hheld with hheld | ⟨-, hk₃'⟩
  · exact hrest _ hk₃ (Or.inl hheld) (le_refl _)
  · exact hrest _ hk₃' (Or.inr (place_lt (by decide)).le) (place_lt (by decide)).le

theorem ascends_reject {request : RejectRequest} (hinv : d.Inv) :
    AscendsTx host pid (reject host request pid) Ignored ⟨[], id, d⟩ := by
  refine Tx.ascends_lift fun _ _ => Tx.ascends_lift fun _ _ => Tx.ascends_lift fun _ _ => ?_
  refine ascends_scoped (StandsBelow.start hinv _) fun _ d₁ hk₁ => ?_
  refine ascends_graphMustBeActiveFor hk₁ fun _ d₂ hk₂ => ?_
  refine Tx.ascends_query hk₂ fun d₃ hk₃ => Tx.ascends_lift fun _ _ => Tx.ascends_lift fun _ _ => ?_
  have hk₃' : Stands host pid _ (place 7 "") fun _ => True :=
    hk₃.imp fun x hx => ⟨hx.1.mono (place_lt (by decide)).le, hx.2⟩
  refine ascends_boundUndecidedProposal hk₃' fun _ _ d₄ _ hk₄ => ?_
  refine ascends_quiet (quiet_citeIfAny _ _ _) hk₄ fun _ _ _ d₅ _ _ hk₅ => ?_
  refine ascends_quiet (quiet_insertDecision (fun _ _ => rfl) _ _) hk₅ fun _ _ _ d₆ _ _ hk₆ => ?_
  exact ascends_commit (quiet_recordResult (fun _ _ => rfl) _) hk₆

theorem ascends_markSuperseded {request : SupersedeRequest} (hinv : d.Inv) :
    AscendsTx host pid (markSuperseded host request pid) Ignored ⟨[], id, d⟩ := by
  refine Tx.ascends_lift fun _ _ => ?_
  refine ascends_graphMustBeActiveFor (StandsBelow.start hinv _) fun _ d₂ hk₂ => ?_
  refine Tx.ascends_query hk₂ fun d₃ hk₃ => Tx.ascends_lift fun _ _ => ?_
  have hk₃' : Stands host pid _ (place 7 "") fun _ => True :=
    hk₃.imp fun x hx => ⟨hx.1.mono (place_lt (by decide)).le, hx.2⟩
  refine ascends_lockProposalDecision hk₃' fun _ d₄ _ hk₄ => ?_
  refine Tx.ascends_query hk₄ fun d₅ hk₅ => Tx.ascends_lift fun _ _ => ?_
  refine Tx.ascends_query hk₅ fun d₆ hk₆ => Tx.ascends_lift fun _ _ => Tx.ascends_lift fun _ _ => ?_
  exact ascends_commit (quiet_insertDecision (fun _ _ => rfl) _ _) hk₆

/-! ## Accept -/

theorem ascends_acceptRecords_advance {request : AcceptRequest} {current : Option RefRow}
    {proposal : ProposalRow} {cited : Option ValidationRow} (hk : Stands host pid v r F) :
    AscendsTx host pid (acceptRecords host request pid current .advance proposal cited) Ignored v := by
  refine ascends_quiet (quiet_insertRefEvent (fun _ _ => rfl) _) hk fun _ _ _ d₁ _ _ hk₁ => ?_
  have hnothing : QuietTx (recordIfGenesis host request pid .advance) := Tx.quiet_pure _
  refine ascends_quiet hnothing hk₁ fun _ _ _ d₂ _ _ hk₂ => ?_
  refine ascends_quiet (quiet_insertDecision (fun _ _ => rfl) _ _) hk₂ fun _ _ _ d₃ _ _ hk₃ => ?_
  refine ascends_quiet (quiet_insertOutbox (fun _ _ => rfl) _) hk₃ fun _ _ _ d₄ _ _ hk₄ => ?_
  exact ascends_commit (quiet_recordResult (fun _ _ => rfl) _) hk₄

theorem ascends_genesis {request : AcceptRequest} {proposal : ProposalRow}
    {cited : Option ValidationRow} (hk : Stands host pid v (place 9 "") F)
    (hp : ∀ d, (v.pending d).refs = d.refs) :
    AscendsTx host pid (do
      moveRef request none
      acceptRecords host request pid none .genesis proposal cited : LedgerTx Accepted) Ignored v := by
  refine Tx.ascends_bind (ascends_insertRef hk hp (fun held₁ _ d₁ hk₁ => ?_) fun _ d₁ hk₁ => ?_)
  · refine ascends_quiet (quiet_insertRefEvent (fun _ _ => rfl) _) hk₁ fun _ _ _ d₂ _ _ hk₂ => ?_
    refine Tx.ascends_bind (ascends_insertBranch hk₂ fun _ _ d₃ hk₃ => ?_)
    refine ascends_quiet (quiet_insertDecision (fun _ _ => rfl) _ _) (hk₃.pending _) fun _ _ _ d₄ _ _ hk₄ => ?_
    refine ascends_quiet (quiet_insertOutbox (fun _ _ => rfl) _) hk₄ fun _ _ _ d₅ _ _ hk₅ => ?_
    exact ascends_commit (quiet_recordResult (fun _ _ => rfl) _) hk₅
  · exact Tx.ascends_query hk₁ fun _ _ => trivial

theorem checkLineage_operation {candidate : CommitId} {expected : Option CommitId} {parentCount : ℕ}
    {firstParent : Option String} {operation : RefOperation}
    (h : checkLineage candidate expected parentCount firstParent = .ok operation) :
    operation = if expected.isSome then .advance else .genesis := by
  cases expected with
  | none =>
      simp only [checkLineage, bind_eq_ok] at h
      obtain ⟨-, -, -, -, hop⟩ := h
      exact (Except.ok.inj hop).symm
  | some head =>
      simp only [checkLineage, bind_eq_ok] at h
      obtain ⟨-, -, -, -, hop⟩ := h
      exact (Except.ok.inj hop).symm

theorem ascends_acceptReviewed {request : AcceptRequest} {current : Option RefRow} {distinct : Bool}
    (hk : Stands host pid ⟨held, id, d⟩ (place 7 "") F)
    (hheld : current.isSome = true → (.branch request.scope.graph request.branch, .shared) ∈ held)
    (hhead : current.map (·.head) = request.expectedHead) :
    AscendsTx host pid (acceptReviewed host deployment request pid current distinct) Ignored
      ⟨held, id, d⟩ := by
  refine ascends_boundUndecidedProposal hk fun p _ d₁ hsub₁ hk₁ => ?_
  refine ascends_quiet (quiet_requireDistinctIf _ _ _) hk₁ fun _ _ _ d₂ hsub₂ hp₂ hk₂ => ?_
  refine ascends_quiet (quiet_citeValidation _ _ _ _) hk₂ fun cited _ _ d₃ hsub₃ hp₃ hk₃ => ?_
  refine Tx.ascends_query hk₃ fun d₄ hk₄ => Tx.ascends_lift fun _ _ => ?_
  refine Tx.ascends_query hk₄ fun d₅ hk₅ => Tx.ascends_lift fun operation hlineage => ?_
  have hoperation := checkLineage_operation hlineage
  rw [← hhead] at hoperation
  cases current with
  | some old =>
      obtain rfl : operation = .advance := hoperation
      refine ascends_advanceRef hk₅ (fun d => congrArg Prod.snd ((hp₃ d).trans (hp₂ d)))
        (hsub₃ (hsub₂ (hsub₁ (hheld rfl)))) fun _ _ d₆ hk₆ => ?_
      exact ascends_acceptRecords_advance hk₆
  | none =>
      obtain rfl : operation = .genesis := hoperation
      exact ascends_genesis hk₅ fun d => congrArg Prod.fst ((hp₃ d).trans (hp₂ d))

theorem ascends_accept {request : AcceptRequest} (hinv : d.Inv) :
    AscendsTx host pid (accept host deployment request pid) Ignored ⟨[], id, d⟩ := by
  refine Tx.ascends_lift fun _ _ => Tx.ascends_lift fun _ _ => Tx.ascends_lift fun _ _ => ?_
  refine ascends_scoped (StandsBelow.start hinv _) fun _ d₁ hk₁ => Tx.ascends_lift fun _ _ => ?_
  refine ascends_graphMustBeActiveFor hk₁ fun _ d₂ hk₂ => ?_
  refine ascends_lockRef (place 5 "") hk₂ (fun _ => rfl) (place_lt (by decide)).le
    (place_lt (by decide)) fun _ d₃ hk₃ => ?_
  refine ascends_lockBranch (place 7 "") hk₃ (fun _ => rfl)
    (Or.inr (place_lt (by decide)).le) (place_lt (by decide)) (place_lt (by decide)).le
    fun held₄ d₄ _ hheld hk₄ => Tx.ascends_lift fun _ hbranch => ?_
  refine Tx.ascends_lift fun _ _ => Tx.ascends_lift fun _ hhead => ?_
  refine ascends_acceptReviewed hk₄ (fun hsome => ?_) (ensure_eq_ok.mp hhead)
  -- a ref without a branch row is refused
  refine hheld.resolve_right fun hnone => ?_
  rw [hnone.1] at hbranch
  have hrefused := (ensure_eq_ok.mp hbranch).2
  rw [hsome] at hrefused
  cases hrefused

/-! ## Branches -/

theorem ascends_createRecords {request : CreateBranchRequest} {point : CommitId}
    (hk : Stands host pid v (place 9 "") F) (hp : ∀ d, (v.pending d).refs = d.refs) :
    AscendsTx host pid (createRecords host request pid point) Ignored v := by
  refine ascends_insertRef hk hp (fun _ _ d₁ hk₁ => Tx.ascends_lift fun _ _ => ?_)
    fun _ d₁ hk₁ => Tx.ascends_lift fun _ hinserted => absurd (ensure_eq_ok.mp hinserted) (by simp)
  refine ascends_quiet (quiet_insertRefEvent (fun _ _ => rfl) _) hk₁ fun _ _ _ d₂ _ _ hk₂ => ?_
  refine ascends_insertBranch hk₂ fun _ _ d₃ hk₃ => ?_
  refine ascends_quiet (quiet_insertBranchEvent (fun _ _ => rfl) _) hk₃ fun _ _ _ d₄ _ _ hk₄ => ?_
  exact ascends_commit (quiet_recordResult (fun _ _ => rfl) _) hk₄

theorem ascends_createScoped {request : CreateBranchRequest}
    {reachable : Option (Except LedgerError (CommitId × ℕ × Bool))}
    (hk : Stands host pid v (place 0 "") F) (hp : ∀ d, (v.pending d).locked = d.locked) :
    AscendsTx host pid (createScoped host request pid reachable) Ignored v := by
  refine ascends_scoped hk fun _ d₁ hk₁ => ?_
  refine ascends_graphMustBeActiveFor hk₁ fun _ d₂ hk₂ => ?_
  refine ascends_lockRef (place 5 "") hk₂ (fun d => congrArg Prod.fst (hp d))
    (place_lt (by decide)).le (place_lt (by decide)) fun _ d₃ hk₃ => ?_
  refine ascends_lockBranch (place 9 "") hk₃ (fun d => congrArg Prod.snd (hp d))
    (Or.inr (place_lt (by decide)).le) (place_lt (by decide))
    (place_lt (by decide)).le fun held₄ d₄ _ _ hk₄ => Tx.ascends_lift fun _ _ => ?_
  refine Tx.ascends_query hk₄ fun d₅ hk₅ => Tx.ascends_lift fun _ _ => ?_
  exact ascends_createRecords hk₅ fun d => congrArg Prod.fst (hp d)

theorem ascends_createBranch {request : CreateBranchRequest} {limits : TraversalLimits}
    (hinv : d.Inv) :
    AscendsTx host pid (createBranch host deployment request pid limits) Ignored ⟨[], id, d⟩ := by
  refine Tx.ascends_lift fun _ _ => Tx.ascends_lift fun _ _ => Tx.ascends_lift fun _ _ =>
    Tx.ascends_lift fun _ _ => ?_
  have hk : Stands host pid ⟨[], id, d⟩ (place 0 "") fun _ => True := StandsBelow.start hinv _
  cases request.fromCommit with
  | none => exact ascends_createScoped hk fun _ => rfl
  | some commit =>
      refine Tx.ascends_query hk fun d₁ hk₁ => ?_
      cases (id d₁).storedResult (request.scope.key .branchCreate) with
      | some row => exact (quiet_replayed (e := Db.locked) _).ascends hk₁ fun a _ _ _ _ _ _ => by cases a <;> trivial
      | none =>
          refine ascends_quiet (quiet_attempt (quiet_reachableFromSource _ _ _)) hk₁
            fun _ _ _ d₂ _ hp₂ hk₂ => ?_
          exact ascends_createScoped hk₂ hp₂

theorem ascends_changeBranchStatus {change : Lifecycle} {request : BranchLifecycleRequest}
    (hinv : d.Inv) :
    AscendsTx host pid (changeBranchStatus host change request pid) Ignored ⟨[], id, d⟩ := by
  refine Tx.ascends_lift fun _ _ => Tx.ascends_lift fun _ _ => Tx.ascends_lift fun _ _ => ?_
  refine ascends_scoped (StandsBelow.start hinv _) fun _ d₁ hk₁ => ?_
  refine ascends_graphMustBeActiveFor hk₁ fun _ d₂ hk₂ => Tx.ascends_lift fun _ _ => ?_
  refine ascends_lockBranch (place 7 "") hk₂ (fun _ => rfl)
    (Or.inr (place_lt (by decide)).le) (place_lt (by decide)) (place_lt (by decide)).le
    fun held₃ d₃ _ _ hk₃ => Tx.ascends_lift fun _ _ => ?_
  refine Tx.ascends_query hk₃ fun d₄ hk₄ => Tx.ascends_lift fun _ _ => ?_
  refine Tx.ascends_write hk₄ fun hk₅ => ?_
  refine ascends_quiet (quiet_insertBranchEvent (fun _ _ => rfl) _) hk₅ fun _ _ _ d₆ _ _ hk₆ => ?_
  exact ascends_commit (quiet_recordResult (fun _ _ => rfl) _) hk₆

/-! ## Merges -/

theorem ascends_proposeCandidate {request : ProposeMergeRequest} {p : MergePreview}
    {classification : Classification} {patch : Patch} {base : CommitId} {parties : List String}
    (hk : Stands host pid v (place 7 "") F) (hp : ∀ d, (v.pending d).locked = d.locked)
    (hheld : (.branch request.scope.graph request.spec.target, .shared) ∈ v.held) :
    AscendsTx host pid (proposeCandidate host deployment request pid p classification patch base
      parties) Ignored v := by
  refine ascends_quiet (quiet_publishObject _ _) hk fun _ held₁ _ d₁ hsub₁ hp₁ hk₁ => ?_
  refine Tx.ascends_lift fun recordedAt _ => ?_
  refine ascends_quiet (quiet_publishCommitIn _ _) hk₁ fun id' held₂ _ d₂ hsub₂ hp₂ hk₂ => ?_
  refine ascends_insertProposal hk₂
    (fun d => congrArg Prod.snd ((hp₂ d).trans ((hp₁ d).trans (hp d))))
    (Or.inl (hsub₂ (hsub₁ hheld))) (le_refl _) fun held₃ _ d₃ hk₃ => Tx.ascends_lift fun _ _ => ?_
  refine ascends_quiet (quiet_insertMergeProposal (fun _ _ => rfl) _) hk₃ fun _ _ _ d₄ _ _ hk₄ => ?_
  refine ascends_quiet (quiet_recordResult (fun _ _ => rfl) _) hk₄ fun _ _ _ d₅ _ _ hk₅ => ?_
  refine Tx.ascends_query hk₅ fun d₆ hk₆ => Tx.ascends_lift fun _ _ => ?_
  exact Tx.ascends_commit

theorem ascends_proposePreviewed {request : ProposeMergeRequest}
    {preview : Except LedgerError MergePreview} (hk : Stands host pid v (place 0 "") F)
    (hp : ∀ d, (v.pending d).locked = d.locked) :
    AscendsTx host pid (proposePreviewed host deployment request pid preview) Ignored v := by
  refine Tx.ascends_lift fun p _ => Tx.ascends_lift fun classification _ =>
    Tx.ascends_lift fun _ _ => Tx.ascends_lift fun patch _ => Tx.ascends_lift fun base _ => ?_
  refine ascends_scoped hk fun _ d₁ hk₁ => ?_
  refine ascends_graphMustBeActiveFor hk₁ fun _ d₂ hk₂ => ?_
  refine ascends_lockBranch (place 7 "") hk₂ (fun d => congrArg Prod.snd (hp d))
    (Or.inr (place_lt (by decide)).le) (place_lt (by decide))
    (place_lt (by decide)).le fun held₃ d₃ _ hheld hk₃ => Tx.ascends_lift fun _ hbranch => ?_
  have hheld : (.branch request.scope.graph request.spec.target, .shared) ∈ held₃ := by
    refine hheld.resolve_right fun hnone => ?_
    rw [hnone.1] at hbranch
    cases hbranch
  refine ascends_quiet (quiet_branchHead _ _) hk₃ fun _ _ _ d₄ hsub₄ hp₄ hk₄ => ?_
  refine ascends_quiet (quiet_branchHead _ _) hk₄ fun _ _ _ d₅ hsub₅ hp₅ hk₅ => ?_
  refine Tx.ascends_lift fun _ _ => Tx.ascends_query hk₅ fun d₆ hk₆ => ?_
  exact ascends_proposeCandidate hk₆ (fun d => (hp₅ d).trans ((hp₄ d).trans (hp d)))
    (hsub₅ (hsub₄ hheld))

theorem ascends_mergePropose {request : ProposeMergeRequest} {limits : TraversalLimits}
    (hinv : d.Inv) :
    AscendsTx host pid (mergePropose host deployment request pid limits) Ignored ⟨[], id, d⟩ := by
  have hk : Stands host pid ⟨[], id, d⟩ (place 0 "") fun _ => True := StandsBelow.start hinv _
  refine Tx.ascends_lift fun _ _ => Tx.ascends_lift fun _ _ => Tx.ascends_query hk fun d₁ hk₁ => ?_
  cases (id d₁).storedResult (request.scope.key .mergePropose) with
  | some row => exact (quiet_replayed (e := Db.locked) _).ascends hk₁ fun a _ _ _ _ _ _ => by cases a <;> trivial
  | none =>
      refine ascends_quiet (quiet_attempt (quiet_mergePreviewReported _ _ _ _ _)) hk₁
        fun preview _ _ d₂ _ hp₂ hk₂ => ?_
      unfold proposeJudged
      split_ifs
      · exact ascends_proposePreviewed hk₂ hp₂
      · -- after the lookup under the scope's lock the transaction starts anew
        refine ascends_scoped hk₂ fun _ d₃ hk₃ => Tx.ascends_rollback ?_
        exact ascends_proposePreviewed (StandsBelow.start hk₃.inv _) fun _ => rfl

theorem ascends_lockRefs {graph : GraphId} {target source : String}
    {f : Option RefRow × Option RefRow → LedgerTx β} (hne : source ≠ target)
    (hk : Stands host pid v (place 3 "") F) (hp : ∀ d, (v.pending d).refs = d.refs)
    (h : ∀ rows held d, Stands host pid ⟨held, v.pending, d⟩ (place 5 "") F →
      AscendsTx host pid (f rows) Ignored ⟨held, v.pending, d⟩) :
    AscendsTx host pid (lockRefs graph target source >>= f) Ignored v := by
  refine Tx.ascends_bind ?_
  unfold lockRefs
  split_ifs with hle
  · have hlt : source < target := lt_of_le_of_ne hle hne
    refine ascends_lockRef (place 4 target) hk hp (place_lt (by decide)).le
      (place_lt_of_name hlt) fun _ d₁ hk₁ => ?_
    exact ascends_lockRef _ hk₁ hp (le_refl _) (place_lt (by decide)) fun _ d₂ hk₂ => h _ _ d₂ hk₂
  · have hlt : target < source := lt_of_not_ge hle
    refine ascends_lockRef (place 4 source) hk hp (place_lt (by decide)).le
      (place_lt_of_name hlt) fun _ d₁ hk₁ => ?_
    exact ascends_lockRef _ hk₁ hp (le_refl _) (place_lt (by decide)) fun _ d₂ hk₂ => h _ _ d₂ hk₂

theorem ascends_lockBranches {graph : GraphId} {target source : String}
    {f : Option BranchRow × Option BranchRow → LedgerTx β} (hne : source ≠ target)
    (hk : Stands host pid v (place 5 "") F) (hp : ∀ d, (v.pending d).branches = d.branches)
    (h : ∀ rows held d, (rows.1.isSome = true → (.branch graph target, .shared) ∈ held) →
      Stands host pid ⟨held, v.pending, d⟩ (place 7 "") F →
      AscendsTx host pid (f rows) Ignored ⟨held, v.pending, d⟩) :
    AscendsTx host pid (lockBranches graph target source >>= f) Ignored v := by
  refine Tx.ascends_bind ?_
  unfold lockBranches
  split_ifs with hle
  · have hlt : source < target := lt_of_le_of_ne hle hne
    refine ascends_lockBranch (place 6 target) hk hp (Or.inr (place_lt (by decide)).le)
      (place_lt_of_name hlt) (place_lt (by decide)).le fun _ d₁ _ _ hk₁ => ?_
    refine ascends_lockBranch _ hk₁ hp (Or.inr (le_refl _)) (place_lt (by decide))
      (place_lt (by decide)).le fun _ d₂ _ hheld hk₂ => h _ _ d₂ (fun hsome => ?_) hk₂
    exact hheld.resolve_right fun hnone => by simp [hnone.1] at hsome
  · have hlt : target < source := lt_of_not_ge hle
    refine ascends_lockBranch (place 6 source) hk hp (Or.inr (place_lt (by decide)).le)
      (place_lt_of_name hlt) (place_lt (by decide)).le fun _ d₁ _ hheld hk₁ => ?_
    refine ascends_lockBranch _ hk₁ hp (Or.inr (le_refl _)) (place_lt (by decide))
      (place_lt (by decide)).le fun _ d₂ hsub _ hk₂ => h _ _ d₂ (fun hsome => hsub ?_) hk₂
    exact hheld.resolve_right fun hnone => by simp [hnone.1] at hsome

theorem ascends_applyLocked {request : ApplyMergeRequest} {row : MergeRow}
    {target : RefRow × BranchRow} {sourceHead : Option CommitId} {sourceActive : Bool}
    (hk : Stands host pid v (place 7 "") F) (hp : ∀ d, (v.pending d).locked = d.locked)
    (hheld : (.branch request.scope.graph row.targetBranch, .shared) ∈ v.held) :
    AscendsTx host pid (applyLocked host deployment request pid row target sourceHead sourceActive)
      Ignored v := by
  refine Tx.ascends_query hk fun d₁ hk₁ => Tx.ascends_lift fun _ _ => Tx.ascends_lift fun _ _ =>
    Tx.ascends_lift fun _ _ => ?_
  refine ascends_boundUndecidedProposal hk₁ fun p _ d₂ hsub₂ hk₂ => ?_
  refine ascends_quiet (quiet_requireDistinctFromSource _ _ _ _) hk₂
    fun _ _ _ d₃ hsub₃ hp₃ hk₃ => ?_
  refine ascends_quiet (quiet_citeValidation _ _ _ _) hk₃ fun cited _ _ d₄ hsub₄ hp₄ hk₄ => ?_
  refine Tx.ascends_lift fun _ _ => ?_
  refine ascends_advanceRef hk₄ (fun d => congrArg Prod.snd ((hp₄ d).trans ((hp₃ d).trans (hp d))))
    (hsub₄ (hsub₃ (hsub₂ hheld))) fun _ _ d₅ hk₅ => ?_
  refine ascends_quiet (quiet_insertRefEvent (fun _ _ => rfl) _) hk₅ fun _ _ _ d₆ _ _ hk₆ => ?_
  refine ascends_quiet (quiet_insertDecision (fun _ _ => rfl) _ _) hk₆ fun _ _ _ d₇ _ _ hk₇ => ?_
  refine ascends_quiet (quiet_insertOutbox (fun _ _ => rfl) _) hk₇ fun _ _ _ d₈ _ _ hk₈ => ?_
  exact ascends_commit (quiet_recordResult (fun _ _ => rfl) _) hk₈

theorem ascends_mergeApply {request : ApplyMergeRequest} (hinv : d.Inv) :
    AscendsTx host pid (mergeApply host deployment request pid) Ignored ⟨[], id, d⟩ := by
  refine Tx.ascends_lift fun _ _ => Tx.ascends_lift fun _ _ => ?_
  refine ascends_scoped (StandsBelow.start hinv _) fun _ d₁ hk₁ => Tx.ascends_lift fun _ _ => ?_
  refine ascends_graphMustBeActiveFor hk₁ fun _ d₂ hk₂ => ?_
  refine Tx.ascends_query hk₂ fun d₃ hk₃ => Tx.ascends_lift fun row hrow =>
    Tx.ascends_lift fun _ _ => ?_
  have hdistinct : row.sourceBranch ≠ row.targetBranch :=
    (hk₃.inv.merges.merges row (List.mem_of_find?_eq_some (expect_eq_ok.mp hrow))).distinct
  refine ascends_lockRefs hdistinct hk₃ (fun _ => rfl) fun refs _ d₄ hk₄ => ?_
  refine ascends_lockBranches hdistinct hk₄ (fun _ => rfl) fun branches _ d₅ hheld hk₅ => ?_
  refine Tx.ascends_lift fun target htarget => ascends_applyLocked hk₅ (fun _ => rfl) (hheld ?_)
  cases hrows : branches.1 with
  | some row => rfl
  | none =>
      rw [hrows] at htarget
      cases hrefs : refs.1 with
      | none =>
          rw [hrefs] at htarget
          cases htarget
      | some ref =>
          rw [hrefs] at htarget
          cases htarget

end Programs

/-! ## All requests -/

theorem ascends_code {host : Host} (request : Request) (pid : ℕ) (d : Db) (hinv : d.Inv) :
    AscendsTx host pid (request.program host pid) Ignored { seen := d } := by
  have hk : Stands host pid { seen := d } (place 1 "") fun _ => True := StandsBelow.start hinv _
  cases request with
  | prepare deployment r => exact ascends_return (ascends_prepare hinv)
  | accept deployment r => exact ascends_return (ascends_accept hinv)
  | reject r => exact ascends_return (ascends_reject hinv)
  | markSuperseded r => exact ascends_return (ascends_markSuperseded hinv)
  | createBranch deployment r limits => exact ascends_return (ascends_createBranch hinv)
  | deleteBranch r => exact ascends_return (ascends_changeBranchStatus hinv)
  | restoreBranch r => exact ascends_return (ascends_changeBranchStatus hinv)
  | mergePropose deployment r limits => exact ascends_return (ascends_mergePropose hinv)
  | mergeApply deployment r => exact ascends_return (ascends_mergeApply hinv)
  | mergePreview deployment tenant graph spec limits report =>
      exact ascends_quiet (quiet_mergePreviewReported _ _ _ _ _) hk fun _ _ _ _ _ _ _ => trivial
  | setGraphStatus graph status =>
      refine Tx.ascends_bind (Tx.ascends_locking hk (fun d _ _ l hl _ => Or.inr ?_) fun _ _ _ _ => trivial)
      rw [List.mem_singleton.mp hl]
      exact (place_lt (by decide)).le
  | recordValidation row => exact fun _ _ => trivial

namespace LedgerRun

variable {host : Host}

theorem started_of_waitsFor (run : LedgerRun host) {T : LockName → Prop} {p q : ℕ}
    (h : run.system.WaitsFor T p q) : q < run.system.started := by
  obtain ⟨l, -, -, -, -, -, -, -, -, -, held, hheld, -⟩ := h
  cases hq : run.system.procs q with
  | none => simp [System.held, hq] at hheld
  | some x => exact (run.sound.procs q x hq).1

/-- However the requests of a run are interleaved, they never wait for each other's locks in a
circle, and whoever waits is waiting in the end for a request that can go on. -/
theorem requests_never_deadlock (run : LedgerRun host) (pid : ℕ) :
    ¬ TransGen (run.system.WaitsFor LockName.IsOrdered) pid pid ∧
      ∃ q, ReflTransGen (run.system.WaitsFor LockName.IsOrdered) pid q ∧
        ∀ t, ¬ run.system.WaitsFor LockName.IsOrdered q t := by
  have hascends : ∀ request pid d, (ledgerDiscipline host).Inv d →
      Ascends LockName.IsOrdered Db.rank (ledgerDiscipline host) pid (code host request pid)
        (fun _ _ => True) { seen := d } := fun request pid d hinv =>
    (ascends_code request pid d hinv).mono fun _ _ _ => trivial
  have hcircle : ∀ p, ¬ TransGen (run.system.WaitsFor LockName.IsOrdered) p p :=
    not_waits_of_reachable (G := fun request pid _ => Effect host pid request)
      (fun request pid _ d d' hinv h => ⟨Effect.inv h hinv, Effect.grow h, fun n hn => Effect.fresh h hn⟩)
      (fun request pid d hinv hfresh => meets_code request pid d hinv hfresh) hascends
      run.initial.inv (run.initial.fresh host) run.reachable
  exact ⟨hcircle pid, exists_end_of_waits hcircle (fun p q h => run.started_of_waitsFor h) pid⟩

end LedgerRun

end CognitiveLedger
