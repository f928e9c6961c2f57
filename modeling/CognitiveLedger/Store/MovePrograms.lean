import CognitiveLedger.Store.MergePrograms
import CognitiveLedger.Store.RefMoves
import CognitiveLedger.Store.StoreRuns

/-!
# Every request moves the refs by steps

Requests that touch neither refs nor immutable rows are silent. Publications leave the
refs alone, and whoever moves a ref holds its lock, so that the version it counts from
and the head it leaves are still the current ones when it commits.
-/

set_option linter.unusedSectionVars false

namespace CognitiveLedger

open ReadCommitted Lineage ExceptRules ImmutableRows

variable [NQuadsParser] [Sha256] [TimeCrate] [StrDebug]
variable {host : Host} {pid : ℕ} {G : Db → Db → Prop} {α β : Type} {held : List (LockName × Mode)}
variable {pending : Db → Db} {d₀ : Db} {X : List LockName} {K : Db → Prop}
variable {deployment : Deployment}

abbrev MovesRefs (pid : ℕ) (x : LedgerTx α) (v : View Db LockName) : Prop :=
  Meets movesDiscipline pid RefStep x.run (Oks fun _ _ => True) v

theorem movesRefs_return {x : LedgerTx α} {f : α → β} {v : View Db LockName}
    (h : MovesRefs pid x v) : MovesRefs pid (x >>= fun a => pure (f a)) v :=
  Tx.oks_bind (h.mono (fun _ _ hG => hG) fun r _ _ => by cases r <;> trivial)

/-! ## Silent requests -/

section SilentRequests

/-- Nothing that the discipline is about is written. -/
abbrev SilentTx (x : LedgerTx α) : Prop := Silent Db.moving x.run

theorem movesRefs_silent {x : LedgerTx α} (hx : SilentTx x) : MovesRefs pid x { seen := d₀ } := by
  refine (hx.meets (fun l _ _ h => Db.stable_of_moving h l) (fun _ _ h => .still h)
    fun _ => rfl).mono (fun _ _ hG => hG) fun r _ _ => ?_
  cases r <;> trivial

theorem silent_scoped {scope : RequestScope} {operation : WorkflowOperation}
    {replay : IdempotencyRow → Db → Except LedgerError β} {new : LedgerTx β} (hnew : SilentTx new) :
    SilentTx (do
      beginScoped scope operation
      let stored ← storedResult scope operation
      match stored with
      | some row => replayed (replay row)
      | none => new) := by
  refine Tx.silent_bind (Tx.silent_locking _ _) fun _ => Tx.silent_bind (Tx.silent_query _)
    fun stored => ?_
  cases stored with
  | some row => exact Tx.silent_bind (Tx.silent_query _) fun _ => Tx.silent_lift _
  | none => exact hnew

theorem silent_insertDecision (row : DecisionRow) (duplicate : LedgerError) :
    SilentTx (insertDecision row duplicate) :=
  (quiet_insertDecision (T := AnyLock) (fun _ _ => rfl) row duplicate).silent

theorem silent_recordResult (row : IdempotencyRow) : SilentTx (recordResult row) :=
  (quiet_recordResult (T := AnyLock) (fun _ _ => rfl) row).silent

theorem silent_reject {request : RejectRequest} : SilentTx (reject host request pid) := by
  refine Tx.silent_bind (Tx.silent_lift _) fun _ => Tx.silent_bind (Tx.silent_lift _) fun _ =>
    Tx.silent_bind (Tx.silent_lift _) fun _ => silent_scoped ?_
  refine Tx.silent_after (quiet_graphMustBeActiveFor _ _) fun _ =>
    Tx.silent_bind (Tx.silent_query _) fun _ => Tx.silent_bind (Tx.silent_lift _) fun _ =>
    Tx.silent_bind (Tx.silent_lift _) fun _ => ?_
  refine Tx.silent_after (quiet_boundUndecidedProposal _ _ _ _) fun _ =>
    Tx.silent_after (quiet_citeIfAny (T := AnyLock) _ _ _) fun _ => ?_
  exact Tx.silent_bind (silent_insertDecision _ _) fun _ => Tx.silent_bind (silent_recordResult _)
    fun _ => Tx.silent_bind Tx.silent_commit fun _ => Tx.silent_pure _

theorem silent_markSuperseded {request : SupersedeRequest} :
    SilentTx (markSuperseded host request pid) := by
  refine Tx.silent_bind (Tx.silent_lift _) fun _ =>
    Tx.silent_after (quiet_graphMustBeActiveFor _ _) fun _ =>
    Tx.silent_bind (Tx.silent_query _) fun _ => Tx.silent_bind (Tx.silent_lift _) fun _ => ?_
  refine Tx.silent_after (quiet_lockProposalDecision _) fun _ =>
    Tx.silent_bind (Tx.silent_query _) fun _ => Tx.silent_bind (Tx.silent_lift _) fun _ =>
    Tx.silent_bind (Tx.silent_query _) fun _ => Tx.silent_bind (Tx.silent_lift _) fun _ =>
    Tx.silent_bind (Tx.silent_lift _) fun _ => ?_
  exact Tx.silent_bind (silent_insertDecision _ _) fun _ => Tx.silent_bind Tx.silent_commit
    fun _ => Tx.silent_pure _

theorem silent_changeBranchStatus {change : Lifecycle} {request : BranchLifecycleRequest} :
    SilentTx (changeBranchStatus host change request pid) := by
  refine Tx.silent_bind (Tx.silent_lift _) fun _ => Tx.silent_bind (Tx.silent_lift _) fun _ =>
    Tx.silent_bind (Tx.silent_lift _) fun _ => silent_scoped ?_
  refine Tx.silent_after (quiet_graphMustBeActiveFor _ _) fun _ =>
    Tx.silent_bind (Tx.silent_lift _) fun _ => Tx.silent_after (quiet_lockBranch _ _ _) fun _ =>
    Tx.silent_bind (Tx.silent_lift _) fun _ => Tx.silent_bind (Tx.silent_query _) fun _ =>
    Tx.silent_bind (Tx.silent_lift _) fun _ => ?_
  refine Tx.silent_bind (Tx.silent_write fun _ => rfl) fun _ =>
    Tx.silent_bind (Tx.silent_write fun _ => rfl) fun _ => ?_
  exact Tx.silent_bind (silent_recordResult _) fun _ => Tx.silent_bind Tx.silent_commit
    fun _ => Tx.silent_pure _

/-- An adopted ref gets a branch and nothing else. -/
theorem Db.moving_changeStatus (d : Db) (graph : GraphId) (status : GraphStatus) :
    (d.changeStatus graph status).moving = d.moving := by
  unfold Db.changeStatus
  cases d.graphs graph with
  | none => rfl
  | some row =>
      simp only
      split_ifs <;> rfl

theorem silent_changeGraphStatus (graph : GraphId) (status : GraphStatus) :
    SilentTx (changeGraphStatus graph status) :=
  Tx.silent_bind (Tx.silent_locking _ _) fun _ =>
    Tx.silent_bind (Tx.silent_write fun d => d.moving_changeStatus graph status) fun _ =>
    Tx.silent_commit

theorem silent_setGraphStatus (graph : GraphId) (status : GraphStatus) :
    SilentTx (setGraphStatus graph status) :=
  Tx.silent_bind (Tx.silent_locking _ _) fun _ => Tx.silent_bind (Tx.silent_write fun _ => rfl)
    fun _ => Tx.silent_commit

theorem silent_recordValidation (row : ValidationRow) : SilentTx (recordValidation row) :=
  Tx.silent_bind (Tx.silent_write fun _ => rfl) fun _ => Tx.silent_commit

theorem silent_verifyParents (id : ContentId) (graph : String) (parents : List (ℕ × String)) :
    SilentTx (verifyParents id graph parents) := by
  induction parents with
  | nil => exact Tx.silent_pure _
  | cons p parents ih =>
      exact Tx.silent_bind (Tx.silent_query _) fun _ => Tx.silent_bind (Tx.silent_lift _)
        fun _ => ih

theorem silent_verifyId (id : String) : SilentTx (verifyId id) := by
  refine Tx.silent_bind (Tx.silent_query _) fun _ => Tx.silent_bind (Tx.silent_lift _) fun _ =>
    Tx.silent_bind (Tx.silent_lift _) fun _ => Tx.silent_bind (Tx.silent_lift _) fun _ =>
    Tx.silent_bind (Tx.silent_lift _) fun _ => Tx.silent_bind (Tx.silent_lift _) fun _ => ?_
  refine Tx.silent_bind (Tx.silent_query _) fun _ => Tx.silent_bind (Tx.silent_lift _) fun _ =>
    Tx.silent_bind (Tx.silent_lift _) fun _ => Tx.silent_bind (Tx.silent_query _) fun _ => ?_
  exact Tx.silent_bind (Tx.silent_lift _) fun _ => silent_verifyParents _ _ _

theorem silent_verifyIds (count : ℕ) (ids : List String) : SilentTx (verifyIds count ids) := by
  induction ids generalizing count with
  | nil => exact Tx.silent_pure _
  | cons id ids ih => exact Tx.silent_bind (silent_verifyId id) fun _ => ih _

theorem silent_verifyCommitIndex [IndexScan] : SilentTx verifyCommitIndex :=
  Tx.silent_bind (Tx.silent_query _) fun _ => silent_verifyIds _ _

end SilentRequests

/-! ## Scopes -/

theorem movesRefs_scoped {scope : RequestScope} {operation : WorkflowOperation}
    {replay : IdempotencyRow → Db → Except LedgerError β} {new : LedgerTx β}
    (hk : Knows movesDiscipline pid ⟨held, id, d₀⟩ X K)
    (hnew : ∀ held d, Knows movesDiscipline pid ⟨held, id, d⟩ X K →
      Meets movesDiscipline pid G new.run (Oks fun _ _ => True) ⟨held, id, d⟩) :
    Meets movesDiscipline pid G (do
      beginScoped scope operation
      let stored ← storedResult scope operation
      match stored with
      | some row => replayed (replay row)
      | none => new : LedgerTx β).run (Oks fun _ _ => True) ⟨held, id, d₀⟩ := by
  refine Tx.knows_locking hk fun d₁ hk₁ => Tx.knows_query hk₁ fun d₂ hk₂ => ?_
  cases hstored : d₂.storedResult (scope.key operation) with
  | some row =>
      simp only [id_eq, hstored]
      exact Tx.knows_query hk₂ fun _ _ => Tx.oks_done fun _ _ => trivial
  | none =>
      simp only [id_eq, hstored]
      exact hnew _ d₂ hk₂

/-! ## Publications -/

section Publish

theorem movesRefs_publication {l : List ImmutableRow} {a : α} (merges : List MergeRow)
    (hk : Knows movesDiscipline pid ⟨held, pending, d₀⟩ X fun x => K x ∧ Covered X l x)
    (hp : ∀ d, (pending d).moving = ({ publishing l d with
      mergeProposals := d.mergeProposals ++ merges } : Db).moving)
    (hK : ∀ d, d.MovesOk → K d → (d.rows.insertAll l).Derived ∧
      ∀ m ∈ merges, (d.rows.insertAll l).Parent m.candidate m.targetHead) :
    MovesRefs pid (Tx.commit >>= fun _ => pure a : LedgerTx α) ⟨held, pending, d₀⟩ := by
  refine Tx.knows_commit pending hk rfl fun d hd hKd => ?_
  obtain ⟨hrows, hrefs, hevents, hmerges⟩ := Db.moving_eq (hp d)
  obtain ⟨hderived, hparents⟩ := hK d hd hKd.1
  refine ⟨.published ?_ ?_ hrefs hevents fun m hm => ?_, fun lock hlock => ?_, trivial⟩
  · rw [hrows]
    exact extends_insertAll d.rows l
  · rw [hrows]
    exact hderived
  · rw [hmerges] at hm
    rw [hrows]
    exact (List.mem_append.mp hm).imp id (hparents m)
  · have hpublished : Db.Stable lock d (publishing l d) := Db.stable_rows fun r hr heq =>
      (hKd.2 r hr).resolve_right fun hmem => hlock (heq ▸ hmem)
    exact movesDiscipline.stable_trans (movesDiscipline_stable hpublished)
      (Db.stable_of_eq (d := publishing l d) hrows hrefs hevents lock)

variable {l : List ImmutableRow} {graph : GraphId} {commit : AnyCommit} {bytes : Bytes}
variable {id' : CommitId} {d : Db}

theorem Ready.derived (hready : Ready l graph commit d)
    (hleft : Left (l ++ commitRows graph commit bytes id') graph commit bytes id' d)
    (hl : (d.rows.insertAll l).Derived) (hembedded : ∀ g, commit.graphId = some g → g = graph)
    (hbytes : commit.canonicalBytes = .ok bytes) (hid : commit.id = .ok id') :
    (d.rows.insertAll (l ++ commitRows graph commit bytes id')).Derived := by
  obtain ⟨hobject, -⟩ := hleft
  rw [insertAll_append] at hobject ⊢
  refine hl.publish ⟨hbytes, hid, hembedded, fun p hp => ?_, hready.2⟩ hobject
  exact (hready.1 p hp).grow (extends_insertAll d.rows l)

theorem Left.parent (hleft : Left l graph commit bytes id' d)
    (hbytes : commit.canonicalBytes = .ok bytes) (hid : commit.id = .ok id') {p : CommitId}
    (hp : p ∈ commit.parents) : (d.rows.insertAll l).Parent id' p := by
  have hdecodes : useCommit id' ((d.rows.insertAll l).objects id'.text) = .ok commit.normalized := by
    rw [hleft.1]
    exact useCommit_canonicalBytes hbytes hid
  refine ⟨by rw [hleft.2]; rfl, ?_⟩
  rw [parentsOf_eq hdecodes, AnyCommit.parents_normalized]
  exact hp

theorem movesRefs_prepareCandidate {request : PrepareRequest} {effective : Patch}
    (hk : Knows movesDiscipline pid ⟨held, id, d₀⟩ X K) :
    MovesRefs pid (prepareCandidate host deployment request effective pid) ⟨held, id, d₀⟩ := by
  refine meets_publishObject (.start hk) fun held₁ d₁ X₁ _ _ hk₁ => ?_
  refine meets_publishObject hk₁ fun held₂ d₂ X₂ _ _ hk₂ => Tx.oks_lift fun recordedAt _ => ?_
  refine meets_publishCommitIn hk₂ (fun _ => rfl)
    fun held₃ d₃ X₃ graph bytes id' _ hembedded _ hbytes hid hk₃ => ?_
  refine Tx.knows_quiet (quiet_insertProposal (e := Db.moving) (fun _ _ => rfl) _ _) hk₃.finish
    fun _ held₄ pending₄ d₄ _ hp₄ hk₄ => ?_
  refine Tx.knows_quiet (quiet_recordResult (T := AnyLock) (e := Db.moving) (fun _ _ => rfl) _) hk₄
    fun _ held₅ pending₅ d₅ _ hp₅ hk₅ => ?_
  refine movesRefs_publication [] hk₅ (fun d => ?_) fun d hd hK => ⟨?_, by simp⟩
  · rw [hp₅, hp₄, List.append_nil]
    rfl
  · obtain ⟨⟨-, hready⟩, hleft⟩ := hK
    exact hready.derived hleft ((hd.rows.insert_object _ _).insert_object _ _) hembedded hbytes hid

theorem movesRefs_prepare {request : PrepareRequest} (hinv : d₀.MovesOk) :
    MovesRefs pid (prepare host deployment request pid) { seen := d₀ } := by
  have hk : Knows movesDiscipline pid { seen := d₀ } [] fun _ => True :=
    ⟨hinv, by simp, fun _ _ => trivial⟩
  refine Tx.oks_lift fun _ _ => Tx.oks_lift fun _ _ => movesRefs_scoped hk fun held₁ d₁ hk₁ => ?_
  refine Tx.knows_reading (quiet_graphMustBeActiveFor _ _) hk₁ fun _ held₂ d₂ _ hk₂ =>
    Tx.knows_reading (quiet_lockBranch _ _ _) hk₂ fun _ held₃ d₃ _ hk₃ => Tx.oks_lift fun _ _ => ?_
  refine Tx.knows_query hk₃ fun d₄ hk₄ => Tx.oks_lift fun _ _ => Tx.knows_query hk₄ fun d₅ hk₅ =>
    Tx.oks_lift fun _ _ => Tx.oks_lift fun _ _ => ?_
  exact movesRefs_prepareCandidate hk₅

theorem meets_insertMergeProposal {row : MergeRow} {f : Unit → LedgerTx β}
    {Q : β → View Db LockName → Prop} (hk : Knows movesDiscipline pid ⟨held, pending, d₀⟩ X K)
    (h : ∀ d, Knows movesDiscipline pid ⟨held, (fun db =>
        { db with mergeProposals := db.mergeProposals ++ [row] }) ∘ pending, d⟩ X K →
      Meets movesDiscipline pid G (f ()).run (Oks Q) ⟨held, (fun db =>
        { db with mergeProposals := db.mergeProposals ++ [row] }) ∘ pending, d⟩) :
    Meets movesDiscipline pid G (insertMergeProposal row >>= f).run (Oks Q) ⟨held, pending, d₀⟩ :=
  Tx.oks_bind (Tx.knows_query hk fun d₁ hk₁ => Tx.oks_lift fun _ _ => h d₁ (hk₁.pending _))

theorem movesRefs_proposeCandidate {request : ProposeMergeRequest} {p : MergePreview}
    {classification : Classification} {patch : Patch} {base : CommitId} {parties : List String}
    (hk : Knows movesDiscipline pid ⟨held, id, d₀⟩ X K) :
    MovesRefs pid (proposeCandidate host deployment request pid p classification patch base parties)
      ⟨held, id, d₀⟩ := by
  refine meets_publishObject (.start hk) fun held₁ d₁ X₁ _ _ hk₁ => Tx.oks_lift fun recordedAt _ => ?_
  refine meets_publishCommitIn hk₁ (fun _ => rfl)
    fun held₂ d₂ X₂ graph bytes id' _ hembedded _ hbytes hid hk₂ => ?_
  refine Tx.knows_quiet (quiet_insertProposal (e := Db.moving) (fun _ _ => rfl) _ _) hk₂.finish
    fun _ held₃ pending₃ d₃ _ hp₃ hk₃ => Tx.oks_lift fun digest _ => ?_
  refine meets_insertMergeProposal hk₃ fun d₄ hk₄ => ?_
  refine Tx.knows_quiet (quiet_recordResult (T := AnyLock) (e := Db.moving) (fun _ _ => rfl) _) hk₄
    fun _ held₅ pending₅ d₅ _ hp₅ hk₅ => Tx.knows_query hk₅ fun d₆ hk₆ => Tx.oks_lift fun _ _ => ?_
  refine movesRefs_publication [request.mergeRow p classification base digest parties id'
    (host.next .proposals pid)] hk₆ (fun d => ?_) fun d hd hK => ?_
  · obtain ⟨hrows, hrefs, hevents, hmerges⟩ := Db.moving_eq (hp₃ d)
    rw [hp₅]
    simp only [Db.moving, Function.comp_apply, hrows, hrefs, hevents, hmerges]
    rfl
  · obtain ⟨⟨-, hready⟩, hleft⟩ := hK
    refine ⟨hready.derived hleft (hd.rows.insert_object _ _) hembedded hbytes hid, fun m hm => ?_⟩
    rw [List.mem_singleton.mp hm]
    exact hleft.parent hbytes hid (List.mem_cons_self ..)

theorem movesRefs_proposePreviewed {request : ProposeMergeRequest}
    {preview : Except LedgerError MergePreview} (hk : Knows movesDiscipline pid ⟨held, id, d₀⟩ X K) :
    MovesRefs pid (proposePreviewed host deployment request pid preview) ⟨held, id, d₀⟩ := by
  refine Tx.oks_lift fun p _ => Tx.oks_lift fun _ _ => Tx.oks_lift fun _ _ =>
    Tx.oks_lift fun _ _ => Tx.oks_lift fun _ _ => movesRefs_scoped hk fun held₁ d₁ hk₁ => ?_
  refine Tx.knows_reading (quiet_graphMustBeActiveFor _ _) hk₁ fun _ held₂ d₂ _ hk₂ =>
    Tx.knows_reading (quiet_lockBranch _ _ _) hk₂ fun _ held₃ d₃ _ hk₃ => Tx.oks_lift fun _ _ => ?_
  refine Tx.knows_reading (quiet_branchHead (T := AnyLock) _ _) hk₃ fun _ held₄ d₄ _ hk₄ =>
    Tx.knows_reading (quiet_branchHead (T := AnyLock) _ _) hk₄ fun _ held₅ d₅ _ hk₅ =>
    Tx.oks_lift fun _ _ => Tx.knows_query hk₅ fun d₆ hk₆ => ?_
  exact movesRefs_proposeCandidate hk₆

theorem movesRefs_mergePropose {request : ProposeMergeRequest} {limits : TraversalLimits}
    (hinv : d₀.MovesOk) :
    MovesRefs pid (mergePropose host deployment request pid limits) { seen := d₀ } := by
  have hk : ∀ d : Db, d.MovesOk → Knows movesDiscipline pid { seen := d } [] fun _ => True :=
    fun d hd => ⟨hd, by simp, fun _ _ => trivial⟩
  refine Tx.oks_lift fun _ _ => Tx.oks_lift fun _ _ => Tx.knows_query (hk d₀ hinv) fun d₁ hk₁ => ?_
  cases hstored : d₁.storedResult (request.scope.key .mergePropose) with
  | some row =>
      simp only [id_eq, hstored]
      exact Tx.knows_query hk₁ fun _ _ => Tx.oks_done fun _ _ => trivial
  | none =>
      simp only [id_eq, hstored]
      refine Tx.knows_reading (quiet_attempt (quiet_mergePreviewReported (T := AnyLock) _ _ _ _ _))
        hk₁ fun preview held₂ d₂ _ hk₂ => ?_
      rw [proposeJudged]
      split_ifs
      · exact movesRefs_proposePreviewed hk₂
      · exact movesRefs_scoped hk₂ fun held₃ d₃ hk₃ =>
          Tx.meets_rollback (movesRefs_proposePreviewed (hk d₃ hk₃.inv))

theorem movesRefs_putContent {contentId : ContentId} {bytes : Bytes} (hinv : d₀.MovesOk) :
    MovesRefs pid (putContent contentId bytes) { seen := d₀ } := by
  have hk : Knows movesDiscipline pid { seen := d₀ } [] fun _ => True :=
    ⟨hinv, by simp, fun _ _ => trivial⟩
  refine meets_putContent (fun _ _ _ => movesDiscipline_stable) (fun d hd => ?_) hk fun _ => trivial
  exact .published (extends_insert d.rows (.object contentId.text bytes)) (hd.rows.insert_object _ _)
    rfl rfl fun _ hm => .inl hm

theorem movesRefs_publishCommit {binding : V1Binding}
    (hk : Knows movesDiscipline pid ⟨held, id, d₀⟩ X K) :
    MovesRefs pid (publishCommit binding commit) ⟨held, id, d₀⟩ := by
  refine meets_publishCommit (fun _ _ _ => movesDiscipline_stable) hk
    fun graph bytes id' d d' hd _ heffect => ⟨?_, trivial⟩
  have hderived : d'.rows.Derived := heffect.derived hd.rows
  have hext := heffect.only_adds
  obtain ⟨-, -, rfl, -, -⟩ := heffect
  exact .published hext hderived rfl rfl fun _ hm => .inl hm

end Publish

/-! ## Moves -/

section Move

theorem meets_move {g : GraphId} {b : String} {f : Unit → LedgerTx β} (row : RefRow)
    (event : Option RefEventRow) (hk : Knows movesDiscipline pid ⟨held, pending, d₀⟩ X K)
    (hX : .ref g b ∈ X) (hmove : ∀ d, d.MovesOk → K d → RefMove d (pending d) g b row event)
    (hG : ∀ d d', d.MovesOk → K d → RefMove d d' g b row event → G d d')
    (hf : ∀ d, Meets movesDiscipline pid G (f ()).run (Oks fun _ _ => True) ⟨[], id, d⟩) :
    Meets movesDiscipline pid G (Tx.commit >>= f).run (Oks fun _ _ => True)
      ⟨held, pending, d₀⟩ := by
  refine Tx.knows_commit pending hk rfl fun d hd hKd => ?_
  have hmoved := hmove d hd hKd
  exact ⟨hG d _ hd hKd hmoved, fun l hl => hmoved.stable fun heq => hl (heq ▸ hX), hf _⟩

theorem movesRefs_records {g : GraphId} {b : String} {row : RefRow} {event : RefEventRow}
    {decision : DecisionRow} {duplicate : LedgerError} {outbox : OutboxRow} {result : IdempotencyRow}
    {a : β} (hk : Knows movesDiscipline pid ⟨held, pending, d₀⟩ X K) (hX : .ref g b ∈ X)
    (hp : ∀ d, (pending d).moving =
      ({ d.setRef g b row with refEvents := d.refEvents ++ [event] } : Db).moving)
    (hmove : ∀ d d', d.MovesOk → K d → d'.moving =
      ({ d.setRef g b row with refEvents := d.refEvents ++ [event] } : Db).moving →
      RefMove d d' g b row (some event)) :
    MovesRefs pid (do
      insertDecision decision duplicate
      insertOutbox outbox
      recordResult result
      Tx.commit
      return a : LedgerTx β) ⟨held, pending, d₀⟩ := by
  refine Tx.knows_quiet (quiet_insertDecision (T := AnyLock) (e := Db.moving) (fun _ _ => rfl) _ _) hk
    fun _ held₁ pending₁ d₁ _ hp₁ hk₁ => ?_
  refine Tx.knows_quiet (quiet_insertOutbox (T := AnyLock) (e := Db.moving) (fun _ _ => rfl) _) hk₁
    fun _ held₂ pending₂ d₂ _ hp₂ hk₂ => ?_
  refine Tx.knows_quiet (quiet_recordResult (T := AnyLock) (e := Db.moving) (fun _ _ => rfl) _) hk₂
    fun _ held₃ pending₃ d₃ _ hp₃ hk₃ => ?_
  refine meets_move row (some event) hk₃ hX (fun d hd hKd => hmove d _ hd hKd ?_) (fun _ _ _ _ h => .moved g b row _ h)
    fun _ => trivial
  rw [hp₃, hp₂, hp₁, hp]

section Accept

variable {request : AcceptRequest} {proposal : ProposalRow} {cited : Option ValidationRow}
variable {operation : RefOperation}

theorem parent_of_checkLineage {rows : ImmutableRows} (hrows : rows.Derived) {candidate head : CommitId}
    {row : IndexRow} (hrow : rows.commitIndex candidate.text = some row)
    (h : checkLineage candidate (some head) row.parentCount (rows.commitParents candidate.text 0) =
      .ok operation) : rows.Parent candidate head := by
  obtain ⟨commit, hat⟩ := hrows.at hrow
  obtain ⟨_, -, h⟩ := bind_eq_ok.mp h
  obtain ⟨_, hfirst, -⟩ := bind_eq_ok.mp h
  have htext := (ensure_eq_ok.mp hfirst).2
  rw [hat.parents 0] at htext
  obtain ⟨parent, hparent, htext⟩ := Option.map_eq_some_iff.mp htext
  obtain rfl := CommitId.text_injective htext
  exact ⟨by rw [hrow]; rfl, parentsOf_eq hat.decodes ▸ List.mem_of_getElem? hparent⟩

theorem quiet_recordIfGenesis (pid : ℕ) (operation : RefOperation) :
    Quiet AnyLock Db.moving (recordIfGenesis host request pid operation).run := by
  cases operation with
  | genesis =>
      exact Tx.quiet_bind (quiet_insertBranch (fun _ _ => rfl) _ _ _) fun _ =>
        quiet_insertBranchEvent (fun _ _ => rfl) _
  | advance => exact Tx.quiet_pure _
  | merge => exact Tx.quiet_pure _

theorem movesRefs_acceptRecords {current : Option RefRow}
    (hk : Knows movesDiscipline pid ⟨held, id, d₀⟩ X fun x => ∀ old, current = some old →
      x.refs request.scope.graph request.branch = some old ∧
        x.rows.Parent request.candidate old.head)
    (hX : current.isSome → .ref request.scope.graph request.branch ∈ X) :
    MovesRefs pid (do
      moveRef request current
      acceptRecords host request pid current operation proposal cited : LedgerTx Accepted)
      ⟨held, id, d₀⟩ := by
  cases current with
  | none =>
      refine Tx.oks_bind (meets_insertRef hk (fun _ => rfl) (fun held₁ d₁ hk₁ => ?_) fun _ _ _ _ _ =>
        Tx.meets_query fun d _ => trivial)
      refine Tx.meets_write (Tx.knows_quiet (quiet_recordIfGenesis _ _) (hk₁.pending _)
        fun _ held₂ pending₂ d₂ _ hp₂ hk₂ => ?_)
      refine movesRefs_records hk₂ (List.mem_cons_self ..) hp₂ fun d d' _ hK hafter => ?_
      exact .of_event (by rw [hK.2]; rfl) ⟨rfl, rfl⟩ ⟨rfl, rfl⟩ (fun _ hold => by cases hold) hafter
  | some old =>
      refine meets_advanceRef hk fun held₁ d₁ hk₁ => Tx.meets_write ?_
      refine Tx.knows_quiet (quiet_recordIfGenesis _ _) (hk₁.pending _)
        fun _ held₂ pending₂ d₂ _ hp₂ hk₂ => ?_
      refine movesRefs_records hk₂ (hX rfl) hp₂ fun d d' _ hK hafter => ?_
      obtain ⟨href, hparent⟩ := hK old rfl
      exact .of_event (by rw [href]; rfl) ⟨rfl, rfl⟩ ⟨rfl, rfl⟩
        (fun _ hold => Option.some.inj hold ▸ hparent) hafter

theorem movesRefs_acceptReviewed {current : Option RefRow} {distinct : Bool}
    (hk : Knows movesDiscipline pid ⟨held, id, d₀⟩ X fun x => ∀ old, current = some old →
      x.refs request.scope.graph request.branch = some old)
    (hX : current.isSome → .ref request.scope.graph request.branch ∈ X)
    (hcurrent : current.map (·.head) = request.expectedHead) :
    MovesRefs pid (acceptReviewed host deployment request pid current distinct) ⟨held, id, d₀⟩ := by
  refine Tx.knows_reading (quiet_boundUndecidedProposal _ _ _ _) hk fun proposal held₁ d₁ _ hk₁ =>
    Tx.knows_reading (quiet_requireDistinctIf (T := AnyLock) _ _ _) hk₁ fun _ held₂ d₂ _ hk₂ =>
    Tx.knows_reading (quiet_citeValidation (T := AnyLock) _ _ _ _) hk₂ fun cited held₃ d₃ _ hk₃ => ?_
  refine Tx.knows_query hk₃ fun d₄ hk₄ => Tx.oks_lift fun row hrow => ?_
  have hk₄ := hk₄.learn (F := fun x => x.rows.commitIndex request.candidate.text = some row)
    fun x hrely => hrely.grow.rows.index _ _ (expect_eq_ok.mp hrow)
  refine Tx.knows_query hk₄ fun d₅ hk₅ => Tx.oks_lift fun operation hoperation => ?_
  have hk₆ := hk₅.learn (F := fun x => ∀ old, current = some old →
      x.rows.Parent request.candidate old.head) fun x hrely old hold => by
    rw [← hcurrent, hold] at hoperation
    exact hk₅.inv.rows.parent_grow hrely.grow.rows
      (parent_of_checkLineage hk₅.inv.rows hk₅.now.2 hoperation)
  exact movesRefs_acceptRecords (hk₆.imp fun x hx old hold => ⟨hx.1.1 old hold, hx.2 old hold⟩) hX

theorem movesRefs_accept (hinv : d₀.MovesOk) :
    MovesRefs pid (accept host deployment request pid) { seen := d₀ } := by
  have hk : Knows movesDiscipline pid { seen := d₀ } [] fun _ => True :=
    ⟨hinv, by simp, fun _ _ => trivial⟩
  refine Tx.oks_lift fun _ _ => Tx.oks_lift fun _ _ => Tx.oks_lift fun _ _ =>
    movesRefs_scoped hk fun held₁ d₁ hk₁ => Tx.oks_lift fun _ _ => ?_
  refine Tx.knows_reading (quiet_graphMustBeActiveFor _ _) hk₁ fun _ held₂ d₂ _ hk₂ =>
    meets_lockRef_exclusive hk₂ fun held₃ d₃ X₃ current _ hX₃ hk₃ => ?_
  refine Tx.knows_reading (quiet_lockBranch _ _ _) hk₃ fun _ held₄ d₄ _ hk₄ =>
    Tx.oks_lift fun _ _ => Tx.oks_lift fun _ _ => Tx.oks_lift fun _ hcurrent => ?_
  exact movesRefs_acceptReviewed (hk₄.imp fun x hx => hx.2) hX₃ (ensure_eq_ok.mp hcurrent)

end Accept

section Apply

variable {request : ApplyMergeRequest} {row : MergeRow}

theorem movesRefs_applyLocked {target : RefRow × BranchRow} {sourceHead : Option CommitId}
    {sourceActive : Bool}
    (hk : Knows movesDiscipline pid ⟨held, id, d₀⟩ X fun x =>
      x.refs request.scope.graph row.targetBranch = some target.1 ∧
        x.rows.Parent row.candidate row.targetHead)
    (hX : .ref request.scope.graph row.targetBranch ∈ X) :
    MovesRefs pid (applyLocked host deployment request pid row target sourceHead sourceActive)
      ⟨held, id, d₀⟩ := by
  refine Tx.knows_query hk fun d₁ hk₁ => Tx.oks_lift fun _ _ => Tx.oks_lift fun _ hfresh =>
    Tx.oks_lift fun _ _ => ?_
  obtain ⟨hhead, -⟩ := ensure_eq_ok.mp hfresh
  refine Tx.knows_reading (quiet_boundUndecidedProposal _ _ _ _) hk₁ fun proposal held₂ d₂ _ hk₂ =>
    Tx.knows_reading (quiet_requireDistinctFromSource (T := AnyLock) _ _ _ _) hk₂
      fun _ held₃ d₃ _ hk₃ =>
    Tx.knows_reading (quiet_citeValidation (T := AnyLock) _ _ _ _) hk₃ fun cited held₄ d₄ _ hk₄ =>
    Tx.oks_lift fun _ _ => ?_
  refine meets_advanceRef hk₄ fun held₅ d₅ hk₅ => Tx.meets_write ?_
  refine movesRefs_records (hk₅.pending _) hX (fun _ => rfl) fun d d' _ hK hafter => ?_
  refine .of_event (by rw [hK.1]; rfl) ⟨rfl, rfl⟩ ⟨rfl, rfl⟩ (fun h hold => ?_) hafter
  obtain rfl := Option.some.inj hold
  rw [hhead]
  exact hK.2

theorem movesRefs_mergeApply (hinv : d₀.MovesOk) :
    MovesRefs pid (mergeApply host deployment request pid) { seen := d₀ } := by
  have hk : Knows movesDiscipline pid { seen := d₀ } [] fun _ => True :=
    ⟨hinv, by simp, fun _ _ => trivial⟩
  refine Tx.oks_lift fun _ _ => Tx.oks_lift fun _ _ => movesRefs_scoped hk fun held₁ d₁ hk₁ =>
    Tx.oks_lift fun _ _ => ?_
  refine Tx.knows_reading (quiet_graphMustBeActiveFor _ _) hk₁ fun _ held₂ d₂ _ hk₂ =>
    Tx.knows_query hk₂ fun d₃ hk₃ => Tx.oks_lift fun row hrow => Tx.oks_lift fun _ _ => ?_
  have hmem : row ∈ d₃.mergeProposals := List.mem_of_find?_eq_some (expect_eq_ok.mp hrow)
  have hk₃ := hk₃.learn fun x hrely =>
    hk₃.inv.rows.parent_grow hrely.grow.rows (hk₃.inv.merges row hmem)
  refine meets_lockRefs hk₃ fun held₄ d₄ X₄ refs _ hX₄ hk₄ => ?_
  refine Tx.knows_reading (quiet_lockBranches _ _ _) hk₄ fun branches held₅ d₅ _ hk₅ =>
    Tx.oks_lift fun target htarget => ?_
  obtain ⟨href, -⟩ := checkTarget_eq_ok htarget
  exact movesRefs_applyLocked (hk₅.imp fun x hx => ⟨hx.2.1 _ href, hx.1.2⟩) (hX₄ (by simp [href]))

end Apply

section Raw

variable {graph : GraphId} {branch : String} {new : CommitId}

theorem quiet_refsHeadFk {γ : Type} {e : Db → γ} (graph : GraphId) (head : CommitId) :
    Quiet AnyLock e (refsHeadFk graph head).run :=
  Tx.quiet_bind (Tx.quiet_query _) fun _ => Tx.quiet_lift _

theorem movesRefs_moveRaw {expected : Option CommitId} {f : Bool → LedgerTx β}
    (hk : Knows movesDiscipline pid ⟨held, id, d₀⟩ X K)
    (hmoved : ∀ held pending d X row, Knows movesDiscipline pid ⟨held, pending, d⟩ X (fun x =>
        RefMove x (pending x) graph branch row none) → .ref graph branch ∈ X →
      MovesRefs pid (f true) ⟨held, pending, d⟩)
    (hstill : ∀ held pending d, (∀ x, pending x = x) → MovesRefs pid (f false) ⟨held, pending, d⟩) :
    MovesRefs pid (moveRaw graph branch new expected >>= f) ⟨held, id, d₀⟩ := by
  cases expected with
  | none =>
      refine Tx.oks_bind (meets_insertRef hk (fun _ => rfl) (fun held₁ d₁ hk₁ => ?_)
        fun held₁ pending₁ d₁ hp₁ _ => hstill held₁ pending₁ d₁ hp₁)
      refine Tx.knows_reading (quiet_refsHeadFk _ _) hk₁ fun _ held₂ d₂ _ hk₂ => ?_
      refine hmoved held₂ _ d₂ _ ⟨new, 1, true⟩ (hk₂.imp fun x hx => ?_) (List.mem_cons_self ..)
      refine ⟨by rw [hx.2]; rfl, by simp, by simp, by simp, ?_⟩
      simp [Db.moving, Db.setRef]
  | some expected =>
      refine Tx.oks_bind (Tx.knows_locking hk fun d₁ hk₁ => ?_)
      cases hold : (d₁.refs graph branch).filter (·.head = expected) with
      | none =>
          simp only [id_eq, hold]
          exact hstill _ _ d₁ fun _ => rfl
      | some old =>
          simp only [id_eq, hold, rowLock, Option.isSome_some, if_true] at hk₁ ⊢
          have href : d₁.refs graph branch = some old := (Option.filter_eq_some_iff.mp hold).1
          have hk₂ := (hk₁.hold (l := .ref graph branch) (List.mem_cons_self ..)).learn
            (F := fun x => x.refs graph branch = some old) fun x hrely =>
              (KeepsRefs.stable (hrely.stable (.ref graph branch) .exclusive
                (List.mem_cons_self ..))).1.trans href
          refine Tx.knows_reading (quiet_refsBranchIsActive _ _ _ _) hk₂ fun _ held₃ d₃ _ hk₃ =>
            Tx.oks_lift fun _ _ => ?_
          refine Tx.knows_reading (quiet_refsHeadFk _ _) hk₃ fun _ held₄ d₄ _ hk₄ =>
            Tx.meets_write ?_
          refine hmoved held₄ _ d₄ _ { old with head := new, version := old.version + 1 }
            ((hk₄.pending _).imp fun x hx => ?_) (List.mem_cons_self ..)
          refine ⟨by rw [hx.2]; rfl, by simp, by simp, by simp, ?_⟩
          simp [Db.moving, Db.setRef]

theorem movesRefs_compareAndSet {expected : Option CommitId} (hinv : d₀.MovesOk) :
    MovesRefs pid (compareAndSet graph branch expected new) { seen := d₀ } := by
  have hk : Knows movesDiscipline pid { seen := d₀ } [] fun _ => True :=
    ⟨hinv, by simp, fun _ _ => trivial⟩
  refine Tx.knows_locking hk fun d₁ hk₁ => Tx.oks_lift fun _ _ => movesRefs_moveRaw hk₁ ?_ ?_
  · intro held₂ pending₂ d₂ X₂ row hk₂ hX₂
    exact meets_move row none hk₂ hX₂ (fun _ _ h => h) (fun _ _ _ _ h => .moved graph branch row none h)
      fun _ => trivial
  · intro held₂ pending₂ d₂ hp₂
    refine Tx.commit_quiet (e := Db.moving) (fun l _ _ h => Db.stable_of_moving h l)
      (fun _ _ h => .still h) (fun d => congrArg Db.moving (hp₂ d)) fun d => ?_
    exact Tx.meets_query fun _ _ => trivial

end Raw

end Move

/-! ## Programs -/

theorem movesRefs_program (request : Request) (hinv : d₀.MovesOk)
    (hne : ∀ deployment r limits, request ≠ .createBranch deployment r limits) :
    MovesRefs pid (request.program host pid) { seen := d₀ } := by
  cases request with
  | prepare deployment r => exact movesRefs_return (movesRefs_prepare hinv)
  | accept deployment r => exact movesRefs_return (movesRefs_accept hinv)
  | reject r => exact movesRefs_return (movesRefs_silent silent_reject)
  | markSuperseded r => exact movesRefs_return (movesRefs_silent silent_markSuperseded)
  | createBranch deployment r limits => exact absurd rfl (hne deployment r limits)
  | deleteBranch r => exact movesRefs_return (movesRefs_silent silent_changeBranchStatus)
  | restoreBranch r => exact movesRefs_return (movesRefs_silent silent_changeBranchStatus)
  | mergePropose deployment r limits => exact movesRefs_return (movesRefs_mergePropose hinv)
  | mergeApply deployment r => exact movesRefs_return (movesRefs_mergeApply hinv)
  | mergePreview deployment tenant graph spec limits report =>
      exact movesRefs_return (movesRefs_silent
        (quiet_mergePreviewReported (T := AnyLock) _ _ _ _ _).silent)
  | setGraphStatus graph status =>
      exact movesRefs_return (f := fun _ => Reply.done)
        (movesRefs_silent (silent_setGraphStatus graph status))
  | recordValidation row =>
      exact movesRefs_return (f := fun _ => Reply.done)
        (movesRefs_silent (silent_recordValidation row))

theorem movesRefs_storeProgram [IndexScan] (request : StoreRequest) (hinv : d₀.MovesOk) :
    MovesRefs pid request.program { seen := d₀ } := by
  have hk : Knows movesDiscipline pid { seen := d₀ } [] fun _ => True :=
    ⟨hinv, by simp, fun _ _ => trivial⟩
  cases request with
  | putContent contentId bytes =>
      exact movesRefs_return (f := fun _ => StoreReply.stored) (movesRefs_putContent hinv)
  | putCommit binding commit =>
      exact movesRefs_return (meets_validatePatchOf hk fun d₁ hk₁ => movesRefs_publishCommit hk₁)
  | publishCommit binding commit => exact movesRefs_return (movesRefs_publishCommit hk)
  | verifyCommitIndex => exact movesRefs_return (movesRefs_silent silent_verifyCommitIndex)
  | setGraphStatus graph status =>
      exact movesRefs_return (f := fun _ => StoreReply.done)
        (movesRefs_silent (silent_setGraphStatus graph status))

end CognitiveLedger
