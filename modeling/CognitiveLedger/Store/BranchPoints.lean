import CognitiveLedger.Lib.Replies
import CognitiveLedger.Store.MovePrograms

/-!
# A branch starts in the history of its source

The search for a branch point runs without locks and answers for a head that the
source had then. The creating transaction accepts the answer if the version is still
the same, or if every version since was reached by a recorded event, each leaving the
head of the one before. Raw moves in between leave a version without an event; they
cannot make the transaction accept a commit that the source has left.
-/

set_option linter.unusedSectionVars false

namespace CognitiveLedger

open ReadCommitted Lineage ExceptRules ImmutableRows

variable [NQuadsParser] [Sha256] [TimeCrate] [StrDebug]

structure StartsAt (r : CreateBranchRequest) (d d' : Db) (source new : RefRow) : Prop where
  leaves : d.refs r.scope.graph r.source = some source
  fresh : d.refs r.scope.graph r.name = none
  stands : d'.refs r.scope.graph r.name = some new
  point : ∀ c, r.fromCommit = some c → new.head = c
  reached : new.head ∈ ancestors d.rows.Parent source.head

/-! ## The creation -/

section Create

variable {host : Host} {pid : ℕ} {deployment : Deployment} {r : CreateBranchRequest}
variable {limits : TraversalLimits} {held : List (LockName × Mode)} {d₀ : Db} {X : List LockName}
variable {K : Db → Prop}

def Searched (r : CreateBranchRequest)
    (reachable : Option (Except LedgerError (CommitId × ℕ × Bool))) (d : Db) : Prop :=
  ∀ head version, reachable = some (.ok (head, version, true)) →
    ∃ (d₁ : Db) (ref : RefRow), d₁.MovesOn d ∧ d₁.refs r.scope.graph r.source = some ref ∧ ref.head = head ∧
      ref.version = version ∧ ∀ c, r.fromCommit = some c → c ∈ ancestors d.rows.Parent head

theorem searched_none (d : Db) : Searched r none d := fun _ _ h => by cases h

theorem meets_search {G : Db → Db → Prop} {commit : CommitId} (hfrom : r.fromCommit = some commit)
    {Q : Except LedgerError (CommitId × ℕ × Bool) → View Db LockName → Prop}
    (hk : Knows movesDiscipline pid ⟨held, id, d₀⟩ X K)
    (h : ∀ d result, Knows movesDiscipline pid ⟨held, id, d⟩ X (Searched r (some result)) →
      Q result ⟨held, id, d⟩) :
    Meets movesDiscipline pid G (reachableFromSource deployment r commit limits).run Q
      ⟨held, id, d₀⟩ := by
  have hnot : ∀ d result, Knows movesDiscipline pid ⟨held, id, d⟩ X K →
      (∀ head version, result ≠ .ok (head, version, true)) → Q result ⟨held, id, d⟩ :=
    fun d result hk hne => h d result (hk.imp fun x _ head version heq =>
      absurd (Option.some.inj heq) (hne head version))
  unfold reachableFromSource
  refine Tx.knows_query hk fun d₁ hk₁ => Tx.meets_lift (fun source hsource => ?_)
    fun e _ => hnot d₁ _ hk₁ (by simp)
  obtain ⟨ref, href, g, -, hif⟩ : ∃ ref, d₁.refs r.scope.graph r.source = some ref ∧ ∃ g,
      d₁.graphs r.scope.graph = some g ∧ (if g.tenantId = r.scope.principal.tenantId ∧
        g.status = .active then some ref else none) = some source := by
    simpa only [id_eq, Option.bind_eq_some_iff] using expect_eq_ok.mp hsource
  obtain rfl : ref = source := by
    split_ifs at hif
    exact Option.some.inj hif
  have hk₁' := hk₁.learn (F := fun x => d₁.MovesOn x) fun x hrely => hrely.grow
  -- an ancestor of the head that was read stays one
  have hfound : ∀ d, Knows movesDiscipline pid ⟨held, id, d⟩ X (fun x => K x ∧ d₁.MovesOn x) →
      commit ∈ ancestors d.rows.Parent ref.head →
      Q (.ok (ref.head, ref.version, true)) ⟨held, id, d⟩ := by
    intro d hkd hmem
    refine h d _ ⟨hkd.inv, hkd.locks, fun x hrely head version heq => ?_⟩
    obtain ⟨rfl, rfl, -⟩ : ref.head = head ∧ ref.version = version ∧ true = true := by
      simpa using heq
    refine ⟨d₁, ref, (hkd.later x hrely).2, href, rfl, rfl, fun c hc => ?_⟩
    obtain rfl := Option.some.inj (hfrom.symm.trans hc)
    exact hkd.inv.rows.ancestors_grow hrely.grow.rows _ hmem
  by_cases hhead : commit = ref.head
  · rw [if_pos hhead]
    exact hfound d₁ hk₁' (hhead ▸ self_mem_ancestors _)
  rw [if_neg hhead]
  refine Tx.knows_query hk₁' fun d₂ hk₂ => ?_
  by_cases hknown : d₂.rows.inGraph r.scope.graph commit.text = false
  · simp only [id_eq, if_pos hknown]
    exact hnot d₂ _ (hk₂.imp fun x hx => hx.1) (by simp)
  simp only [id_eq, if_neg hknown]
  refine Tx.knows_query hk₂ fun d₃ hk₃ => Tx.meets_lift (fun reachable hreachable => ?_)
    fun e _ => hnot d₃ _ (hk₃.imp fun x hx => hx.1) (by simp)
  cases reachable with
  | false => exact hnot d₃ _ (hk₃.imp fun x hx => hx.1) (by simp)
  | true =>
      have hwalk : commit ∈ ancestors
          (graphParents d₃.rows r.scope.graph deployment.windows.ancestry).Parent ref.head :=
        isAncestor_eq_true (graphParents_honest ..) (mapError_eq_ok.mp hreachable)
      exact hfound d₃ hk₃ (ancestors_mono (fun _ _ hp => hk₃.inv.rows.parent_of_graphParents hp) _ hwalk)

/-- The effect of a creation. -/
def Creates (r : CreateBranchRequest) (d d' : Db) : Prop :=
  RefStep d d' ∧ ∃ source new, StartsAt r d d' source new

theorem meets_createRecords_moves {point : CommitId} {source : RefRow}
    (hpoint : ∀ c, r.fromCommit = some c → point = c)
    (hk : Knows movesDiscipline pid ⟨held, id, d₀⟩ X fun x =>
      x.refs r.scope.graph r.source = some source ∧ point ∈ ancestors x.rows.Parent source.head) :
    Meets movesDiscipline pid (Creates r) (createRecords host r pid point).run
      (Oks fun _ _ => True) ⟨held, id, d₀⟩ := by
  refine meets_insertRef hk (fun _ => rfl) (fun held₁ d₁ hk₁ => ?_)
    fun _ _ _ _ _ => Tx.oks_lift fun _ h => absurd (ensure_eq_ok.mp h) (by simp)
  refine Tx.oks_lift fun _ _ => Tx.meets_write ?_
  refine Tx.knows_quiet (quiet_insertBranch (e := Db.moving) (fun _ _ => rfl) _ _ _) (hk₁.pending _)
    fun _ held₂ pending₂ d₂ _ hp₂ hk₂ => ?_
  refine Tx.knows_quiet (quiet_insertBranchEvent (T := AnyLock) (e := Db.moving) (fun _ _ => rfl) _)
    hk₂ fun _ held₃ pending₃ d₃ _ hp₃ hk₃ => ?_
  refine Tx.knows_quiet (quiet_recordResult (T := AnyLock) (e := Db.moving) (fun _ _ => rfl) _) hk₃
    fun _ held₄ pending₄ d₄ _ hp₄ hk₄ => ?_
  refine meets_move ⟨point, 1, r.policy.isProtected⟩ (some (r.refEvent host pid point)) hk₄
    (List.mem_cons_self ..) (fun d _ hK => ?_) (fun d d' _ hK hmove => ?_)
    fun _ => trivial
  · refine .of_event (by rw [hK.2]; rfl) ⟨rfl, rfl⟩ ⟨rfl, rfl⟩ (fun _ hold => by cases hold) ?_
    rw [hp₄, hp₃, hp₂]
    rfl
  · exact ⟨.moved _ _ _ _ hmove, source, _, hK.1.1, hK.2, hmove.refs_self, hpoint, hK.1.2⟩

/-- What the search answered for an earlier head holds of the locked one, if the transaction
accepts the answer. -/
theorem Searched.reached {reachable : Option (Except LedgerError (CommitId × ℕ × Bool))} {d : Db}
    (h : Searched r reachable d) (hd : d.MovesOk) {source : RefRow} {point : CommitId}
    (hsource : d.refs r.scope.graph r.source = some source)
    (hpoint : branchPoint (d.eventsOf r.scope.graph r.source) source reachable r.fromCommit =
      .ok point) : point ∈ ancestors d.rows.Parent source.head := by
  rcases (branchPoint_eq_ok hpoint).2 with rfl | ⟨hfrom, head, version, hreachable, hmoved⟩
  · exact self_mem_ancestors _
  · obtain ⟨d₁, ref, hon, href, rfl, rfl, hmem⟩ := h head version hreachable
    exact ancestors_subset (hd.head_reached hon href hsource hmoved) (hmem point hfrom)

theorem meets_createScoped_moves {reachable : Option (Except LedgerError (CommitId × ℕ × Bool))}
    (hk : Knows movesDiscipline pid ⟨held, id, d₀⟩ X (Searched r reachable)) :
    Meets movesDiscipline pid (Creates r) (createScoped host r pid reachable).run
      (Oks fun _ _ => True) ⟨held, id, d₀⟩ := by
  refine movesRefs_scoped hk fun held₁ d₁ hk₁ => ?_
  refine Tx.knows_reading (quiet_graphMustBeActiveFor _ _) hk₁ fun _ held₂ d₂ _ hk₂ => ?_
  refine meets_lockRef hk₂ (fun _ => rfl) fun held₃ d₃ _ hk₃ => ?_
  refine Tx.knows_reading (quiet_lockBranch _ _ _) hk₃ fun _ held₄ d₄ _ hk₄ =>
    Tx.oks_lift fun source hsource => ?_
  obtain ⟨href, -⟩ := checkSource_eq_ok hsource
  refine Tx.knows_query hk₄ fun d₅ hk₅ => Tx.oks_lift fun point hpoint => ?_
  have hreached := hk₅.now.1.reached hk₅.inv (hk₅.now.2 source href) hpoint
  have hk₆ := hk₅.learn fun x hrely => hk₅.inv.rows.ancestors_grow hrely.grow.rows _ hreached
  exact meets_createRecords_moves (branchPoint_eq_ok hpoint).1
    (hk₆.imp fun x hx => ⟨hx.1.2 source href, hx.2⟩)

theorem meets_createBranch_moves (hinv : d₀.MovesOk) :
    Meets movesDiscipline pid (Creates r) (createBranch host deployment r pid limits).run
      (Oks fun _ _ => True) { seen := d₀ } := by
  have hk : Knows movesDiscipline pid { seen := d₀ } [] fun _ => True :=
    ⟨hinv, by simp, fun _ _ => trivial⟩
  refine Tx.oks_lift fun _ _ => Tx.oks_lift fun _ _ => Tx.oks_lift fun _ _ =>
    Tx.oks_lift fun _ _ => ?_
  cases hfrom : r.fromCommit with
  | none => exact meets_createScoped_moves (hk.imp fun x _ => searched_none x)
  | some commit =>
      refine Tx.knows_query hk fun d₁ hk₁ => ?_
      cases hstored : d₁.storedResult (r.scope.key .branchCreate) with
      | some row =>
          simp only [id_eq, hstored]
          exact Tx.knows_query hk₁ fun _ _ => Tx.oks_done fun _ _ => trivial
      | none =>
          simp only [id_eq, hstored]
          exact meets_attempt (meets_search hfrom hk₁ fun d₂ reachable hk₂ =>
            meets_createScoped_moves hk₂)

end Create

/-! ## Results that only a commit leads to -/

section Replies

variable {host : Host} {pid : ℕ} {deployment : Deployment} {r : CreateBranchRequest}
variable {limits : TraversalLimits}

/-- The result of a creation that did not replay a stored one. -/
def IsNew : Except LedgerError BranchOutcome → Prop
  | .ok outcome => outcome.isReplay = false
  | .error _ => False

theorem uncommitted_replayed (row : IdempotencyRow) (scope : RequestScope) (kind : ResultKind) :
    Uncommitted (fun result => ¬ IsNew result) (replayed (replayBranch kind row scope)).run := by
  intro d hnew
  cases hreplay : replayBranch kind row scope d with
  | error e => rw [hreplay] at hnew; exact hnew
  | ok outcome =>
      rw [hreplay] at hnew
      simp only [replayBranch, bind_eq_ok, pure_eq_ok, Except.ok.injEq] at hreplay
      obtain ⟨_, -, _, -, _, -, _, -, rfl⟩ := hreplay
      cases hnew

theorem uncommitted_createScoped {reachable : Option (Except LedgerError (CommitId × ℕ × Bool))} :
    Uncommitted (fun result => ¬ IsNew result) (createScoped host r pid reachable).run := by
  refine Tx.uncommitted_then (fun _ => id) fun _ => Tx.uncommitted_then (fun _ => id) fun stored => ?_
  cases stored with
  | some row => exact uncommitted_replayed row r.scope .branchCreated
  | none =>
      refine Tx.uncommitted_then (fun _ => id) fun _ => Tx.uncommitted_then (fun _ => id) fun _ =>
        Tx.uncommitted_then (fun _ => id) fun _ => Tx.uncommitted_then (fun _ => id) fun _ =>
        Tx.uncommitted_then (fun _ => id) fun _ => Tx.uncommitted_then (fun _ => id) fun _ => ?_
      refine Tx.uncommitted_then (fun _ => id) fun _ => Tx.uncommitted_then (fun _ => id) fun _ =>
        Tx.uncommitted_then (fun _ => id) fun _ => Tx.uncommitted_then (fun _ => id) fun _ =>
        Tx.uncommitted_then (fun _ => id) fun _ => Tx.uncommitted_then (fun _ => id) fun _ => ?_
      exact Tx.uncommitted_commit

theorem uncommitted_createBranch :
    Uncommitted (fun result => ¬ IsNew result) (createBranch host deployment r pid limits).run := by
  refine Tx.uncommitted_then (fun _ => id) fun _ => Tx.uncommitted_then (fun _ => id) fun _ =>
    Tx.uncommitted_then (fun _ => id) fun _ => Tx.uncommitted_then (fun _ => id) fun _ => ?_
  cases r.fromCommit with
  | none => exact uncommitted_createScoped
  | some commit =>
      refine Tx.uncommitted_then (fun _ => id) fun stored => ?_
      cases stored with
      | some row => exact uncommitted_replayed row r.scope .branchCreated
      | none => exact Tx.uncommitted_then (fun _ => id) fun _ => uncommitted_createScoped

end Replies

/-! ## Runs -/

def ImportEffect (request : ImportRequest) (d d' : Db) : Prop :=
  RefStep d d' ∧ ∀ deployment r limits, request = .workflow (.createBranch deployment r limits) →
    ∃ source new, StartsAt r d d' source new

def Created (request : ImportRequest) (result : Except LedgerError ImportReply) : Prop :=
  ∃ deployment r limits outcome, request = .workflow (.createBranch deployment r limits) ∧
    result = .ok (.workflow (.branch outcome)) ∧ outcome.isReplay = false

variable [IndexScan] {host : Host}

theorem meets_importCode (request : ImportRequest) (pid : ℕ) (d : Db) (hinv : d.MovesOk) :
    Meets movesDiscipline pid (ImportEffect request) (importCode host request pid)
      (fun _ _ => True) { seen := d } := by
  have hsteps : ∀ {x : LedgerTx ImportReply}, MovesRefs pid x { seen := d } →
      (∀ deployment r limits, request ≠ .workflow (.createBranch deployment r limits)) →
      Meets movesDiscipline pid (ImportEffect request) x.run (fun _ _ => True) { seen := d } :=
    fun h hne => h.mono (fun _ _ hstep => ⟨hstep, fun _ _ _ heq => absurd heq (hne _ _ _)⟩)
      fun _ _ _ => trivial
  cases request with
  | workflow request =>
      cases request with
      | createBranch deployment r limits =>
          have hcreate : Meets movesDiscipline pid (Creates r) (do
              return ImportReply.workflow (← (do return Reply.branch (← createBranch host deployment r
                pid limits) : LedgerTx Reply)) : LedgerTx ImportReply).run (Oks fun _ _ => True)
              { seen := d } := by
            refine Tx.oks_bind (Tx.oks_bind ((meets_createBranch_moves hinv).mono (fun _ _ h => h)
              fun result _ _ => ?_))
            cases result <;> trivial
          refine hcreate.mono (fun a b h => ⟨h.1, fun _ _ _ heq => ?_⟩) fun _ _ _ => trivial
          cases heq
          exact h.2
      | setGraphStatus graph status =>
          exact hsteps (movesRefs_return (f := fun _ => ImportReply.done)
            (movesRefs_silent (silent_changeGraphStatus _ _))) (by simp)
      | _ => exact hsteps (movesRefs_return (movesRefs_program _ hinv (by simp))) (by simp)
  | store request =>
      cases request with
      | setGraphStatus graph status =>
          exact hsteps (movesRefs_return (f := fun _ => ImportReply.done)
            (movesRefs_silent (silent_changeGraphStatus _ _))) (by simp)
      | _ => exact hsteps (movesRefs_return (movesRefs_storeProgram _ hinv)) (by simp)
  | compareAndSet graph branch expected new =>
      exact hsteps (movesRefs_return (f := fun _ => ImportReply.done)
        (movesRefs_compareAndSet hinv)) (by simp)

theorem uncommitted_importCode (request : ImportRequest) (pid : ℕ) :
    Uncommitted (fun result => ¬ Created request result) (importCode host request pid) := by
  by_cases hcreate : ∃ deployment r limits, request = .workflow (.createBranch deployment r limits)
  · obtain ⟨deployment, r, limits, rfl⟩ := hcreate
    refine Tx.uncommitted_return (Tx.uncommitted_return (uncommitted_createBranch.mono ?_))
    rintro result hnot ⟨_, _, _, outcome, -, hresult, hnew⟩
    cases result with
    | error e => cases hresult
    | ok found =>
        cases hresult
        exact hnot hnew
  · refine uncommitted_of_forall (fun result hcreated => hcreate ?_) _
    obtain ⟨deployment, r, limits, _, hrequest, -⟩ := hcreated
    exact ⟨deployment, r, limits, hrequest⟩

/-- An interleaving of requests of the workflow and of imports, some of them crashed, from a
database without refs. -/
structure ImportRun (host : Host) where
  start : Db
  rows : start.rows.Derived
  noRefs : ∀ g b, start.refs g b = none
  noEvents : start.refEvents = []
  noMerges : start.mergeProposals = []
  system : ImportSystem
  reachable : system.Reachable (importCode host) start

namespace ImportRun

/-- The commits and the replies of the run, in order. -/
def log (run : ImportRun host) :
    List (Event ImportRequest Db (Except LedgerError ImportReply)) := run.system.log

theorem start_movesOk (run : ImportRun host) : run.start.MovesOk where
  rows := run.rows
  told := by simp [run.noEvents]
  versions := by simp [Db.eventsOf, run.noEvents]
  forwards := by simp [run.noEvents]
  merges := by simp [run.noMerges]

theorem sound (run : ImportRun host) :
    Sound movesDiscipline (fun request _ _ => ImportEffect request) (fun _ _ _ _ _ => True)
      run.system :=
  sound_of_reachable (fun _ _ _ _ _ hinv h => ⟨(h.1.keeps hinv).1, (h.1.keeps hinv).2, fun _ _ h => h⟩)
    (fun request pid d hinv _ => meets_importCode request pid d hinv)
    run.start_movesOk (fun _ => trivial) run.reachable

/-- Every creation that succeeds as a new operation has committed, and when it did, the new branch
stood in the history of the source's head. -/
theorem branches_start_in_history (run : ImportRun host) (pid : ℕ) (deployment : Deployment)
    (r : CreateBranchRequest) (limits : TraversalLimits) :
    (∀ start before after,
      .committed pid (.workflow (.createBranch deployment r limits)) start before after ∈ run.log →
        ∃ source new, StartsAt r before after source new) ∧
    ∀ start db outcome, .replied pid (.workflow (.createBranch deployment r limits)) start db
        (.ok (.workflow (.branch outcome))) ∈ run.log → outcome.isReplay = false →
      ∃ before after,
        .committed pid (.workflow (.createBranch deployment r limits)) start before after ∈
          run.log := by
  refine ⟨fun start before after hmem => ?_, fun start db outcome hmem hnew => ?_⟩
  · obtain ⟨heffect, -⟩ := run.sound.log _ hmem
    exact heffect.2 deployment r limits rfl
  · refine run.reachable.committed_of_reply (P := fun request result => ¬ Created request result)
      (fun request n => uncommitted_importCode request n) hmem (not_not_intro ?_)
    exact ⟨deployment, r, limits, outcome, rfl, rfl, hnew⟩

end ImportRun

end CognitiveLedger
