import CognitiveLedger.Store.PublishSteps

/-!
# Reviewing and recording, step by step

The proposal under review, its reviewer and its validation, and the insertions
whose unique keys keep two transactions apart.
-/

set_option linter.unusedSectionVars false

namespace CognitiveLedger

open ReadCommitted Logs ExceptRules ImmutableRows

variable [NQuadsParser] [Sha256] [TimeCrate] [StrDebug]
variable {Δ : Discipline Db LockName} {host : Host} {pid : ℕ} {G : Db → Db → Prop} {β : Type}
variable {v : View Db LockName}
variable {X : List LockName} {K : Db → Prop} {Q : β → View Db LockName → Prop}

/-! ## The proposal under review -/

theorem checkCandidateGraph_eq_ok {graph : GraphId} {c : CommitId} {row : Option IndexRow} {u : Unit}
    (h : checkCandidateGraph graph c row = .ok u) : ∃ r, row = some r ∧ r.graphId = graph.asStr := by
  cases row with
  | none => cases h
  | some r => exact ⟨r, rfl, ensure_eq_ok.mp h⟩

theorem Db.proposalFor_eq_some {d : Db} {c : CommitId} {p : ProposalRow}
    (h : d.proposalFor c = some p) : p ∈ d.proposals ∧ p.candidateCommit = c :=
  ⟨List.mem_of_find?_eq_some h, by simpa using List.find?_some h⟩

theorem Db.Inv.undecided {d : Db} (hinv : d.Inv) {p : ProposalRow} (hp : p ∈ d.proposals)
    (hnone : d.decisionFor p.candidateCommit = none) :
    ∀ x ∈ d.decisions, x.proposalId ≠ p.proposalId := by
  intro x hx hid
  obtain ⟨q, hq, hdecides, -⟩ := (hinv.decisions.decisions x hx).decides
  obtain rfl : q = p := eq_of_nodup_map hinv.proposals.proposalIds hq hp
    (hdecides.proposalId.trans hid)
  have := List.find?_eq_none.mp hnone x hx
  exact this (by simpa using hdecides.candidate.symm)

theorem undecided_of_stable {d d' : Db} {id : ℕ} (hstable : Db.Stable (.proposalDecision id) d d')
    (h : ∀ x ∈ d.decisions, x.proposalId ≠ id) : ∀ x ∈ d'.decisions, x.proposalId ≠ id := by
  intro x hx hid
  have hmem : x ∈ d'.decisions.filter fun r => r.proposalId = id :=
    List.mem_filter.mpr ⟨hx, by simpa using hid⟩
  rw [hstable] at hmem
  exact h x (List.mem_filter.mp hmem).1 hid

theorem checkUndecided_eq_ok {c : CommitId} {o : Option DecisionRow} {u : Unit}
    (h : checkUndecided c o = .ok u) : o = none := by
  cases o with
  | none => rfl
  | some x => cases h

theorem meets_boundUndecidedProposal {scope : RequestScope} {branch : String}
    {expected : Option CommitId} {candidate : CommitId} {f : ProposalRow → LedgerTx β}
    {held : List (LockName × Mode)} {d₀ : Db}
    (hk : Knows (ledgerDiscipline host) pid ⟨held, id, d₀⟩ X K)
    (h : ∀ held d p, Knows (ledgerDiscipline host) pid ⟨held, id, d⟩
      (.proposalDecision p.proposalId :: X)
      (fun x => K x ∧ Bound scope.graph branch expected candidate p x) →
      Meets (ledgerDiscipline host) pid G (f p).run (Oks Q) ⟨held, id, d⟩) :
    Meets (ledgerDiscipline host) pid G
      (boundUndecidedProposal scope branch expected candidate >>= f).run (Oks Q)
      ⟨held, id, d₀⟩ := by
  refine Tx.oks_bind (Tx.knows_query hk fun d₁ hk₁ => Tx.oks_lift fun _ hgraph => ?_)
  obtain ⟨row, hrow, hg⟩ := checkCandidateGraph_eq_ok hgraph
  have hk₁ := hk₁.learn (F := fun x => x.rows.InGraph scope.graph.asStr candidate)
    fun x hrely => ImmutableRows.InGraph.grow ⟨row, hrow, hg⟩ hrely.grow.rows
  refine Tx.knows_query hk₁ fun d₂ hk₂ => Tx.oks_lift fun p hp => ?_
  obtain ⟨hmem, hcandidate⟩ := Db.proposalFor_eq_some (expect_eq_ok.mp hp)
  have hk₂ := hk₂.learn (F := fun x => p ∈ x.proposals) fun x hrely =>
    hrely.grow.proposals.subset hmem
  refine Tx.knows_locking hk₂ fun d₃ hk₃ => Tx.knows_query hk₃ fun d₄ hk₄ =>
    Tx.oks_lift fun _ hnone => Tx.oks_lift fun _ hbound => ?_
  obtain ⟨hpg, hpb, hpe⟩ := ensure_eq_ok.mp hbound
  have hlock := hk₄.hold (l := .proposalDecision p.proposalId) (List.mem_cons_self ..)
  have hundecided := hk₄.inv.undecided hk₄.now.2
    (hcandidate.symm ▸ checkUndecided_eq_ok hnone)
  have hk₅ := hlock.learn (F := fun x => ∀ y ∈ x.decisions, y.proposalId ≠ p.proposalId)
    fun x hrely => undecided_of_stable (hrely.stable _ _ (List.mem_cons_self ..)) hundecided
  refine h _ d₄ p (hk₅.imp fun x hx => ⟨hx.1.1.1, ?_⟩)
  exact ⟨hx.1.2, hcandidate, hpg, hpb, hpe, hx.1.1.2, hx.2⟩

theorem meets_requireDistinctParties {p : ProposalRow} {scope : RequestScope}
    {f : Unit → LedgerTx β} {held : List (LockName × Mode)} {d₀ : Db}
    (hk : Knows (ledgerDiscipline host) pid ⟨held, id, d₀⟩ X K) (hp : ∀ x, K x → p ∈ x.proposals)
    (h : ∀ d, Distinct p scope → Knows (ledgerDiscipline host) pid ⟨held, id, d⟩ X K →
      Meets (ledgerDiscipline host) pid G (f ()).run (Oks Q) ⟨held, id, d⟩) :
    Meets (ledgerDiscipline host) pid G (requireDistinctParties p.proposalId scope >>= f).run (Oks Q)
      ⟨held, id, d₀⟩ := by
  refine Tx.oks_bind (Tx.knows_query hk fun d₁ hk₁ => Tx.oks_lift fun q hq =>
    Tx.oks_done fun _ hdistinct => ?_)
  have hfind := find?_eq_of_mem hk₁.inv.proposals.proposalIds (hp d₁ hk₁.now)
  obtain rfl := Option.some.inj ((expect_eq_ok.mp hq).symm.trans hfind)
  have hparties : ∀ a ∈ q.actor.parties, a ∉ scope.principal.actor.parties :=
    ensure_eq_ok.mp hdistinct
  exact h d₁ hparties hk₁

theorem meets_requireDistinctIf {distinct : Bool} {p : ProposalRow} {scope : RequestScope}
    {f : Unit → LedgerTx β} {held : List (LockName × Mode)} {d₀ : Db}
    (hk : Knows (ledgerDiscipline host) pid ⟨held, id, d₀⟩ X K) (hp : ∀ x, K x → p ∈ x.proposals)
    (h : ∀ d, (distinct = true → Distinct p scope) →
      Knows (ledgerDiscipline host) pid ⟨held, id, d⟩ X K →
      Meets (ledgerDiscipline host) pid G (f ()).run (Oks Q) ⟨held, id, d⟩) :
    Meets (ledgerDiscipline host) pid G (requireDistinctIf distinct p.proposalId scope >>= f).run
      (Oks Q) ⟨held, id, d₀⟩ := by
  cases distinct with
  | false => exact h d₀ (by simp) hk
  | true => exact meets_requireDistinctParties hk hp fun d hdistinct hk₁ => h d (fun _ => hdistinct) hk₁

theorem meets_requireDistinctFromSource {distinct : Bool} {p : ProposalRow} {parties : List String}
    {scope : RequestScope} {f : Unit → LedgerTx β} {held : List (LockName × Mode)} {d₀ : Db}
    (hk : Knows (ledgerDiscipline host) pid ⟨held, id, d₀⟩ X K) (hp : ∀ x, K x → p ∈ x.proposals)
    (h : ∀ d, (distinct = true → Distinct p scope ∧
        ∀ a ∈ scope.principal.actor.parties, a ∉ parties) →
      Knows (ledgerDiscipline host) pid ⟨held, id, d⟩ X K →
      Meets (ledgerDiscipline host) pid G (f ()).run (Oks Q) ⟨held, id, d⟩) :
    Meets (ledgerDiscipline host) pid G
      (requireDistinctFromSource distinct p.proposalId parties scope >>= f).run (Oks Q)
      ⟨held, id, d₀⟩ := by
  cases distinct with
  | false => exact h d₀ (by simp) hk
  | true =>
      refine Tx.oks_bind (meets_requireDistinctParties hk hp fun d hdistinct hk₁ =>
        Tx.oks_done fun _ hsource => h d (fun _ => ⟨hdistinct, ensure_eq_ok.mp hsource⟩) hk₁)

/-! ## Validations -/

theorem meets_citedValidation {scope : RequestScope} {candidate : CommitId} {id' : ContentId}
    {f : ValidationRow → LedgerTx β} {held : List (LockName × Mode)} {d₀ : Db}
    (hk : Knows (ledgerDiscipline host) pid ⟨held, id, d₀⟩ X K)
    (h : ∀ d cited, cited.candidateCommit = candidate →
      Knows (ledgerDiscipline host) pid ⟨held, id, d⟩ X
        (fun x => K x ∧ x.validation scope id' = some cited) →
      Meets (ledgerDiscipline host) pid G (f cited).run (Oks Q) ⟨held, id, d⟩) :
    Meets (ledgerDiscipline host) pid G (citedValidation scope candidate id' >>= f).run (Oks Q)
      ⟨held, id, d₀⟩ := by
  refine Tx.oks_bind (Tx.knows_query hk fun d₁ hk₁ => Tx.oks_done fun cited hcited => ?_)
  obtain ⟨row, hrow, hrest⟩ := bind_eq_ok.mp hcited
  obtain ⟨_, hcandidate, hpure⟩ := bind_eq_ok.mp hrest
  obtain rfl := Except.ok.inj hpure
  exact h d₁ row (ensure_eq_ok.mp hcandidate) (hk₁.learn fun x hrely =>
    find?_of_prefix hrely.grow.validations (expect_eq_ok.mp hrow))

theorem meets_citeValidation {trust : Option String} {scope : RequestScope} {candidate : CommitId}
    {policy : ValidationPolicy} {f : Option ValidationRow → LedgerTx β}
    {held : List (LockName × Mode)} {d₀ : Db}
    (hk : Knows (ledgerDiscipline host) pid ⟨held, id, d₀⟩ X K)
    (h : ∀ d cited, Knows (ledgerDiscipline host) pid ⟨held, id, d⟩ X
        (fun x => K x ∧ Cites trust scope candidate x cited policy) →
      Meets (ledgerDiscipline host) pid G (f cited).run (Oks Q) ⟨held, id, d⟩) :
    Meets (ledgerDiscipline host) pid G (citeValidation trust scope candidate policy >>= f).run
      (Oks Q) ⟨held, id, d₀⟩ := by
  cases policy with
  | validated id' environment =>
      refine Tx.oks_bind (meets_citedValidation hk fun d₁ cited hcandidate hk₁ =>
        Tx.oks_lift fun _ htrusted => h d₁ (some cited) (hk₁.imp fun x hx => ⟨hx.1, ?_⟩))
      exact ⟨cited, rfl, hx.2, hcandidate, htrusted⟩
  | noValidation => exact h d₀ none (hk.imp fun x hx => ⟨hx, rfl⟩)
  | required => exact h d₀ none (hk.imp fun x hx => ⟨hx, rfl⟩)

/-! ## Insertions with a unique key -/

theorem meets_insertDecision {row : DecisionRow} {duplicate : LedgerError} {f : Unit → LedgerTx β}
    (hk : Knows Δ pid v X K)
    (h : ∀ d, Knows Δ pid
        ⟨v.held, (fun db => { db with decisions := db.decisions ++ [row] }) ∘ v.pending, d⟩ X K →
      Meets Δ pid G (f ()).run (Oks Q)
        ⟨v.held, (fun db => { db with decisions := db.decisions ++ [row] }) ∘ v.pending, d⟩) :
    Meets Δ pid G (insertDecision row duplicate >>= f).run (Oks Q) v :=
  Tx.oks_bind (Tx.knows_query hk fun d₁ hk₁ => Tx.oks_lift fun _ _ => h d₁ (hk₁.pending _))

theorem uncandidate_of_stable {d d' : Db} {c : CommitId} (hstable : Db.Stable (.candidate c) d d')
    (h : ∀ p ∈ d.proposals, p.candidateCommit ≠ c) : ∀ p ∈ d'.proposals, p.candidateCommit ≠ c := by
  intro p hp hc
  have hmem : p ∈ d'.proposals.filter fun r => r.candidateCommit = c :=
    List.mem_filter.mpr ⟨hp, by simpa using hc⟩
  rw [hstable] at hmem
  exact h p (List.mem_filter.mp hmem).1 hc

theorem meets_proposalsBranchIsActive {graph : GraphId} {branch : String} {f : Unit → LedgerTx β}
    (hk : Knows (ledgerDiscipline host) pid v X K)
    (h : ∀ held d, Knows (ledgerDiscipline host) pid ⟨held, v.pending, d⟩ X K →
      Meets (ledgerDiscipline host) pid G (f ()).run (Oks Q) ⟨held, v.pending, d⟩) :
    Meets (ledgerDiscipline host) pid G (proposalsBranchIsActive graph branch >>= f).run (Oks Q)
      v := by
  refine Tx.oks_bind (Tx.knows_query hk fun d₁ hk₁ => ?_)
  split_ifs
  · exact Tx.knows_locking hk₁ fun d₂ hk₂ => Tx.oks_lift fun _ _ => Tx.oks_done fun _ _ =>
      h _ d₂ hk₂
  · exact h _ d₁ hk₁

theorem meets_insertProposal {row : ProposalRow} {duplicate : LedgerError} {f : Unit → LedgerTx β}
    (hk : Knows (ledgerDiscipline host) pid v X K)
    (hp : ∀ d, (v.pending d).proposals = d.proposals)
    (h : ∀ held d, Knows (ledgerDiscipline host) pid
        ⟨held, (fun db => { db with proposals := db.proposals ++ [row] }) ∘ v.pending, d⟩
        (.candidate row.candidateCommit :: X)
        (fun x => K x ∧ ∀ p ∈ x.proposals, p.candidateCommit ≠ row.candidateCommit) →
      Meets (ledgerDiscipline host) pid G (f ()).run (Oks Q)
        ⟨held, (fun db => { db with proposals := db.proposals ++ [row] }) ∘ v.pending, d⟩) :
    Meets (ledgerDiscipline host) pid G (insertProposal row duplicate >>= f).run (Oks Q) v := by
  refine Tx.oks_bind (meets_proposalsBranchIsActive hk fun held₀ d₀ hk₀ => ?_)
  refine Tx.knows_locking hk₀ fun d₁ hk₁ => Tx.oks_lift fun _ hknown => ?_
  rw [hp] at hk₁ hknown ⊢
  have hnone := ensure_eq_ok.mp hknown
  have hnew : ∀ p ∈ d₁.proposals, p.candidateCommit ≠ row.candidateCommit := by
    simpa using hnone
  simp only [hnone] at hk₁ ⊢
  refine h _ d₁ (((hk₁.hold (l := .candidate row.candidateCommit) (List.mem_cons_self ..)).learn
    fun x hrely => ?_).pending _)
  exact uncandidate_of_stable (hrely.stable _ _ (List.mem_cons_self ..)) hnew

theorem meets_insertRef [KeepsRefs Δ] {graph : GraphId} {name : String} {row : RefRow}
    {f : Bool → LedgerTx β} (hk : Knows Δ pid v X K) (hp : ∀ d, (v.pending d).refs = d.refs)
    (habsent : ∀ held d, Knows Δ pid
        ⟨held, (fun db => db.setRef graph name row) ∘ v.pending, d⟩ (.ref graph name :: X)
        (fun x => K x ∧ x.refs graph name = none) →
      Meets Δ pid G (f true).run (Oks Q)
        ⟨held, (fun db => db.setRef graph name row) ∘ v.pending, d⟩)
    (hpresent : ∀ held pending d, (∀ x, pending x = v.pending x) →
      Knows Δ pid ⟨held, pending, d⟩ X K →
      Meets Δ pid G (f false).run (Oks Q) ⟨held, pending, d⟩) :
    Meets Δ pid G (insertRef graph name row >>= f).run (Oks Q) v := by
  refine Tx.oks_bind (Tx.knows_locking hk fun d₁ hk₁ => ?_)
  rw [hp] at hk₁ ⊢
  cases hrow : d₁.refs graph name with
  | some r =>
      simp only [hrow, Option.isNone_some] at hk₁ ⊢
      exact hpresent _ _ d₁ (fun _ => rfl) (hk₁.pending _)
  | none =>
      simp only [hrow, Option.isNone_none] at hk₁ ⊢
      refine habsent _ d₁ (((hk₁.hold (l := .ref graph name) (List.mem_cons_self ..)).learn
        fun x hrely => ?_).pending _)
      exact (KeepsRefs.stable (hrely.stable (.ref graph name) .exclusive
        (List.mem_cons_self ..))).1.trans hrow

theorem meets_insertBranch {graph : GraphId} {name : String} {row : BranchRow} {f : Unit → LedgerTx β}
    (hk : Knows (ledgerDiscipline host) pid v X K) (hp : ∀ d, (v.pending d).branches = d.branches)
    (h : ∀ held d, Knows (ledgerDiscipline host) pid
        ⟨held, (fun db => db.setBranch graph name row) ∘ v.pending, d⟩ (.branch graph name :: X)
        (fun x => K x ∧ x.branches graph name = none) →
      Meets (ledgerDiscipline host) pid G (f ()).run (Oks Q)
        ⟨held, (fun db => db.setBranch graph name row) ∘ v.pending, d⟩) :
    Meets (ledgerDiscipline host) pid G (insertBranch graph name row >>= f).run (Oks Q) v := by
  refine Tx.oks_bind (Tx.knows_locking hk fun d₁ hk₁ => Tx.oks_lift fun _ habsent => ?_)
  rw [hp] at habsent
  have hnone : d₁.branches graph name = none := by simpa using ensure_eq_ok.mp habsent
  refine h _ d₁ (((hk₁.hold (l := .branch graph name) (List.mem_cons_self ..)).learn
    fun x hrely => ?_).pending _)
  exact Eq.trans (hrely.stable (.branch graph name) .exclusive (List.mem_cons_self ..)) hnone

theorem meets_refsBranchIsActive {graph : GraphId} {branch : String} {old new : CommitId}
    {f : Unit → LedgerTx β} (hk : Knows Δ pid v X K)
    (h : ∀ held d, Knows Δ pid ⟨held, v.pending, d⟩ X K →
      Meets Δ pid G (f ()).run (Oks Q) ⟨held, v.pending, d⟩) :
    Meets Δ pid G (refsBranchIsActive graph branch old new >>= f).run (Oks Q)
      v := by
  unfold refsBranchIsActive
  split_ifs
  · exact h _ _ hk
  · exact Tx.oks_bind (Tx.knows_locking hk fun d₁ hk₁ => Tx.oks_done fun _ _ => h _ d₁ hk₁)

theorem meets_advanceRef {graph : GraphId} {name : String} {old : RefRow} {head : CommitId}
    {gone : LedgerError} {f : Unit → LedgerTx β} (hk : Knows Δ pid v X K)
    (h : ∀ held d, Knows Δ pid ⟨held, (fun db => db.setRef graph name
          { old with head := head, version := old.version + 1 }) ∘ v.pending, d⟩ X K →
      Meets Δ pid G (f ()).run (Oks Q) ⟨held, (fun db => db.setRef graph name
          { old with head := head, version := old.version + 1 }) ∘ v.pending, d⟩) :
    Meets Δ pid G (advanceRef graph name old head gone >>= f).run (Oks Q) v :=
  Tx.oks_bind (Tx.knows_query hk fun _ hk₁ => Tx.oks_lift fun _ _ =>
    meets_refsBranchIsActive hk₁ fun _ d₂ hk₂ => h _ d₂ (hk₂.pending _))

end CognitiveLedger
