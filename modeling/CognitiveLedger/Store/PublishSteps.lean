import CognitiveLedger.Store.DerivedIndex
import CognitiveLedger.Store.Publication
import CognitiveLedger.Store.Steps

/-!
# Publishing a candidate, step by step

While a candidate is published, the pending writes are a list of rows to insert.
Each of them is there already or locked, so what was read back after an insertion
stays what the insertion leaves. All that is asked of the other requests is that they
never change or remove a row, and insert one under its lock only.
-/

set_option linter.unusedSectionVars false

namespace CognitiveLedger

open ReadCommitted Logs ExceptRules ImmutableRows

/-- The pending writes of a publication. -/
def publishing (l : List ImmutableRow) (d : Db) : Db := { d with rows := d.rows.insertAll l }

theorem insert_comp_publishing (l : List ImmutableRow) (row : ImmutableRow) :
    (fun d : Db => { d with rows := d.rows.insert row }) ∘ publishing l =
      publishing (l ++ [row]) := by
  funext d
  simp [publishing, insertAll]

def Covered (X : List LockName) (l : List ImmutableRow) (d : Db) : Prop :=
  ∀ r ∈ l, d.rows.has r.key = true ∨ .row r.key ∈ X

theorem Covered.mono {X X' : List LockName} {l : List ImmutableRow} {d : Db} (h : Covered X l d)
    (hX : X ⊆ X') : Covered X' l d := fun r hr => (h r hr).imp_right fun hmem => hX hmem

theorem Covered.grow {X : List LockName} {l : List ImmutableRow} {d d' : Db} (h : Covered X l d)
    (hext : d.rows.Extends d'.rows) : Covered X l d' := fun r hr => (h r hr).imp_left hext.has

theorem Covered.append {X X' : List LockName} {l : List ImmutableRow} {row : ImmutableRow} {d : Db}
    (h : Covered X l d) (hX : X ⊆ X') (hrow : d.rows.has row.key = true ∨ .row row.key ∈ X') :
    Covered X' (l ++ [row]) d := by
  intro r hr
  rw [List.mem_append, List.mem_singleton] at hr
  rcases hr with hr | rfl
  · exact h.mono hX r hr
  · exact hrow

/-- A row is among the inserted ones if an insertion made it appear. -/
theorem has_insertAll {rows : ImmutableRows} {l : List ImmutableRow} {k : RowKey}
    (h : (rows.insertAll l).has k = true) : rows.has k = true ∨ ∃ r ∈ l, r.key = k := by
  by_contra hnot
  rw [not_or, not_exists] at hnot
  have hsame := sameAt_insertAll rows l k (Or.inl fun r hr hk => hnot.2 r ⟨hr, hk⟩)
  refine hnot.1 ?_
  cases k <;> simpa [has, SameAt] using (congrArg Option.isSome hsame) ▸ h

theorem has_insertAll_grow {rows rows' : ImmutableRows} (hext : rows.Extends rows')
    {l : List ImmutableRow} {k : RowKey} (h : (rows.insertAll l).has k = true) :
    (rows'.insertAll l).has k = true := by
  rcases has_insertAll h with hold | ⟨r, hr, rfl⟩
  · exact (extends_insertAll rows' l).has (hext.has hold)
  · obtain ⟨before, after, rfl⟩ := List.append_of_mem hr
    rw [insertAll_append]
    refine (extends_insertAll _ after).has ?_
    cases r <;> simp [ImmutableRows.insert, has, ImmutableRow.key]

class KeepsRows (Δ : Discipline Db LockName) : Prop where
  rows : ∀ {d d' : Db}, Δ.Grow d d' → d.rows.Extends d'.rows
  stable : ∀ {k : RowKey} {d d' : Db}, Δ.Stable (.row k) d d' → d.rows.SameAt d'.rows k

variable [NQuadsParser] [Sha256] [TimeCrate] [StrDebug]

instance (host : Host) : KeepsRows (ledgerDiscipline host) := ⟨Db.Grow.rows, id⟩

variable {Δ : Discipline Db LockName} [KeepsRows Δ]
variable {host : Host} {pid : ℕ} {G : Db → Db → Prop} {β : Type} {held : List (LockName × Mode)}
variable {d₀ : Db} {X : List LockName} {K : Db → Prop} {Q : β → View Db LockName → Prop}

/-- What the request knows while it publishes `l`. -/
structure Publishing (Δ : Discipline Db LockName) (pid : ℕ) (held : List (LockName × Mode)) (d : Db)
    (X : List LockName) (l : List ImmutableRow) (K : Db → Prop) : Prop where
  knows : Knows Δ pid ⟨held, publishing l, d⟩ X K
  covered : Covered X l d

theorem Covered.sameAt {l : List ImmutableRow} {d d' : Db} (h : Covered X l d)
    (hX : ∀ l ∈ X, (l, .exclusive) ∈ held) (hrely : Rely Δ pid held d d')
    {r : ImmutableRow} (hr : r ∈ l) : d.rows.SameAt d'.rows r.key := by
  rcases h r hr with hhas | hlock
  · exact (KeepsRows.rows hrely.grow).sameAt hhas
  · exact KeepsRows.stable (hrely.stable (.row r.key) .exclusive (hX _ hlock))

theorem Publishing.finish {l : List ImmutableRow} (h : Publishing Δ pid held d₀ X l K) :
    Knows Δ pid ⟨held, publishing l, d₀⟩ X fun x => K x ∧ Covered X l x :=
  h.knows.learn fun _ hrely => h.covered.grow (KeepsRows.rows hrely.grow)

theorem Publishing.start (h : Knows Δ pid ⟨held, id, d₀⟩ X K) : Publishing Δ pid held d₀ X [] K :=
  ⟨h.pending _, fun _ hr => absurd hr List.not_mem_nil⟩

/-- What the insertions leave under one of their keys is there to stay. -/
theorem Publishing.learn {l : List ImmutableRow} (h : Publishing Δ pid held d₀ X l K)
    {r : ImmutableRow} (hr : r ∈ l) {F : ImmutableRows → Prop}
    (hF : ∀ a b : ImmutableRows, a.SameAt b r.key → F a → F b) (hd : F (d₀.rows.insertAll l)) :
    Publishing Δ pid held d₀ X l fun x => K x ∧ F (x.rows.insertAll l) :=
  ⟨h.knows.learn fun _ hrely =>
    hF _ _ ((h.covered.sameAt h.knows.locks hrely hr).insertAll l) hd, h.covered⟩

theorem meets_insertRow {row : ImmutableRow} {f : Unit → LedgerTx β} {l : List ImmutableRow}
    (hk : Publishing Δ pid held d₀ X l K)
    (h : ∀ held d X', X ⊆ X' → Publishing Δ pid held d X' (l ++ [row]) K →
      Meets Δ pid G (f ()).run (Oks Q) ⟨held, publishing (l ++ [row]), d⟩) :
    Meets Δ pid G (insertRow row >>= f).run (Oks Q)
      ⟨held, publishing l, d₀⟩ := by
  have hcovered : ∀ d, Rely Δ pid held d₀ d → Covered X l d := fun d hd =>
    hk.covered.grow (KeepsRows.rows hd.grow)
  refine Tx.oks_bind (Tx.meets_locking fun d₁ hd => ?_)
  have hk₁ := hk.knows.move hd (List.subset_append_right
    (if (publishing l d₁).rows.has row.key then [] else [(LockName.row row.key, Mode.exclusive)]) held)
  change Meets _ _ _ _ _ ⟨_, (fun d : Db => { d with rows := d.rows.insert row }) ∘ publishing l, d₁⟩
  rw [insert_comp_publishing]
  by_cases hhas : (publishing l d₁).rows.has row.key = true
  · refine h _ d₁ X (List.Subset.refl X) ⟨hk₁.pending _, (hcovered d₁ hd).append
      (List.Subset.refl X) ?_⟩
    rcases has_insertAll hhas with hold | ⟨r, hr, hkey⟩
    · exact Or.inl hold
    · exact hkey ▸ hcovered d₁ hd r hr
  · refine h _ d₁ (.row row.key :: X) (List.subset_cons_self ..) ⟨(hk₁.hold ?_).pending _,
      (hcovered d₁ hd).append (List.subset_cons_self ..) (Or.inr (List.mem_cons_self ..))⟩
    simp [hhas]

theorem meets_insertRows {rows l : List ImmutableRow} {Q : Unit → View Db LockName → Prop}
    (hk : Publishing Δ pid held d₀ X l K)
    (h : ∀ held d X', X ⊆ X' → Publishing Δ pid held d X' (l ++ rows) K →
      Q () ⟨held, publishing (l ++ rows), d⟩) :
    Meets Δ pid G (insertRows rows).run (Oks Q)
      ⟨held, publishing l, d₀⟩ := by
  induction rows generalizing held d₀ X l with
  | nil =>
      rw [List.append_nil] at h
      exact h held d₀ X (List.Subset.refl X) hk
  | cons row rows ih =>
      refine meets_insertRow hk fun held₁ d₁ X₁ hX₁ hk₁ => ih hk₁ fun held₂ d₂ X₂ hX₂ hk₂ => ?_
      rw [List.append_assoc] at hk₂ ⊢
      exact h held₂ d₂ X₂ (List.Subset.trans hX₁ hX₂) hk₂

theorem meets_publishObject {id : ContentId} {bytes : Bytes} {l : List ImmutableRow}
    {f : Unit → LedgerTx β} (hk : Publishing Δ pid held d₀ X l K)
    (h : ∀ held d X', X ⊆ X' → Sha256.forBytes bytes = id →
      Publishing Δ pid held d X' (l ++ [.object id.text bytes]) (fun x => K x ∧
        (x.rows.insertAll (l ++ [.object id.text bytes])).objects id.text = some bytes) →
      Meets Δ pid G (f ()).run (Oks Q)
        ⟨held, publishing (l ++ [.object id.text bytes]), d⟩) :
    Meets Δ pid G (publishObject id bytes >>= f).run (Oks Q)
      ⟨held, publishing l, d₀⟩ := by
  refine Tx.oks_bind (Tx.oks_lift fun _ hhash => meets_insertRow hk fun held₁ d₁ X₁ hX₁ hk₁ => ?_)
  refine Tx.meets_query fun d₂ hd₂ => Tx.oks_done fun _ hstored => ?_
  have hk₂ : Publishing Δ pid held₁ d₂ X₁ (l ++ [.object id.text bytes]) K :=
    ⟨hk₁.knows.move hd₂ (List.Subset.refl _), hk₁.covered.grow (KeepsRows.rows hd₂.grow)⟩
  refine h held₁ d₂ X₁ hX₁ (ensure_eq_ok.mp hhash) (hk₂.learn
    (r := .object id.text bytes) (F := fun rows => rows.objects id.text = some bytes)
    (List.mem_append_right _ (List.mem_singleton_self _)) (fun a b hab ha => ?_)
    (ensure_eq_ok.mp hstored))
  exact Eq.trans hab ha

theorem Publishing.imp {l : List ImmutableRow} {K' : Db → Prop}
    (h : Publishing Δ pid held d₀ X l K) (hK : ∀ x, K x → K' x) :
    Publishing Δ pid held d₀ X l K' := ⟨h.knows.imp hK, h.covered⟩

theorem Publishing.query {α : Type} {l : List ImmutableRow} {g : Db → α} {f : α → LedgerTx β}
    {Q : Except LedgerError β → View Db LockName → Prop} (hk : Publishing Δ pid held d₀ X l K)
    (h : ∀ d, Publishing Δ pid held d X l K →
      Meets Δ pid G (f (g (publishing l d))).run Q
        ⟨held, publishing l, d⟩) :
    Meets Δ pid G (Tx.query g >>= f).run Q ⟨held, publishing l, d₀⟩ :=
  Tx.meets_query fun d hd => h d ⟨hk.knows.move hd (List.Subset.refl _), hk.covered.grow (KeepsRows.rows hd.grow)⟩

theorem checkParentRow_eq_ok {graph : GraphId} {p : CommitId} {row : Option IndexRow} {u : Unit}
    (h : checkParentRow graph p row = .ok u) : ∃ r, row = some r ∧ r.graphId = graph.asStr := by
  cases row with
  | none => cases h
  | some r => exact ⟨r, rfl, ensure_eq_ok.mp h⟩

theorem meets_checkParents {graph : GraphId} {parents : List CommitId} {l : List ImmutableRow}
    {Q : Unit → View Db LockName → Prop} (hk : Publishing Δ pid held d₀ X l K)
    (hl : ∀ rows : ImmutableRows, (rows.insertAll l).commitIndex = rows.commitIndex)
    (h : ∀ d, Publishing Δ pid held d X l (fun x => K x ∧
      ∀ p ∈ parents, x.rows.InGraph graph.asStr p) → Q () ⟨held, publishing l, d⟩) :
    Meets Δ pid G (checkParents graph parents).run (Oks Q)
      ⟨held, publishing l, d₀⟩ := by
  induction parents generalizing d₀ K with
  | nil => exact h d₀ (hk.imp fun x hx => ⟨hx, by simp⟩)
  | cons p parents ih =>
      refine hk.query fun d₁ hk₁ => Tx.oks_lift fun _ hrow => ?_
      obtain ⟨row, hrow, hg⟩ := checkParentRow_eq_ok hrow
      have hp : d₁.rows.InGraph graph.asStr p := ⟨row, hl d₁.rows ▸ hrow, hg⟩
      have hk₂ : Publishing Δ pid held d₁ X l fun x => K x ∧ x.rows.InGraph graph.asStr p :=
        ⟨hk₁.knows.learn fun x hrely => hp.grow (KeepsRows.rows hrely.grow), hk₁.covered⟩
      refine ih hk₂ fun d hd => h d (hd.imp fun x hx => ⟨hx.1.1, ?_⟩)
      exact List.forall_mem_cons.mpr ⟨hx.1.2, hx.2⟩

theorem checkAgainst_eq_ok {commit : AnyCommit} {id : CommitId} {graph : GraphId}
    {row : Option IndexRow} {u : Unit} (hgraph : ∀ g, commit.graphId = some g → g = graph)
    (h : checkAgainst commit id graph row = .ok u) : row = some (commit.indexRow graph) := by
  cases row with
  | none => cases h
  | some r =>
      obtain ⟨_, hg, h⟩ := bind_eq_ok.mp h
      obtain ⟨_, hversion, h⟩ := bind_eq_ok.mp h
      obtain ⟨_, hpatch, hcount⟩ := bind_eq_ok.mp h
      have hsame : commit.graphId.getD graph = graph := by
        cases hcommit : commit.graphId with
        | none => rfl
        | some g => exact hgraph g hcommit
      rw [hsame] at hg
      obtain ⟨graphId, version, patchId, parentCount⟩ := r
      obtain rfl : graph.asStr = graphId := ensure_eq_ok.mp hg
      obtain rfl : version = commit.version := ensure_eq_ok.mp hversion
      obtain rfl : patchId = commit.patch.text := ensure_eq_ok.mp hpatch
      obtain rfl : parentCount = commit.parents.length := ensure_eq_ok.mp hcount
      rfl

def Left (l : List ImmutableRow) (graph : GraphId) (commit : AnyCommit) (bytes : Bytes)
    (id : CommitId) (d : Db) : Prop :=
  (d.rows.insertAll l).objects id.text = some bytes ∧
    (d.rows.insertAll l).commitIndex id.text = some (commit.indexRow graph)

theorem meets_publishRows {graph : GraphId} {commit : AnyCommit} {bytes : Bytes} {id : CommitId}
    {l : List ImmutableRow} {Q : CommitId → View Db LockName → Prop}
    (hgraph : ∀ g, commit.graphId = some g → g = graph) (hk : Publishing Δ pid held d₀ X l K)
    (h : ∀ held d X', X ⊆ X' →
      Publishing Δ pid held d X' (l ++ commitRows graph commit bytes id) (fun x =>
        K x ∧ Left (l ++ commitRows graph commit bytes id) graph commit bytes id x) →
      Q id ⟨held, publishing (l ++ commitRows graph commit bytes id), d⟩) :
    Meets Δ pid G (publishRows graph commit bytes id).run (Oks Q) ⟨held, publishing l, d₀⟩ := by
  refine meets_publishObject hk fun held₁ d₁ X₁ hX₁ _ hk₁ => ?_
  refine meets_insertRow hk₁ fun held₂ d₂ X₂ hX₂ hk₂ => ?_
  refine Tx.oks_bind (meets_insertRows hk₂ fun held₃ d₃ X₃ hX₃ hk₃ => ?_)
  have hlist : l ++ [.object id.content.text bytes] ++ [.index id.text (commit.indexRow graph)] ++
      parentRows id.text commit.parents 0 = l ++ commitRows graph commit bytes id := by
    simp only [List.append_assoc, List.singleton_append]
    rfl
  change Publishing Δ pid held₃ d₃ X₃ (l ++ [.object id.content.text bytes] ++
    [.index id.text (commit.indexRow graph)] ++ parentRows id.text commit.parents 0) _ at hk₃
  change Meets _ _ _ _ _ ⟨_, publishing (l ++ [.object id.content.text bytes] ++
    [.index id.text (commit.indexRow graph)] ++ parentRows id.text commit.parents 0), _⟩
  rw [hlist] at hk₃ ⊢
  have hobject : Publishing Δ pid held₃ d₃ X₃ (l ++ commitRows graph commit bytes id) fun x =>
      K x ∧ (x.rows.insertAll (l ++ commitRows graph commit bytes id)).objects id.text =
        some bytes := by
    refine hk₃.imp fun x hx => ⟨hx.1, ?_⟩
    rw [← hlist, List.append_assoc, insertAll_append]
    exact (extends_insertAll _ _).objects _ _ hx.2
  refine hobject.query fun d₄ hk₄ => Tx.oks_lift fun _ hindex => ?_
  have hrow := checkAgainst_eq_ok hgraph hindex
  have hk₅ := hk₄.learn (r := .index id.text (commit.indexRow graph))
    (F := fun rows => rows.commitIndex id.text = some (commit.indexRow graph))
    (List.mem_append_right _ (by simp [commitRows, publication]))
    (fun a b hab ha => Eq.trans hab ha) hrow
  refine hk₅.query fun d₆ hk₆ => Tx.oks_lift fun _ _ => ?_
  refine h held₃ d₆ X₃ (List.Subset.trans hX₁ (List.Subset.trans hX₂ hX₃)) (hk₆.imp fun x hx => ?_)
  exact ⟨hx.1.1, hx.1.2, hx.2⟩

def Ready (l : List ImmutableRow) (graph : GraphId) (commit : AnyCommit) (d : Db) : Prop :=
  (∀ p ∈ commit.parents, d.rows.InGraph graph.asStr p) ∧
    ((d.rows.insertAll l).objects commit.patch.text).isSome

theorem meets_publishCommitIn {binding : V1Binding} {commit : AnyCommit} {l : List ImmutableRow}
    {f : CommitId → LedgerTx β} (hk : Publishing Δ pid held d₀ X l K)
    (hl : ∀ rows : ImmutableRows, (rows.insertAll l).commitIndex = rows.commitIndex)
    (h : ∀ held d X' graph bytes id, X ⊆ X' → (∀ g, commit.graphId = some g → g = graph) →
      graphFor binding commit = .ok graph → commit.canonicalBytes = .ok bytes →
      commit.id = .ok id →
      Publishing Δ pid held d X' (l ++ commitRows graph commit bytes id) (fun x =>
        (K x ∧ Ready l graph commit x) ∧
          Left (l ++ commitRows graph commit bytes id) graph commit bytes id x) →
      Meets Δ pid G (f id).run (Oks Q)
        ⟨held, publishing (l ++ commitRows graph commit bytes id), d⟩) :
    Meets Δ pid G (publishCommitIn binding commit >>= f).run (Oks Q)
      ⟨held, publishing l, d₀⟩ := by
  refine Tx.oks_bind (Tx.oks_lift fun graph hgraph => Tx.oks_lift fun bytes hbytes =>
    Tx.oks_lift fun id hid => ?_)
  refine Tx.oks_bind (meets_checkParents hk hl fun d₁ hk₁ => ?_)
  refine hk₁.query fun d₂ hk₂ => Tx.oks_lift fun _ hpatch => ?_
  have hpatch : ((d₂.rows.insertAll l).objects commit.patch.text).isSome := ensure_eq_ok.mp hpatch
  have hk₃ : Publishing Δ pid held d₂ X l fun x =>
      (K x ∧ ∀ p ∈ commit.parents, x.rows.InGraph graph.asStr p) ∧
        ((x.rows.insertAll l).objects commit.patch.text).isSome :=
    ⟨hk₂.knows.learn fun x hrely =>
      has_insertAll_grow (KeepsRows.rows hrely.grow) (k := .object commit.patch.text) hpatch,
      hk₂.covered⟩
  refine hk₃.query fun d₄ hk₄ => Tx.oks_lift fun _ _ => ?_
  have hembedded := graphFor_eq_ok hgraph
  refine meets_publishRows hembedded hk₄ fun held₅ d₅ X₅ hX₅ hk₅ => ?_
  refine h held₅ d₅ X₅ graph bytes id hX₅ hembedded hgraph hbytes hid (hk₅.imp fun x hx => ?_)
  exact ⟨⟨hx.1.1.1, hx.1.1.2, hx.1.2⟩, hx.2⟩

def LeftCandidate (l : List ImmutableRow) (c : CommitV2) (id : CommitId) (d : Db) : Prop :=
  (d.rows.insertAll l).objects id.text = some (commitV2Header ++ c.bodyBytes) ∧
    (d.rows.insertAll l).InGraph c.graphId.asStr id

theorem meets_publishCandidate {binding : V1Binding} {c : CommitV2} {l : List ImmutableRow}
    {f : CommitId → LedgerTx β} (hk : Publishing Δ pid held d₀ X l K)
    (hl : ∀ rows : ImmutableRows, (rows.insertAll l).commitIndex = rows.commitIndex)
    (h : ∀ held d X' id, X ⊆ X' → c.Valid → c.id = .ok id →
      Publishing Δ pid held d X' (l ++ publicationOf c id) (fun x => (K x ∧
        ∀ p ∈ c.parents, x.rows.InGraph c.graphId.asStr p) ∧
          LeftCandidate (l ++ publicationOf c id) c id x) →
      Meets Δ pid G (f id).run (Oks Q) ⟨held, publishing (l ++ publicationOf c id), d⟩) :
    Meets Δ pid G (publishCommitIn binding (.v2 c) >>= f).run (Oks Q)
      ⟨held, publishing l, d₀⟩ := by
  refine meets_publishCommitIn hk hl fun held₁ d₁ X₁ graph bytes id hX₁ _ hgraph hbytes hid hk₁ => ?_
  obtain rfl : c.graphId = graph := Except.ok.inj hgraph
  obtain ⟨hvalid, rfl⟩ := CommitV2.canonicalBytes_eq_ok_iff.mp hbytes
  refine h held₁ d₁ X₁ id hX₁ hvalid hid (hk₁.imp fun x hx => ?_)
  exact ⟨⟨hx.1.1, hx.1.2.1⟩, hx.2.1, ⟨_, hx.2.2, rfl⟩⟩

end CognitiveLedger
