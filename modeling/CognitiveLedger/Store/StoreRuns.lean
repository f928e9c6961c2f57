import CognitiveLedger.Store.Locked
import CognitiveLedger.Store.ObjectStore

/-!
# Every interleaving keeps the index derived

Publications of commits of either version, under any binding and any number of times,
run interleaved with each other, with writes of other objects and with verifications.
The index stays a view of the stored bytes. A verification can fail only on a patch that
nobody validated, and a publication that disagrees with a row that is there fails and
leaves everything as it was.
-/

set_option linter.unusedSectionVars false

namespace CognitiveLedger

open ReadCommitted ExceptRules ImmutableRows Lineage

variable [NQuadsParser] [Sha256] [TimeCrate] [StrDebug]

/-! ## What a verification reads -/

namespace ImmutableRows

variable {rows rows' : ImmutableRows} {c : CommitId} {row : IndexRow} {commit : AnyCommit}

theorem DerivedAt.keep (h : rows.DerivedAt c row commit) (hrow : rows.commitIndex c.text = some row)
    (hext : rows.Extends rows') (hderived : rows'.Derived) :
    rows'.commitIndex c.text = some row ∧ rows'.DerivedAt c row commit := by
  have hrow' := hext.index _ _ hrow
  obtain ⟨commit', hcommit'⟩ := hderived.at hrow'
  obtain rfl : commit = commit' :=
    Except.ok.inj ((useCommit_grow hext h.decodes).symm.trans hcommit'.decodes)
  exact ⟨hrow', hcommit'⟩

theorem decodeCommitObject_eq_some {id : ContentId} {bytes : Bytes} {commit : AnyCommit}
    (h : decodeCommitObject id bytes = .ok (some commit)) :
    AnyCommit.fromCanonicalBytes bytes = .ok commit := by
  unfold decodeCommitObject at h
  by_cases hfamily : isCommitFamily bytes = true
  · rw [if_neg (not_not_intro hfamily)] at h
    split at h
    · rename_i found hfound
      obtain ⟨decoded, -, h⟩ := bind_eq_ok.mp h
      split_ifs at h
      cases h
      exact hfound
    · cases h
    · split at h <;> cases h
  · rw [if_pos hfamily] at h
    cases h

theorem exists_bytes {c : CommitId} {commit : AnyCommit}
    (h : useCommit c (rows.objects c.text) = .ok commit) :
    ∃ bytes, rows.objects c.text = some bytes ∧ Sha256.forBytes bytes = c.content ∧
      AnyCommit.fromCanonicalBytes bytes = .ok commit := by
  obtain ⟨bytes, hbytes, h⟩ := bind_eq_ok.mp h
  have hsome : rows.objects c.text = some bytes := useObject_eq_ok hbytes
  have hhash : Sha256.forBytes bytes = c.content := by
    by_contra hne
    simp [useObject, hsome, verified, hne] at hbytes
  refine ⟨bytes, hsome, hhash, ?_⟩
  obtain ⟨decoded, hdecoded, h⟩ := bind_eq_ok.mp h
  cases decoded with
  | none => cases h
  | some decoded =>
      cases h
      exact decodeCommitObject_eq_some hdecoded

theorem verifyAgainst_eq_ok (h : rows.DerivedAt c row commit) :
    verifyAgainst commit c.content row = .ok () := by
  have hgraph : ∀ g, commit.graphId = some g → g.asStr = row.graphId := fun g hg =>
    (h.graph g hg).symm
  simp only [verifyAgainst, ensure_pos hgraph, ensure_pos h.version, ensure_pos h.patchId,
    ensure_pos h.count, ok_bind]

theorem parentRowsOf_eq (h : rows.DerivedAt c row commit) :
    rows.parentRowsOf c.text = commit.parents.zipIdx.map fun (p, i) => (i, p.text) := by
  have htwo := h.two
  have hparents := h.parents
  simp only [parentRowsOf, List.filterMap_cons, List.filterMap_nil, hparents]
  match hlist : commit.parents, htwo with
  | [], _ => simp
  | [a], _ => simp
  | [a, b], _ => simp

theorem checkParentRows_eq_ok (h : rows.DerivedAt c row commit) :
    checkParentRows (rows.parentRowsOf c.text) commit c = .ok () := by
  have hlength : (rows.parentRowsOf c.text).length = commit.parents.length := by
    simp [parentRowsOf_eq h]
  simp only [checkParentRows, ensure_pos hlength, ensure_pos (parentRowsOf_eq h), ok_bind]

variable (rows) in
def Unvalidated : Prop :=
  ∃ c row commit, rows.commitIndex c.text = some row ∧ rows.DerivedAt c row commit ∧
    ∀ patch, usePatch commit.patch (rows.objects commit.patch.text) ≠ .ok patch

end ImmutableRows

/-! ## Verification -/

section Verify

variable {Δ : Discipline Db LockName} [KeepsRows Δ] {pid : ℕ} {G : Db → Db → Prop}
variable {α β : Type} {held : List (LockName × Mode)} {d₀ : Db} {X : List LockName}
variable {K : Db → Prop}

theorem Tx.meets_ok {v : View Db LockName} {x : Except LedgerError α} {a : α}
    {f : α → LedgerTx β} {Q : Except LedgerError β → View Db LockName → Prop} (hx : x = .ok a)
    (h : Meets Δ pid G (f a).run Q v) : Meets Δ pid G (Tx.lift x >>= f).run Q v := by
  subst hx
  exact Tx.meets_lift (fun _ hok => Except.ok.inj hok ▸ h) fun _ herror => by cases herror

theorem meets_verifyParents {contentId : ContentId} {graph : String} {parents : List (ℕ × String)}
    {Q : Except LedgerError Unit → View Db LockName → Prop}
    (hk : Knows Δ pid ⟨held, id, d₀⟩ X K)
    (hparents : ∀ d, K d → ∀ p ∈ parents, ∃ row, d.rows.commitIndex p.2 = some row ∧
      row.graphId = graph)
    (h : ∀ d, Knows Δ pid ⟨held, id, d⟩ X K → Q (.ok ()) ⟨held, id, d⟩) :
    Meets Δ pid G (verifyParents contentId graph parents).run Q ⟨held, id, d₀⟩ := by
  induction parents generalizing d₀ with
  | nil => exact h d₀ hk
  | cons p parents ih =>
      refine Tx.knows_query hk fun d₁ hk₁ => ?_
      obtain ⟨row, hrow, hgraph⟩ := hparents d₁ hk₁.now p List.mem_cons_self
      refine Tx.meets_ok (a := ()) ?_ (ih hk₁ fun d hd q hq => ?_)
      · simp only [id_eq, hrow, verifyParentRow, ensure_pos hgraph]
      · exact hparents d hd q (List.mem_cons_of_mem _ hq)

theorem meets_verifyId {x : String} {Q : Except LedgerError Unit → View Db LockName → Prop}
    (hderived : ∀ d, Δ.Inv d → d.rows.Derived) (hk : Knows Δ pid ⟨held, id, d₀⟩ X K)
    (hindexed : (d₀.rows.commitIndex x).isSome)
    (hok : ∀ d, Knows Δ pid ⟨held, id, d⟩ X K → Q (.ok ()) ⟨held, id, d⟩)
    (hbad : ∀ e d, d.rows.Unvalidated → Q (.error e) ⟨held, id, d⟩) :
    Meets Δ pid G (verifyId x).run Q ⟨held, id, d₀⟩ := by
  obtain ⟨row, hrow⟩ := Option.isSome_iff_exists.mp hindexed
  obtain ⟨c, commit, rfl, hat⟩ := (hderived d₀ hk.inv).index x row hrow
  -- the row and the commit stay what they are until the last statement
  have hk₀ : Knows Δ pid ⟨held, id, d₀⟩ X fun d => K d ∧ d.rows.commitIndex c.text = some row ∧
      d.rows.DerivedAt c row commit :=
    hk.learn fun d hrely => hat.keep hrow (KeepsRows.rows hrely.grow) (hderived d hrely.inv)
  refine Tx.knows_query hk₀ fun d₁ hk₁ => ?_
  have hrow₁ : d₁.rows.commitIndex c.text = some row := hk₁.now.2.1
  have hat₁ : d₁.rows.DerivedAt c row commit := hk₁.now.2.2
  obtain ⟨bytes, hbytes, hhash, hdecode⟩ := exists_bytes hat₁.decodes
  refine Tx.meets_ok c.content.fromStr_text (Tx.meets_ok (a := (row, bytes)) ?_ ?_)
  · simp only [id_eq, hrow₁, hbytes, Option.bind_some, Option.map_some, expect]
  refine Tx.meets_ok (ensure_pos hhash) (Tx.meets_ok (mapError_eq_ok.mpr hdecode) ?_)
  refine Tx.meets_ok (verifyAgainst_eq_ok hat₁) (Tx.knows_query hk₁ fun d₂ hk₂ => ?_)
  have hrow₂ : d₂.rows.commitIndex c.text = some row := hk₂.now.2.1
  have hat₂ : d₂.rows.DerivedAt c row commit := hk₂.now.2.2
  obtain ⟨patch, hpatch⟩ := Option.isSome_iff_exists.mp hat₂.patch
  refine Tx.meets_ok (a := patch) (by simp only [id_eq, hpatch, expect]) ?_
  refine Tx.meets_lift (fun _ _ => ?_) fun e herror => ?_
  · refine Tx.knows_query hk₂ fun d₃ hk₃ => ?_
    have hat₃ : d₃.rows.DerivedAt c row commit := hk₃.now.2.2
    refine Tx.meets_ok (checkParentRows_eq_ok hat₃) ?_
    refine meets_verifyParents hk₃ (fun d hd p hp => ?_) fun d hd => hok d (hd.imp fun _ hx => hx.1)
    have hp : p ∈ d₃.rows.parentRowsOf c.text := hp
    rw [parentRowsOf_eq hat₃] at hp
    obtain ⟨⟨q, i⟩, hq, rfl⟩ := List.mem_map.mp hp
    exact hd.2.2.indexed q (List.mem_of_getElem? (List.mem_zipIdx_iff_getElem?.mp hq))
  · refine hbad e d₂ ⟨c, row, commit, hrow₂, hat₂, fun valid hvalid => ?_⟩
    obtain ⟨e', he', -⟩ := mapError_eq_error.mp herror
    obtain ⟨bytes', hbytes', hvalid⟩ := bind_eq_ok.mp hvalid
    obtain rfl := Option.some.inj (hpatch.symm.trans (useObject_eq_ok hbytes'))
    rw [he'] at hvalid
    cases hvalid

theorem meets_verifyIds {ids : List String} {count : ℕ}
    {Q : Except LedgerError ℕ → View Db LockName → Prop}
    (hderived : ∀ d, Δ.Inv d → d.rows.Derived) (hk : Knows Δ pid ⟨held, id, d₀⟩ X K)
    (hindexed : ∀ x ∈ ids, (d₀.rows.commitIndex x).isSome)
    (hok : ∀ d, Knows Δ pid ⟨held, id, d⟩ X K → Q (.ok (count + ids.length)) ⟨held, id, d⟩)
    (hbad : ∀ e d, d.rows.Unvalidated → Q (.error e) ⟨held, id, d⟩) :
    Meets Δ pid G (verifyIds count ids).run Q ⟨held, id, d₀⟩ := by
  induction ids generalizing d₀ count with
  | nil => exact hok d₀ hk
  | cons x ids ih =>
      have hrest : Knows Δ pid ⟨held, id, d₀⟩ X fun d => K d ∧
          ∀ y ∈ ids, (d.rows.commitIndex y).isSome :=
        hk.learn fun d hrely y hy => (KeepsRows.rows hrely.grow).has (k := .index y)
          (hindexed y (List.mem_cons_of_mem _ hy))
      refine Tx.meets_bind (meets_verifyId hderived hrest (hindexed x List.mem_cons_self)
        (fun d hd => ?_) hbad)
      refine ih (hd.imp fun _ hx => hx.1) hd.now.2 fun d' hd' => ?_
      rw [show count + 1 + ids.length = count + (x :: ids).length by simp; omega]
      exact hok d' hd'

end Verify

/-! ## Publication -/

namespace ImmutableRows

variable {rows rows' : ImmutableRows} {graph : GraphId} {commit : AnyCommit} {bytes : Bytes}
variable {id : CommitId}

def Holds (rows : ImmutableRows) : ImmutableRow → Prop
  | .object id bytes => rows.objects id = some bytes
  | .index id row => rows.commitIndex id = some row
  | .parent id position parentId => rows.commitParents id position = some parentId

theorem Holds.grow (hext : rows.Extends rows') {r : ImmutableRow} (h : rows.Holds r) :
    rows'.Holds r := by
  cases r with
  | object id bytes => exact hext.objects _ _ h
  | index id row => exact hext.index _ _ h
  | parent id position parentId => exact hext.parents _ _ _ h

theorem Derived.holds_commitRows (h : rows.Derived) (hencodes : commit.canonicalBytes = .ok bytes)
    (hid : commit.id = .ok id) (hobject : rows.objects id.text = some bytes)
    (hindex : rows.commitIndex id.text = some (commit.indexRow graph)) :
    ∀ r ∈ commitRows graph commit bytes id, rows.Holds r := by
  intro r hr
  rcases List.mem_cons.mp hr with rfl | hr
  · exact hobject
  rcases List.mem_cons.mp hr with rfl | hr
  · exact hindex
  obtain ⟨⟨p, i⟩, hpi, rfl⟩ := List.mem_map.mp hr
  have hpi' : commit.parents[i]? = some p := by simpa using List.mem_zipIdx_iff_getElem?.mp hpi
  obtain ⟨stored, hstored⟩ := h.at hindex
  have hdecodes := hstored.decodes
  rw [hobject, useCommit_canonicalBytes hencodes hid] at hdecodes
  have hparents := hstored.parents i
  rw [← Except.ok.inj hdecodes, AnyCommit.parents_normalized, hpi'] at hparents
  exact hparents

end ImmutableRows

/-- A commit was published over `d`. -/
structure PublishEffect (binding : V1Binding) (commit : AnyCommit) (graph : GraphId) (bytes : Bytes)
    (id : CommitId) (d d' : Db) : Prop where
  binds : graphFor binding commit = .ok graph
  checked : d.rows.Checked graph commit bytes id
  after : d' = publishing (commitRows graph commit bytes id) d
  object : d'.rows.objects id.text = some bytes
  index : d'.rows.commitIndex id.text = some (commit.indexRow graph)

section Publish

variable {Δ : Discipline Db LockName} [KeepsRows Δ] {pid : ℕ} {G : Db → Db → Prop}
variable {held : List (LockName × Mode)} {d₀ : Db} {X : List LockName} {K : Db → Prop}
variable {binding : V1Binding} {commit : AnyCommit}

theorem PublishEffect.derived {graph : GraphId} {bytes : Bytes} {id : CommitId} {d d' : Db}
    (h : PublishEffect binding commit graph bytes id d d') (hd : d.rows.Derived) :
    d'.rows.Derived := by
  obtain ⟨-, hchecked, rfl, hobject, -⟩ := h
  exact hd.publish hchecked hobject

theorem PublishEffect.only_adds {graph : GraphId} {bytes : Bytes} {id : CommitId} {d d' : Db}
    (h : PublishEffect binding commit graph bytes id d d') : d.rows.Extends d'.rows := by
  obtain ⟨-, -, rfl, -, -⟩ := h
  exact extends_insertAll _ _

theorem meets_publishCommit {Q : CommitId → View Db LockName → Prop}
    (hstable : ∀ l d d', Db.Stable l d d' → Δ.Stable l d d')
    (hk : Knows Δ pid ⟨held, id, d₀⟩ X K)
    (h : ∀ graph bytes commitId d d', Δ.Inv d → K d →
      PublishEffect binding commit graph bytes commitId d d' →
      G d d' ∧ Q commitId ⟨[], id, d'⟩) :
    Meets Δ pid G (publishCommit binding commit).run (Oks Q) ⟨held, id, d₀⟩ := by
  refine meets_publishCommitIn (.start hk) (fun _ => rfl)
    fun held₁ d₁ X₁ graph bytes commitId _ hembedded hbinds hbytes hid hk₁ => ?_
  refine Tx.knows_commit (publishing (commitRows graph commit bytes commitId)) hk₁.finish rfl
    fun d hinv hK => ?_
  obtain ⟨⟨⟨hKd, hready⟩, hobject, hindex⟩, hcovered⟩ := hK
  have heffect : PublishEffect binding commit graph bytes commitId d
      (publishing (commitRows graph commit bytes commitId) d) :=
    ⟨hbinds, ⟨hbytes, hid, hembedded, hready.1, hready.2⟩, rfl, hobject, hindex⟩
  obtain ⟨hG, hQ⟩ := h graph bytes commitId d _ hinv hKd heffect
  refine ⟨hG, fun l hl => hstable _ _ _ (Db.stable_rows fun r hr hlock => ?_), hQ⟩
  rcases hcovered r hr with hhas | hlocked
  · exact hhas
  · exact absurd (hlock ▸ hlocked) hl

theorem meets_putContent {contentId : ContentId} {bytes : Bytes} {Q : Unit → View Db LockName → Prop}
    (hstable : ∀ l d d', Db.Stable l d d' → Δ.Stable l d d')
    (hG : ∀ d, Δ.Inv d → G d { d with rows := d.rows.insert (.object contentId.text bytes) })
    (hk : Knows Δ pid ⟨held, id, d₀⟩ X K) (hQ : ∀ d, Q () ⟨[], id, d⟩) :
    Meets Δ pid G (putContent contentId bytes).run (Oks Q) ⟨held, id, d₀⟩ := by
  refine Tx.oks_lift fun _ _ => Tx.oks_lift fun _ _ => ?_
  refine meets_insertRow (.start hk) fun held₁ d₁ X₁ _ hk₁ => ?_
  refine Tx.knows_commit (publishing [.object contentId.text bytes]) hk₁.finish rfl
    fun d hinv hK => ⟨hG d hinv, fun l hl => ?_, ?_⟩
  · refine hstable _ _ _ (Db.stable_rows fun r hr hlock => ?_)
    rcases hK.2 r hr with hhas | hlocked
    · exact hhas
    · exact absurd (hlock ▸ hlocked) hl
  · exact Tx.meets_query fun d₂ _ => Tx.oks_done fun _ _ => hQ d₂

theorem meets_validatePatchOf {β : Type} {f : Unit → LedgerTx β} {Q : β → View Db LockName → Prop}
    (hk : Knows Δ pid ⟨held, id, d₀⟩ X K)
    (h : ∀ d, Knows Δ pid ⟨held, id, d⟩ X (fun x => K x ∧
      ∃ patch, usePatch commit.patch (x.rows.objects commit.patch.text) = .ok patch) →
      Meets Δ pid G (f ()).run (Oks Q) ⟨held, id, d⟩) :
    Meets Δ pid G (validatePatchOf commit >>= f).run (Oks Q) ⟨held, id, d₀⟩ := by
  refine Tx.oks_bind (Tx.oks_bind (Tx.knows_query hk fun d₁ hk₁ => Tx.oks_done fun stored hstored =>
    Tx.oks_lift fun bytes hbytes => Tx.oks_lift fun patch hpatch => ?_))
  refine h d₁ (hk₁.learn fun x hrely => ⟨patch, ?_⟩)
  refine usePatch_grow (KeepsRows.rows hrely.grow) ?_
  have hstored : verified commit.patch.content (d₁.rows.objects commit.patch.text) = .ok stored :=
    hstored
  cases stored with
  | none => cases hbytes
  | some b =>
      obtain rfl : b = bytes := Except.ok.inj hbytes
      simp only [usePatch, useObject, hstored, ok_bind]
      exact hpatch

end Publish

/-! ## Runs of the store -/

def StoreEffect : StoreRequest → Db → Db → Prop
  | .putContent contentId bytes, d, d' =>
      d' = { d with rows := d.rows.insert (.object contentId.text bytes) }
  | .putCommit binding commit, d, d' =>
      (∃ graph bytes id, PublishEffect binding commit graph bytes id d d') ∧
        ∃ patch, usePatch commit.patch (d.rows.objects commit.patch.text) = .ok patch
  | .publishCommit binding commit, d, d' =>
      ∃ graph bytes id, PublishEffect binding commit graph bytes id d d'
  | .verifyCommitIndex, _, _ => False
  | .setGraphStatus graph status, d, d' => d' = d.setStatus graph status

def StoreRequest.publishes : StoreRequest → Option (V1Binding × AnyCommit)
  | .putCommit binding commit => some (binding, commit)
  | .publishCommit binding commit => some (binding, commit)
  | _ => none

/-- What a reply says of the database that it was given on. -/
structure StoreReplied (request : StoreRequest) (result : Except LedgerError StoreReply) (d : Db) :
    Prop where
  published : ∀ binding commit reply, request.publishes = some (binding, commit) →
    result = .ok reply → ∃ graph bytes id, graphFor binding commit = .ok graph ∧
      commit.canonicalBytes = .ok bytes ∧ commit.id = .ok id ∧ d.rows.objects id.text = some bytes ∧
      d.rows.commitIndex id.text = some (commit.indexRow graph)
  verified : request = .verifyCommitIndex →
    (∃ n, result = .ok (.verified n)) ∨ d.rows.Unvalidated

def storeDiscipline : Discipline Db LockName where
  Inv d := d.rows.Derived
  Grow d d' := d.rows.Extends d'.rows
  Fresh _ _ := True
  Stable := Db.Stable
  grow_refl := Db.extends_refl
  grow_trans := @Db.extends_trans
  stable_refl := Db.Stable.refl
  stable_trans := @Db.Stable.trans

instance : KeepsRows storeDiscipline := ⟨id, id⟩

theorem StoreEffect.keeps {request : StoreRequest} {d d' : Db} (h : StoreEffect request d d')
    (hd : d.rows.Derived) : d'.rows.Derived ∧ d.rows.Extends d'.rows := by
  cases request with
  | putContent contentId bytes =>
      obtain rfl := h
      exact ⟨hd.insert_object _ _, extends_insert d.rows (.object contentId.text bytes)⟩
  | putCommit binding commit =>
      obtain ⟨⟨graph, bytes, id, h⟩, -⟩ := h
      exact ⟨h.derived hd, h.only_adds⟩
  | publishCommit binding commit =>
      obtain ⟨graph, bytes, id, h⟩ := h
      exact ⟨h.derived hd, h.only_adds⟩
  | verifyCommitIndex => exact h.elim
  | setGraphStatus graph status =>
      obtain rfl := h
      exact ⟨hd, .refl _⟩

section Meets

variable {pid : ℕ} {d₀ : Db} {X : List LockName}

theorem StoreReplied.of_publish {request : StoreRequest} {binding : V1Binding} {commit : AnyCommit}
    {graph : GraphId} {bytes : Bytes} {commitId : CommitId} {d d' : Db}
    (hrequest : request.publishes = some (binding, commit))
    (h : PublishEffect binding commit graph bytes commitId d d')
    (result : Except LedgerError StoreReply) : StoreReplied request result d' where
  published binding' commit' reply hpublishes _ := by
    obtain ⟨rfl, rfl⟩ := Prod.mk.inj (Option.some.inj (hrequest.symm.trans hpublishes))
    exact ⟨graph, bytes, commitId, h.binds, h.checked.encodes, h.checked.isId, h.object, h.index⟩
  verified hverify := by
    rw [hverify] at hrequest
    cases hrequest

theorem StoreReplied.of_error {request : StoreRequest} (e : LedgerError) (d : Db)
    (hverify : request ≠ .verifyCommitIndex) : StoreReplied request (.error e) d where
  published _ _ _ _ h := by cases h
  verified h := (hverify h).elim

theorem meets_storeCode [IndexScan] (request : StoreRequest) (pid : ℕ) (d : Db)
    (hinv : d.rows.Derived) :
    Meets storeDiscipline pid (StoreEffect request) (storeCode request pid)
      (fun result v => StoreReplied request result v.seen) { seen := d } := by
  have hk : Knows storeDiscipline pid (⟨[], id, d⟩ : View Db LockName) [] fun _ => True :=
    ⟨hinv, by simp, fun _ _ => trivial⟩
  cases request with
  | putContent contentId bytes =>
      have hmeets : Meets storeDiscipline pid (StoreEffect (.putContent contentId bytes))
          (putContent contentId bytes).run (Oks fun _ _ => True) ⟨[], id, d⟩ :=
        meets_putContent (fun _ _ _ h => h) (fun _ _ => rfl) hk fun _ => trivial
      refine Tx.meets_bind (hmeets.mono (fun _ _ hG => hG) fun result v _ => ?_)
      cases result with
      | ok _ => exact ⟨fun _ _ _ h => (by cases h), fun h => (by cases h)⟩
      | error e => exact .of_error e _ (by simp)
  | putCommit binding commit =>
      have hmeets : Meets storeDiscipline pid (StoreEffect (.putCommit binding commit))
          (putCommit binding commit).run (Oks fun commitId v =>
            StoreReplied (.putCommit binding commit) (.ok (.published commitId)) v.seen)
          ⟨[], id, d⟩ :=
        meets_validatePatchOf hk fun d₁ hk₁ => meets_publishCommit (fun _ _ _ h => h) hk₁
          fun graph bytes commitId d d' _ hK heffect =>
            ⟨⟨⟨graph, bytes, commitId, heffect⟩, hK.2⟩, .of_publish rfl heffect _⟩
      refine Tx.meets_bind (hmeets.mono (fun _ _ hG => hG) fun result v hresult => ?_)
      cases result with
      | ok _ => exact hresult
      | error e => exact .of_error e _ (by simp)
  | publishCommit binding commit =>
      have hmeets : Meets storeDiscipline pid (StoreEffect (.publishCommit binding commit))
          (publishCommit binding commit).run (Oks fun commitId v =>
            StoreReplied (.publishCommit binding commit) (.ok (.published commitId)) v.seen)
          ⟨[], id, d⟩ :=
        meets_publishCommit (fun _ _ _ h => h) hk fun graph bytes commitId d d' _ _ heffect =>
          ⟨⟨graph, bytes, commitId, heffect⟩, .of_publish rfl heffect _⟩
      refine Tx.meets_bind (hmeets.mono (fun _ _ hG => hG) fun result v hresult => ?_)
      cases result with
      | ok _ => exact hresult
      | error e => exact .of_error e _ (by simp)
  | verifyCommitIndex =>
      refine Tx.meets_bind (Tx.knows_query hk fun d₁ hk₁ => ?_)
      refine meets_verifyIds (fun _ h => h) hk₁ (IndexScan.indexed d₁.rows) (fun d₂ _ => ?_)
        fun e d₂ hbad => ?_
      · exact ⟨fun _ _ _ h => (by cases h), fun _ => .inl ⟨_, rfl⟩⟩
      · exact ⟨fun _ _ _ h => (by cases h), fun _ => .inr hbad⟩
  | setGraphStatus graph status =>
      refine Tx.meets_bind (Tx.meets_bind (Tx.meets_locking fun d₁ _ => Tx.meets_write ?_))
      refine fun d₂ hd₂ => ⟨⟨rfl, fun l hl => ?_⟩, ?_⟩
      · by_cases hlock : l = .graphStatus graph
        · rw [hlock]
          exact List.mem_cons_self ..
        · exact absurd (Db.stable_setStatus hlock) hl
      · exact ⟨fun _ _ _ h => (by cases h), fun h => (by cases h)⟩

end Meets

namespace ImmutableRows

variable {rows rows' : ImmutableRows}

/-- A row that publication would insert is there with another content. -/
def Disagrees (rows : ImmutableRows) (graph : GraphId) (commit : AnyCommit) (bytes : Bytes)
    (id : CommitId) : Prop :=
  ∃ r ∈ commitRows graph commit bytes id, rows.has r.key = true ∧ ¬ rows.Holds r

/-- A patch that does not validate never will. -/
theorem Unvalidated.grow (h : rows.Unvalidated) (hext : rows.Extends rows')
    (hderived : rows'.Derived) : rows'.Unvalidated := by
  obtain ⟨c, row, commit, hrow, hat, hbad⟩ := h
  obtain ⟨hrow', hat'⟩ := hat.keep hrow hext hderived
  refine ⟨c, row, commit, hrow', hat', fun patch hpatch => hbad patch ?_⟩
  obtain ⟨bytes, hbytes⟩ := Option.isSome_iff_exists.mp hat.patch
  rw [hext.objects _ _ hbytes] at hpatch
  rw [hbytes]
  exact hpatch

end ImmutableRows

/-- An interleaving of requests to the store, some of them crashed, from an empty index. -/
structure StoreRun [IndexScan] where
  start : Db
  noIndex : ∀ id, start.rows.commitIndex id = none
  noParents : ∀ id i, start.rows.commitParents id i = none
  system : System StoreRequest Db LockName (Except LedgerError StoreReply)
  reachable : system.Reachable storeCode start

namespace StoreRun

variable [IndexScan]

def db (run : StoreRun) : Db := run.system.db

/-- The commits and the replies of the run, in order. -/
def log (run : StoreRun) : List (Event StoreRequest Db (Except LedgerError StoreReply)) :=
  run.system.log

/-- Every publication validated the patch it names. -/
def Validated (run : StoreRun) : Prop :=
  ∀ pid binding commit start d d',
    .committed pid (.publishCommit binding commit) start d d' ∉ run.log

theorem sound (run : StoreRun) :
    Sound storeDiscipline (fun request _ _ => StoreEffect request)
      (fun request _ _ result v => StoreReplied request result v.seen) run.system :=
  sound_of_reachable (fun _ _ _ _ _ hinv h => ⟨(h.keeps hinv).1, (h.keeps hinv).2, fun _ _ h => h⟩)
    (fun request pid d hinv _ => meets_storeCode request pid d hinv)
    (derived_of_empty run.noIndex run.noParents) (fun _ => trivial) run.reachable

theorem derived (run : StoreRun) : run.db.rows.Derived := run.sound.inv

theorem exists_publication (run : StoreRun) {c : CommitId} {row : IndexRow}
    (h : run.db.rows.commitIndex c.text = some row) :
    ∃ pid request start d d' binding commit graph bytes,
      .committed pid request start d d' ∈ run.log ∧ StoreEffect request d d' ∧
      request.publishes = some (binding, commit) ∧
      PublishEffect binding commit graph bytes c d d' := by
  have hstart : ¬ (run.start.rows.commitIndex c.text).isSome := by simp [run.noIndex]
  obtain ⟨pid, request, start, d, d', hmem, hbefore, hafter⟩ :=
    run.reachable.exists_commit (P := fun d => (d.rows.commitIndex c.text).isSome) hstart
      (by simp [show run.system.db.rows.commitIndex c.text = some row from h])
  have heffect : StoreEffect request d d' := (run.sound.log _ hmem).1
  have hpublished : ∀ {binding commit graph bytes id},
      PublishEffect binding commit graph bytes id d d' → c = id := by
    rintro binding commit graph bytes id ⟨-, -, rfl, -, -⟩
    have hsome : ((d.rows.insertAll (commitRows graph commit bytes id)).commitIndex c.text).isSome :=
      hafter
    by_contra hne
    rw [commitRows, commitIndex_publication,
      if_neg fun htext => hne (CommitId.text_injective htext)] at hsome
    exact hbefore hsome
  cases request with
  | putContent contentId bytes =>
      obtain rfl := heffect
      exact absurd hafter hbefore
  | putCommit binding commit =>
      obtain ⟨⟨graph, bytes, id, hp⟩, -⟩ := id heffect
      obtain rfl := hpublished hp
      exact ⟨pid, _, start, d, d', binding, commit, graph, bytes, hmem, heffect, rfl, hp⟩
  | publishCommit binding commit =>
      obtain ⟨graph, bytes, id, hp⟩ := id heffect
      obtain rfl := hpublished hp
      exact ⟨pid, _, start, d, d', binding, commit, graph, bytes, hmem, heffect, rfl, hp⟩
  | verifyCommitIndex => exact heffect.elim
  | setGraphStatus graph status =>
      obtain rfl := heffect
      exact absurd hafter hbefore

theorem Validated.not_unvalidated {run : StoreRun} (h : run.Validated) :
    ¬ run.db.rows.Unvalidated := by
  rintro ⟨c, row, commit, hrow, hat, hbad⟩
  obtain ⟨pid, request, start, d, d', binding, published, graph, bytes, hmem, heffect, hrequest,
    hp⟩ := run.exists_publication hrow
  obtain ⟨-, -, -, -, hgrow, hlater⟩ := run.sound.log _ hmem
  have hlater : d'.rows.Extends run.db.rows := hlater
  have hsame : commit.patch = published.patch := by
    have hdecodes := hat.decodes
    rw [hlater.objects _ _ hp.object,
      useCommit_canonicalBytes hp.checked.encodes hp.checked.isId] at hdecodes
    rw [← Except.ok.inj hdecodes, AnyCommit.patch_normalized]
  cases request with
  | putCommit binding' published' =>
      obtain ⟨-, rfl⟩ := Prod.mk.inj (Option.some.inj hrequest)
      obtain ⟨-, patch, hpatch⟩ := heffect
      have hvalid := usePatch_grow hlater (usePatch_grow hgrow hpatch)
      exact hbad patch (by rw [hsame]; exact hvalid)
  | publishCommit binding' published' => exact h _ _ _ _ _ _ hmem
  | _ => cases hrequest

/-- In every interleaving of publications the index is a view of the stored bytes, closed
under parents within a graph; it verifies if the patches were validated; and a publication
that disagrees with a row that is there fails and changes nothing. -/
theorem publications_derive_the_index (run : StoreRun) :
    (∀ id row, run.db.rows.commitIndex id = some row → ∃ c commit, c.text = id ∧
      run.db.rows.DerivedAt c row commit ∧
      ∀ a ∈ ancestors run.db.rows.Parent c, run.db.rows.InGraph row.graphId a) ∧
    (∀ id i p, run.db.rows.commitParents id i = some p → (run.db.rows.commitIndex id).isSome) ∧
    (run.Validated → ∀ pid start d result, .replied pid .verifyCommitIndex start d result ∈ run.log →
      ∃ n, result = .ok (.verified n)) ∧
    ∀ pid request binding commit graph bytes id, request.publishes = some (binding, commit) →
      graphFor binding commit = .ok graph → commit.canonicalBytes = .ok bytes →
      commit.id = .ok id → run.db.rows.Disagrees graph commit bytes id →
      (∀ start d d', .committed pid request start d d' ∉ run.log) ∧
      ∀ start d result, .replied pid request start d result ∈ run.log → ∃ e, result = .error e := by
  refine ⟨fun id row hrow => ?_, run.derived.parents, fun hvalidated pid start d result hmem => ?_, ?_⟩
  · obtain ⟨c, commit, rfl, hat⟩ := run.derived.index id row hrow
    exact ⟨c, commit, rfl, hat, fun a ha => run.derived.ancestors_inGraph ⟨row, hrow, rfl⟩ ha⟩
  · obtain ⟨-, hlater, v, hreplied, -, -, hseen⟩ := run.sound.log _ hmem
    refine (hreplied.verified rfl).resolve_right fun hbad => ?_
    exact hvalidated.not_unvalidated (hbad.grow (hseen.trans hlater) run.derived)
  · intro pid request binding commit graph bytes id hrequest hgraph hbytes hid hdisagrees
    obtain ⟨r, hr, -, hnot⟩ := hdisagrees
    -- what was published is there for good
    have hholds : ∀ d : Db, d.rows.Derived → d.rows.Extends run.db.rows →
        d.rows.objects id.text = some bytes →
        d.rows.commitIndex id.text = some (commit.indexRow graph) → False := by
      intro d hd hlater hobject hindex
      exact hnot ((hd.holds_commitRows hbytes hid hobject hindex r hr).grow hlater)
    refine ⟨fun start d d' hmem => ?_, fun start d result hmem => ?_⟩
    · obtain ⟨heffect, -, hinv, -, -, hlater⟩ := run.sound.log _ hmem
      have hpublished : ∃ graph bytes id, PublishEffect binding commit graph bytes id d d' := by
        cases request with
        | putCommit _ _ =>
            cases hrequest
            exact heffect.1
        | publishCommit _ _ =>
            cases hrequest
            exact heffect
        | _ => cases hrequest
      obtain ⟨graph', bytes', id', hp⟩ := hpublished
      obtain rfl : graph = graph' := Except.ok.inj (hgraph.symm.trans hp.binds)
      obtain rfl : bytes = bytes' := Except.ok.inj (hbytes.symm.trans hp.checked.encodes)
      obtain rfl : id = id' := Except.ok.inj (hid.symm.trans hp.checked.isId)
      exact hholds d' hinv hlater hp.object hp.index
    · cases result with
      | error e => exact ⟨e, rfl⟩
      | ok reply =>
          obtain ⟨-, hlater, v, hreplied, hinv, -, hseen⟩ := run.sound.log _ hmem
          obtain ⟨graph', bytes', id', hgraph', hbytes', hid', hobject, hindex⟩ :=
            hreplied.published binding commit reply hrequest rfl
          obtain rfl : graph = graph' := Except.ok.inj (hgraph.symm.trans hgraph')
          obtain rfl : bytes = bytes' := Except.ok.inj (hbytes.symm.trans hbytes')
          obtain rfl : id = id' := Except.ok.inj (hid.symm.trans hid')
          exact (hholds v.seen hinv (hseen.trans hlater) hobject hindex).elim

end StoreRun

end CognitiveLedger
