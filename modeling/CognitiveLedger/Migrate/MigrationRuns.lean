import CognitiveLedger.Migrate.MigrationReads
import CognitiveLedger.Store.MovePrograms

/-!
# Every interleaving of a migration

A migration verifies before it installs. When it reports success, the objects that the
source held are in the destination byte for byte, the commits among them are indexed in
the target graph, and both backends come to the same state of the head. Whatever becomes
of it, the only ref it ever writes was absent, and the head it puts there has its whole
ancestry and every patch stored and indexed.

Others may do as they please with the heads of both sides at any time.
-/

set_option linter.unusedSectionVars false

namespace CognitiveLedger

open ReadCommitted ExceptRules

variable [NQuadsParser] [Sha256] [TimeCrate] [StrDebug]

theorem Db.stable_setRef_only {d : Db} {l : LockName} {g : GraphId} {b : String} {row : RefRow}
    (h : l ≠ .ref g b) : Db.Stable l d (d.setRef g b row) := by
  cases l with
  | ref g' b' => exact ⟨if_neg fun hon => h (by rw [hon.1, hon.2]), rfl⟩
  | row k => cases k <;> exact rfl
  | _ => exact rfl

namespace ImmutableRows

variable {rows rows' : ImmutableRows} {g : String} {c h : CommitId}

structure Kept (rows : ImmutableRows) (g : String) (c : CommitId) : Prop where
  indexed : rows.InGraph g c
  stored : ∃ commit, useCommit c (rows.objects c.text) = .ok commit ∧
    ∃ patch, usePatch commit.patch (rows.objects commit.patch.text) = .ok patch

def PatchKept (rows : ImmutableRows) (c : CommitId) : Prop :=
  ∃ bytes commit, rows.objects c.text = some bytes ∧ AnyCommit.fromCanonicalBytes bytes = .ok commit ∧
    ∃ patch, usePatch commit.patch (rows.objects commit.patch.text) = .ok patch

/-- Everything that the stored bytes name as an ancestor is kept. -/
def Complete (rows : ImmutableRows) (g : String) (h : CommitId) : Prop :=
  ∀ a, Relation.ReflTransGen (fun c p => p ∈ rows.parentsOf c) h a → rows.Kept g a

theorem Kept.grow (hc : rows.Kept g c) (hext : rows.Extends rows') : rows'.Kept g c := by
  obtain ⟨commit, hcommit, patch, hpatch⟩ := hc.stored
  exact ⟨hc.indexed.grow hext, commit, useCommit_grow hext hcommit, patch, usePatch_grow hext hpatch⟩

omit [TimeCrate] [StrDebug] in
theorem usePatch_eq_ok {id : PatchId} {bytes : Bytes} {patch : Patch}
    (h : validatePatchBytes id bytes = .ok patch) : usePatch id (some bytes) = .ok patch := by
  have hhash : Sha256.forBytes bytes = id.content := by
    by_contra hne
    simp [validatePatchBytes, hne] at h
  simpa [usePatch, useObject, verified, hhash] using h

theorem PatchKept.grow (hc : rows.PatchKept c) (hext : rows.Extends rows') : rows'.PatchKept c := by
  obtain ⟨bytes, commit, hbytes, hcommit, patch, hpatch⟩ := hc
  exact ⟨bytes, commit, hext.objects _ _ hbytes, hcommit, patch, usePatch_grow hext hpatch⟩

theorem PatchKept.kept (hc : rows.PatchKept c) (hindexed : rows.InGraph g c) {commit : AnyCommit}
    (hcommit : useCommit c (rows.objects c.text) = .ok commit) : rows.Kept g c := by
  obtain ⟨bytes, commit', hbytes, hcommit', hpatch⟩ := hc
  obtain ⟨bytes', hbytes', -, hdecode⟩ := exists_bytes hcommit
  obtain rfl := Option.some.inj (hbytes.symm.trans hbytes')
  obtain rfl := Except.ok.inj (hcommit'.symm.trans hdecode)
  exact ⟨hindexed, commit', hcommit, hpatch⟩

theorem complete_of_closed {P : CommitId → Prop} (hkept : ∀ c, P c → rows.Kept g c)
    (hclosed : ∀ c, P c → ∀ p ∈ rows.parentsOf c, P p) (hh : P h) : rows.Complete g h := by
  intro a ha
  refine hkept a ?_
  induction ha with
  | refl => exact hh
  | tail _ hp ih => exact hclosed _ ih _ hp

/-- The ancestry of a complete head does not change any more. -/
theorem Complete.grow (hh : rows.Complete g h) (hext : rows.Extends rows') : rows'.Complete g h := by
  refine complete_of_closed (P := Relation.ReflTransGen (fun c p => p ∈ rows.parentsOf c) h)
    (fun c hc => (hh c hc).grow hext) (fun c hc p hp => ?_) .refl
  obtain ⟨commit, hcommit, -⟩ := (hh c hc).stored
  rw [parentsOf_eq (useCommit_grow hext hcommit), ← parentsOf_eq hcommit] at hp
  exact hc.tail hp

end ImmutableRows

namespace Migrate

open ImmutableRows

variable {m : FsToPgMigration} {pid : ℕ} {α β : Type}

/-! ## What a migration commits -/

/-- The head `h` is put where there was none. -/
structure Installs (m : FsToPgMigration) (h : CommitId) (d d' : Db) : Prop where
  absent : d.refs m.graph m.branch = none
  after : d' = d.setRef m.graph m.branch ⟨h, 1, true⟩
  complete : d.rows.Complete m.graph.asStr h

structure DestinationEffect (m : FsToPgMigration) (d d' : Db) : Prop where
  rows : d.rows.Extends d'.rows
  refs : d'.refs = d.refs ∨ ∃ h, Installs m h d d'

structure MigrateEffect (m : FsToPgMigration) (w w' : World) : Prop where
  source : w'.source = w.source
  destination : DestinationEffect m w.destination w'.destination

theorem MigrateEffect.grow {w w' : World} (h : MigrateEffect m w w') : worldDiscipline.Grow w w' := by
  refine ⟨?_, h.destination.rows⟩
  rw [h.source]
  exact sourceDiscipline.grow_refl _

/-! ## Parts of a migration -/

variable (m pid) in
/-- From `w` the part comes to its end between transactions, with `R`, or it fails. -/
def Comes (w : World) (x : MigrateTx α) (R : α → World → Prop) : Prop :=
  Meets worldDiscipline pid (MigrateEffect m) x.run (Idle R fun _ _ => True) ⟨[], id, w⟩

variable {w : World} {R : α → World → Prop} {S : β → World → Prop} {f : α → MigrateTx β}

theorem Comes.bind {x : MigrateTx α} (hx : Comes m pid w x R)
    (hf : ∀ a w', worldDiscipline.Grow w w' → R a w' → Comes m pid w' (f a) S) :
    Comes m pid w (x >>= f) S :=
  Tx.idle_bind (fun _ _ _ h => ⟨trivial, h.grow⟩) trivial hx (fun _ _ _ _ _ => trivial)
    fun a w' _ hgrow hR => hf a w' hgrow hR

theorem Comes.lift {x : Except LedgerError α} (hf : ∀ a, x = .ok a → Comes m pid w (f a) S) :
    Comes m pid w (Tx.lift x >>= f) S :=
  Tx.idle_lift hf fun _ _ => trivial

theorem Comes.pure {a : α} (h : R a w) : Comes m pid w (pure a) R := Tx.idle_pure h

theorem Comes.mono {x : MigrateTx α} {R' : α → World → Prop} (hx : Comes m pid w x R)
    (h : ∀ a w', R a w' → R' a w') : Comes m pid w x R' :=
  hx.idle_mono h fun _ _ _ => trivial

theorem Comes.grow {x : MigrateTx α} (hx : Comes m pid w x R) :
    Comes m pid w x fun a w' => R a w' ∧ worldDiscipline.Grow w w' :=
  hx.idle_grow (fun _ _ _ h => ⟨trivial, h.grow⟩) trivial

theorem Comes.source {x : FileTx α} {R : α → Files → Prop}
    (hx : Meets sourceDiscipline pid (fun _ _ => False) x.run (Idle R fun _ _ => True)
      ⟨[], id, w.source⟩) :
    Comes m pid w (onSource x) fun a w => R a w.source :=
  Tx.idle_on refines_source (fun _ _ h => h.elim) hx

theorem Comes.destination {x : LedgerTx α} {R : α → Db → Prop}
    (hx : Meets destinationDiscipline pid (DestinationEffect m) x.run (Idle R fun _ _ => True)
      ⟨[], id, w.destination⟩) :
    Comes m pid w (onDestination x) fun a w => R a w.destination :=
  Tx.idle_on refines_destination (fun _ _ h => ⟨rfl, h⟩) hx

/-! ## Listing and classifying -/

theorem comes_listObjects [ObjectScan] : Comes m pid w (onSource listObjects) fun ids w' =>
    ∀ id bytes, w'.source.objects id = some bytes → id ∈ ids := by
  refine Comes.source (R := fun ids files => ∀ id bytes, files.objects id = some bytes → id ∈ ids) ?_
  refine Tx.idle_reading fun files _ ids hids id bytes hbytes => ?_
  exact (ObjectScan.mem_iff hids id).mpr (by simp [hbytes])

structure Classified (ids : List ContentId) (objects : SourceObjects) (files : Files) : Prop where
  stored : ∀ p ∈ objects.all, files.objects p.1 = some p.2
  listed : ∀ id ∈ ids, ∃ bytes, (id, bytes) ∈ objects.all
  content : ∀ p ∈ objects.content, decodeCommitObject p.1 p.2 = .ok none
  commits : ∀ e ∈ objects.commits, Sha256.forBytes e.2.2 = e.1.content ∧
    decodeCommitObject e.1.content e.2.2 = .ok (some e.2.1)

theorem Classified.add {ids : List ContentId} {objects : SourceObjects} {files : Files}
    (h : Classified ids objects files) {id : ContentId} {bytes : Bytes} {decoded : Option AnyCommit}
    (hstored : files.objects id = some bytes) (hhash : Sha256.forBytes bytes = id)
    (hdecoded : decodeCommitObject id bytes = .ok decoded) :
    Classified (id :: ids) (objects.add id bytes decoded) files := by
  have hall : ∀ p, p ∈ (objects.add id bytes decoded).all ↔ p = (id, bytes) ∨ p ∈ objects.all := by
    intro p
    cases decoded with
    | none => simp [SourceObjects.add, SourceObjects.all]
    | some commit => simp [SourceObjects.add, SourceObjects.all]; tauto
  refine ⟨fun p hp => ?_, fun x hx => ?_, ?_, ?_⟩
  · rcases (hall p).mp hp with rfl | hp
    · exact hstored
    · exact h.stored p hp
  · rcases List.mem_cons.mp hx with rfl | hx
    · exact ⟨bytes, (hall _).mpr (.inl rfl)⟩
    · obtain ⟨b, hb⟩ := h.listed x hx
      exact ⟨b, (hall _).mpr (.inr hb)⟩
  · cases decoded with
    | none => exact List.forall_mem_cons.mpr ⟨hdecoded, h.content⟩
    | some commit => exact h.content
  · cases decoded with
    | none => exact h.commits
    | some commit => exact List.forall_mem_cons.mpr ⟨⟨hhash, hdecoded⟩, h.commits⟩

theorem comes_getObject (id : ContentId) : Comes m pid w (onSource (FileStore.getObject id))
    fun stored w' => ∀ bytes, stored = some bytes →
      w'.source.objects id = some bytes ∧ Sha256.forBytes bytes = id := by
  refine Comes.source (R := fun stored files => ∀ bytes, stored = some bytes →
    files.objects id = some bytes ∧ Sha256.forBytes bytes = id) ?_
  rw [getObject_eq]
  refine Tx.idle_reading fun files _ stored hstored bytes hbytes => ?_
  obtain ⟨-, -, hstored⟩ := bind_eq_ok.mp hstored
  rw [checkDigest_eq_verified, mapError_eq_ok, hbytes] at hstored
  exact verified_eq_ok hstored

theorem comes_classify (ids : List ContentId) : Comes m pid w (classify ids) fun objects w' =>
    Classified ids objects w'.source := by
  induction ids generalizing w with
  | nil =>
      refine Comes.pure ⟨?_, ?_, ?_, ?_⟩ <;> simp [SourceObjects.all]
  | cons id ids ih =>
      refine (comes_getObject id).bind fun stored w₁ _ hstored => Comes.lift fun bytes hbytes => ?_
      obtain ⟨hobject, hhash⟩ := hstored bytes (expect_eq_ok.mp hbytes)
      refine Comes.lift fun decoded hdecoded => ih.bind fun objects w₂ hgrow hobjects => ?_
      exact Comes.pure (hobjects.add (hgrow.1 _ _ hobject) hhash hdecoded)

/-! ## Publishing -/

theorem knows_destination (d : Db) :
    Knows destinationDiscipline pid (⟨[], id, d⟩ : View Db LockName) [] fun _ => True :=
  ⟨trivial, by simp, fun _ _ => trivial⟩

theorem comes_putContents (content : List (ContentId × Bytes)) :
    Comes m pid w (putContents content) fun _ _ => True := by
  induction content generalizing w with
  | nil => exact Comes.pure trivial
  | cons p content ih =>
      have hput : Comes m pid w (onDestination (putContent p.1 p.2)) fun _ _ => True := by
        refine Comes.destination (R := fun _ _ => True) (Meets.idle_of_oks ?_)
        refine meets_putContent (fun _ _ _ h => h) (fun d _ => ⟨?_, .inl rfl⟩) (knows_destination _)
          fun _ => ⟨rfl, rfl, trivial⟩
        exact extends_insert d.rows (.object p.1.text p.2)
      exact hput.bind fun _ _ _ _ => ih

theorem comes_publish (commits : CommitMap) (order : List CommitId) :
    Comes m pid w (publish m commits order) fun _ _ => True := by
  induction order generalizing w with
  | nil => exact Comes.pure trivial
  | cons c order ih =>
      refine Comes.lift fun entry _ => ?_
      have hput : Comes m pid w (onDestination (putCommit m.binding entry.1)) fun _ _ => True := by
        refine Comes.destination (R := fun _ _ => True) (Meets.idle_of_oks ?_)
        refine meets_validatePatchOf (knows_destination _) fun d₁ hk₁ =>
          meets_publishCommit (fun _ _ _ h => h) hk₁ fun graph bytes commitId d d' _ _ heffect =>
            ⟨⟨heffect.only_adds, .inl ?_⟩, rfl, rfl, trivial⟩
        rw [heffect.after]
        rfl
      exact hput.bind fun _ _ _ _ => Comes.lift fun _ _ => ih.bind fun _ _ _ _ => Comes.pure trivial

/-! ## Verifying -/

theorem comes_verifyBytes (objects : List (ContentId × Bytes)) :
    Comes m pid w (verifyBytes objects) fun _ w' =>
      ∀ p ∈ objects, w'.destination.rows.objects p.1.text = some p.2 := by
  induction objects generalizing w with
  | nil => exact Comes.pure (by simp)
  | cons p objects ih =>
      have hget : Comes m pid w (onDestination (getContent p.1)) fun stored w' =>
          ∀ bytes, stored = some bytes → w'.destination.rows.objects p.1.text = some bytes := by
        refine Comes.destination (R := fun stored d => ∀ bytes, stored = some bytes →
          d.rows.objects p.1.text = some bytes) ?_
        refine Tx.idle_reading fun d _ stored hstored bytes hbytes => ?_
        rw [hbytes] at hstored
        exact (verified_eq_ok hstored).1
      refine hget.bind fun stored w₁ _ hstored => Comes.lift fun bytes hbytes =>
        Comes.lift fun _ hsame => ?_
      have hp := hstored bytes (expect_eq_ok.mp hbytes)
      rw [ensure_eq_ok.mp hsame] at hp
      refine ih.grow.mono fun _ w₂ hrest => ?_
      exact List.forall_mem_cons.mpr ⟨hrest.2.2.objects _ _ hp, hrest.1⟩

theorem idle_verifyParents {contentId : ContentId} {graph : String} (parents : List (ℕ × String))
    {d : Db} : Meets destinationDiscipline pid (DestinationEffect m)
      (verifyParents contentId graph parents).run (Idle (fun _ _ => True) fun _ _ => True)
      ⟨[], id, d⟩ := by
  induction parents generalizing d with
  | nil => exact Tx.idle_pure trivial
  | cons p parents ih =>
      exact Tx.idle_query fun d₁ _ => Tx.idle_lift (fun _ _ => ih) fun _ _ => trivial

theorem idle_verifyId (c : CommitId) {d : Db} :
    Meets destinationDiscipline pid (DestinationEffect m) (verifyId c.text).run
      (Idle (fun _ d' => d'.rows.PatchKept c) fun _ _ => True) ⟨[], id, d⟩ := by
  refine Tx.idle_query fun d₁ _ => Tx.idle_lift (fun contentId _ => ?_) fun _ _ => trivial
  refine Tx.idle_lift (fun row hrow => ?_) fun _ _ => trivial
  obtain ⟨indexed, hindexed, bytes, hbytes, rfl⟩ : ∃ indexed, d₁.rows.commitIndex c.text =
      some indexed ∧ ∃ bytes, d₁.rows.objects c.text = some bytes ∧ (indexed, bytes) = row := by
    simpa [expect_eq_ok, Option.bind_eq_some_iff] using hrow
  refine Tx.idle_lift (fun _ _ => ?_) fun _ _ => trivial
  refine Tx.idle_lift (fun commit hcommit => ?_) fun _ _ => trivial
  refine Tx.idle_lift (fun _ _ => ?_) fun _ _ => trivial
  refine Tx.idle_query fun d₂ hrely => ?_
  refine Tx.idle_lift (fun patchBytes hpatchBytes => ?_) fun _ _ => trivial
  refine Tx.idle_lift (fun patch hpatch => ?_) fun _ _ => trivial
  have hkept : d₂.rows.PatchKept c := by
    refine ⟨bytes, commit, hrely.grow.objects _ _ hbytes, mapError_eq_ok.mp hcommit, patch, ?_⟩
    have hstored : d₂.rows.objects commit.patch.text = some patchBytes := expect_eq_ok.mp hpatchBytes
    rw [hstored]
    exact usePatch_eq_ok (mapError_eq_ok.mp hpatch)
  refine Tx.idle_query fun d₃ hrely₃ => Tx.idle_lift (fun _ _ => ?_) fun _ _ => trivial
  refine ((idle_verifyParents _).idle_grow (fun _ _ _ h => ⟨trivial, h.rows⟩) trivial).idle_mono
    (fun _ d₄ h => ?_) fun _ _ _ => trivial
  exact (hkept.grow hrely₃.grow).grow h.2

theorem idle_verifyIds (order : List CommitId) (count : ℕ) {d : Db} :
    Meets destinationDiscipline pid (DestinationEffect m) (verifyIds count (order.map CommitId.text)).run
      (Idle (fun _ d' => ∀ c ∈ order, d'.rows.PatchKept c) fun _ _ => True) ⟨[], id, d⟩ := by
  induction order generalizing d count with
  | nil => exact Tx.idle_pure (by simp)
  | cons c order ih =>
      refine Tx.idle_bind (fun _ _ _ h => ⟨trivial, h.rows⟩) trivial (idle_verifyId c)
        (fun _ _ _ _ _ => trivial) fun _ d₁ _ _ hc => ?_
      refine ((ih (count + 1)).idle_grow (fun _ _ _ h => ⟨trivial, h.rows⟩) trivial).idle_mono
        (fun _ d₂ h => ?_) fun _ _ _ => trivial
      exact List.forall_mem_cons.mpr ⟨hc.grow h.2, h.1⟩

theorem comes_verifyCommits (order : List CommitId) :
    Comes m pid w (onDestination (verifyCommits order)) fun _ w' =>
      ∀ c ∈ order, w'.destination.rows.PatchKept c :=
  Comes.destination (R := fun _ d => ∀ c ∈ order, d.rows.PatchKept c) (idle_verifyIds order 0)

theorem comes_checkIndexed (order : List CommitId) :
    Comes m pid w (checkIndexed m order) fun _ w' =>
      ∀ c ∈ order, w'.destination.rows.InGraph m.graph.asStr c := by
  induction order generalizing w with
  | nil => exact Comes.pure (by simp)
  | cons c order ih =>
      have hread : Comes m pid w (onDestination (Tx.query fun d => d.rows.commitIndex c.text))
          fun row w' => w'.destination.rows.commitIndex c.text = row :=
        Comes.destination (R := fun row d => d.rows.commitIndex c.text = row)
          fun d _ => ⟨rfl, rfl, rfl⟩
      refine hread.bind fun row w₁ _ hrow => Comes.lift fun indexed hindexed =>
        Comes.lift fun _ hgraph => ?_
      have hc : w₁.destination.rows.InGraph m.graph.asStr c :=
        ⟨indexed, hrow.trans (expect_eq_ok.mp hindexed), ensure_eq_ok.mp hgraph⟩
      exact ih.grow.mono fun _ w₂ h => List.forall_mem_cons.mpr ⟨hc.grow h.2.2, h.1⟩

theorem Classified.complete {ids : List ContentId} {objects : SourceObjects} {files : Files}
    (h : Classified ids objects files) {order : List CommitId} {rows : ImmutableRows} {g : String}
    (horder : topologicalOrder objects.commitMap = .ok order)
    (hbytes : ∀ p ∈ objects.all, rows.objects p.1.text = some p.2)
    (hpatches : ∀ c ∈ order, rows.PatchKept c) (hindexed : ∀ c ∈ order, rows.InGraph g c)
    {head : CommitId} (hhead : head ∈ objects.commitMap.keys) : rows.Complete g head := by
  obtain ⟨-, hmem, -⟩ := topologicalOrder_eq_ok horder
  have hstored : ∀ c ∈ objects.commitMap.keys, ∃ entry, objects.commitMap.get c = some entry ∧
      useCommit c (rows.objects c.text) = .ok entry.1 := by
    intro c hc
    obtain ⟨entry, hentry⟩ := Option.isSome_iff_exists.mp ((objects.commitMap.mem_keys c).mp hc)
    refine ⟨entry, hentry, ?_⟩
    obtain ⟨⟨c', commit, bytes⟩, hfind, rfl⟩ := Option.map_eq_some_iff.mp hentry
    obtain rfl : c' = c := by simpa using List.find?_some hfind
    have hin := List.mem_of_find?_eq_some hfind
    obtain ⟨hhash, hdecode⟩ := h.commits _ hin
    have hobject : rows.objects c'.text = some bytes := by
      refine hbytes (c'.content, bytes) (List.mem_append_right _ ?_)
      exact List.mem_map.mpr ⟨_, hin, rfl⟩
    rw [hobject]
    simp [useCommit, useObject, verified, hhash, hdecode]
  refine complete_of_closed (P := (· ∈ objects.commitMap.keys)) (fun c hc => ?_)
    (fun c hc p hp => ?_) hhead
  · obtain ⟨entry, -, hcommit⟩ := hstored c hc
    exact (hpatches c ((hmem c).mpr hc)).kept (hindexed c ((hmem c).mpr hc)) hcommit
  · obtain ⟨entry, hentry, hcommit⟩ := hstored c hc
    rw [parentsOf_eq hcommit] at hp
    exact parent_mem_keys horder ⟨entry, hentry, hp⟩

/-! ## The heads and the states -/

theorem comes_sourceHead : Comes m pid w (onSource FileStore.head) fun _ _ => True := by
  refine Comes.source (R := fun _ _ => True) (Tx.idle_query fun files _ => ?_)
  exact Tx.idle_lift (fun _ _ => Tx.idle_check (fun _ _ => trivial) fun _ _ => trivial)
    fun _ _ => trivial

theorem comes_refHead : Comes m pid w (onDestination (refHead m)) fun _ _ => True :=
  Comes.destination (R := fun _ _ => True) (Tx.idle_query fun _ _ => Tx.idle_pure trivial)

/-- From now on both backends come to the same state of `h`. -/
def SameState (m : FsToPgMigration) (pid : ℕ) (h : CommitId) (w : World) : Prop :=
  ∃ state, ∀ w', worldDiscipline.Grow w w' →
    Tx.Runs ((fileLedger pid).stateAt h) (calmed w'.source) (.ok state) (calmed w'.source) [] ∧
    Tx.Runs ((pgLedger m).stateAt h) w'.destination (.ok state) w'.destination []

theorem SameState.grow {h : CommitId} {w w' : World} (hs : SameState m pid h w)
    (hgrow : worldDiscipline.Grow w w') : SameState m pid h w' := by
  obtain ⟨state, hstate⟩ := hs
  exact ⟨state, fun w'' hlater => hstate w'' (worldDiscipline.grow_trans hgrow hlater)⟩

theorem comes_compareStates (head : Option CommitId) :
    Comes m pid w (compareStates m pid head) fun _ w' => ∀ h, head = some h →
      SameState m pid h w' := by
  cases head with
  | none => exact Comes.pure (by simp)
  | some head =>
      have hsource := Comes.source (m := m) (w := w)
        ((lasting_fileLedger pid).stateAt head pid (fun _ _ => False) w.source trivial)
      refine hsource.bind fun source w₁ _ hread => ?_
      have hdestination := Comes.destination (m := m) (w := w₁)
        ((lasting_pgLedger m).stateAt head pid _ w₁.destination trivial)
      refine hdestination.bind fun destination w₂ hgrow hread' => Comes.lift fun _ hsame => ?_
      obtain rfl := ensure_eq_ok.mp hsame
      refine Comes.pure fun h hh => ?_
      obtain rfl := Option.some.inj hh
      refine ⟨source, fun w' hlater => ⟨?_, hread'.2.2 _ hlater.2⟩⟩
      exact hread.2.2 _ (sourceDiscipline.grow_trans hgrow.1 hlater.1)

/-! ## The cutover -/

instance : KeepsRefs destinationDiscipline := ⟨id⟩

theorem idle_compareAndSet {head : CommitId} {d : Db} (hhead : d.rows.Complete m.graph.asStr head) :
    Meets destinationDiscipline pid (DestinationEffect m)
      (compareAndSet m.graph m.branch none head).run (Idle (fun _ _ => True) fun _ _ => True)
      ⟨[], id, d⟩ := by
  have hk : Knows destinationDiscipline pid (⟨[], id, d⟩ : View Db LockName) []
      fun x => x.rows.Complete m.graph.asStr head :=
    ⟨trivial, by simp, fun x hrely => hhead.grow hrely.grow⟩
  refine Meets.idle_of_oks (Tx.knows_locking hk fun d₁ hk₁ => Tx.oks_lift fun _ _ => ?_)
  refine Tx.oks_bind (Tx.oks_bind (meets_insertRef hk₁ (fun _ => rfl) ?_ ?_))
  · intro held₂ d₂ hk₂
    refine Tx.knows_reading (quiet_refsHeadFk _ _) hk₂ fun _ held₃ d₃ _ hk₃ => ?_
    refine Tx.knows_commit (fun x => x.setRef m.graph m.branch ⟨head, 1, true⟩) hk₃ rfl
      fun x _ hx => ⟨⟨.refl _, .inr ⟨head, hx.2, rfl, hx.1⟩⟩, fun l hl => ?_, rfl, rfl, trivial⟩
    exact Db.stable_setRef_only fun hon => hl (hon ▸ List.mem_cons_self ..)
  · intro held₂ pending₂ d₂ hp₂ hk₂
    obtain rfl : pending₂ = id := funext hp₂
    refine Tx.knows_commit id hk₂ rfl fun x _ _ => ⟨⟨.refl _, .inl rfl⟩, fun l _ => .refl l x, ?_⟩
    exact Tx.meets_query fun _ _ => trivial

theorem comes_cutover {head before now : Option CommitId}
    (hhead : ∀ h, head = some h → w.destination.rows.Complete m.graph.asStr h) :
    Comes m pid w (cutover m now head before) fun _ _ => True := by
  cases head with
  | none => exact Comes.lift fun _ _ => Comes.pure trivial
  | some head =>
      cases before with
      | some existing => exact Comes.lift fun _ _ => Comes.pure trivial
      | none =>
          have hset : Comes m pid w
              (onDestination (Tx.catching (compareAndSet m.graph m.branch none head)))
              fun _ _ => True :=
            (Comes.destination (Tx.idle_catching (idle_compareAndSet (hhead head rfl)))).mono
              fun _ _ _ => trivial
          exact hset.bind fun _ _ _ _ => Tx.idle_check (fun _ _ => trivial) fun _ _ => trivial

/-! ## A whole migration -/

theorem resolveHead_eq_ok {source destination head : Option CommitId}
    (h : resolveHead source destination = .ok head) : head = source.or destination := by
  cases source with
  | none => exact (Except.ok.inj h).symm
  | some s =>
      cases destination with
      | none => exact (Except.ok.inj h).symm
      | some d =>
          simp only [resolveHead] at h
          split_ifs at h
          exact (Except.ok.inj h).symm

structure Verified (m : FsToPgMigration) (pid : ℕ) (objects : SourceObjects) (order : List CommitId)
    (head : Option CommitId) (w : World) : Prop where
  bytes : ∀ p ∈ objects.all, w.destination.rows.objects p.1.text = some p.2
  patches : ∀ c ∈ order, w.destination.rows.PatchKept c
  indexed : ∀ c ∈ order, w.destination.rows.InGraph m.graph.asStr c
  states : ∀ h, head = some h → SameState m pid h w

theorem Verified.grow {objects : SourceObjects} {order : List CommitId} {head : Option CommitId}
    {w w' : World} (h : Verified m pid objects order head w) (hgrow : worldDiscipline.Grow w w') :
    Verified m pid objects order head w' where
  bytes p hp := hgrow.2.objects _ _ (h.bytes p hp)
  patches c hc := (h.patches c hc).grow hgrow.2
  indexed c hc := (h.indexed c hc).grow hgrow.2
  states c hc := (h.states c hc).grow hgrow

structure Migrated (m : FsToPgMigration) (pid : ℕ) (start : World) (report : MigrationReport)
    (w : World) : Prop where
  stored : ∀ id bytes, start.source.objects id = some bytes →
    w.destination.rows.objects id.text = some bytes
  indexed : ∀ id bytes commit, start.source.objects id = some bytes →
    decodeCommitObject id bytes = .ok (some commit) → w.destination.rows.InGraph m.graph.asStr ⟨id⟩
  states : ∀ h : CommitId, report.head = some h.text → SameState m pid h w
  after : ∀ h, report.head = some h → report.destinationHeadAfter = some h

theorem Migrated.grow {start w w' : World} {report : MigrationReport}
    (h : Migrated m pid start report w) (hgrow : worldDiscipline.Grow w w') :
    Migrated m pid start report w' where
  stored id bytes hb := hgrow.2.objects _ _ (h.stored id bytes hb)
  indexed id bytes commit hb hc := (h.indexed id bytes commit hb hc).grow hgrow.2
  states c hc := (h.states c hc).grow hgrow
  after := h.after

theorem Verified.migrated {start w : World} {ids : List ContentId} {objects : SourceObjects}
    {files : Files} {order : List CommitId} {head : Option CommitId} {report : MigrationReport}
    (h : Verified m pid objects order head w) (hobjects : Classified ids objects files)
    (hgrow : sourceDiscipline.Grow start.source files)
    (hids : ∀ id bytes, start.source.objects id = some bytes → id ∈ ids)
    (horder : topologicalOrder objects.commitMap = .ok order)
    (hhead : report.head = head.map CommitId.text)
    (hafter : ∀ h, head = some h → report.destinationHeadAfter = some h.text) :
    Migrated m pid start report w := by
  have hall : ∀ id bytes, start.source.objects id = some bytes → (id, bytes) ∈ objects.all := by
    intro id bytes hb
    obtain ⟨bytes', hmem⟩ := hobjects.listed id (hids id bytes hb)
    obtain rfl : bytes = bytes' :=
      Option.some.inj ((hgrow id bytes hb).symm.trans (hobjects.stored _ hmem))
    exact hmem
  refine ⟨fun id bytes hb => h.bytes _ (hall id bytes hb), fun id bytes commit hb hcommit => ?_,
    fun c hc => ?_, fun text htext => ?_⟩
  · rcases List.mem_append.mp (hall id bytes hb) with hcontent | hentry
    · have hnone := hobjects.content _ hcontent
      rw [hcommit] at hnone
      cases hnone
    · obtain ⟨⟨c, commit', bytes'⟩, hin, heq⟩ := List.mem_map.mp hentry
      obtain ⟨rfl, rfl⟩ := Prod.mk.inj heq
      refine h.indexed c (((topologicalOrder_eq_ok horder).2.1 c).mpr ?_)
      exact List.mem_toFinset.mpr (List.mem_map.mpr ⟨_, hin, rfl⟩)
  · obtain ⟨c', hc', htext⟩ := Option.map_eq_some_iff.mp (hhead.symm.trans hc)
    obtain rfl := CommitId.text_injective htext
    exact h.states c' hc'
  · obtain ⟨c, hc, rfl⟩ := Option.map_eq_some_iff.mp (hhead.symm.trans htext)
    exact hafter c hc

variable [ObjectScan]

theorem comes_run (start : World) :
    Comes m pid start (run m pid) fun report w => Migrated m pid start report w := by
  refine comes_listObjects.bind fun ids w₁ hgrow₁ hids => ?_
  refine (comes_classify ids).bind fun objects w₂ hgrow₂ hobjects => Comes.lift fun _ _ =>
    Comes.lift fun order horder => ?_
  refine comes_sourceHead.bind fun sourceHead w₃ hgrow₃ _ => ?_
  refine comes_refHead.bind fun before w₄ hgrow₄ _ => Comes.lift fun head hresolved =>
    Comes.lift fun _ himported => ?_
  refine (comes_putContents _).bind fun _ w₅ hgrow₅ _ => ?_
  refine (comes_publish _ _).bind fun published w₆ hgrow₆ _ => ?_
  refine (comes_verifyBytes _).bind fun _ w₇ hgrow₇ hbytes => ?_
  refine (comes_verifyCommits order).bind fun verified w₈ hgrow₈ hpatches => ?_
  refine (comes_checkIndexed order).bind fun _ w₉ hgrow₉ hindexed => ?_
  refine (comes_compareStates head).bind fun state w₁₀ hgrow₁₀ hstates => ?_
  refine comes_sourceHead.bind fun sourceNow w₁₁ hgrow₁₁ _ => Comes.lift fun _ _ => ?_
  refine comes_refHead.bind fun now w₁₂ hgrow₁₂ _ => ?_
  have hverified : Verified m pid objects order head w₁₂ := by
    have hlater : worldDiscipline.Grow w₁₀ w₁₂ := worldDiscipline.grow_trans hgrow₁₁ hgrow₁₂
    have hlater₉ := worldDiscipline.grow_trans hgrow₁₀ hlater
    have hlater₈ := worldDiscipline.grow_trans hgrow₉ hlater₉
    have hlater₇ := worldDiscipline.grow_trans hgrow₈ hlater₈
    exact ⟨fun p hp => hlater₇.2.objects _ _ (hbytes p hp),
      fun c hc => (hpatches c hc).grow hlater₈.2, fun c hc => (hindexed c hc).grow hlater₉.2,
      fun c hc => (hstates c hc).grow hlater⟩
  have hcomplete : ∀ h, head = some h → w₁₂.destination.rows.Complete m.graph.asStr h := by
    rintro h rfl
    exact hobjects.complete horder hverified.bytes hverified.patches hverified.indexed
      (ensure_eq_ok.mp himported)
  refine (comes_cutover hcomplete).bind fun outcome w₁₃ hgrow₁₃ _ => ?_
  refine comes_refHead.bind fun after w₁₄ hgrow₁₄ _ => Comes.lift fun _ hafter => Comes.pure ?_
  refine (hverified.grow (worldDiscipline.grow_trans hgrow₁₃ hgrow₁₄)).migrated hobjects
    (worldDiscipline.grow_trans hgrow₁ hgrow₂).1 (fun id bytes hb => hids id bytes (hgrow₁.1 _ _ hb))
    horder ?_ ?_
  · rw [resolveHead_eq_ok hresolved]
    exact (Option.map_or ..).symm
  · rintro h rfl
    rw [ensure_eq_ok.mp hafter]
    rfl

/-! ## Runs -/

def MigrationEffect : MigrationRequest → World → World → Prop
  | .migrate m => MigrateEffect m
  | .disturb t => fun w w' => w' = t.write w

theorem MigrationEffect.grow {request : MigrationRequest} {w w' : World}
    (h : MigrationEffect request w w') : worldDiscipline.Grow w w' := by
  cases request with
  | migrate m => exact MigrateEffect.grow h
  | disturb t =>
      obtain rfl := h
      exact ⟨t.objects w, t.rows w⟩

def MigrationReplied (start : World) (pid : ℕ) :
    MigrationRequest → Except LedgerError (Option MigrationReport) → World → Prop
  | .migrate m, .ok (some report), w => Migrated m pid start report w
  | _, _, _ => True

theorem meets_migrationCode (request : MigrationRequest) (pid : ℕ) (start : World) :
    Meets worldDiscipline pid (MigrationEffect request) (migrationCode request pid)
      (fun result v => MigrationReplied start pid request result v.seen) { seen := start } := by
  cases request with
  | migrate m =>
      have hrun : Comes m pid start (MigrationRequest.program pid (.migrate m)) fun result w =>
          ∀ report, result = some report → Migrated m pid start report w :=
        (comes_run start).bind fun report w _ hreport => Comes.pure fun _ h => Option.some.inj h ▸ hreport
      refine Meets.mono hrun (fun _ _ h => h) fun result v hresult => ?_
      match result, hresult with
      | .ok (some report), hresult => exact hresult.2.2 report rfl
      | .ok none, _ => trivial
      | .error e, _ => trivial
  | disturb t =>
      refine Tx.meets_locking fun w _ => Tx.meets_write (Tx.meets_commit fun w' _ => ⟨⟨rfl, ?_⟩, trivial⟩)
      rintro (l | l) hl
      · exact absurd trivial hl
      · exact List.mem_append_left _ (List.mem_map.mpr ⟨l, t.locked w' l hl, rfl⟩)

structure MigrationRun where
  start : World
  system : System MigrationRequest World WorldLock (Except LedgerError (Option MigrationReport))
  reachable : system.Reachable migrationCode start

namespace MigrationRun

/-- The commits and the replies of the run, in order. -/
def log (run : MigrationRun) :
    List (Event MigrationRequest World (Except LedgerError (Option MigrationReport))) :=
  run.system.log

theorem sound (run : MigrationRun) :
    Sound worldDiscipline (fun request _ _ => MigrationEffect request)
      (fun request pid start result v => MigrationReplied start pid request result v.seen)
      run.system :=
  sound_of_reachable (fun _ _ _ _ _ _ h => ⟨trivial, h.grow, fun _ _ _ => trivial⟩)
    (fun request pid start _ _ => meets_migrationCode request pid start) trivial (fun _ => trivial)
    run.reachable

end MigrationRun

end Migrate

end CognitiveLedger
