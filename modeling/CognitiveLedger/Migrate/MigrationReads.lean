import CognitiveLedger.Lib.LastingReads
import CognitiveLedger.Migrate.FsToPg
import CognitiveLedger.Store.StoreRuns

/-!
# What a migration has read

Objects, index rows and patches are immutable on both sides, so what a migration has read
of them holds from then on. That is true of a reconstructed state as well: each backend
comes to the same state again whenever it is asked.
-/

set_option linter.unusedSectionVars false

namespace CognitiveLedger

open ReadCommitted ExceptRules

variable [NQuadsParser] [Sha256] [TimeCrate] [StrDebug]

/-! ## Reconstruction over any backends -/

section

variable {D L : Type} {Δ : Discipline D L} {calm : D → D} {ledger : Ledger D L}

/-- Commits and patches that were read can be read again. -/
structure Ledger.Lasting (Δ : Discipline D L) (calm : D → D) (ledger : Ledger D L) : Prop where
  commit : ∀ id, Tx.Lasting Δ calm (ledger.immutable.getCommit id >>= fun commit =>
    Tx.lift (expect commit (.notFound id.content)))
  content : ∀ id, Tx.Lasting Δ calm (ledger.immutable.getContent id >>= fun stored =>
    Tx.lift (expect stored (.notFound id)))

theorem Ledger.Lasting.chain (h : ledger.Lasting Δ calm) (limits : ReconstructionLimits) (fuel : ℕ)
    (seen : List CommitId) (cursor : Option CommitId) :
    Tx.Lasting Δ calm (ledger.chain limits fuel seen cursor) := by
  induction fuel generalizing seen cursor with
  | zero =>
      cases cursor with
      | none => exact Tx.lasting_pure _
      | some current => exact Tx.lasting_lift _
  | succ fuel ih =>
      cases cursor with
      | none => exact Tx.lasting_pure _
      | some current =>
          refine (Tx.lasting_lift _).bind fun _ => (Tx.lasting_lift _).bind fun _ => ?_
          exact (h.commit current).checked fun commit => (ih _ _).bind fun _ => Tx.lasting_pure _

theorem Ledger.Lasting.applyAll (h : ledger.Lasting Δ calm) (limits : ReconstructionLimits)
    (patches : List PatchId) (acc : State × ℕ) :
    Tx.Lasting Δ calm (ledger.applyAll limits patches acc) := by
  induction patches generalizing acc with
  | nil => exact Tx.lasting_pure _
  | cons id patches ih =>
      exact (h.content id.content).checked fun stored => (Tx.lasting_lift _).bind fun _ =>
        (Tx.lasting_lift _).bind fun next => ih next

theorem Ledger.Lasting.stateAt (h : ledger.Lasting Δ calm) (id : CommitId) :
    Tx.Lasting Δ calm (ledger.stateAt id) :=
  (h.chain _ _ _ _).bind fun _ => h.applyAll _ _ _

end

namespace Migrate

/-! ## The two sides -/

def sourceDiscipline : Discipline Files FileLock where
  Inv _ := True
  Grow files files' := ∀ id bytes, files.objects id = some bytes → files'.objects id = some bytes
  Fresh _ _ := True
  Stable _ _ _ := True
  grow_refl _ _ _ h := h
  grow_trans h h' id bytes hb := h' id bytes (h id bytes hb)
  stable_refl _ _ := trivial
  stable_trans _ _ := trivial

def destinationDiscipline : Discipline Db LockName where
  Inv _ := True
  Grow d d' := d.rows.Extends d'.rows
  Fresh _ _ := True
  Stable := Db.Stable
  grow_refl := Db.extends_refl
  grow_trans := @Db.extends_trans
  stable_refl := Db.Stable.refl
  stable_trans := @Db.Stable.trans

instance : KeepsRows destinationDiscipline := ⟨id, id⟩

def worldDiscipline : Discipline World WorldLock where
  Inv _ := True
  Grow w w' := sourceDiscipline.Grow w.source w'.source ∧
    destinationDiscipline.Grow w.destination w'.destination
  Fresh _ _ := True
  Stable
    | .inl _, _, _ => True
    | .inr l, w, w' => Db.Stable l w.destination w'.destination
  grow_refl w := ⟨sourceDiscipline.grow_refl _, destinationDiscipline.grow_refl _⟩
  grow_trans h h' := ⟨sourceDiscipline.grow_trans h.1 h'.1, destinationDiscipline.grow_trans h.2 h'.2⟩
  stable_refl
    | .inl _, _ => trivial
    | .inr l, w => Db.Stable.refl l w.destination
  stable_trans := by
    rintro (l | l) w w' w'' h h'
    · trivial
    · exact Db.Stable.trans h h'

theorem refines_source : Refines sourcePart Sum.inl worldDiscipline sourceDiscipline where
  inv _ := trivial
  grow h := h.1
  fresh := Iff.rfl
  stable _ := trivial
  locked := by
    rintro (l | l) w files h
    · exact absurd trivial h
    · exact absurd (Db.Stable.refl l w.destination) h

theorem refines_destination :
    Refines destinationPart Sum.inr worldDiscipline destinationDiscipline where
  inv _ := trivial
  grow h := h.2
  fresh := Iff.rfl
  stable h := h
  locked := by
    rintro (l | l) w d h
    · exact absurd trivial h
    · exact ⟨l, rfl, h⟩

/-! ## Reading an object -/

def calmed (files : Files) : Files := { files with faults := fun _ => none }

theorem verified_eq_ok {id : ContentId} {stored : Option Bytes} {bytes : Bytes}
    (h : verified id stored = .ok (some bytes)) : stored = some bytes ∧ Sha256.forBytes bytes = id := by
  cases stored with
  | none => cases h
  | some b =>
      by_cases hb : Sha256.forBytes b = id
      · simp only [verified, hb, ne_eq, not_true_eq_false, if_false] at h
        cases h
        exact ⟨rfl, hb⟩
      · simp [verified, hb] at h

theorem checkDigest_eq_verified (id : ContentId) (stored : Option Bytes) :
    FileStore.checkDigest id stored =
      (verified id stored).mapError fun _ => .corruptObject id "digest mismatch" := by
  cases stored with
  | none => rfl
  | some b =>
      by_cases hb : Sha256.forBytes b = id
      · simp [FileStore.checkDigest, verified, hb]
      · simp [FileStore.checkDigest, verified, hb]

section

variable {α : Type} {id : ContentId} {f : Option Bytes → Except LedgerError α}

theorem getObject_eq (id : ContentId) : FileStore.getObject id = Tx.reading fun files =>
    FileStore.storage (files.faults .readObject) >>= fun _ =>
      FileStore.checkDigest id (files.objects id) := by
  have hread : ∀ (fault : Option String) (stored : Option Bytes),
      (Tx.lift (FileStore.storage fault) >>= (fun _ => pure stored) >>= fun stored =>
        Tx.lift (FileStore.checkDigest id stored) : FileTx (Option Bytes)) =
        Tx.lift (FileStore.storage fault >>= fun _ => FileStore.checkDigest id stored) := by
    intro fault stored
    cases fault <;> rfl
  exact congrArg (Prog.stmt _) (funext fun files => hread _ _)

theorem lasting_getObject (hf : ∀ a, f none ≠ .ok a) :
    Tx.Lasting sourceDiscipline calmed (FileStore.getObject id >>= fun stored => Tx.lift (f stored)) := by
  rw [getObject_eq, Tx.reading_bind_lift]
  refine Tx.lasting_reading fun files files' a hgrow h => ?_
  obtain ⟨stored, hstored, ha⟩ := bind_eq_ok.mp h
  obtain ⟨-, -, hstored⟩ := bind_eq_ok.mp hstored
  cases stored with
  | none => exact absurd ha (hf a)
  | some bytes =>
      rw [checkDigest_eq_verified, mapError_eq_ok] at hstored
      obtain ⟨hbytes, -⟩ := verified_eq_ok hstored
      have hlater : (calmed files').objects id = some bytes := hgrow id bytes hbytes
      have hhealthy : FileStore.storage ((calmed files').faults .readObject) = .ok () := rfl
      rw [hbytes] at hstored
      rw [hhealthy, hlater, checkDigest_eq_verified, ok_bind, mapError_eq_ok.mpr hstored, ok_bind, ha]

theorem lasting_getContent (hf : ∀ a, f none ≠ .ok a) :
    Tx.Lasting destinationDiscipline (fun d => d) (getContent id >>= fun stored => Tx.lift (f stored)) := by
  rw [getContent, Tx.query_bind_lift, Tx.reading_bind_lift]
  refine Tx.lasting_reading fun d d' a hgrow h => ?_
  obtain ⟨stored, hstored, ha⟩ := bind_eq_ok.mp h
  cases stored with
  | none => exact absurd ha (hf a)
  | some bytes =>
      obtain ⟨hbytes, -⟩ := verified_eq_ok hstored
      have hlater : d'.rows.objects id.text = some bytes := hgrow.objects _ _ hbytes
      rw [hbytes] at hstored
      rw [hlater, hstored, ok_bind, ha]

end

theorem lasting_fileLedger (pid : ℕ) : (fileLedger pid).Lasting sourceDiscipline calmed where
  commit id := by
    have hread : (fileLedger pid).immutable.getCommit id = FileStore.getObject id.content >>=
        fun stored => Tx.lift (FileStore.decodeStored id stored) := rfl
    rw [hread, Tx.bind_lift_bind_lift]
    exact lasting_getObject fun a h => by cases h
  content id := lasting_getObject fun a h => by cases h

theorem lasting_pgLedger (m : FsToPgMigration) :
    (pgLedger m).Lasting destinationDiscipline (fun d => d) where
  commit id := by
    have hread : (pgLedger m).immutable.getCommit id = getContent id.content >>=
        fun stored => Tx.lift (FileStore.decodeStored id stored) := rfl
    rw [hread, Tx.bind_lift_bind_lift]
    exact lasting_getContent fun a h => by cases h
  content id := lasting_getContent fun a h => by cases h

end Migrate

end CognitiveLedger
