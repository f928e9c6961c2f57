import CognitiveLedger.File.FileState
import CognitiveLedger.Lib.Transactions

/-!
# Every interleaving of the filesystem ledger

Writers of contents, of commits and of heads run interleaved with each other and with
readers, on a disk any operation of which may fail at any time. Objects are renamed into
place before anything refers to them, so the commits stay closed; the head moves under the
lock, from the expected head to a commit on top of it.
-/

set_option linter.unusedSectionVars false

open Relation (TransGen ReflTransGen)

namespace CognitiveLedger

open ReadCommitted ExceptRules Lineage FileStore

variable [NQuadsParser] [Sha256] [TimeCrate] [StrDebug]
variable {used : Set Bytes} {faulty : Set FileOp}

/-! ## What a commit of the disk may do -/

/-- Request `pid` moved the head to a commit on top of the one it expected. -/
structure Moved (request : FileRequest) (pid : ℕ) (d d' : Files) : Prop where
  commit : ∃ now r new envelope, request = .commit now r ∧ d.HeadIs r.expectedHead ∧
    d'.HeadIs (some new) ∧ d'.Stores new envelope ∧ envelope.parents.head? = r.expectedHead
  mine : ¬ Files.Fresh pid d'

structure FileEffect (used : Set Bytes) (faulty : Set FileOp) (request : FileRequest) (pid : ℕ)
    (d d' : Files) : Prop where
  inv : d'.Inv used faulty
  grow : d.Grow d'
  others : ∀ n, n ≠ pid → Files.Fresh n d → Files.Fresh n d'
  head : d'.head = d.head ∨ Moved request pid d d'

/-- An I/O error of an operation that may fail. -/
def Excused (faulty : Set FileOp) (op : FileOp) (e : LedgerError) : Prop :=
  op ∈ faulty ∧ ∃ reason, e = .storage reason

namespace FileStore

section Programs

variable {request : FileRequest} {pid : ℕ} {d₀ : Files} {α β : Type}
variable {R : α → Files → Prop} {S : β → Files → Prop} {E : LedgerError → Files → Prop}

variable (used faulty request pid) in
/-- From `d`, the program ends with `R`, or fails with `E`. -/
abbrev Ends (x : FileTx α) (R : α → Files → Prop) (E : LedgerError → Files → Prop) (d : Files) :
    Prop :=
  Meets (Files.discipline used faulty) pid (FileEffect used faulty request pid) x.run (Idle R E)
    ⟨[], id, d⟩

/-- Where a request stands that has not moved the head. -/
structure Unmoved (used : Set Bytes) (faulty : Set FileOp) (pid : ℕ) (d : Files) : Prop where
  inv : d.Inv used faulty
  fresh : Files.Fresh pid d

theorem Unmoved.rely (h : Unmoved used faulty pid d₀) {held : List (FileLock × Mode)} {d : Files}
    (hd : Rely (Files.discipline used faulty) pid held d₀ d) : Unmoved used faulty pid d :=
  ⟨hd.inv, hd.fresh h.fresh⟩

theorem Ends.bind {x : FileTx α} {f : α → FileTx β} {E' : LedgerError → Files → Prop}
    (hinv : d₀.Inv used faulty) (hx : Ends used faulty request pid x R E' d₀)
    (hE : ∀ e d, d₀.Grow d → E' e d → E e d)
    (hf : ∀ a d, d₀.Grow d → R a d → Ends used faulty request pid (f a) S E d) :
    Ends used faulty request pid (x >>= f) S E d₀ :=
  Tx.idle_bind (fun _ _ _ h => ⟨h.inv, h.grow⟩) hinv hx (fun e d _ hgrow he => hE e d hgrow he)
    fun a d _ hgrow hR => hf a d hgrow hR

/-- The postcondition may use that the files grew. -/
theorem Ends.mono {x : FileTx α} {R' : α → Files → Prop} {E' : LedgerError → Files → Prop}
    (hinv : d₀.Inv used faulty) (hx : Ends used faulty request pid x R E d₀)
    (hR : ∀ a d, d₀.Grow d → R a d → R' a d) (hE : ∀ e d, d₀.Grow d → E e d → E' e d) :
    Ends used faulty request pid x R' E' d₀ := by
  refine (Meets.grow (fun _ _ _ h => ⟨h.inv, h.grow⟩) hinv hx).mono (fun _ _ hg => hg)
    fun r v hr => ?_
  obtain ⟨hr, -, hgrow⟩ := hr
  cases r with
  | ok a => exact ⟨hr.1, hr.2.1, hR a _ hgrow hr.2.2⟩
  | error e => exact hE e _ hgrow hr

/-! ## Objects -/

theorem ends_attempt (op : FileOp) {P : Files → Prop}
    (hP : ∀ d, Rely (Files.discipline used faulty) pid [] d₀ d → P d) :
    Ends used faulty request pid (attempt op) (fun _ d => P d)
      (fun e d => P d ∧ Excused faulty op e) d₀ := by
  refine Tx.idle_query fun d hd => Tx.idle_check (fun _ _ => hP d hd) fun e he => ?_
  cases hfault : d.faults op with
  | none =>
      rw [hfault] at he
      cases he
  | some reason =>
      rw [hfault] at he
      cases he
      exact ⟨hP d hd, hd.inv.faulty op reason hfault, reason, rfl⟩

theorem ends_readFile (id : ContentId) (h : Unmoved used faulty pid d₀) :
    Ends used faulty request pid (readFile id)
      (fun stored d => Unmoved used faulty pid d ∧ stored = d.objects id)
      (fun e d => Unmoved used faulty pid d ∧ Excused faulty .readObject e) d₀ := by
  refine Tx.idle_query fun d hd => Tx.idle_lift (fun _ _ => ?_) fun e he => ?_
  · exact Tx.idle_pure ⟨h.rely hd, rfl⟩
  · cases hfault : d.faults .readObject with
    | none =>
        simp only [hfault] at he
        cases he
    | some reason =>
        simp only [hfault] at he
        cases he
        exact ⟨h.rely hd, hd.inv.faulty .readObject reason hfault, reason, rfl⟩

theorem checkDigest_eq_ok {d : Files} (hinv : d.Inv used faulty) (id : ContentId) :
    checkDigest id (d.objects id) = .ok (d.objects id) := by
  cases hstored : d.objects id with
  | none => rfl
  | some bytes => simp [checkDigest, hinv.closed.hashed id bytes hstored]

theorem ends_getObject (id : ContentId) (h : Unmoved used faulty pid d₀) :
    Ends used faulty request pid (getObject id)
      (fun stored d => Unmoved used faulty pid d ∧ stored = d.objects id)
      (fun e d => Unmoved used faulty pid d ∧ Excused faulty .readObject e) d₀ := by
  refine Ends.bind h.inv (ends_readFile id h) (fun e d _ he => he) ?_
  rintro stored d - ⟨hd, rfl⟩
  refine Tx.idle_check (fun stored hok => ⟨hd, ?_⟩) fun e he => ?_
  · exact (Except.ok.inj ((checkDigest_eq_ok hd.inv id).symm.trans hok)).symm
  · rw [checkDigest_eq_ok hd.inv id] at he
    cases he

theorem ends_getCommit (c : CommitId) (h : Unmoved used faulty pid d₀) :
    Ends used faulty request pid (getCommit c)
      (fun commit d => Unmoved used faulty pid d ∧
        decodeStored c (d.objects c.content) = .ok commit)
      (fun e d => Unmoved used faulty pid d ∧ (Excused faulty .readObject e ∨
        decodeStored c (d.objects c.content) = .error e)) d₀ := by
  refine Ends.bind h.inv (ends_getObject c.content h) (fun e d _ he => ⟨he.1, Or.inl he.2⟩) ?_
  rintro stored d - ⟨hd, rfl⟩
  exact Tx.idle_check (fun _ hok => ⟨hd, hok⟩) fun _ he => ⟨hd, Or.inr he⟩

theorem ends_putObject (hused : Set.InjOn Sha256.forBytes used) {id : ContentId} {bytes : Bytes}
    (h : Unmoved used faulty pid d₀) (hbytes : bytes ∈ used)
    (hrefers : ∀ commit, decodeCommitObject id bytes = .ok (some commit) → d₀.Refers commit) :
    Ends used faulty request pid (putObject id bytes)
      (fun _ d => Unmoved used faulty pid d ∧ d.objects id = some bytes)
      (fun _ d => Unmoved used faulty pid d) d₀ := by
  refine Tx.idle_lift (fun _ hhash => ?_) fun _ _ => h
  rw [ensure_eq_ok] at hhash
  refine Ends.bind h.inv (ends_getObject id h) (fun e d _ he => he.1) ?_
  rintro stored d hgrow ⟨hd, rfl⟩
  have hattempt : ∀ {op : FileOp} {d : Files} {f : Unit → FileTx Unit}, d₀.Grow d →
      Unmoved used faulty pid d →
      (∀ d, d₀.Grow d → Unmoved used faulty pid d → Ends used faulty request pid (f ())
        (fun _ d => Unmoved used faulty pid d ∧ d.objects id = some bytes)
        (fun _ d => Unmoved used faulty pid d) d) →
      Ends used faulty request pid (attempt op >>= f)
        (fun _ d => Unmoved used faulty pid d ∧ d.objects id = some bytes)
        (fun _ d => Unmoved used faulty pid d) d := by
    intro op d f hgrow hd hf
    exact Ends.bind hd.inv (ends_attempt op fun _ => hd.rely) (fun e d _ he => he.1)
      fun _ d' hgrow' hd' => hf d' (hgrow.trans hgrow') hd'
  cases hstored : d.objects id with
  | some existing =>
      exact Tx.idle_check (fun _ hok => ⟨hd, by rw [hstored, ensure_eq_ok.mp hok]⟩) fun _ _ => hd
  | none =>
      refine hattempt hgrow hd fun d hgrow hd => hattempt hgrow hd fun d hgrow hd =>
        hattempt hgrow hd fun d hgrow hd => hattempt hgrow hd fun d hgrow hd => ?_
      refine Tx.idle_query fun d₁ hd₁ => ?_
      have hd₁' := hd.rely hd₁
      have hgrow₁ := hgrow.trans hd₁.grow
      cases hfault : d₁.faults .renameObject with
      | none =>
          refine Tx.idle_write_commit fun d₂ hd₂ => ?_
          have hrefers₂ := fun commit hdecode =>
            (hrefers commit hdecode).grow (hgrow₁.trans hd₂.grow)
          have hgrow₂ : d₂.Grow (d₂.putObject id bytes) :=
            Files.grow_putObject (hd₂.inv.same hused hbytes hhash)
          have hinv := hd₂.inv.putObject hused hbytes hhash hrefers₂
          refine ⟨⟨hinv, hgrow₂, fun n _ hn => hn, Or.inl rfl⟩, fun l => by cases l; exact ⟨rfl, rfl⟩,
            ?_⟩
          have hunmoved : Unmoved used faulty pid (d₂.putObject id bytes) :=
            ⟨hinv, hd₂.fresh hd₁'.fresh⟩
          have hstored : (d₂.putObject id bytes).objects id = some bytes := by
            simp [Files.putObject]
          exact (ends_attempt .syncShard fun _ => hunmoved.rely).mono hinv
            (fun _ d hgrow hd => ⟨hd, hgrow.objects _ _ hstored⟩) fun _ _ _ he => he.1
      | some reason =>
          refine Tx.idle_query fun d₂ hd₂ => ?_
          split
          · refine Ends.bind hd₂.inv (ends_readFile id (hd₁'.rely hd₂)) (fun e d _ he => he.1) ?_
            rintro stored d₃ - ⟨hd₃, rfl⟩
            refine Tx.idle_lift (fun existing hexisting => ?_) fun _ _ => hd₃
            refine Tx.idle_check (fun _ hok => ⟨hd₃, ?_⟩) fun _ _ => hd₃
            rw [← ensure_eq_ok.mp hok]
            exact expect_eq_ok.mp hexisting
          · exact Tx.idle_check (fun _ hok => by cases hok) fun _ _ => hd₁'.rely hd₂

theorem stores_iff {d : Files} {c : CommitId} {commit : AnyCommit} :
    d.Stores c commit ↔ decodeStored c (d.objects c.content) = .ok (some commit) := by
  constructor
  · rintro ⟨bytes, hbytes, hdecode⟩
    rw [hbytes]
    exact hdecode
  · intro h
    cases hbytes : d.objects c.content with
    | none =>
        rw [hbytes] at h
        cases h
    | some bytes =>
        rw [hbytes] at h
        exact ⟨bytes, hbytes, h⟩

theorem ends_putContent (hused : Set.InjOn Sha256.forBytes used) {id : ContentId} {bytes : Bytes}
    (h : Unmoved used faulty pid d₀) (hbytes : bytes ∈ used) :
    Ends used faulty request pid (putContent id bytes)
      (fun _ d => Unmoved used faulty pid d ∧ d.objects id = some bytes)
      (fun _ d => Unmoved used faulty pid d) d₀ := by
  refine Tx.idle_lift (fun _ hreject => ?_) fun _ _ => h
  have hcontent : isCommitFamily bytes = false := ensure_eq_ok.mp hreject
  refine ends_putObject hused h hbytes fun commit hdecode => ?_
  simp [decodeCommitObject, hcontent] at hdecode

theorem ends_checkParents (commit : AnyCommit) (parents : List CommitId)
    (h : Unmoved used faulty pid d₀) :
    Ends used faulty request pid (checkParents commit parents)
      (fun _ d => Unmoved used faulty pid d ∧ ∀ p ∈ parents, ∃ parent, d.Stores p parent)
      (fun _ d => Unmoved used faulty pid d) d₀ := by
  induction parents generalizing d₀ with
  | nil => exact Tx.idle_pure ⟨h, by simp⟩
  | cons p rest ih =>
      refine Ends.bind h.inv (ends_getCommit p h) (fun _ _ _ he => he.1) fun stored d _ hd => ?_
      obtain ⟨hd, hstored⟩ := hd
      refine Tx.idle_lift (fun _ hcheck => ?_) fun _ _ => hd
      cases stored with
      | none => cases hcheck
      | some parent =>
          have hparent : d.Stores p parent := stores_iff.mpr hstored
          refine (ih hd).mono hd.inv (fun _ d' hgrow hR => ⟨hR.1, ?_⟩) fun _ _ _ he => he
          exact List.forall_mem_cons.mpr ⟨⟨parent, hparent.grow hgrow⟩, hR.2⟩

theorem ends_putCommit (hused : Set.InjOn Sha256.forBytes used) {commit : AnyCommit}
    (h : Unmoved used faulty pid d₀)
    (hbytes : ∀ bytes, commit.canonicalBytes = .ok bytes → bytes ∈ used) :
    Ends used faulty request pid (putCommit commit)
      (fun c d => Unmoved used faulty pid d ∧ d.Stores c commit.normalized)
      (fun _ d => Unmoved used faulty pid d) d₀ := by
  refine Ends.bind h.inv (ends_checkParents commit commit.parents h) (fun _ _ _ he => he) ?_
  rintro - d₁ - ⟨hd₁, hparents⟩
  refine Ends.bind hd₁.inv (ends_getObject commit.patch.content hd₁) (fun _ _ _ he => he.1) ?_
  rintro stored d₂ hgrow₂ ⟨hd₂, hstored⟩
  refine Tx.idle_lift (fun bytes hpatch => ?_) fun _ _ => hd₂
  refine Tx.idle_lift (fun patch hvalid => ?_) fun _ _ => hd₂
  refine Tx.idle_lift (fun encoded hencoded => ?_) fun _ _ => hd₂
  refine Tx.idle_lift (fun id hid => ?_) fun _ _ => hd₂
  have hdecode := decodeCommitObject_canonicalBytes hencoded hid
  have hrefers : d₂.Refers commit.normalized := by
    refine ⟨fun p hp => ?_, patch, bytes, ?_, ?_⟩
    · rw [AnyCommit.parents_normalized] at hp
      obtain ⟨parent, hparent⟩ := hparents p hp
      exact ⟨parent, hparent.grow hgrow₂⟩
    · rw [AnyCommit.patch_normalized, ← hstored]
      exact expect_eq_ok.mp hpatch
    · rw [AnyCommit.patch_normalized]
      exact hvalid
  refine Ends.bind hd₂.inv (ends_putObject hused hd₂ (hbytes encoded hencoded) fun c hc => ?_)
    (fun _ _ _ he => he) ?_
  · obtain rfl : commit.normalized = c := by simpa using hdecode.symm.trans hc
    exact hrefers
  · rintro - d₃ - ⟨hd₃, hobject⟩
    exact Tx.idle_pure ⟨hd₃, encoded, hobject, hdecode⟩

/-! ## The head -/

theorem knows_attempt {op : FileOp} {held : List (FileLock × Mode)} {X : List FileLock}
    {K : Files → Prop} {f : Unit → FileTx β} {Q : Except LedgerError β → View Files FileLock → Prop}
    {G : Files → Files → Prop} (hk : Knows (Files.discipline used faulty) pid ⟨held, id, d₀⟩ X K)
    (hok : ∀ d, Knows (Files.discipline used faulty) pid ⟨held, id, d⟩ X K →
      Meets (Files.discipline used faulty) pid G (f ()).run Q ⟨held, id, d⟩)
    (herror : ∀ e d, Knows (Files.discipline used faulty) pid ⟨held, id, d⟩ X K →
      Q (.error e) ⟨held, id, d⟩) :
    Meets (Files.discipline used faulty) pid G (attempt op >>= f).run Q ⟨held, id, d₀⟩ := by
  refine Tx.meets_bind (Tx.knows_query hk fun d hd => ?_)
  show Meets _ _ _ (Tx.lift (storage (d.faults op))).run _ _
  cases d.faults op with
  | none => exact hok d hd
  | some reason => exact herror (.storage reason) d hd

theorem knows_head {held : List (FileLock × Mode)} {X : List FileLock} {K : Files → Prop}
    {f : Option CommitId → FileTx β} {Q : Except LedgerError β → View Files FileLock → Prop}
    {G : Files → Files → Prop} (hk : Knows (Files.discipline used faulty) pid ⟨held, id, d₀⟩ X K)
    (hok : ∀ c d, Knows (Files.discipline used faulty) pid ⟨held, id, d⟩ X K → d.HeadIs c →
      Meets (Files.discipline used faulty) pid G (f c).run Q ⟨held, id, d⟩)
    (herror : ∀ e d, Knows (Files.discipline used faulty) pid ⟨held, id, d⟩ X K →
      Q (.error e) ⟨held, id, d⟩) :
    Meets (Files.discipline used faulty) pid G (head >>= f).run Q ⟨held, id, d₀⟩ := by
  refine Tx.meets_bind (Tx.knows_query hk fun d hd => ?_)
  obtain ⟨c, hc⟩ := hd.inv.head
  refine Tx.meets_lift (fun _ _ => ?_) fun e _ => herror e d hd
  show Meets _ _ _ (Tx.lift (parseHead d.head)).run _ _
  rw [hc.isHead.parse]
  exact hok c d hd hc.isHead

theorem ends_head (h : Unmoved used faulty pid d₀) :
    Ends used faulty request pid head (fun c d => Unmoved used faulty pid d ∧ d.HeadIs c)
      (fun e d => Unmoved used faulty pid d ∧ Excused faulty .readHead e) d₀ := by
  refine Tx.idle_query fun d hd => ?_
  obtain ⟨c, hc⟩ := hd.inv.head
  refine Tx.idle_lift (fun _ _ => ?_) fun e he => ?_
  · refine Tx.idle_check (fun c' hc' => ⟨h.rely hd, ?_⟩) fun e he => ?_
    · obtain rfl : c = c' := Except.ok.inj (hc.isHead.parse.symm.trans hc')
      exact hc.isHead
    · rw [hc.isHead.parse] at he
      cases he
  · cases hfault : d.faults .readHead with
    | none =>
        simp only [hfault] at he
        cases he
    | some reason =>
        simp only [hfault] at he
        cases he
        exact ⟨h.rely hd, hd.inv.faulty _ _ hfault, reason, rfl⟩

/-- The head moves from the expected one, or nothing of it is visible; only the last operation
fails after the move. -/
theorem ends_compareAndSet {now : Except String String} {r : CommitRequest} {new : CommitId}
    {envelope : AnyCommit} (h : Unmoved used faulty pid d₀) (hnew : d₀.Stores new envelope)
    (hparent : envelope.parents.head? = r.expectedHead) :
    Ends used faulty (.commit now r) pid (compareAndSet pid r.expectedHead new)
      (fun _ d => ⟨pid, r.expectedHead, new⟩ ∈ d.moves)
      (fun e d => Unmoved used faulty pid d ∨ Excused faulty .syncRefs e) d₀ := by
  refine Ends.bind h.inv (ends_attempt .openLock fun _ => h.rely) (fun _ _ _ he => Or.inl he.1) ?_
  intro _ d₁ hgrow₁ hd₁
  refine Tx.meets_locking fun d₂ hd₂ => ?_
  have hlocked : Knows (Files.discipline used faulty) pid
      ⟨[(FileLock.main, Mode.exclusive)], id, d₂⟩ [FileLock.main]
      fun x => Unmoved used faulty pid x ∧ x.Stores new envelope ∧ x.head = d₂.head := by
    refine ⟨hd₂.inv, by simp, fun d hd => ⟨(hd₁.rely hd₂).rely hd, ?_, ?_⟩⟩
    · exact hnew.grow ((hgrow₁.trans hd₂.grow).trans hd.grow)
    · exact (hd.stable .main .exclusive (List.mem_singleton_self _)).1
  refine Tx.meets_lift (fun _ _ => ?_) fun e _ => Or.inl hlocked.now.1
  refine knows_head hlocked (fun actual d₃ hd₃ hactual => ?_) fun _ _ hd => Or.inl hd.now.1
  refine Tx.meets_lift (fun _ hensure => ?_) fun _ _ => Or.inl hd₃.now.1
  obtain rfl := ensure_eq_ok.mp hensure
  -- and stays what it was until the rename
  have hhead : Knows (Files.discipline used faulty) pid
      ⟨[(FileLock.main, Mode.exclusive)], id, d₃⟩ [FileLock.main]
      fun x => Unmoved used faulty pid x ∧ x.Stores new envelope ∧ x.HeadIs r.expectedHead := by
    refine hd₃.imp fun x hx => ⟨hx.1, hx.2.1, ?_⟩
    exact (hx.2.2.trans hd₃.now.2.2.symm).trans hactual
  refine knows_attempt hhead (fun d₄ hd₄ => ?_) fun _ _ hd => Or.inl hd.now.1
  refine knows_attempt hd₄ (fun d₅ hd₅ => ?_) fun _ _ hd => Or.inl hd.now.1
  refine knows_attempt hd₅ (fun d₆ hd₆ => ?_) fun _ _ hd => Or.inl hd.now.1
  refine Tx.meets_write (Tx.knows_commit (fun d => d.setHead pid r.expectedHead new)
    (hd₆.pending _) rfl fun d hinv hd => ?_)
  obtain ⟨hd, hstores, hisHead⟩ := hd
  have hinv' := hinv.setHead pid hisHead hstores hparent
  have hgrow := Files.grow_setHead d pid r.expectedHead new
  have hmine : ⟨pid, r.expectedHead, new⟩ ∈ (d.setHead pid r.expectedHead new).moves :=
    List.mem_append_right _ (List.mem_singleton_self _)
  refine ⟨⟨hinv', hgrow, fun n hn hfresh m hm => ?_, Or.inr ⟨?_, ?_⟩⟩, fun l hl => ?_, ?_⟩
  · rcases List.mem_append.mp hm with hm | hm
    · exact hfresh m hm
    · obtain rfl := List.mem_singleton.mp hm
      exact hn.symm
  · exact ⟨now, r, new, envelope, rfl, hisHead, rfl, hstores.grow hgrow, hparent⟩
  · exact fun hfresh => hfresh _ hmine rfl
  · cases l
    exact absurd (List.mem_singleton_self _) hl
  · exact (ends_attempt .syncRefs fun _ hd => hd.grow.moves.subset hmine).idle_mono
      (fun _ _ hm => hm) fun _ _ he => Or.inr he.2

/-! ## The ledger -/

theorem ends_commit (hused : Set.InjOn Sha256.forBytes used) {now : Except String String}
    {r : CommitRequest} (h : Unmoved used faulty pid d₀)
    (hobjects : (FileRequest.commit now r).objects ⊆ used) :
    Ends used faulty (.commit now r) pid ((fileLedger pid).commit now r)
      (fun c d => ⟨pid, r.expectedHead, c⟩ ∈ d.moves)
      (fun e d => Unmoved used faulty pid d ∨ Excused faulty .syncRefs e) d₀ := by
  refine Ends.bind h.inv (ends_putContent hused h (hobjects (Or.inl rfl))) (fun _ _ _ => Or.inl) ?_
  rintro - d₁ - ⟨hd₁, -⟩
  refine Tx.idle_lift (fun recordedTime hnow => ?_) fun _ _ => Or.inl hd₁
  have hnow : now = .ok recordedTime := by
    cases now with
    | ok t => simpa using hnow
    | error reason => cases hnow
  refine Ends.bind hd₁.inv (ends_putCommit hused hd₁ fun bytes hbytes =>
    hobjects (Or.inr ⟨recordedTime, hnow, hbytes⟩)) (fun _ _ _ => Or.inl) ?_
  rintro c d₂ - ⟨hd₂, hstores⟩
  have hparent : (AnyCommit.v1 (r.envelope recordedTime)).normalized.parents.head? =
      r.expectedHead := by
    rw [AnyCommit.parents_normalized]
    cases hexpected : r.expectedHead <;> simp [AnyCommit.parents, CommitRequest.envelope, hexpected]
  refine Ends.bind hd₂.inv (S := fun c d => ⟨pid, r.expectedHead, c⟩ ∈ d.moves)
    (R := fun _ d => ⟨pid, r.expectedHead, c⟩ ∈ d.moves) ?_ (fun _ _ _ he => he)
    fun _ d _ hmine => Tx.idle_pure hmine
  -- the target decodes, so the ref moves
  refine Ends.bind hd₂.inv (ends_getCommit c hd₂) (fun _ _ _ he => Or.inl he.1) ?_
  rintro target d₃ hgrow ⟨hd₃, -⟩
  refine Tx.idle_lift (fun _ _ => ?_) fun _ _ => Or.inl hd₃
  exact ends_compareAndSet hd₃ (hstores.grow hgrow) hparent

/-! ## Reconstruction -/

def ReadFails (faulty : Set FileOp) (e : LedgerError) : Prop :=
  (∃ reason, e = .resourceLimit reason) ∨ Excused faulty .readObject e ∨ Excused faulty .readHead e

theorem checkDepth_eq_error {limits : ReconstructionLimits} {n : ℕ} {e : LedgerError}
    (h : limits.checkDepth n = .error e) : ∃ reason, e = .resourceLimit reason := by
  unfold ReconstructionLimits.checkDepth at h
  split_ifs at h
  exact ⟨_, (Except.error.inj h).symm⟩

theorem checkState_eq_error {limits : ReconstructionLimits} {quads bytes : ℕ} {e : LedgerError}
    (h : limits.checkState quads bytes = .error e) : ∃ reason, e = .resourceLimit reason := by
  unfold ReconstructionLimits.checkState at h
  simp only at h
  split_ifs at h
  · exact ⟨_, (Except.error.inj h).symm⟩
  · exact ⟨_, (Except.error.inj h).symm⟩

theorem applyBounded_eq_error {state : State} {bytes : ℕ} {patch : Patch}
    {limits : ReconstructionLimits} {e : LedgerError}
    (h : applyBounded state bytes patch limits = .error e) : ∃ reason, e = .resourceLimit reason := by
  unfold applyBounded at h
  rcases bind_eq_error.mp h with h | ⟨_, -, h⟩
  · exact checkState_eq_error h
  · cases h

theorem ends_chain (limits : ReconstructionLimits) {base : Files} (hbase : base.Closed)
    {rank : CommitId → ℕ} (hrank : ∀ c p, base.Parent c p → rank p < rank c) (fuel : ℕ)
    {seen : List CommitId} {cursor : Option CommitId} (h : Unmoved used faulty pid d₀)
    (hgrow : base.Grow d₀) (hcursor : ∀ c ∈ cursor, (∃ commit, base.Stores c commit) ∧
      ∀ x ∈ seen, rank c < rank x) :
    Ends used faulty request pid ((fileLedger pid).chain limits fuel seen cursor)
      (fun patches d => Unmoved used faulty pid d ∧ ∀ p ∈ patches, ∃ patch, base.HasPatch p patch)
      (fun e _ => ReadFails faulty e) d₀ := by
  induction fuel generalizing seen cursor d₀ with
  | zero =>
      cases cursor with
      | none => exact Tx.idle_pure ⟨h, by simp⟩
      | some c => exact Or.inl ⟨_, rfl⟩
  | succ fuel ih =>
      cases cursor with
      | none => exact Tx.idle_pure ⟨h, by simp⟩
      | some c =>
          obtain ⟨⟨commit, hcommit⟩, hlow⟩ := hcursor c rfl
          refine Tx.idle_lift (fun _ _ => ?_) fun e he => ?_
          · refine Tx.idle_lift (fun _ _ => ?_) fun e he => Or.inl (checkDepth_eq_error he)
            refine Ends.bind h.inv (ends_getCommit c h) (fun e d hd he => ?_) ?_
            · rcases he.2 with he | he
              · exact Or.inr (Or.inl he)
              · rw [stores_iff.mp (hcommit.grow (hgrow.trans hd))] at he
                cases he
            · rintro stored d hd ⟨hunmoved, hstored⟩
              rw [stores_iff.mp (hcommit.grow (hgrow.trans hd))] at hstored
              obtain rfl := Except.ok.inj hstored
              refine Tx.idle_lift (fun found hfound => ?_) fun e he => by cases he
              obtain rfl : commit = found := Option.some.inj (expect_eq_ok.mp hfound)
              have hrefers := hbase.refers c commit hcommit
              refine Ends.bind hunmoved.inv (ih hunmoved (hgrow.trans hd) fun p hp => ?_)
                (fun _ _ _ he => he) ?_
              · have hparent := hrank c p ⟨commit, hcommit, List.mem_of_mem_head? hp⟩
                refine ⟨hrefers.parents p (List.mem_of_mem_head? hp),
                  List.forall_mem_cons.mpr ⟨hparent, fun x hx => hparent.trans (hlow x hx)⟩⟩
              · rintro rest d' - ⟨hd', hrest⟩
                exact Tx.idle_pure ⟨hd', List.forall_mem_cons.mpr ⟨hrefers.patch, hrest⟩⟩
          · -- a commit that was seen before would be ranked below itself
            have hseen : c ∈ seen := by
              by_contra hnot
              rw [ensure_pos hnot] at he
              cases he
            exact absurd (hlow c hseen) (lt_irrefl _)

theorem ends_applyAll (limits : ReconstructionLimits) {base : Files} {patches : List PatchId}
    {acc : State × ℕ} (h : Unmoved used faulty pid d₀) (hgrow : base.Grow d₀)
    (hpatches : ∀ p ∈ patches, ∃ patch, base.HasPatch p patch) :
    Ends used faulty request pid ((fileLedger pid).applyAll limits patches acc)
      (fun _ d => Unmoved used faulty pid d) (fun e _ => ReadFails faulty e) d₀ := by
  induction patches generalizing acc d₀ with
  | nil => exact Tx.idle_pure h
  | cons p rest ih =>
      obtain ⟨patch, bytes, hbytes, hvalid⟩ := hpatches p List.mem_cons_self
      refine Ends.bind h.inv (ends_getObject p.content h) (fun _ _ _ he => Or.inr (Or.inl he.2)) ?_
      rintro stored d hd ⟨hunmoved, rfl⟩
      rw [(hgrow.trans hd).objects _ _ hbytes]
      refine Tx.idle_lift (fun found hfound => ?_) fun e he => by cases he
      obtain rfl : bytes = found := Option.some.inj (expect_eq_ok.mp hfound)
      refine Tx.idle_lift (fun patch' hpatch' => ?_) fun e he => ?_
      · refine Tx.idle_lift (fun next _ => ?_) fun e he => Or.inl (applyBounded_eq_error he)
        exact ih hunmoved (hgrow.trans hd) fun q hq => hpatches q (List.mem_cons_of_mem _ hq)
      · rw [hvalid] at he
        cases he

theorem ends_headState (limits : ReconstructionLimits) (h : Unmoved used faulty pid d₀) :
    Ends used faulty request pid (headState (fileLedger pid) limits)
      (fun _ d => Unmoved used faulty pid d) (fun e _ => ReadFails faulty e) d₀ := by
  refine Ends.bind h.inv (ends_head h) (fun _ _ _ he => Or.inr (Or.inr he.2)) ?_
  rintro c d - ⟨hd, hc⟩
  cases c with
  | none => exact Tx.idle_pure hd
  | some c =>
      obtain ⟨rank, hrank⟩ := hd.inv.closed.rank
      have hstored := (hd.inv.headOk hc).stored c rfl
      refine Ends.bind hd.inv (R := fun _ d => Unmoved used faulty pid d) ?_ (fun _ _ _ he => he)
        fun _ _ _ hd => Tx.idle_pure hd
      refine Ends.bind hd.inv (ends_chain limits hd.inv.closed hrank _ hd (Files.Grow.refl d)
        (by rintro x hx; cases hx; exact ⟨hstored, by simp⟩)) (fun _ _ _ he => he) ?_
      rintro patches d' hgrow ⟨hd', hpatches⟩
      exact ends_applyAll limits hd' hgrow fun p hp => hpatches p (List.mem_reverse.mp hp)

end Programs

end FileStore

end CognitiveLedger
