import CognitiveLedger.File.FileRuns

/-!
# The heads of the filesystem ledger

A run starts with empty files. Its objects are taken from a set on which the hash has no
collisions, and only the operations of a given set ever fail. Whatever the interleaving,
the head's history is stored and can be reconstructed, and the head moves one commit at a
time, at most once from each head. A commit that fails has not moved the head, unless what
failed is the directory sync after the rename.
-/

set_option linter.unusedSectionVars false

namespace CognitiveLedger

open ReadCommitted ExceptRules Lineage FileStore

variable [NQuadsParser] [Sha256] [TimeCrate] [StrDebug]

/-- A request whose objects are in `used`, or a disk on which only `faulty` operations fail. -/
def FileRequest.Within (used : Set Bytes) (faulty : Set FileOp) (request : FileRequest) : Prop :=
  request.objects ⊆ used ∧
    ∀ faults, request = .disk faults → ∀ op reason, faults op = some reason → op ∈ faulty

abbrev FileSystem (used : Set Bytes) (faulty : Set FileOp) :=
  System {r : FileRequest // r.Within used faulty} Files FileLock (Except LedgerError FileReply)

def fileCode (used : Set Bytes) (faulty : Set FileOp)
    (request : {r : FileRequest // r.Within used faulty}) (pid : ℕ) :
    Prog Files FileLock (Except LedgerError FileReply) := (request.val.program pid).run

/-- A run of the filesystem ledger from empty files. -/
structure FileRun where
  used : Set Bytes
  collisionFree : Set.InjOn Sha256.forBytes used
  faulty : Set FileOp
  system : FileSystem used faulty
  reachable : system.Reachable (fileCode used faulty) {}

/-! ## What a reply tells -/

/-- What is known when request `pid` replies. -/
def FileReplied (faulty : Set FileOp) (pid : ℕ) :
    FileRequest → Except LedgerError FileReply → Files → Prop
  | .commit _ r, .ok reply, d => ∃ c, reply = .committed c ∧ ⟨pid, r.expectedHead, c⟩ ∈ d.moves
  | .commit _ _, .error e, d => Files.Fresh pid d ∨ Excused faulty .syncRefs e
  | .headState _, .error e, _ => ReadFails faulty e
  | _, _, _ => True

section Code

variable {used : Set Bytes} {faulty : Set FileOp}

/-- The reply of a program that ends with `R` or fails with `E`. -/
theorem Ends.reply {request : FileRequest} {pid : ℕ} {d : Files} {α : Type} {x : FileTx α}
    (reply : α → FileReply) {R : α → Files → Prop} {E : LedgerError → Files → Prop}
    (hinv : d.Inv used faulty) (h : Ends used faulty request pid x R E d)
    (hok : ∀ a d, R a d → FileReplied faulty pid request (.ok (reply a)) d)
    (herror : ∀ e d, E e d → FileReplied faulty pid request (.error e) d) :
    Meets (Files.discipline used faulty) pid (FileEffect used faulty request pid)
      (x >>= fun a => pure (reply a)).run
      (fun result v => FileReplied faulty pid request result v.seen) { seen := d } := by
  have hbind : Ends used faulty request pid (x >>= fun a => pure (reply a))
      (fun r d => FileReplied faulty pid request (.ok r) d)
      (fun e d => FileReplied faulty pid request (.error e) d) d :=
    Ends.bind hinv h (fun e d _ he => herror e d he) fun a d _ ha => Tx.idle_pure (hok a d ha)
  refine Meets.mono hbind (fun _ _ hg => hg) fun r v hr => ?_
  cases r with
  | ok reply => exact hr.2.2
  | error e => exact hr

theorem meets_fileCode (hused : Set.InjOn Sha256.forBytes used)
    (request : {r : FileRequest // r.Within used faulty}) (pid : ℕ) (d : Files)
    (hinv : d.Inv used faulty) (hfresh : Files.Fresh pid d) :
    Meets (Files.discipline used faulty) pid (FileEffect used faulty request.val pid)
      (fileCode used faulty request pid)
      (fun result v => FileReplied faulty pid request.val result v.seen) { seen := d } := by
  have h : Unmoved used faulty pid d := ⟨hinv, hfresh⟩
  obtain ⟨request, hwithin⟩ := request
  cases request with
  | putContent id bytes =>
      exact Ends.reply (fun _ => .stored) hinv
        (ends_putContent hused h (hwithin.1 rfl)) (fun _ _ _ => trivial) fun _ _ _ => trivial
  | putCommit envelope =>
      exact Ends.reply .put hinv (ends_putCommit hused h fun _ hbytes => hwithin.1 hbytes)
        (fun _ _ _ => trivial) fun _ _ _ => trivial
  | commit now r =>
      refine Ends.reply .committed hinv (ends_commit hused h hwithin.1)
        (fun c d hc => ⟨c, rfl, hc⟩) fun e d he => ?_
      exact he.imp_left fun hunmoved => hunmoved.fresh
  | headState limits =>
      exact Ends.reply .state hinv (ends_headState limits h) (fun _ _ _ => trivial)
        fun _ _ he => he
  | disk faults =>
      refine Tx.meets_write (Tx.meets_commit fun d' hd' => ⟨⟨?_, fun l hl => ?_⟩, trivial⟩)
      · exact ⟨hd'.inv.setFaults (hwithin.2 faults rfl), ⟨fun _ _ h => h, List.prefix_refl _⟩,
          fun _ _ h => h, Or.inl rfl⟩
      · cases l
        exact absurd ⟨rfl, rfl⟩ hl

theorem fileEffect_keeps (request : {r : FileRequest // r.Within used faulty}) (pid : ℕ)
    (_ d d' : Files) (_ : d.Inv used faulty) (h : FileEffect used faulty request.val pid d d') :
    d'.Inv used faulty ∧ d.Grow d' ∧ ∀ n, n ≠ pid → Files.Fresh n d → Files.Fresh n d' :=
  ⟨h.inv, h.grow, h.others⟩

end Code

/-! ## Whole runs -/

namespace FileRun

variable (run : FileRun)

theorem sound : Sound (Files.discipline run.used run.faulty)
    (fun request pid _ => FileEffect run.used run.faulty request.val pid)
    (fun request pid _ result v => FileReplied run.faulty pid request.val result v.seen)
    run.system :=
  sound_of_reachable fileEffect_keeps
    (fun request pid d hinv hfresh => meets_fileCode run.collisionFree request pid d hinv hfresh)
    Files.Inv.empty (fun _ _ hm => by cases hm) run.reachable

variable {run} {pid : ℕ} {request : {r : FileRequest // r.Within run.used run.faulty}}
variable {start d : Files} {result : Except LedgerError FileReply}

/-- A reply still stands, and whoever replied without moving the head has not moved it since. -/
theorem replied (h : .replied pid request start d result ∈ run.system.log) :
    ∃ seen, FileReplied run.faulty pid request.val result seen ∧ seen.Grow run.system.db ∧
      (Files.Fresh pid seen → Files.Fresh pid run.system.db) := by
  obtain ⟨-, -, v, hreplied, -, -, hgrow, hfresh⟩ := retired_of_reachable
    (Δ := Files.discipline run.used run.faulty) fileEffect_keeps
    (fun request pid d hinv hfresh => meets_fileCode run.collisionFree request pid d hinv hfresh)
    Files.Inv.empty (fun _ _ hm => by cases hm) run.reachable h
  exact ⟨v.seen, hreplied, hgrow, hfresh⟩

/-- The move of a commit that succeeded is on record. -/
theorem moved_of_ok {now : Except String String} {r : CommitRequest} {reply : FileReply}
    (h : .replied pid request start d (.ok reply) ∈ run.system.log)
    (hrequest : request.val = .commit now r) :
    ∃ c, ⟨pid, r.expectedHead, c⟩ ∈ run.system.db.moves := by
  obtain ⟨seen, hreplied, hgrow, -⟩ := replied h
  rw [hrequest] at hreplied
  obtain ⟨c, -, hc⟩ := hreplied
  exact ⟨c, hgrow.moves.subset hc⟩

/-- What a commit of the disk that changes the head is. -/
theorem move_of_committed {d' : Files} (h : .committed pid request start d d' ∈ run.system.log)
    (hhead : d'.head ≠ d.head) : Moved request.val pid d d' ∧ d'.Grow run.system.db := by
  obtain ⟨heffect, -, -, -, -, hgrow⟩ := run.sound.log _ h
  exact ⟨heffect.head.resolve_left hhead, hgrow⟩

end FileRun

/-! ## A commit alone

The first commit of a ledger, on a disk where only the last directory sync fails. -/

namespace FileStore

variable {d : Files} {op : FileOp} {id : ContentId} {bytes : Bytes} {reason : String}

omit [NQuadsParser] [Sha256] [TimeCrate] [StrDebug] in
theorem runs_attempt (h : d.faults op = none) : Tx.Runs (attempt op) d (.ok ()) d [] := by
  exact (Tx.runs_query _).read (Tx.runs_lift (by rw [h]; rfl))

/-- Every operation works, except the directory sync after the head was renamed. -/
def OnlySyncFails (d : Files) (reason : String) : Prop :=
  d.faults .syncRefs = some reason ∧ ∀ op, op ≠ .syncRefs → d.faults op = none

theorem runs_getObject (id : ContentId) (hd : OnlySyncFails d reason)
    (hhash : ∀ bytes, d.objects id = some bytes → Sha256.forBytes bytes = id) :
    Tx.Runs (getObject id) d (.ok (d.objects id)) d [] := by
  have hread : Tx.Runs (readFile id) d (.ok (d.objects id)) d [] := by
    have hcheck : storage (d.faults .readObject) = .ok () := by
      rw [hd.2 .readObject (by decide)]
      rfl
    exact (Tx.runs_query _).read ((Tx.runs_lift hcheck).read (Tx.runs_pure _))
  have hdigest : checkDigest id (d.objects id) = .ok (d.objects id) := by
    cases hstored : d.objects id with
    | none => rfl
    | some bytes => simp [checkDigest, hhash bytes hstored]
  exact hread.read (Tx.runs_lift hdigest)

omit [Sha256] [TimeCrate] [StrDebug] in
theorem isCommitFamily_patch (p : Patch) : isCommitFamily p.canonicalBytes = false := by
  unfold isCommitFamily Patch.canonicalBytes Patch.canonicalText
  rw [String.ofList_append, String.ofList_toList, asBytes_append,
    startsWith_append_of_length_le (by decide), startsWith_append_of_length_le (by decide)]
  decide

/-- A new object is written and renamed into place. -/
theorem runs_putObject (hd : OnlySyncFails d reason) (hhash : Sha256.forBytes bytes = id)
    (habsent : d.objects id = none) :
    Tx.Runs (putObject id bytes) d (.ok ()) (d.putObject id bytes)
      [(d, d.putObject id bytes)] := by
  have hget : Tx.Runs (getObject id) d (.ok none) d [] := by
    have hget := runs_getObject id hd (by simp [habsent])
    rwa [habsent] at hget
  have hrename : Tx.Runs (Tx.query fun d => d.faults .renameObject : FileTx (Option String)) d
      (.ok none) d [] := by
    rw [← hd.2 .renameObject (by decide)]
    exact Tx.runs_query _
  have hsync : Tx.Runs (attempt .syncShard) (d.putObject id bytes) (.ok ()) (d.putObject id bytes)
      [] := runs_attempt (hd.2 .syncShard (by decide))
  have hworks : ∀ op, op ≠ .syncRefs → Tx.Runs (attempt op) d (.ok ()) d [] := fun op hop =>
    runs_attempt (hd.2 op hop)
  refine Tx.Runs.read (Tx.runs_lift (ensure_pos hhash)) (Tx.Runs.read hget ?_)
  refine Tx.Runs.read (hworks .makeShard (by decide)) ?_
  refine Tx.Runs.read (hworks .syncShards (by decide)) ?_
  refine Tx.Runs.read (hworks .createTemp (by decide)) ?_
  refine Tx.Runs.read (hworks .writeTemp (by decide)) ?_
  exact Tx.Runs.read hrename (Tx.Runs.write_commit hsync)

theorem runs_compareAndSet (hd : OnlySyncFails d reason) (pid : ℕ) {expected : Option CommitId}
    (new : CommitId) (hhead : d.HeadIs expected) :
    Tx.Runs (compareAndSet pid expected new) d (.error (.storage reason))
      (d.setHead pid expected new) [(d, d.setHead pid expected new)] := by
  have hworks : ∀ op, op ≠ .syncRefs → storage (d.faults op) = .ok () := by
    intro op hop
    rw [hd.2 op hop]
    rfl
  have hread : Tx.Runs head d (.ok expected) d [] := by
    exact (Tx.runs_query _).read ((Tx.runs_lift (hworks .readHead (by decide))).bind
      (Tx.runs_lift hhead.parse))
  have hsync : Tx.Runs (attempt .syncRefs) (d.setHead pid expected new) (.error (.storage reason))
      (d.setHead pid expected new) [] := by
    have hfault : storage ((d.setHead pid expected new).faults .syncRefs) =
        .error (.storage reason) := by
      rw [show (d.setHead pid expected new).faults .syncRefs = some reason from hd.1]
      rfl
    exact (Tx.runs_query _).read (Tx.runs_lift hfault)
  have hattempt : ∀ op, op ≠ .syncRefs → Tx.Runs (attempt op) d (.ok ()) d [] := fun op hop =>
    runs_attempt (hd.2 op hop)
  refine Tx.Runs.read (hattempt .openLock (by decide)) (Tx.Runs.read (Tx.runs_locking _ _) ?_)
  refine Tx.Runs.read (Tx.runs_lift (hworks .lockRefs (by decide))) (Tx.Runs.read hread ?_)
  refine Tx.Runs.read (Tx.runs_lift (ensure_pos rfl)) ?_
  refine Tx.Runs.read (hattempt .createHeadTemp (by decide)) ?_
  refine Tx.Runs.read (hattempt .writeHeadTemp (by decide)) ?_
  exact Tx.Runs.read (hattempt .renameHead (by decide)) (Tx.Runs.write_commit hsync)

/-- The first commit is stored and becomes the head, and its caller is told that it failed. -/
theorem runs_commit (hd : OnlySyncFails d reason) (hempty : ∀ id, d.objects id = none)
    (hhead : d.HeadIs none) (pid : ℕ) {r : CommitRequest} (hr : r.expectedHead = none) {t : String}
    (hbytes : (r.envelope t).canonicalBytes = .ok bytes)
    (hne : Sha256.forBytes bytes ≠ Sha256.forBytes r.patch.canonicalBytes) :
    ∃ d₁ d₂ commits, Tx.Runs ((fileLedger pid).commit (.ok t) r) d (.error (.storage reason)) d₂
      (commits ++ [(d₁, d₂)]) ∧ d₂.head ≠ d₁.head := by
  let d₁ := d.putObject r.patch.id.content r.patch.canonicalBytes
  let c : CommitId := ⟨Sha256.forBytes bytes⟩
  let d₂ := d₁.putObject c.content bytes
  have hd₁ : OnlySyncFails d₁ reason := hd
  have hd₂ : OnlySyncFails d₂ reason := hd
  have hparents : (r.envelope t).parents = [] := by simp [CommitRequest.envelope, hr]
  have hid : (AnyCommit.v1 (r.envelope t)).id = .ok c := by
    rw [AnyCommit.id, show (AnyCommit.v1 (r.envelope t)).canonicalBytes = .ok bytes from hbytes]
    rfl
  have hstored₁ : d₁.objects r.patch.id.content = some r.patch.canonicalBytes := by
    simp [d₁, Files.putObject]
  have habsent₁ : d₁.objects c.content = none := by
    have hne' : c.content ≠ r.patch.id.content := hne
    simp [d₁, Files.putObject, hne', hempty]
  have hcontent : Tx.Runs (putContent r.patch.id.content r.patch.canonicalBytes) d (.ok ()) d₁
      [(d, d₁)] :=
    Tx.Runs.read (Tx.runs_lift (ensure_pos (isCommitFamily_patch r.patch)))
      (runs_putObject hd rfl (hempty _))
  have hput : Tx.Runs (putCommit (.v1 (r.envelope t))) d₁ (.ok c) d₂
      [(d₁, d₂)] := by
    have hcheck : Tx.Runs (checkParents (.v1 (r.envelope t)) (AnyCommit.v1 (r.envelope t)).parents)
        d₁ (.ok ()) d₁ [] := by
      rw [show (AnyCommit.v1 (r.envelope t)).parents = [] from hparents]
      exact Tx.runs_pure _
    have hget : Tx.Runs (getObject r.patch.id.content) d₁ (.ok (some r.patch.canonicalBytes)) d₁ [] := by
      have hget := runs_getObject r.patch.id.content hd₁ fun b hb => by
        rw [← Option.some.inj (hstored₁.symm.trans hb)]
        rfl
      rwa [hstored₁] at hget
    have hvalid : validatePatchBytes r.patch.id r.patch.canonicalBytes = .ok r.patch := by
      simp [validatePatchBytes, Patch.id]
    refine Tx.Runs.read hcheck (Tx.Runs.read hget (Tx.Runs.read (Tx.runs_lift rfl) ?_))
    refine Tx.Runs.read (Tx.runs_lift hvalid) (Tx.Runs.read (Tx.runs_lift hbytes) ?_)
    refine Tx.Runs.read (Tx.runs_lift hid) ?_
    exact Tx.Runs.thenReturn (runs_putObject hd₁ rfl habsent₁) (Tx.runs_pure _)
  let d₃ := d₂.setHead pid r.expectedHead c
  have hadvance : Tx.Runs ((fileLedger pid).advanceRef r.expectedHead c) d₂
      (.error (.storage reason)) d₃ [(d₂, d₃)] := by
    have hstored₂ : d₂.objects c.content = some bytes := by simp [d₂, Files.putObject]
    have hget : Tx.Runs (getObject c.content) d₂ (.ok (some bytes)) d₂ [] := by
      have hget := runs_getObject c.content hd₂ fun b hb => by
        rw [← Option.some.inj (hstored₂.symm.trans hb)]
      rwa [hstored₂] at hget
    have hdecode := decodeCommitObject_canonicalBytes
      (show (AnyCommit.v1 (r.envelope t)).canonicalBytes = .ok bytes from hbytes) hid
    have hcommit : Tx.Runs (getCommit c) d₂
        (.ok (some (AnyCommit.v1 (r.envelope t)).normalized)) d₂ [] :=
      Tx.Runs.read hget (Tx.runs_lift hdecode)
    refine Tx.Runs.read hcommit (Tx.Runs.read (Tx.runs_lift (ensure_pos rfl)) ?_)
    exact runs_compareAndSet hd₂ pid c (by rw [hr]; exact hhead)
  refine ⟨d₂, d₃, [(d, d₁)] ++ [(d₁, d₂)], ?_, ?_⟩
  · rw [List.append_assoc]
    exact Tx.Runs.bind hcontent (Tx.Runs.read (Tx.runs_lift rfl)
      (Tx.Runs.bind hput hadvance.bind_error))
  · have hnone : d₂.head = none := hhead
    rw [hnone]
    exact Option.some_ne_none _

@[reducible] def kindHash : Sha256 :=
  ⟨fun bytes => if isCommitFamily bytes then
      ⟨"sha256:" ++ String.ofList (List.replicate 64 '1'), by decide⟩
    else ⟨"sha256:" ++ String.ofList (List.replicate 64 '2'), by decide⟩⟩

def firstRequest : CommitRequest where
  expectedHead := none
  patch := ⟨[], List.Pairwise.nil, by simp [Consistent]⟩
  author := "author"
  message := "message"
  eventTime := "2026-01-01T00:00:00Z"

theorem firstRequest_encodes :
    ∃ bytes, (firstRequest.envelope "2026-01-01T00:00:00Z").canonicalBytes = .ok bytes := by
  refine ⟨_, CommitV1.canonicalBytes_eq_ok_iff.mpr ⟨⟨?_, ?_, fun s hs => ?_⟩, rfl⟩⟩
  · simp [CommitRequest.envelope, firstRequest]
  · simp [CommitRequest.envelope, firstRequest, parentsDistinct]
  · simp only [CommitV1.fields, CommitRequest.envelope, firstRequest, List.mem_cons,
      List.not_mem_nil, or_false] at hs
    rcases hs with rfl | rfl | rfl | rfl | rfl
    · exact CommitV2.text_lt _
    all_goals decide

omit [NQuadsParser] [Sha256] [TimeCrate] [StrDebug] in
theorem kindHash_ne {bytes bytes' : Bytes} (h : isCommitFamily bytes = true)
    (h' : isCommitFamily bytes' = false) : kindHash.forBytes bytes ≠ kindHash.forBytes bytes' := by
  intro heq
  have htext := congrArg ContentId.text heq
  simp only [Sha256.forBytes, h, h', if_true] at htext
  exact absurd htext (by decide)

end FileStore

omit [Sha256] in
theorem FileRun.exists_failed_commit : letI : Sha256 := kindHash
    ∃ run : FileRun, ∃ pid request start d now r e request' start' d₁ d₂,
      .replied pid request start d (.error e) ∈ run.system.log ∧
      request.val = .commit now r ∧
      .committed pid request' start' d₁ d₂ ∈ run.system.log ∧ d₂.head ≠ d₁.head := by
  let _ : Sha256 := kindHash
  obtain ⟨bytes, hbytes⟩ := firstRequest_encodes
  let patch := firstRequest.patch.canonicalBytes
  have hne : Sha256.forBytes bytes ≠ Sha256.forBytes patch :=
    kindHash_ne (isCommitFamily_canonicalBytes (show (AnyCommit.v1 _).canonicalBytes = _ from hbytes))
      (isCommitFamily_patch _)
  -- the disk fails to sync the directory of the head, and nothing else
  let faults : FileOp → Option String := fun op => if op = .syncRefs then some "EIO" else none
  let used : Set Bytes := {patch, bytes}
  have hused : Set.InjOn Sha256.forBytes used := by
    rintro x (rfl | rfl) y (rfl | rfl) hxy
    · rfl
    · exact absurd hxy.symm hne
    · exact absurd hxy hne
    · rfl
  let disk : {r : FileRequest // r.Within used {.syncRefs}} := ⟨.disk faults, by
    refine ⟨Set.empty_subset _, fun faults' h op reason hop => ?_⟩
    cases h
    by_contra hne
    rw [show faults op = none from if_neg hne] at hop
    cases hop⟩
  let commit : {r : FileRequest // r.Within used {.syncRefs}} := ⟨.commit (.ok "2026-01-01T00:00:00Z") firstRequest, by
    refine ⟨?_, fun _ h => by cases h⟩
    rintro x (rfl | ⟨recordedTime, htime, hx⟩)
    · exact Or.inl rfl
    · cases htime
      exact Or.inr (Except.ok.inj (hx.symm.trans hbytes))⟩
  obtain ⟨labels, s, hrun, hidle, hstarted, hdb, -⟩ :=
    System.serve (fileCode used {.syncRefs}) (s := { db := {} }) (by simp) disk
  have hdb : s.db = { faults := faults } := hdb
  obtain ⟨labels', s', hrun', -, -, -, hlog⟩ := System.serve (fileCode used {.syncRefs})
    hidle commit
  have hdisk : OnlySyncFails s.db "EIO" := by
    rw [hdb]
    exact ⟨rfl, fun op hop => if_neg hop⟩
  obtain ⟨d₁, d₂, commits, hcommit, hhead⟩ := runs_commit hdisk (by simp [hdb])
    (by rw [hdb]; rfl) s.started (r := firstRequest) rfl hbytes hne
  have halone : (fileCode used {.syncRefs} commit s.started).alone id s.db =
      ⟨.error (.storage "EIO"), id, d₂, commits ++ [(d₁, d₂)]⟩ := hcommit.bind_error
  rw [halone] at hlog
  have hreachable : s'.Reachable (fileCode used {.syncRefs}) {} :=
    (show s.Reachable (fileCode used {.syncRefs}) {} from ⟨labels, hrun⟩).run hrun'
  refine ⟨⟨used, hused, {.syncRefs}, s', hreachable⟩, s.started, commit, s.db, s'.db, _,
    firstRequest, .storage "EIO", commit, s.db, d₁, d₂, ?_, rfl, ?_, hhead⟩
  · rw [hlog]
    simp
  · rw [hlog]
    simp [System.committedEvents]

end CognitiveLedger
