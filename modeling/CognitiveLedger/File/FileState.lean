import CognitiveLedger.File.FileStore
import CognitiveLedger.Lib.Lineage
import CognitiveLedger.Store.DerivedIndex

/-!
# What the files of a store hold

An object that is stored is never removed, and under a hash without collisions a second
rename to its path changes nothing. The commits are closed: the parents and the patch of
a stored commit are stored, and no commit is its own ancestor. The head is a stored
commit, and a head that was replaced lies properly below it.
-/

set_option linter.unusedSectionVars false

open Relation (TransGen ReflTransGen)

namespace CognitiveLedger

open ReadCommitted ExceptRules Lineage

theorem decodeCommitObject_canonicalBytes [Sha256] [TimeCrate] [StrDebug] {commit : AnyCommit}
    {bytes : Bytes} {id : CommitId} (h : commit.canonicalBytes = .ok bytes)
    (hid : commit.id = .ok id) :
    decodeCommitObject id.content bytes = .ok (some commit.normalized) := by
  have hhash : id = ⟨Sha256.forBytes bytes⟩ := by
    rw [AnyCommit.id, h] at hid
    exact (Except.ok.inj hid).symm
  subst hhash
  have hid' : commit.normalized.id = .ok ⟨Sha256.forBytes bytes⟩ := by
    rw [AnyCommit.id, AnyCommit.canonicalBytes_normalized h]
    rfl
  simp [decodeCommitObject, isCommitFamily_canonicalBytes h,
    AnyCommit.fromCanonicalBytes_of_canonicalBytes h, hid']

/-! ## The text of the head -/

theorem ContentId.not_isWhitespace (id : ContentId) :
    ∀ c ∈ id.text.toList, FileStore.isWhitespace c = false := by
  have hshape := id.shape
  simp only [contentIdShape, Bool.and_eq_true, beq_iff_eq, List.all_eq_true] at hshape
  obtain ⟨⟨hscheme, -⟩, hhex⟩ := hshape
  intro c hc
  rw [← List.take_append_drop 7 id.text.toList, List.mem_append, hscheme] at hc
  rcases hc with hc | hc
  · revert c
    simp only [String.reduceToList, List.forall_mem_cons, List.not_mem_nil, false_imp_iff,
      implies_true, and_true]
    decide
  · have hdigit := hhex c hc
    simp only [isLowerHex, Bool.or_eq_true, Bool.and_eq_true, decide_eq_true_eq, Char.le_def,
      UInt32.le_iff_toNat_le] at hdigit
    simp only [FileStore.isWhitespace, Char.toNat]
    simp at hdigit ⊢
    omega

namespace FileStore

@[simp] theorem parseHead_headText (id : CommitId) :
    parseHead (some (Files.headText id)) = .ok (some id) := by
  have hplain := id.content.not_isWhitespace
  have hdrop : ∀ l : List Char, (∀ c ∈ l, isWhitespace c = false) → l.dropWhile isWhitespace = l := by
    intro l hl
    cases l with
    | nil => rfl
    | cons c l => simp [List.dropWhile, hl c List.mem_cons_self]
  have htext : id.text.toList ≠ [] := by
    intro h
    have := id.content.length_text
    simp [CommitId.text] at h
    simp [h] at this
  have htrim : trim (Files.headText id) = id.text := by
    obtain ⟨c, l, hcl⟩ := List.exists_cons_of_ne_nil htext
    have hfirst : (id.text ++ "\n").toList.dropWhile isWhitespace = id.text.toList ++ ['\n'] := by
      have hc : isWhitespace c = false := hplain c (by simp [CommitId.text] at hcl; simp [hcl])
      simp [hcl, hc]
    have hlast : (id.text.toList ++ ['\n']).reverse.dropWhile isWhitespace =
        id.text.toList.reverse := by
      have hnewline : isWhitespace '\n' = true := by decide
      rw [List.reverse_append, List.reverse_singleton, List.singleton_append, List.dropWhile,
        hnewline]
      exact hdrop _ fun c hc => hplain c (List.mem_reverse.mp hc)
    rw [trim, Files.headText, hfirst, hlast, List.reverse_reverse, String.ofList_toList]
  simp [parseHead, htrim, Except.map]

@[simp] theorem parseHead_none : parseHead none = .ok none := rfl

end FileStore

namespace Files

variable [NQuadsParser] [Sha256] [TimeCrate] [StrDebug] {d d' : Files}

/-- The stored bytes of `c` decode to `commit`. -/
def Stores (d : Files) (c : CommitId) (commit : AnyCommit) : Prop :=
  ∃ bytes, d.objects c.content = some bytes ∧
    decodeCommitObject c.content bytes = .ok (some commit)

/-- The stored bytes of `id` are the patch `patch`. -/
def HasPatch (d : Files) (id : PatchId) (patch : Patch) : Prop :=
  ∃ bytes, d.objects id.content = some bytes ∧ validatePatchBytes id bytes = .ok patch

def Parent (d : Files) (c p : CommitId) : Prop :=
  ∃ commit, d.Stores c commit ∧ p ∈ commit.parents

def FirstParent (d : Files) (c p : CommitId) : Prop :=
  ∃ commit, d.Stores c commit ∧ commit.parents.head? = some p

theorem FirstParent.parent {c p : CommitId} (h : d.FirstParent c p) : d.Parent c p := by
  obtain ⟨commit, hstored, hp⟩ := h
  exact ⟨commit, hstored, List.mem_of_mem_head? hp⟩

/-- Nothing that is stored is removed or replaced, and the history only gets longer. -/
structure Grow (d d' : Files) : Prop where
  objects : ∀ id bytes, d.objects id = some bytes → d'.objects id = some bytes
  moves : d.moves <+: d'.moves

theorem Grow.refl (d : Files) : d.Grow d := ⟨fun _ _ h => h, List.prefix_refl _⟩

theorem Grow.trans {a b c : Files} (h : a.Grow b) (h' : b.Grow c) : a.Grow c :=
  ⟨fun id bytes hb => h'.objects id bytes (h.objects id bytes hb), h.moves.trans h'.moves⟩

theorem Stores.grow {c : CommitId} {commit : AnyCommit} (h : d.Stores c commit)
    (hgrow : d.Grow d') : d'.Stores c commit := by
  obtain ⟨bytes, hbytes, hdecode⟩ := h
  exact ⟨bytes, hgrow.objects _ _ hbytes, hdecode⟩

theorem HasPatch.grow {id : PatchId} {patch : Patch} (h : d.HasPatch id patch)
    (hgrow : d.Grow d') : d'.HasPatch id patch := by
  obtain ⟨bytes, hbytes, hvalid⟩ := h
  exact ⟨bytes, hgrow.objects _ _ hbytes, hvalid⟩

theorem FirstParent.grow {c p : CommitId} (h : d.FirstParent c p) (hgrow : d.Grow d') :
    d'.FirstParent c p := by
  obtain ⟨commit, hstored, hp⟩ := h
  exact ⟨commit, hstored.grow hgrow, hp⟩

/-! ## Closure -/

structure Refers (d : Files) (commit : AnyCommit) : Prop where
  parents : ∀ p ∈ commit.parents, ∃ parent, d.Stores p parent
  patch : ∃ patch, d.HasPatch commit.patch patch

theorem Refers.grow {commit : AnyCommit} (h : d.Refers commit) (hgrow : d.Grow d') :
    d'.Refers commit where
  parents p hp := by
    obtain ⟨parent, hparent⟩ := h.parents p hp
    exact ⟨parent, hparent.grow hgrow⟩
  patch := by
    obtain ⟨patch, hpatch⟩ := h.patch
    exact ⟨patch, hpatch.grow hgrow⟩

structure Closed (d : Files) : Prop where
  hashed : ∀ id bytes, d.objects id = some bytes → Sha256.forBytes bytes = id
  refers : ∀ c commit, d.Stores c commit → d.Refers commit
  rank : ∃ rank : CommitId → ℕ, ∀ c p, d.Parent c p → rank p < rank c

theorem Closed.empty : Closed {} where
  hashed _ _ h := by cases h
  refers _ _ h := by obtain ⟨bytes, hbytes, -⟩ := h; cases hbytes
  rank := ⟨fun _ => 0, fun _ _ h => by obtain ⟨-, ⟨bytes, hbytes, -⟩, -⟩ := h; cases hbytes⟩

theorem Closed.congr (h : d.Closed) (hobjects : d'.objects = d.objects) : d'.Closed := by
  obtain ⟨objects, head, faults, moves⟩ := d
  obtain ⟨objects', head', faults', moves'⟩ := d'
  obtain rfl : objects' = objects := hobjects
  exact ⟨h.hashed, fun c commit hc => ⟨(h.refers c commit hc).parents, (h.refers c commit hc).patch⟩,
    h.rank⟩

theorem Closed.acyclic (h : d.Closed) : Acyclic d.FirstParent := by
  obtain ⟨rank, hrank⟩ := h.rank
  exact acyclic_of_rank rank fun c p hp => hrank c p hp.parent

theorem Closed.ancestors_stored (h : d.Closed) {c a : CommitId} {commit : AnyCommit}
    (hc : d.Stores c commit) (ha : a ∈ ancestors d.FirstParent c) :
    ∃ commit, d.Stores a commit ∧ d.Refers commit := by
  have hstored : ∃ commit, d.Stores a commit :=
    ancestors_subset_of_closed (S := {x | ∃ commit, d.Stores x commit}) ⟨commit, hc⟩
      (fun x _ p hp => by
        obtain ⟨child, hchild, hp⟩ := hp
        exact (h.refers x child hchild).parents p (List.mem_of_mem_head? hp)) ha
  obtain ⟨found, hfound⟩ := hstored
  exact ⟨found, hfound, h.refers a found hfound⟩

/-- Storing an object again changes nothing. -/
theorem putObject_eq_self {id : ContentId} {bytes : Bytes} (h : d.objects id = some bytes) :
    d.putObject id bytes = d := by
  rw [putObject, ← h, Function.update_eq_self]

theorem grow_putObject {id : ContentId} {bytes : Bytes}
    (h : ∀ b, d.objects id = some b → b = bytes) : d.Grow (d.putObject id bytes) where
  objects x b hb := by
    by_cases hx : x = id
    · subst hx
      simp [putObject, h b hb]
    · simp [putObject, hx, hb]
  moves := List.prefix_refl _

theorem stores_putObject {id : ContentId} {bytes : Bytes} {c : CommitId} {commit : AnyCommit}
    (h : (d.putObject id bytes).Stores c commit) :
    d.Stores c commit ∨ c.content = id ∧ decodeCommitObject id bytes = .ok (some commit) := by
  obtain ⟨b, hb, hdecode⟩ := h
  by_cases hc : c.content = id
  · subst hc
    obtain rfl : bytes = b := by simpa [putObject] using hb
    exact Or.inr ⟨rfl, hdecode⟩
  · exact Or.inl ⟨b, by simpa [putObject, hc] using hb, hdecode⟩

def decodedParents (id : ContentId) (bytes : Bytes) : List CommitId :=
  match decodeCommitObject id bytes with
  | .ok (some commit) => commit.parents
  | _ => []

theorem Closed.putObject (h : d.Closed) {id : ContentId} {bytes : Bytes}
    (hhash : Sha256.forBytes bytes = id) (hsame : ∀ b, d.objects id = some b → b = bytes)
    (hrefers : ∀ commit, decodeCommitObject id bytes = .ok (some commit) → d.Refers commit) :
    (d.putObject id bytes).Closed := by
  cases hstored : d.objects id with
  | some b =>
      obtain rfl := hsame b hstored
      rw [putObject_eq_self hstored]
      exact h
  | none =>
      have hgrow : d.Grow (d.putObject id bytes) := grow_putObject hsame
      refine ⟨fun x b hb => ?_, fun c commit hc => ?_, ?_⟩
      · by_cases hx : x = id
        · subst hx
          obtain rfl : bytes = b := by simpa [Files.putObject] using hb
          exact hhash
        · exact h.hashed x b (by simpa [Files.putObject, hx] using hb)
      · rcases stores_putObject hc with hc | ⟨-, hdecode⟩
        · exact (h.refers c commit hc).grow hgrow
        · exact (hrefers commit hdecode).grow hgrow
      · -- the new commit is ranked above its parents; nobody refers to it yet
        refine exists_rank_extend (c := ⟨id⟩) h.rank (decodedParents id bytes) fun x p hp => ?_
        obtain ⟨commit, hcommit, hp⟩ := hp
        have hnew : ∀ q parent, d.Stores q parent → q ≠ ⟨id⟩ := by
          rintro q parent ⟨b, hb, -⟩ rfl
          rw [hstored] at hb
          cases hb
        rcases stores_putObject hcommit with hold | ⟨hx, hdecode⟩
        · obtain ⟨parent, hparent⟩ := (h.refers x commit hold).parents p hp
          exact ⟨hnew p parent hparent, fun hx => absurd hx (hnew x commit hold),
            fun _ => ⟨commit, hold, hp⟩⟩
        · obtain ⟨parent, hparent⟩ := (hrefers commit hdecode).parents p hp
          refine ⟨hnew p parent hparent, fun _ => ?_, fun hne => ?_⟩
          · simpa [decodedParents, hdecode] using hp
          · exact absurd (CommitId.content_injective hx) hne

/-! ## The head and its history -/

omit [NQuadsParser] [Sha256] [TimeCrate] [StrDebug] in
/-- `refs/main` names `h`, or is missing. -/
def HeadIs (d : Files) (h : Option CommitId) : Prop := d.head = h.map headText

omit [NQuadsParser] [Sha256] [TimeCrate] [StrDebug] in
theorem HeadIs.parse {h : Option CommitId} (hh : d.HeadIs h) :
    FileStore.parseHead d.head = .ok h := by
  rw [hh]
  cases h with
  | none => rfl
  | some c => exact FileStore.parseHead_headText c

omit [NQuadsParser] [Sha256] [TimeCrate] [StrDebug] in
theorem HeadIs.unique {h h' : Option CommitId} (hh : d.HeadIs h) (hh' : d.HeadIs h') : h = h' :=
  Except.ok.inj (hh.parse.symm.trans hh'.parse)

/-- A head that was replaced lies properly below the head. -/
def Left (d : Files) (h old : Option CommitId) : Prop :=
  ∃ c, h = some c ∧ ∀ o ∈ old, TransGen d.FirstParent c o

structure HeadOk (d : Files) (h : Option CommitId) : Prop where
  isHead : d.HeadIs h
  stored : ∀ c ∈ h, ∃ commit, d.Stores c commit
  left : ∀ m ∈ d.moves, d.Left h m.old

theorem Left.grow {h old : Option CommitId} (hleft : d.Left h old) (hgrow : d.Grow d') :
    d'.Left h old := by
  obtain ⟨c, rfl, hold⟩ := hleft
  have hmono : ∀ x y, d.FirstParent x y → d'.FirstParent x y := fun _ _ hp => hp.grow hgrow
  exact ⟨c, rfl, fun o ho => TransGen.mono hmono c o (hold o ho)⟩

/-- A head that was replaced is not the head again. -/
theorem Left.ne (hclosed : d.Closed) {h old : Option CommitId} (hleft : d.Left h old) :
    old ≠ h := by
  rintro rfl
  obtain ⟨c, rfl, hold⟩ := hleft
  exact hclosed.acyclic c (hold c rfl)

/-- What holds of the files between any two steps, when all objects come from `used` and only
operations in `faulty` fail. -/
structure Inv (used : Set Bytes) (faulty : Set FileOp) (d : Files) : Prop where
  closed : d.Closed
  used : ∀ id bytes, d.objects id = some bytes → bytes ∈ used
  faulty : ∀ op reason, d.faults op = some reason → op ∈ faulty
  head : ∃ h, d.HeadOk h
  once : d.moves.Pairwise fun a b => a.old ≠ b.old

variable {used : Set Bytes} {faulty : Set FileOp}

theorem Inv.empty : Inv used faulty {} where
  closed := Closed.empty
  used _ _ h := by cases h
  faulty _ _ h := by cases h
  head := ⟨none, rfl, by simp, by simp⟩
  once := List.Pairwise.nil

theorem Inv.headOk (h : d.Inv used faulty) {c : Option CommitId} (hc : d.HeadIs c) : d.HeadOk c := by
  obtain ⟨c', hok⟩ := h.head
  exact hok.isHead.unique hc ▸ hok

/-- Under a hash without collisions an object is only ever replaced by itself. -/
theorem Inv.same (h : d.Inv used faulty) (hused : Set.InjOn Sha256.forBytes used) {id : ContentId}
    {bytes : Bytes} (hbytes : bytes ∈ used) (hhash : Sha256.forBytes bytes = id) :
    ∀ b, d.objects id = some b → b = bytes := fun b hb =>
  hused (h.used id b hb) hbytes ((h.closed.hashed id b hb).trans hhash.symm)

theorem Inv.putObject (h : d.Inv used faulty) (hused : Set.InjOn Sha256.forBytes used)
    {id : ContentId} {bytes : Bytes} (hbytes : bytes ∈ used) (hhash : Sha256.forBytes bytes = id)
    (hrefers : ∀ commit, decodeCommitObject id bytes = .ok (some commit) → d.Refers commit) :
    (d.putObject id bytes).Inv used faulty := by
  have hsame := h.same hused hbytes hhash
  have hgrow : d.Grow (d.putObject id bytes) := grow_putObject hsame
  refine ⟨h.closed.putObject hhash hsame hrefers, fun x b hb => ?_, h.faulty, ?_, h.once⟩
  · by_cases hx : x = id
    · subst hx
      obtain rfl : bytes = b := by simpa [Files.putObject] using hb
      exact hbytes
    · exact h.used x b (by simpa [Files.putObject, hx] using hb)
  · obtain ⟨c, hok⟩ := h.head
    refine ⟨c, hok.isHead, fun x hx => ?_, fun m hm => (hok.left m hm).grow hgrow⟩
    obtain ⟨commit, hcommit⟩ := hok.stored x hx
    exact ⟨commit, hcommit.grow hgrow⟩

theorem Inv.setFaults (h : d.Inv used faulty) {faults : FileOp → Option String}
    (hfaults : ∀ op reason, faults op = some reason → op ∈ faulty) :
    Inv used faulty { d with faults := faults } :=
  ⟨h.closed.congr rfl, h.used, hfaults,
    h.head.imp fun _ hok => ⟨hok.isHead, hok.stored, hok.left⟩, h.once⟩

theorem grow_setHead (d : Files) (pid : ℕ) (old : Option CommitId) (new : CommitId) :
    d.Grow (d.setHead pid old new) := ⟨fun _ _ h => h, List.prefix_append _ _⟩

theorem Inv.setHead (h : d.Inv used faulty) (pid : ℕ) {old : Option CommitId} {new : CommitId}
    {commit : AnyCommit} (hold : d.HeadIs old) (hnew : d.Stores new commit)
    (hparent : commit.parents.head? = old) : (d.setHead pid old new).Inv used faulty := by
  have hok := h.headOk hold
  have hgrow := grow_setHead d pid old new
  -- whatever was left before lies below the old head, which is the parent of the new one
  have hbelow : ∀ m ∈ d.moves, d.Left (some new) m.old := by
    intro m hm
    obtain ⟨c, rfl, hm⟩ := hok.left m hm
    exact ⟨new, rfl, fun o ho => TransGen.head ⟨commit, hnew, hparent⟩ (hm o ho)⟩
  refine ⟨h.closed.congr rfl, h.used, h.faulty, ⟨some new, rfl, ?_, ?_⟩, ?_⟩
  · rintro c hc
    obtain rfl := Option.some.inj hc
    exact ⟨commit, hnew.grow hgrow⟩
  · intro m hm
    rcases List.mem_append.mp hm with hm | hm
    · exact (hbelow m hm).grow hgrow
    · obtain rfl := List.mem_singleton.mp hm
      exact ⟨new, rfl, fun o ho => TransGen.single ⟨commit, hnew.grow hgrow, hparent.trans ho⟩⟩
  · refine List.pairwise_append.mpr ⟨h.once, List.pairwise_singleton _ _, fun a ha b hb => ?_⟩
    obtain rfl := List.mem_singleton.mp hb
    exact (hok.left a ha).ne h.closed

/-! ## What requests assume of each other -/

/-- Request `n` has not moved the head. -/
def Fresh (n : ℕ) (d : Files) : Prop := ∀ m ∈ d.moves, m.pid ≠ n

def Stable : FileLock → Files → Files → Prop
  | .main, d, d' => d'.head = d.head ∧ d'.moves = d.moves

variable (used faulty) in
def discipline : Discipline Files FileLock where
  Inv := Inv used faulty
  Grow := Grow
  Fresh := Fresh
  Stable := Stable
  grow_refl := Grow.refl
  grow_trans := Grow.trans
  stable_refl _ _ := ⟨rfl, rfl⟩
  stable_trans h h' := ⟨h'.1.trans h.1, h'.2.trans h.2⟩

end Files

end CognitiveLedger
