import CognitiveLedger.Store.Reconstruct

/-!
# The windowed walk refines the scalar walk

A window is a non-empty prefix of the rows that follow the position-0 parent
rows from its anchor. Where those rows agree with the bytes of the commits the
walk meets, consuming a window is the same computation as the scalar loop on
those commits, errors included; the two walks then agree across any number of
windows, whatever their size and byte budget. A row that disagrees with the
bytes makes the windowed walk fail, so a state it returns is always the scalar
one.
-/

namespace CognitiveLedger

open ExceptRules

variable [NQuadsParser] [Sha256] [TimeCrate] [StrDebug]

section Windows

omit [NQuadsParser] [Sha256] [TimeCrate] [StrDebug]

theorem cutRows_spent {α : Type} (size : α → Option Nat) {budget spent : Nat}
    (h : budget ≤ spent) (l : List α) : cutRows size budget (some spent) l = [] := by
  induction l generalizing spent with
  | nil => rfl
  | cons row rest ih =>
      have hstop : ¬ spent < budget := not_lt.mpr h
      cases hsize : size row with
      | none => simp [cutRows, hsize, hstop, ih h]
      | some n => simp [cutRows, hsize, hstop, ih (le_add_right h)]

theorem cutRows_isPrefix {α : Type} (size : α → Option Nat) (budget : Nat)
    (before : Option Nat) (l : List α) : cutRows size budget before l <+: l := by
  induction l generalizing before with
  | nil => exact List.prefix_refl _
  | cons row rest ih =>
      by_cases hkeep : before.all (· < budget) = true
      · rw [cutRows, if_pos hkeep]
        exact (List.cons_prefix_cons).mpr ⟨rfl, ih _⟩
      · cases before with
        | none => exact absurd rfl hkeep
        | some spent =>
            have hspent : budget ≤ spent := by simpa using hkeep
            rw [cutRows_spent size hspent]
            exact List.nil_prefix

theorem cutRows_ne_nil {α : Type} (size : α → Option Nat) (budget : Nat) (row : α)
    (rest : List α) : cutRows size budget none (row :: rest) ≠ [] := by
  simp [cutRows]

/-- The rows a window may serve: each commit with its parent row and bytes, as
long as parent rows lead on. -/
def servedRows (rows : ImmutableRows) : Nat → String → List ChainRow
  | 0, _ => []
  | n + 1, id =>
      ⟨id, rows.commitParents id 0, rows.objects id⟩ ::
        match rows.commitParents id 0 with
        | none => []
        | some parent => servedRows rows n parent

theorem hinted_chainIds (rows : ImmutableRows) (n : Nat) (id : String) :
    ((hinted (chainIds rows n id)).take n).map
      (fun r => (⟨r.1, r.2, rows.objects r.1⟩ : ChainRow)) = servedRows rows n id := by
  induction n generalizing id with
  | zero => rfl
  | succ n ih =>
      cases hparent : rows.commitParents id 0 with
      | none => simp [chainIds, hinted, servedRows, hparent]
      | some parent =>
          obtain ⟨tail, htail⟩ : ∃ tail, chainIds rows n parent = parent :: tail := by
            cases n <;> exact ⟨_, rfl⟩
          have hrest := ih parent
          rw [htail] at hrest
          simp [chainIds, htail, hinted, servedRows, hparent, hrest]

theorem chainStatement_eq (rows : ImmutableRows) (anchor : String) (maxRows maxBytes : Nat) :
    chainStatement rows anchor maxRows maxBytes =
      cutRows (fun r => r.2.bytes.map List.length) maxBytes none
        ((servedRows rows maxRows anchor).zipIdx.map fun r => (r.2, r.1)) := by
  rw [chainStatement, ← hinted_chainIds, List.zipIdx_map]
  simp [List.map_map, Function.comp_def]

theorem checkChainReply_eq_ok (anchor : CommitId) {l : List ChainRow} {k : Nat}
    {reply : List (Nat × ChainRow)} (hfront : reply <+: (l.zipIdx k).map fun r => (r.2, r.1))
    (hanchor : k = 0 → ∀ row ∈ l.head?, row.id = anchor.text) :
    checkChainReply anchor k reply = .ok (reply.map Prod.snd) ∧ reply.map Prod.snd <+: l := by
  induction l generalizing k reply with
  | nil =>
      obtain rfl : reply = [] := by simpa using hfront
      exact ⟨rfl, List.prefix_refl _⟩
  | cons row l ih =>
      cases reply with
      | nil => exact ⟨rfl, List.nil_prefix⟩
      | cons first reply =>
          simp only [List.zipIdx_cons, List.map_cons, List.cons_prefix_cons] at hfront
          obtain ⟨rfl, hrest⟩ := hfront
          obtain ⟨hok, hpre⟩ := ih hrest (fun hk => absurd hk (Nat.succ_ne_zero k))
          have hfirst : k = 0 → row.id = anchor.text := fun hk => hanchor hk row rfl
          refine ⟨?_, List.cons_prefix_cons.mpr ⟨rfl, hpre⟩⟩
          simp [checkChainReply, ensure_pos hfirst, hok]

theorem fetchFirstParentWindow_eq_ok (rows : ImmutableRows) (anchor : CommitId)
    (maxRows : Nat) (windows : RetrievalWindows) :
    ∃ window n, fetchFirstParentWindow rows anchor maxRows windows = .ok window ∧
      window ≠ [] ∧ window <+: servedRows rows n anchor.text := by
  obtain ⟨n, hn⟩ : ∃ n, toI64 (max 1 (min maxRows windows.checked.objects)) = n + 1 := by
    refine Nat.exists_eq_succ_of_ne_zero ?_
    unfold toI64
    omega
  have hstmt := chainStatement_eq rows anchor.text (n + 1) (toI64 windows.checked.bytes)
  have hfront := cutRows_isPrefix (fun r : Nat × ChainRow => r.2.bytes.map List.length)
    (toI64 windows.checked.bytes) none
    ((servedRows rows (n + 1) anchor.text).zipIdx.map fun r => (r.2, r.1))
  have hne : chainStatement rows anchor.text (n + 1) (toI64 windows.checked.bytes) ≠ [] := by
    rw [hstmt, servedRows, List.zipIdx_cons, List.map_cons]
    exact cutRows_ne_nil _ _ _ _
  rw [← hstmt] at hfront
  obtain ⟨hok, hpre⟩ := checkChainReply_eq_ok anchor hfront
    (fun _ row hrow => by
      cases hrow
      rfl)
  refine ⟨_, n + 1, ?_, by simpa using hne, hpre⟩
  simp only [fetchFirstParentWindow, hn, hok, ok_bind]
  rw [ensure_pos (by simpa using hne)]
  rfl

def Follows (rows : ImmutableRows) : String → List ChainRow → Prop
  | _, [] => True
  | id, row :: rest =>
      row = ⟨id, rows.commitParents id 0, rows.objects id⟩ ∧
        (rest = [] ∨ ∃ parent, rows.commitParents id 0 = some parent ∧ Follows rows parent rest)

theorem follows_servedRows {rows : ImmutableRows} {n : Nat} {id : String}
    {window : List ChainRow} (h : window <+: servedRows rows n id) : Follows rows id window := by
  induction n generalizing id window with
  | zero =>
      obtain rfl : window = [] := by simpa [servedRows] using h
      exact trivial
  | succ n ih =>
      cases window with
      | nil => exact trivial
      | cons row rest =>
          rw [servedRows, List.cons_prefix_cons] at h
          obtain ⟨rfl, hrest⟩ := h
          refine ⟨rfl, ?_⟩
          cases hparent : rows.commitParents id 0 with
          | none =>
              rw [hparent] at hrest
              exact Or.inl (by simpa using hrest)
          | some parent =>
              rw [hparent] at hrest
              exact Or.inr ⟨parent, rfl, ih hrest⟩

end Windows

/-- Along the first `n` commits of the first-parent chain, every position-0
parent row is absent or is parent 0 of the commit's bytes. -/
def RowsAgree (rows : ImmutableRows) : Nat → Option CommitId → Prop
  | 0, _ => True
  | _ + 1, none => True
  | n + 1, some id =>
      ∀ commit, useCommit id (rows.objects id.text) = .ok commit →
        (∀ hint, rows.commitParents id.text 0 = some hint →
          commit.parents.head?.map CommitId.text = some hint) ∧
        RowsAgree rows n commit.parents.head?

omit [Sha256] [TimeCrate] [StrDebug] [NQuadsParser] in
theorem not_contradicted_iff (parent : Option CommitId) (nextHint : Option String) :
    ¬ contradicted parent nextHint ↔
      ∀ hint, nextHint = some hint → parent.map CommitId.text = some hint := by
  cases parent <;> cases nextHint <;> simp [contradicted]

omit [Sha256] [TimeCrate] [StrDebug] [NQuadsParser] in
theorem checkDepth_eq_ok_iff (limits : ReconstructionLimits) (depth : Nat) :
    limits.checkDepth depth = .ok () ↔ depth ≤ limits.maxDepth := by
  unfold ReconstructionLimits.checkDepth
  by_cases h : depth > limits.maxDepth
  · simp [h, not_le.mpr h]
  · simp [h, not_lt.mp h]

omit [NQuadsParser] in
theorem chainScalar_fuel {rows : ImmutableRows} {limits : ReconstructionLimits}
    {fuel fuel' : Nat} {seen : List CommitId} (hseen : seen.length ≤ limits.maxDepth)
    (h : limits.maxDepth < fuel + seen.length) (h' : limits.maxDepth < fuel' + seen.length)
    (cursor : Option CommitId) :
    chainScalar rows limits fuel seen cursor = chainScalar rows limits fuel' seen cursor := by
  induction fuel generalizing fuel' seen cursor with
  | zero => omega
  | succ fuel ih =>
      obtain ⟨fuel', rfl⟩ : ∃ m, fuel' = m + 1 :=
        Nat.exists_eq_succ_of_ne_zero (by omega)
      cases cursor with
      | none => rfl
      | some current =>
          by_cases hdepth : (current :: seen).length ≤ limits.maxDepth
          · have hrest : ∀ next, chainScalar rows limits fuel (current :: seen) next =
                chainScalar rows limits fuel' (current :: seen) next := fun next =>
              ih hdepth (by simp only [List.length_cons]; omega)
                (by simp only [List.length_cons]; omega) next
            simp only [chainScalar, hrest]
          · have hstop : limits.checkDepth (current :: seen).length =
                .error limits.depthExceeded := if_pos (not_le.mp hdepth)
            simp only [chainScalar, hstop, error_bind]

omit [NQuadsParser] in
/-- Consuming a window and going on is the scalar loop, when going on from the
window's end is. -/
theorem consumeRows_bind {rows : ImmutableRows} {limits : ReconstructionLimits}
    {window : List ChainRow} {expected : CommitId} {seen : List CommitId} {fuel n : Nat}
    (hfollow : Follows rows expected.text window) (hne : window ≠ [])
    (hseen : seen.length ≤ limits.maxDepth) (hfuel : limits.maxDepth < fuel + seen.length)
    (hagree : RowsAgree rows n (some expected)) (hn : limits.maxDepth ≤ n + seen.length)
    (cursor : Option CommitId)
    (go : List CommitId → Option CommitId → Except LedgerError (List PatchId))
    (hgo : ∀ seen' cursor' n', seen.length < seen'.length → seen'.length ≤ limits.maxDepth →
      RowsAgree rows n' cursor' → limits.maxDepth ≤ n' + seen'.length →
      go seen' cursor' = chainScalar rows limits fuel seen' cursor') :
    (do
      let r ← consumeRows limits window expected seen cursor
      let rest ← go r.1 r.2.2
      return r.2.1 ++ rest) = chainScalar rows limits fuel seen (some expected) := by
  induction window generalizing expected seen n cursor with
  | nil => exact absurd rfl hne
  | cons row rest ih =>
      obtain ⟨rfl, hrest⟩ := hfollow
      obtain ⟨fuel, rfl⟩ : ∃ m, fuel = m + 1 := Nat.exists_eq_succ_of_ne_zero (by omega)
      have hlen : (expected :: seen).length = seen.length + 1 := rfl
      rw [consumeRows, chainScalar]
      -- the two loops make the same tests in the same order up to the hint
      by_cases hcycle : expected ∈ seen
      · simp [hcycle]
      by_cases hdepth : (expected :: seen).length ≤ limits.maxDepth
      swap
      · have hstop : limits.checkDepth (expected :: seen).length =
            .error limits.depthExceeded := if_pos (not_le.mp hdepth)
        simp only [ensure_true, ensure_pos hcycle, hstop, ok_bind, error_bind]
      have hpass := (checkDepth_eq_ok_iff limits _).mpr hdepth
      cases hcommit : useCommit expected (rows.objects expected.text) with
      | error e => simp only [ensure_true, ensure_pos hcycle, hpass, ok_bind, error_bind]
      | ok commit =>
          obtain ⟨n, rfl⟩ : ∃ m, n = m + 1 := Nat.exists_eq_succ_of_ne_zero (by omega)
          obtain ⟨hrow, hnext⟩ := hagree commit hcommit
          have hhint := (not_contradicted_iff commit.parents.head?
            (rows.commitParents expected.text 0)).mpr hrow
          have hfuel' : limits.maxDepth < fuel + (expected :: seen).length := by omega
          have hfuel'' : limits.maxDepth < fuel + 1 + (expected :: seen).length := by omega
          have htail : (do
              let r ← consumeRows limits rest (commit.parents.head?.getD expected)
                (expected :: seen) commit.parents.head?
              let tail ← go r.1 r.2.2
              return r.2.1 ++ tail) =
              chainScalar rows limits (fuel + 1) (expected :: seen) commit.parents.head? := by
            by_cases hnil : rest = []
            · have hend := hgo (expected :: seen) commit.parents.head? n (by omega) hdepth hnext
                (by omega)
              cases hrun : chainScalar rows limits (fuel + 1) (expected :: seen)
                commit.parents.head? <;> simp [hnil, consumeRows, hend, hrun]
            · obtain ⟨parent, hparent, hrest⟩ := hrest.resolve_left hnil
              obtain ⟨decoded, hdecoded, rfl⟩ := Option.map_eq_some_iff.mp (hrow parent hparent)
              rw [hdecoded] at hnext ⊢
              exact ih hrest hnil hdepth hfuel'' hnext (by omega) _
                fun seen' cursor' n' hlt => hgo seen' cursor' n' (by omega)
          simp only [ensure_true, ensure_pos hcycle, hpass, ensure_pos hhint, ok_bind]
          rw [chainScalar_fuel hdepth hfuel' hfuel'', ← htail]
          cases consumeRows limits rest (commit.parents.head?.getD expected) (expected :: seen)
            commit.parents.head? with
          | error e => rfl
          | ok r => cases hrun : go r.1 r.2.2 <;> simp [hrun]

omit [NQuadsParser] in
theorem chainWindowed_eq_chainScalar {rows : ImmutableRows} {limits : ReconstructionLimits}
    {fuel n : Nat} {seen : List CommitId} (windows : RetrievalWindows)
    (hseen : seen.length ≤ limits.maxDepth) (hfuel : limits.maxDepth < fuel + seen.length)
    {cursor : Option CommitId} (hagree : RowsAgree rows n cursor)
    (hn : limits.maxDepth ≤ n + seen.length) :
    chainWindowed rows limits windows fuel seen cursor =
      chainScalar rows limits fuel seen cursor := by
  induction fuel generalizing seen cursor n with
  | zero => omega
  | succ fuel ih =>
      cases cursor with
      | none => rfl
      | some anchor =>
          by_cases hfull : seen.length ≥ limits.maxDepth
          · -- the limit is reached: the scalar loop stops at the same two tests
            have hstop : limits.checkDepth (anchor :: seen).length =
                .error limits.depthExceeded := if_pos (Nat.lt_succ_of_le hfull)
            simp only [chainWindowed, chainScalar, if_pos hfull, hstop, error_bind]
          · obtain ⟨window, k, hfetch, hne, hwindow⟩ := fetchFirstParentWindow_eq_ok rows anchor
              (min windows.objects (limits.maxDepth - seen.length)) windows
            simp only [chainWindowed, if_neg hfull, hfetch, ok_bind]
            refine consumeRows_bind (follows_servedRows hwindow) hne hseen hfuel hagree hn none
              (chainWindowed rows limits windows fuel) fun seen' cursor' n' hlt hle hagree' hn' => ?_
            rw [ih hle (by omega) hagree' hn']
            exact chainScalar_fuel hle (by omega) (by omega) cursor'

omit [NQuadsParser] in
theorem rowsAgree_of_consumeRows {rows : ImmutableRows} {limits : ReconstructionLimits}
    {window : List ChainRow} {expected : CommitId} {seen seen' : List CommitId}
    {cursor cursor' : Option CommitId} {front : List PatchId}
    (hfollow : Follows rows expected.text window) (hne : window ≠ [])
    (h : consumeRows limits window expected seen cursor = .ok (seen', front, cursor'))
    (hend : ∀ n, RowsAgree rows n cursor') (n : Nat) : RowsAgree rows n (some expected) := by
  induction window generalizing expected seen cursor front n with
  | nil => exact absurd rfl hne
  | cons row rest ih =>
      obtain ⟨rfl, hrest⟩ := hfollow
      rw [consumeRows] at h
      simp only [bind_eq_ok] at h
      obtain ⟨_, -, _, -, _, -, commit, hcommit, _, hhint, r, hr, h⟩ := h
      cases h
      have hrow := (not_contradicted_iff _ _).mp (ensure_eq_ok.mp hhint)
      cases n with
      | zero => exact trivial
      | succ n =>
          intro commit' hcommit'
          rw [hcommit] at hcommit'
          cases hcommit'
          refine ⟨hrow, ?_⟩
          by_cases hnil : rest = []
          · subst hnil
            cases hr
            exact hend n
          · obtain ⟨parent, hparent, hrest⟩ := hrest.resolve_left hnil
            obtain ⟨decoded, hdecoded, rfl⟩ := Option.map_eq_some_iff.mp (hrow parent hparent)
            rw [hdecoded] at hr ⊢
            exact ih hrest hnil hr n

omit [NQuadsParser] in
/-- A walk that ends without error met only rows that agree. -/
theorem rowsAgree_of_chainWindowed {rows : ImmutableRows} {limits : ReconstructionLimits}
    {windows : RetrievalWindows} {fuel : Nat} {seen : List CommitId} {cursor : Option CommitId}
    {chain : List PatchId} (h : chainWindowed rows limits windows fuel seen cursor = .ok chain)
    (n : Nat) : RowsAgree rows n cursor := by
  induction fuel generalizing seen cursor chain n with
  | zero =>
      cases cursor with
      | none => cases n <;> exact trivial
      | some anchor => cases h
  | succ fuel ih =>
      cases cursor with
      | none => cases n <;> exact trivial
      | some anchor =>
          by_cases hfull : seen.length ≥ limits.maxDepth
          · rw [chainWindowed, if_pos hfull, bind_unit_eq_ok] at h
            cases h.2
          · obtain ⟨window, k, hfetch, hne, hwindow⟩ := fetchFirstParentWindow_eq_ok rows anchor
              (min windows.objects (limits.maxDepth - seen.length)) windows
            simp only [chainWindowed, if_neg hfull, hfetch, ok_bind, bind_eq_ok] at h
            obtain ⟨⟨seen', front, cursor'⟩, hconsume, rest, hrest, -⟩ := h
            exact rowsAgree_of_consumeRows (follows_servedRows hwindow) hne hconsume
              (fun m => ih hrest m) n

section Patches

omit [TimeCrate] [StrDebug]

omit [NQuadsParser] [Sha256] in
theorem checkObjectsReply_eq_ok (rows : ImmutableRows) (ids : List ContentId) (k : Nat)
    {reply : List (Nat × String × Option Bytes)}
    (hfront : reply <+: (ids.zipIdx k).map fun r => (r.2 + 1, r.1.text, rows.objects r.1.text)) :
    ∃ m, reply.length = m ∧ m ≤ ids.length ∧ checkObjectsReply k ids reply =
      .ok ((ids.take m).map fun id => rows.objects id.text) := by
  induction ids generalizing k reply with
  | nil =>
      obtain rfl : reply = [] := by simpa using hfront
      exact ⟨0, rfl, Nat.le_refl _, rfl⟩
  | cons id ids ih =>
      cases reply with
      | nil => exact ⟨0, rfl, Nat.zero_le _, rfl⟩
      | cons first reply =>
          simp only [List.zipIdx_cons, List.map_cons, List.cons_prefix_cons] at hfront
          obtain ⟨rfl, hrest⟩ := hfront
          obtain ⟨m, hlen, hle, hok⟩ := ih _ hrest
          refine ⟨m + 1, by simp [hlen], by simpa using hle, ?_⟩
          simp [checkObjectsReply, hok]

omit [NQuadsParser] [Sha256] in
theorem fetchObjectsWindow_eq_ok (rows : ImmutableRows) (ids : List ContentId)
    (hne : ids ≠ []) (windows : RetrievalWindows) (hlen : ids.length ≤ windows.checked.objects) :
    ∃ m, 0 < m ∧ m ≤ ids.length ∧ fetchObjectsWindow rows ids windows =
      .ok ((ids.take m).map fun id => rows.objects id.text) := by
  have hserved : objectsStatement rows ids (toI64 windows.checked.bytes) ≠ [] := by
    cases ids with
    | nil => exact absurd rfl hne
    | cons id ids => exact cutRows_ne_nil _ _ _ _
  obtain ⟨m, hm, hle, hok⟩ := checkObjectsReply_eq_ok rows ids 0
    (cutRows_isPrefix _ _ none _)
  refine ⟨m, ?_, hle, ?_⟩
  · rw [← hm]
    exact List.length_pos_iff.mpr hserved
  · have hnonempty : ¬ ids.isEmpty = true := by simpa using hne
    simp only [fetchObjectsWindow, hnonempty, ensure_pos hlen, ok_bind, Bool.false_eq_true,
      if_false]
    rw [ensure_pos (by simpa using hserved)]
    exact hok

omit [NQuadsParser] [Sha256] in
theorem zip_map_take {α β : Type} (f : α → β) (l : List α) (m : Nat) :
    l.zip ((l.take m).map f) = (l.take m).map fun a => (a, f a) := by
  induction l generalizing m with
  | nil => simp
  | cons a l ih =>
      cases m with
      | zero => simp
      | succ m => simpa using ih m

theorem foldServed_eq (rows : ImmutableRows) (limits : ReconstructionLimits)
    (ids : List PatchId) (acc : State × Nat) :
    foldServed limits (ids.map fun id => (id, rows.objects id.text)) acc =
      foldScalar rows limits ids acc := by
  induction ids generalizing acc with
  | nil => rfl
  | cons id ids ih => simp only [List.map_cons, foldServed, foldScalar, ih]

theorem foldScalar_append (rows : ImmutableRows) (limits : ReconstructionLimits)
    (front back : List PatchId) (acc : State × Nat) :
    foldScalar rows limits (front ++ back) acc =
      foldScalar rows limits front acc >>= foldScalar rows limits back := by
  induction front generalizing acc with
  | nil => rfl
  | cons id front ih =>
      simp only [List.cons_append, foldScalar]
      cases usePatch id (rows.objects id.text) with
      | error e => rfl
      | ok patch =>
          cases hacc : applyBounded acc.1 acc.2 patch limits with
          | error e => simp [hacc]
          | ok acc' => simp [hacc, ih]

theorem foldWindowed_eq_foldScalar (rows : ImmutableRows) (limits : ReconstructionLimits)
    {windows : RetrievalWindows} (hwindows : windows.checked = windows) {fuel : Nat}
    {order : List PatchId} (hfuel : order.length ≤ fuel) (acc : State × Nat) :
    foldWindowed rows limits windows fuel order acc = foldScalar rows limits order acc := by
  induction fuel generalizing order acc with
  | zero =>
      obtain rfl : order = [] := List.length_eq_zero_iff.mp (Nat.le_zero.mp hfuel)
      rfl
  | succ fuel ih =>
      cases order with
      | nil => rfl
      | cons id order =>
          have hpos : 0 < windows.objects := by
            rw [← hwindows]
            exact lt_max_of_lt_right Nat.one_pos
          obtain ⟨m, hm, hle, hfetch⟩ := fetchObjectsWindow_eq_ok rows
            (((id :: order).take windows.objects).map PatchId.content)
            (by simp [hpos.ne']) windows (by simp [hwindows])
          rw [List.length_map, List.length_take] at hle
          have hserved : (((((id :: order).take windows.objects).map PatchId.content).take m).map
              fun i => rows.objects i.text) =
              ((id :: order).take m).map fun p => rows.objects p.text := by
            rw [← List.map_take, List.take_take, Nat.min_eq_left (by omega), List.map_map]
            rfl
          rw [hserved] at hfetch
          have hlen : (((id :: order).take m).map fun p => rows.objects p.text).length = m := by
            rw [List.length_map, List.length_take]
            omega
          have hdrop : ((id :: order).drop m).length ≤ fuel := by
            rw [List.length_drop]
            omega
          simp only [foldWindowed, hfetch, ok_bind, hlen, zip_map_take, foldServed_eq]
          conv_rhs => rw [← List.take_append_drop m (id :: order), foldScalar_append]
          simp only [ih hdrop]

end Patches

theorem stateAtOnWindowed_eq_scalar {rows : ImmutableRows} {head : CommitId}
    {limits : ReconstructionLimits} (windows : RetrievalWindows)
    (hagree : RowsAgree rows limits.maxDepth (some head)) :
    stateAtOnWindowed rows head limits windows = stateAtOnScalar rows head limits := by
  have hchecked : windows.checked.checked = windows.checked := by
    simp [RetrievalWindows.checked]
  have hchain : chainWindowed rows limits windows.checked (limits.maxDepth + 1) [] (some head) =
      chainScalar rows limits (limits.maxDepth + 1) [] (some head) :=
    chainWindowed_eq_chainScalar windows.checked (Nat.zero_le _) (Nat.lt_succ_self _) hagree
      (Nat.le_add_right _ _)
  simp only [stateAtOnWindowed, stateAtOnScalar, hchain]
  cases chainScalar rows limits (limits.maxDepth + 1) [] (some head) with
  | error e => rfl
  | ok chain =>
      have hlen : chain.reverse.length ≤ chain.length := List.length_reverse.le
      simp only [ok_bind, foldWindowed_eq_foldScalar rows limits hchecked hlen]

/-- The two reconstructions: equal where the position-0 parent rows met on the
chain agree with the commits' bytes; an error of the windowed one where a row
disagrees; and a state the windowed one returns is always the scalar one. -/
theorem stateAtOnWindowed_refines_scalar (rows : ImmutableRows) (head : CommitId)
    (limits : ReconstructionLimits) (windows : RetrievalWindows) :
    (RowsAgree rows limits.maxDepth (some head) →
      stateAtOnWindowed rows head limits windows = stateAtOnScalar rows head limits) ∧
    (¬ RowsAgree rows limits.maxDepth (some head) →
      ∃ e, stateAtOnWindowed rows head limits windows = .error e) ∧
    (∀ r, stateAtOnWindowed rows head limits windows = .ok r →
      stateAtOnScalar rows head limits = .ok r) := by
  have hok : ∀ r, stateAtOnWindowed rows head limits windows = .ok r →
      RowsAgree rows limits.maxDepth (some head) := by
    intro r hr
    simp only [stateAtOnWindowed, bind_eq_ok] at hr
    obtain ⟨chain, hchain, -⟩ := hr
    exact rowsAgree_of_chainWindowed hchain _
  refine ⟨stateAtOnWindowed_eq_scalar windows, fun hdisagree => ?_, fun r hr => ?_⟩
  · cases hrun : stateAtOnWindowed rows head limits windows with
    | error e => exact ⟨e, rfl⟩
    | ok r => exact absurd (hok r hrun) hdisagree
  · rw [← stateAtOnWindowed_eq_scalar windows (hok r hr)]
    exact hr

end CognitiveLedger
