import CognitiveLedger.Store.Runs

/-!
# The size check of prepare

Before it publishes anything, `prepare` computes from the sizes of its base and of
the effective delta how large the candidate's state would be. Every operation of
an effective delta changes the base, so the computed totals are those that a
reconstruction of the candidate counts.
-/

set_option linter.unusedSectionVars false

namespace CognitiveLedger

open ReadCommitted ExceptRules ImmutableRows ReconstructionLimits

/-! ## The totals -/

section Totals

variable [NQuadsParser]

def Operation.size (op : Operation) : ℕ × ℕ × ℕ :=
  match op.kind with
  | .add => (1, quadLineLen op.quad, 0)
  | .delete => (0, 0, quadLineLen op.quad)

theorem deltaSize_eq_sum (ops : List Operation) : deltaSize ops = (ops.map Operation.size).sum := by
  have hfold : deltaSize ops = ops.foldl (fun acc op => acc + op.size) 0 := by
    unfold deltaSize
    congr 1
    funext ⟨n, a, d⟩ ⟨kind, q⟩
    cases kind <;> rfl
  rw [hfold, List.sum_eq_foldl, List.foldl_map]

theorem Operation.mem_apply_of_ne {op : Operation} {state : State} {q : Quad} (h : q ≠ op.quad) :
    q ∈ op.apply state ↔ q ∈ state := by
  obtain ⟨kind, x⟩ := op
  have hx : q ≠ x := h
  cases kind <;> simp [Operation.apply, hx]

theorem Operation.Effective.apply_of_ne {o op : Operation} {state : State}
    (h : o.Effective state) (hne : o.quad ≠ op.quad) : o.Effective (op.apply state) := by
  obtain ⟨kind, q⟩ := o
  cases kind with
  | add => exact fun hmem => h ((mem_apply_of_ne hne).mp hmem)
  | delete => exact (mem_apply_of_ne hne).mpr h

theorem balance_foldl_apply {ops : List Operation} (hquads : ops.Pairwise (·.quad ≠ ·.quad))
    {state : State} (heffective : ∀ op ∈ ops, op.Effective state) :
    (deltaSize ops).1 ≤ ops.length ∧
      (ops.foldl (fun s op => op.apply s) state).card + (ops.length - (deltaSize ops).1) =
        state.card + (deltaSize ops).1 ∧
      (ops.foldl (fun s op => op.apply s) state).lineBytes + (deltaSize ops).2.2 =
        state.lineBytes + (deltaSize ops).2.1 := by
  simp only [deltaSize_eq_sum]
  induction ops generalizing state with
  | nil => simp
  | cons op ops ih =>
      obtain ⟨hop, hrest⟩ := List.forall_mem_cons.mp heffective
      obtain ⟨hne, hpairs⟩ := List.pairwise_cons.mp hquads
      -- the other operations still change what the first one leaves
      obtain ⟨hle, hcard, hbytes⟩ := ih hpairs fun o ho =>
        (hrest o ho).apply_of_ne fun h => hne o ho h.symm
      obtain ⟨kind, q⟩ := op
      cases kind with
      | add =>
          have hq : q ∉ state := hop
          have hcard' := Finset.card_insert_of_notMem hq
          have hbytes' : State.lineBytes (insert q state) = quadLineLen q + state.lineBytes :=
            Finset.sum_insert hq
          simp only [List.map_cons, List.sum_cons, List.length_cons, List.foldl_cons, Operation.size,
            Operation.apply, Prod.fst_add, Prod.snd_add] at *
          omega
      | delete =>
          have hq : q ∈ state := hop
          have hcard' := Finset.card_erase_add_one hq
          have hbytes' : quadLineLen q + State.lineBytes (state.erase q) = state.lineBytes :=
            Finset.add_sum_erase state quadLineLen hq
          simp only [List.map_cons, List.sum_cons, List.length_cons, List.foldl_cons, Operation.size,
            Operation.apply, Prod.fst_add, Prod.snd_add] at *
          omega

/-- The size arithmetic comes out at `quads` and `bytes`, and no subtraction is cut off. -/
structure Predicts (base : Reconstructed) (operations : List Operation) (quads bytes : ℕ) :
    Prop where
  adds : (deltaSize operations).1 ≤ operations.length
  deletes : operations.length - (deltaSize operations).1 ≤ base.state.card + (deltaSize operations).1
  deleted : (deltaSize operations).2.2 ≤ base.bytes + (deltaSize operations).2.1
  quads : base.state.card + (deltaSize operations).1 -
    (operations.length - (deltaSize operations).1) = quads
  bytes : base.bytes + (deltaSize operations).2.1 - (deltaSize operations).2.2 = bytes

theorem Patch.quads_ne (p : Patch) : p.operations.Pairwise (·.quad ≠ ·.quad) := by
  refine (List.pairwise_iff_forall_sublist.mpr fun {a b} hab hq => ?_)
  have hlt : a < b := List.pairwise_iff_forall_sublist.mp p.sorted hab
  have hmem := hab.subset
  have hkind := p.consistent a (hmem (by simp)) b (hmem (by simp)) hq
  exact hlt.ne (by cases a; cases b; simp_all)

theorem effectiveDelta_predicts {base : Reconstructed} (hbytes : base.bytes = base.state.lineBytes)
    {requested effective : Patch} {policy : DeltaPolicy}
    (h : effectiveDelta base.state requested policy = .ok effective) :
    Predicts base effective.operations (applyPatch base.state requested).card
      (applyPatch base.state requested).lineBytes := by
  obtain ⟨hle, hcard, hlines⟩ := balance_foldl_apply effective.quads_ne
    fun op hop => ((mem_effectiveDelta h op).mp hop).2
  rw [← applyPatch_effectiveDelta h]
  change (applyPatch base.state effective).card + _ = _ at hcard
  change (applyPatch base.state effective).lineBytes + _ = _ at hlines
  rw [← hbytes] at hlines
  refine ⟨hle, ?_, ?_, ?_, ?_⟩
  all_goals omega

end Totals

/-! ## The check -/

variable [NQuadsParser] [Sha256] [TimeCrate] [StrDebug]
variable {deployment : Deployment} {line : List Patch} {requested effective : Patch}
variable {isProtected : Bool}

/-- The two checks in turn pass what is within the limits and refuse the rest. -/
theorem checks_spec (limits : ReconstructionLimits) (depth quads bytes : ℕ) {α : Type} (a : α) :
    (depth ≤ limits.maxDepth ∧ quads ≤ limits.maxQuads ∧ bytes ≤ limits.maxBytes →
      (do limits.checkDepth depth; limits.checkState quads bytes; return a) = .ok a) ∧
    (¬ (depth ≤ limits.maxDepth ∧ quads ≤ limits.maxQuads ∧ bytes ≤ limits.maxBytes) → ∃ m,
      (do limits.checkDepth depth; limits.checkState quads bytes; return a) =
        .error (.resourceLimit m)) := by
  rw [← checkDepth_eq_ok_iff, ← checkState_eq_ok_iff]
  cases hdepth : limits.checkDepth depth with
  | error e =>
      obtain ⟨m, rfl⟩ := checkDepth_eq_error hdepth
      exact ⟨fun h => absurd h.1 (by simp), fun _ => ⟨m, rfl⟩⟩
  | ok u =>
      cases hstate : limits.checkState quads bytes with
      | error e =>
          obtain ⟨m, rfl⟩ := checkState_eq_error hstate
          exact ⟨fun h => absurd h.2 (by simp), fun _ => ⟨m, rfl⟩⟩
      | ok u => exact ⟨fun _ => rfl, fun h => absurd ⟨rfl, rfl⟩ h⟩

/-- The computed totals pass exactly if the candidate's line does. -/
theorem effectivePatch_spec (hfits : deployment.limits.Fits line)
    (h : effectiveDelta (replay line) requested (if isProtected then .strict else .permissive) =
      .ok effective) :
    (deployment.limits.Fits (effective :: line) →
      effectivePatch deployment (reconstructed line) requested isProtected = .ok effective) ∧
    (¬ deployment.limits.Fits (effective :: line) → ∃ m,
      effectivePatch deployment (reconstructed line) requested isProtected =
        .error (.resourceLimit m)) := by
  have hpredicts := @effectiveDelta_predicts _ (reconstructed line) rfl _ _ _ h
  have hquads : (replay line).card + _ - _ = (applyPatch (replay line) requested).card :=
    hpredicts.quads
  have hbytes : (replay line).lineBytes + _ - _ = (applyPatch (replay line) requested).lineBytes :=
    hpredicts.bytes
  have heq : effectivePatch deployment (reconstructed line) requested isProtected = (do
      deployment.limits.checkDepth (line.length + 1)
      deployment.limits.checkState (applyPatch (replay line) effective).card
        (applyPatch (replay line) effective).lineBytes
      return effective) := by
    simp only [effectivePatch, reconstructed, h, mapError_ok, ok_bind]
    rw [applyPatch_effectiveDelta h, ← hquads, ← hbytes]
  rw [heq, fits_cons, and_iff_right hfits]
  exact checks_spec ..

theorem effectivePatch_eq_ok (hfits : deployment.limits.Fits line)
    (h : effectivePatch deployment (reconstructed line) requested isProtected = .ok effective) :
    effectiveDelta (replay line) requested (if isProtected then .strict else .permissive) =
      .ok effective ∧ deployment.limits.Fits (effective :: line) := by
  have hok := h
  obtain ⟨delta, hdelta, hrest⟩ := bind_eq_ok.mp h
  obtain ⟨-, -, hrest⟩ := bind_eq_ok.mp hrest
  obtain ⟨-, -, hpure⟩ := bind_eq_ok.mp hrest
  obtain rfl := Except.ok.inj hpure
  have hdelta := mapError_eq_ok.mp hdelta
  refine ⟨hdelta, by_contra fun hfit => ?_⟩
  obtain ⟨m, hm⟩ := (effectivePatch_spec hfits hdelta).2 hfit
  rw [hok] at hm
  cases hm

theorem effectivePatch_eq_resourceLimit (hfits : deployment.limits.Fits line) {m : String}
    (h : effectivePatch deployment (reconstructed line) requested isProtected =
      .error (.resourceLimit m)) :
    ∃ effective, effectiveDelta (replay line) requested
        (if isProtected then .strict else .permissive) = .ok effective ∧
      ¬ deployment.limits.Fits (effective :: line) := by
  cases hdelta : effectiveDelta (replay line) requested
      (if isProtected then .strict else .permissive) with
  | error e =>
      simp only [effectivePatch, reconstructed, hdelta, mapError_error, error_bind] at h
      cases e <;> cases h
  | ok effective =>
      refine ⟨effective, rfl, fun hfit => ?_⟩
      rw [(effectivePatch_spec hfits hdelta).1 hfit] at h
      cases h

/-! ## The candidate -/

theorem Published.replays {rows : ImmutableRows} {patches : List Patch} {c : CommitV2}
    {id : CommitId} (h : Published rows patches c id) {patch : Patch} (hmem : patch ∈ patches)
    (hpatch : c.patch = patch.id) (hline : rows.Replays c.parents.head? line) :
    (rows.insertAll (candidateRows patches c id)).Replays (some id) (patch :: line) := by
  have hext := extends_insertAll (rows.insertAll (patches.map Patch.row)) (publicationOf c id)
  rw [← insertAll_append] at hext
  refine .cons h.decodes ?_ (hline.grow (extends_insertAll ..))
  have hnormalized : (AnyCommit.v2 c.normalized).patch = patch.id := hpatch
  rw [hnormalized, candidateRows, hext.objects _ _ (h.stored patch hmem)]
  exact usePatch_canonicalBytes patch

theorem baseState_of_replays {rows : ImmutableRows} (hrows : rows.Sound) {g : String}
    {expected : Option CommitId} (hexpected : ∀ h, expected = some h → rows.InGraph g h)
    (hline : rows.Replays expected line) (hfits : deployment.limits.Fits line) :
    baseState deployment rows expected = .ok (reconstructed line) := by
  cases expected with
  | none =>
      cases hline
      rfl
  | some head =>
      exact (stateAtOnWindowed_spec hrows (hexpected head rfl) hline deployment.limits
        deployment.windows).1 hfits

theorem PrepareRequest.head?_parents {r : PrepareRequest} {recordedAt : LedgerTimestamp} :
    (r.candidate effective recordedAt).parents.head? = r.expectedHead :=
  Option.head?_toList

/-- What `prepare` computes about a candidate is what a reconstruction of it measures. -/
theorem prepare_predicts_reconstruction :
    -- a published candidate reconstructs, to the base with the request carried out
    (∀ (host : Host) (run : LedgerRun host) (pid : ℕ) (deployment : Deployment)
        (r : PrepareRequest) (start before after : Db),
      .committed pid (.prepare deployment r) start before after ∈ run.log →
      ∃ id base result, r.result id (host.next .proposals pid) ∈ after.idempotency ∧
        (∀ windows, baseState { deployment with windows := windows } run.db.rows r.expectedHead =
          .ok base) ∧
        (∀ windows, stateAtOnWindowed run.db.rows id deployment.limits windows = .ok result) ∧
        (∀ q, q ∈ result.state ↔ ⟨.add, q⟩ ∈ r.requested.operations ∨
          (q ∈ base.state ∧ ⟨.delete, q⟩ ∉ r.requested.operations)) ∧
        ∃ policy delta, effectiveDelta base.state r.requested policy = .ok delta ∧
          Predicts base delta.operations result.state.card result.bytes ∧
          result.depth = base.depth + 1) ∧
    -- a candidate refused for its size would not reconstruct
    (∀ (deployment : Deployment) (rows : ImmutableRows) (r : PrepareRequest) base isProtected m,
      rows.Sound → (∀ h, r.expectedHead = some h → rows.InGraph r.scope.graph.asStr h) →
      baseState deployment rows r.expectedHead = .ok base →
      effectivePatch deployment base r.requested isProtected = .error (.resourceLimit m) →
      ∃ delta, effectiveDelta base.state r.requested
          (if isProtected then .strict else .permissive) = .ok delta ∧
        Predicts base delta.operations (applyPatch base.state r.requested).card
          (applyPatch base.state r.requested).lineBytes ∧
        ∀ recordedAt id, Published rows [r.requested, delta] (r.candidate delta recordedAt) id →
          ∀ windows, ∃ m', stateAtOnWindowed (rows.insertAll (candidateRows [r.requested, delta]
            (r.candidate delta recordedAt) id)) id deployment.limits windows =
              .error (.resourceLimit m')) := by
  refine ⟨fun host run pid deployment r start before after hevent => ?_,
    fun deployment rows r base isProtected m hrows hexpected hbase hlimit => ?_⟩
  · have hshows := run.shows_of_committed hevent
    obtain ⟨effective, recordedAt, id, h⟩ := hshows.effect
    obtain ⟨line, isProtected, hline, hfits, heffective⟩ := h.delta
    obtain ⟨hdelta, hcandidate⟩ := effectivePatch_eq_ok hfits heffective
    have hrows : run.db.rows.Sound := run.inv.rows
    have hext : after.rows.Extends run.db.rows := hshows.later.rows
    have hexpected : ∀ x, r.expectedHead = some x → run.db.rows.InGraph r.scope.graph.asStr x :=
      fun x hx => (((h.expected x hx).inGraph hshows.inv).grow hshows.grow.rows).grow hext
    have hreplays : after.rows.Replays (some id) (effective :: line) := by
      rw [h.after]
      exact h.published.replays (by simp) rfl (PrepareRequest.head?_parents ▸ hline)
    have hin : after.rows.InGraph r.scope.graph.asStr id := by
      rw [h.after]
      exact h.published.inGraph
    refine ⟨id, reconstructed line, reconstructed (effective :: line), ?_, fun windows => ?_,
      fun windows => ?_, fun q => ?_, _, effective, hdelta, ?_, rfl⟩
    · rw [h.after]
      exact List.mem_append_right _ (List.mem_singleton_self _)
    · exact baseState_of_replays hrows hexpected ((hline.grow hshows.grow.rows).grow hext) hfits
    · exact (stateAtOnWindowed_spec hrows (hin.grow hext) (hreplays.grow hext) deployment.limits
        windows).1 hcandidate
    · change q ∈ applyPatch (replay line) effective ↔ _
      rw [applyPatch_effectiveDelta hdelta]
      exact mem_applyPatch ..
    · have hpredicts : Predicts (reconstructed line) effective.operations
          (applyPatch (replay line) r.requested).card
          (applyPatch (replay line) r.requested).lineBytes := effectiveDelta_predicts rfl hdelta
      rwa [← applyPatch_effectiveDelta hdelta] at hpredicts
  · obtain ⟨line, hline, hfits, rfl⟩ := baseState_eq_ok hrows hexpected hbase
    obtain ⟨delta, hdelta, hlong⟩ := effectivePatch_eq_resourceLimit hfits hlimit
    refine ⟨delta, hdelta, effectiveDelta_predicts rfl hdelta, fun recordedAt id hpub windows => ?_⟩
    have hreplays := hpub.replays (by simp) rfl (PrepareRequest.head?_parents ▸ hline)
    exact (stateAtOnWindowed_spec (hpub.sound hrows) hpub.inGraph hreplays deployment.limits
      windows).2 hlong

end CognitiveLedger
