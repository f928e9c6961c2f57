import CognitiveLedger.Dag.Walk

/-!
# What a bounded walk finds

For a provider whose windows agree with its parents, a search from `head` that
completes has entered exactly the ancestors of `head`. A search that fails names
an ancestor that is unknown or lies on a cycle, or it ran into a limit.
-/

namespace CognitiveLedger

open Relation Lineage ExceptRules

variable {κ ε σ : Type}

namespace ParentProvider

/-- `p` is one of the parents the provider gives for `c`. -/
def Parent (provider : ParentProvider κ ε) (c p : κ) : Prop :=
  ∃ ps, provider.parents c = .ok (some ps) ∧ p ∈ ps

/-- The windows of kind `kind` agree with `parents`: every entry has its commit's parents, the
start is missing only when it is unknown, and an error is the start's own. -/
structure Honest (provider : ParentProvider κ ε) (kind : WindowKind) : Prop where
  entries : ∀ {start n window}, provider.ancestryWindow start n kind = .ok window →
    ∀ entry ∈ window, provider.parents entry.1 = .ok (some entry.2)
  start : ∀ {start n window}, provider.ancestryWindow start n kind = .ok window →
    (∀ entry ∈ window, entry.1 ≠ start) → provider.parents start = .ok none
  error : ∀ {start n e}, provider.ancestryWindow start n kind = .error e →
    provider.parents start = .error e

theorem parent_iff {provider : ParentProvider κ ε} {c p : κ} {ps : List κ}
    (h : provider.parents c = .ok (some ps)) : provider.Parent c p ↔ p ∈ ps := by
  simp [Parent, h]

end ParentProvider

namespace Walk

variable {provider : ParentProvider κ ε} {limits : TraversalLimits} {kind : WindowKind}
variable {w w' : Walk κ} {head id : κ} {wanted : ℕ} {recording : Bool}

theorem checkDeadline_cases (limits : TraversalLimits) (w : Walk κ) :
    (∃ n, w.checkDeadline limits = (.ok { w with checks := n } : Except (DagError κ ε) _)) ∨
      (w.checkDeadline limits = (.error .deadline : Except (DagError κ ε) _) ∧
        limits.deadline ≠ none) := by
  unfold checkDeadline
  cases limits.deadline with
  | none => exact Or.inl ⟨w.checks, rfl⟩
  | some passing =>
      by_cases h : passing ≤ w.checks
      · exact Or.inr ⟨if_pos h, by simp⟩
      · exact Or.inl ⟨w.checks + 1, if_neg h⟩

def Prefetches [DecidableEq κ] (provider : ParentProvider κ ε) (w : Walk κ) : Prop :=
  ∀ c ps, w.prefetched.lookup c = some ps → provider.parents c = .ok (some ps)

variable [DecidableEq κ]

@[simp] theorem keep_colour (entry : κ × List κ) : (w.keep limits id entry).colour = w.colour := by
  unfold keep
  split_ifs <;> rfl

@[simp] theorem keep_record (entry : κ × List κ) : (w.keep limits id entry).record = w.record := by
  unfold keep
  split_ifs <;> rfl

theorem prefetches_keep (limits : TraversalLimits) (id : κ) {entry : κ × List κ}
    (h : w.Prefetches provider) (hentry : provider.parents entry.1 = .ok (some entry.2)) :
    (w.keep limits id entry).Prefetches provider := by
  unfold keep
  split_ifs with _ _ hmem
  · exact h
  · exact h
  · intro c ps hc
    by_cases hce : c = entry.1
    · subst hce
      rw [AList.lookup_insert] at hc
      obtain rfl := Option.some.inj hc
      exact hentry
    · rw [AList.lookup_insert_ne hce] at hc
      exact h c ps hc
  · exact h

/-- Keeping a window's entries changes the prefetched map only, and keeps it honest. -/
theorem foldl_keep (limits : TraversalLimits) (id : κ) {window : List (κ × List κ)}
    (h : w.Prefetches provider)
    (hwindow : ∀ entry ∈ window, provider.parents entry.1 = .ok (some entry.2)) :
    (window.foldl (keep limits · id) w).Prefetches provider ∧
      (window.foldl (keep limits · id) w).colour = w.colour ∧
      (window.foldl (keep limits · id) w).record = w.record := by
  induction window generalizing w with
  | nil => exact ⟨h, rfl, rfl⟩
  | cons entry window ih =>
      obtain ⟨hentry, hrest⟩ := List.forall_mem_cons.mp hwindow
      simpa using ih (prefetches_keep limits id h hentry) hrest

def Answers (provider : ParentProvider κ ε) (limits : TraversalLimits) (w : Walk κ) (id : κ)
    (record : List κ → Option (AList fun _ : κ => List κ)) :
    Except (DagError κ ε) (List κ × Walk κ) → Prop
  | .ok (ps, w') => provider.parents id = .ok (some ps) ∧ w'.colour = w.colour ∧
      w'.record = record ps ∧ w'.Prefetches provider
  | .error (.unknownCommit c) => c = id ∧ provider.parents id = .ok none
  | .error (.cycle _) => False
  | .error (.visitLimit _) => limits.maxVisited ≤ w.colour.keys.length
  | .error .deadline => limits.deadline ≠ none
  | .error (.provider e) => provider.parents id = .error e

theorem fetch_answers (hp : provider.Honest kind) (h : w.Prefetches provider) :
    Answers provider limits w id (fun _ => w.record)
      (w.fetch provider limits kind id wanted) := by
  unfold fetch
  cases hwin : provider.ancestryWindow id (w.budget limits wanted) kind with
  | error e => exact hp.error hwin
  | ok window =>
      obtain ⟨n, hn⟩ | ⟨hn, hlimit⟩ := checkDeadline_cases (ε := ε) limits
        { w with ramp := min (w.ramp * windowRamp) usizeMax }
      · simp only [mapError_ok, ok_bind, hn]
        cases hfind : window.find? (·.1 = id) with
        | none => exact ⟨rfl, hp.start hwin fun entry hentry => by
            simpa using List.find?_eq_none.mp hfind entry hentry⟩
        | some entry =>
            have hid : entry.1 = id := by simpa using List.find?_some hfind
            obtain ⟨hpre, hcol, hrec⟩ := foldl_keep limits id
              (w := { w with ramp := min (w.ramp * windowRamp) usizeMax, checks := n })
              h (hp.entries hwin)
            exact ⟨hid ▸ hp.entries hwin entry (List.mem_of_find?_eq_some hfind), hcol, hrec, hpre⟩
      · simp only [mapError_ok, ok_bind, hn, error_bind]
        exact hlimit

theorem serve_answers (hp : provider.Honest kind) (h : w.Prefetches provider) :
    Answers provider limits w id (fun _ => w.record)
      (w.serve provider limits kind id wanted) := by
  unfold serve
  cases hpre : w.prefetched.lookup id with
  | none => exact fetch_answers hp h
  | some ps =>
      refine ⟨h id ps hpre, rfl, rfl, fun c qs hc => h c qs ?_⟩
      have hne : c ≠ id := by
        rintro rfl
        simp at hc
      rwa [AList.lookup_erase_ne hne] at hc

/-- One spec for `load`: what its answer or its error says about the provider. -/
theorem load_answers (hp : provider.Honest kind) (h : w.Prefetches provider) :
    Answers provider limits w id (fun ps => w.record.map (·.insert id ps))
      (w.load provider limits kind id wanted) := by
  unfold load
  split_ifs with hvisited
  · exact hvisited
  · obtain ⟨n, hn⟩ | ⟨hn, hlimit⟩ := checkDeadline_cases (ε := ε) limits w
    · have hserve : Answers provider limits w id (fun _ => w.record)
          (Walk.serve provider limits kind { w with checks := n } id wanted) := serve_answers hp h
      rw [hn, ok_bind]
      cases hres : Walk.serve provider limits kind { w with checks := n } id wanted with
      | error e =>
          rw [hres] at hserve
          rw [error_bind]
          cases e <;> exact hserve
      | ok res =>
          rw [hres] at hserve
          obtain ⟨hps, hcol, hrec, hpref⟩ := hserve
          exact ⟨hps, hcol, congrArg (Option.map _) hrec, hpref⟩
    · rw [hn, error_bind]
      exact hlimit

@[simp] theorem setColour_prefetched (c : Colour) :
    (w.setColour id c).prefetched = w.prefetched := rfl

@[simp] theorem setColour_record (c : Colour) : (w.setColour id c).record = w.record := rfl

theorem mem_setColour (c : Colour) (x : κ) :
    x ∈ (w.setColour id c).colour ↔ x = id ∨ x ∈ w.colour := AList.mem_insert _

theorem length_setColour_of_mem (c : Colour) (h : id ∈ w.colour) :
    (w.setColour id c).colour.keys.length = w.colour.keys.length := by
  have hmem : id ∈ w.colour.keys := AList.mem_keys.mp h
  have hpos := List.length_pos_of_mem hmem
  simp only [setColour, AList.keys_insert, List.length_cons, List.length_erase_of_mem hmem]
  omega

theorem length_setColour_of_notMem (c : Colour) (h : id ∉ w.colour) :
    (w.setColour id c).colour.keys.length = w.colour.keys.length + 1 := by
  have hmem : id ∉ w.colour.keys := mt AList.mem_keys.mpr h
  simp [setColour, AList.keys_insert, List.erase_of_not_mem hmem]

/-- The state of a search from `head` with `work` still to do. -/
structure Searching (provider : ParentProvider κ ε) (recording : Bool) (head : κ) (w : Walk κ)
    (work : List (Work κ)) : Prop where
  recording : w.record.isSome = recording
  start : head ∈ w.colour ∨ .follow head ∈ work
  prefetches : w.Prefetches provider
  recorded : ∀ r, w.record = some r → ∀ c, (c ∈ r ↔ c ∈ w.colour) ∧
    ∀ ps, r.lookup c = some ps → provider.parents c = .ok (some ps)
  closed : ∀ c ∈ w.colour, ∃ ps, provider.parents c = .ok (some ps) ∧
    ∀ p ∈ ps, p ∈ w.colour ∨ .follow p ∈ work
  reached : ∀ c ∈ w.colour, c ∈ ancestors provider.Parent head
  pending : ∀ p, .follow p ∈ work → p ∈ ancestors provider.Parent head
  grey : ∀ c, w.colour.lookup c = some .grey → .finish c ∈ work
  coloured : ∀ c, .finish c ∈ work → c ∈ w.colour
  -- a commit still to follow is a proper ancestor of every unfinished commit below it
  path : work.Pairwise fun a b => ∀ p c, a = .follow p → b = .finish c →
    TransGen provider.Parent c p

theorem Searching.finish {rest : List (Work κ)}
    (h : Searching provider recording head w (.finish id :: rest)) :
    Searching provider recording head (w.setColour id .black) rest := by
  have hid : id ∈ w.colour := h.coloured id List.mem_cons_self
  have hmem : ∀ x, x ∈ (w.setColour id .black).colour ↔ x ∈ w.colour := by
    intro x
    rw [mem_setColour]
    exact or_iff_right_of_imp fun hx => hx ▸ hid
  have hfollow : ∀ p, Work.follow p ∈ Work.finish id :: rest → .follow p ∈ rest := by simp
  refine ⟨h.recording, ?_, h.prefetches, ?_, ?_, ?_, ?_, ?_, ?_, h.path.of_cons⟩
  · exact h.start.imp (hmem head).mpr (hfollow head)
  · intro r hr c
    rw [hmem]
    exact h.recorded r hr c
  · intro c hc
    obtain ⟨ps, hps, hcl⟩ := h.closed c ((hmem c).mp hc)
    exact ⟨ps, hps, fun p hp => (hcl p hp).imp (hmem p).mpr (hfollow p)⟩
  · exact fun c hc => h.reached c ((hmem c).mp hc)
  · exact fun p hp => h.pending p (List.mem_cons_of_mem _ hp)
  · intro c hc
    have hne : c ≠ id := by
      rintro rfl
      simp [setColour] at hc
    have hgrey : w.colour.lookup c = some .grey := by
      simpa [setColour, AList.lookup_insert_ne hne] using hc
    simpa [hne] using h.grey c hgrey
  · exact fun c hc => (hmem c).mpr (h.coloured c (List.mem_cons_of_mem _ hc))

theorem Searching.skip {rest : List (Work κ)} (h : Searching provider recording head w (.follow id :: rest))
    (hid : id ∈ w.colour) : Searching provider recording head w rest := by
  have hfollow : ∀ p, Work.follow p ∈ Work.follow id :: rest → p ∈ w.colour ∨ .follow p ∈ rest := by
    intro p hp
    rcases List.mem_cons.mp hp with hp | hp
    · obtain rfl := Work.follow.inj hp
      exact Or.inl hid
    · exact Or.inr hp
  refine ⟨h.recording, ?_, h.prefetches, h.recorded, ?_, h.reached, ?_, ?_, ?_, h.path.of_cons⟩
  · exact h.start.elim Or.inl (hfollow head)
  · intro c hc
    obtain ⟨ps, hps, hcl⟩ := h.closed c hc
    exact ⟨ps, hps, fun p hp => (hcl p hp).elim Or.inl (hfollow p)⟩
  · exact fun p hp => h.pending p (List.mem_cons_of_mem _ hp)
  · intro c hc
    simpa using h.grey c hc
  · exact fun c hc => h.coloured c (List.mem_cons_of_mem _ hc)

/-- A grey commit met again reaches itself. -/
theorem Searching.cycle {rest : List (Work κ)} (h : Searching provider recording head w (.follow id :: rest))
    (hid : w.colour.lookup id = some .grey) : TransGen provider.Parent id id := by
  have hrest : Work.finish id ∈ rest := by simpa using h.grey id hid
  exact List.rel_of_pairwise_cons h.path hrest id id rfl rfl

theorem Searching.enter {rest : List (Work κ)} {ps : List κ}
    (h : Searching provider recording head w (.follow id :: rest)) (hid : id ∉ w.colour)
    (hps : provider.parents id = .ok (some ps)) (hcol : w'.colour = w.colour)
    (hrec : w'.record = w.record.map (·.insert id ps)) (hpre : w'.Prefetches provider) :
    Searching provider recording head (w'.setColour id .grey)
      (ps.map .follow ++ .finish id :: rest) := by
  have hmem : ∀ x, x ∈ (w'.setColour id .grey).colour ↔ x = id ∨ x ∈ w.colour := by
    intro x
    rw [mem_setColour, hcol]
  have hreach : id ∈ ancestors provider.Parent head := h.pending id List.mem_cons_self
  -- what was still to be followed is entered now or still to be followed
  have hfollow : ∀ p, Work.follow p ∈ Work.follow id :: rest →
      p ∈ (w'.setColour id .grey).colour ∨
        .follow p ∈ ps.map .follow ++ .finish id :: rest := by
    intro p hp
    rcases List.mem_cons.mp hp with hp | hp
    · exact Or.inl ((hmem p).mpr (Or.inl (Work.follow.inj hp)))
    · exact Or.inr (List.mem_append_right _ (List.mem_cons_of_mem _ hp))
  refine ⟨by simpa [hrec] using h.recording, ?_, hpre, ?_, ?_, ?_, ?_, ?_, ?_, ?_⟩
  · exact h.start.elim (fun hc => Or.inl ((hmem head).mpr (Or.inr hc))) (hfollow head)
  · intro r hr c
    rw [setColour_record, hrec] at hr
    obtain ⟨r₀, hr₀, rfl⟩ := Option.map_eq_some_iff.mp hr
    obtain ⟨hiff, hlook⟩ := h.recorded r₀ hr₀ c
    refine ⟨by rw [AList.mem_insert, hmem, hiff], fun qs hqs => ?_⟩
    by_cases hc : c = id
    · subst hc
      rw [AList.lookup_insert] at hqs
      exact Option.some.inj hqs ▸ hps
    · rw [AList.lookup_insert_ne hc] at hqs
      exact hlook qs hqs
  · intro c hc
    rcases (hmem c).mp hc with rfl | hc
    · exact ⟨ps, hps, fun p hp => Or.inr (List.mem_append_left _ (List.mem_map_of_mem hp))⟩
    · obtain ⟨qs, hqs, hcl⟩ := h.closed c hc
      exact ⟨qs, hqs, fun p hp =>
        (hcl p hp).elim (fun hp => Or.inl ((hmem p).mpr (Or.inr hp))) (hfollow p)⟩
  · intro c hc
    rcases (hmem c).mp hc with rfl | hc
    · exact hreach
    · exact h.reached c hc
  · intro p hp
    rcases List.mem_append.mp hp with hp | hp
    · obtain ⟨q, hq, hqp⟩ := List.mem_map.mp hp
      obtain rfl := Work.follow.inj hqp
      exact ReflTransGen.tail hreach ⟨ps, hps, hq⟩
    · exact h.pending p (List.mem_cons_of_mem _ (by simpa using hp))
  · intro c hc
    by_cases hcid : c = id
    · exact hcid ▸ by simp
    · have hgrey : w.colour.lookup c = some .grey := by
        rwa [setColour, AList.lookup_insert_ne hcid, hcol] at hc
      have : Work.finish c ∈ rest := by simpa using h.grey c hgrey
      exact List.mem_append_right _ (List.mem_cons_of_mem _ this)
  · intro c hc
    have : c = id ∨ Work.finish c ∈ rest := by simpa using hc
    exact (hmem c).mpr (this.imp_right fun hc => h.coloured c (List.mem_cons_of_mem _ hc))
  · refine List.pairwise_append.mpr ⟨?_, ?_, ?_⟩
    · exact List.pairwise_map.mpr (List.pairwise_of_forall (by simp))
    · exact List.pairwise_cons.mpr ⟨by simp, h.path.of_cons⟩
    · intro a ha b hb p c hap hbc
      subst hap hbc
      have hp : p ∈ ps := by simpa using ha
      have hstep : provider.Parent id p := ⟨ps, hps, hp⟩
      rcases List.mem_cons.mp hb with hb | hb
      · obtain rfl := Work.finish.inj hb
        exact TransGen.single hstep
      · exact (List.rel_of_pairwise_cons h.path hb id c rfl rfl).tail hstep

/-- What the result of a search from `head` says about the commits it can reach. -/
def Explains (provider : ParentProvider κ ε) (limits : TraversalLimits) (recording : Bool)
    (head : κ) (onEnter : σ → κ → σ × Bool) : Except (DagError κ ε) (Walk κ × σ × DfsOutcome) → Prop
  | .ok (w, _, .complete) => Searching provider recording head w []
  | .ok (_, _, .hit) => ∃ c ∈ ancestors provider.Parent head, ∃ s, (onEnter s c).2 = true
  | .error (.unknownCommit c) =>
      c ∈ ancestors provider.Parent head ∧ provider.parents c = .ok none
  | .error (.cycle c) => c ∈ ancestors provider.Parent head ∧ TransGen provider.Parent c c
  | .error (.visitLimit _) => ∃ l : List κ, l.Nodup ∧ limits.maxVisited < l.length ∧
      ∀ c ∈ l, c ∈ ancestors provider.Parent head
  | .error .deadline => limits.deadline ≠ none
  | .error (.provider e) => ∃ c ∈ ancestors provider.Parent head, provider.parents c = .error e

variable {onEnter : σ → κ → σ × Bool}

/-- A full visited set and one more reachable commit exceed the visit limit. -/
theorem Searching.exceeds {rest : List (Work κ)}
    (h : Searching provider recording head w (.follow id :: rest)) (hid : id ∉ w.colour)
    (hfull : limits.maxVisited ≤ w.colour.keys.length) :
    ∃ l : List κ, l.Nodup ∧ limits.maxVisited < l.length ∧
      ∀ c ∈ l, c ∈ ancestors provider.Parent head := by
  refine ⟨id :: w.colour.keys, ?_, by simp; omega, ?_⟩
  · exact List.nodup_cons.mpr ⟨mt AList.mem_keys.mpr hid, w.colour.keys_nodup⟩
  · exact List.forall_mem_cons.mpr ⟨h.pending id List.mem_cons_self,
      fun c hc => h.reached c (AList.mem_keys.mpr hc)⟩

theorem drain_explains {fuel : ℕ} {enter : Walk κ → σ → κ → List (Work κ) →
      Except (DagError κ ε) (Walk κ × σ × DfsOutcome)}
    (henter : ∀ w s id rest, Searching provider recording head w (.follow id :: rest) → id ∉ w.colour →
      limits.maxVisited ≤ fuel + w.colour.keys.length →
      Explains provider limits recording head onEnter (enter w s id rest))
    (s : σ) {work : List (Work κ)} (h : Searching provider recording head w work)
    (hfuel : limits.maxVisited ≤ fuel + w.colour.keys.length) :
    Explains provider limits recording head onEnter (drain enter w s work) := by
  induction work generalizing w with
  | nil => exact h
  | cons item rest ih =>
      cases item with
      | finish id =>
          refine ih h.finish ?_
          rwa [length_setColour_of_mem _ (h.coloured id List.mem_cons_self)]
      | follow id =>
          rw [drain]
          split
          next hgrey => exact ⟨h.pending id List.mem_cons_self, h.cycle hgrey⟩
          next hblack =>
            exact ih (h.skip (AList.lookup_isSome.mp (by simp [hblack]))) hfuel
          next hnone => exact henter w s id rest h (AList.lookup_eq_none.mp hnone) hfuel

theorem explore_explains (hp : provider.Honest kind) {fuel : ℕ} (s : σ) {rest : List (Work κ)}
    (h : Searching provider recording head w (.follow id :: rest)) (hid : id ∉ w.colour)
    (hfuel : limits.maxVisited ≤ fuel + w.colour.keys.length) :
    Explains provider limits recording head onEnter
      (explore provider limits kind onEnter fuel w s id rest) := by
  induction fuel generalizing w s id rest with
  | zero => exact h.exceeds hid (by omega)
  | succ fuel ih =>
      have hload : Answers provider limits w id _ (w.load provider limits kind id usizeMax) :=
        load_answers hp h.prefetches
      have hreach := h.pending id List.mem_cons_self
      rw [explore]
      cases hres : w.load provider limits kind id usizeMax with
      | error e =>
          rw [hres] at hload
          cases e with
          | unknownCommit c => exact ⟨hload.1 ▸ hreach, hload.1 ▸ hload.2⟩
          | cycle c => exact hload.elim
          | visitLimit n => exact h.exceeds hid hload
          | deadline => exact hload
          | provider e => exact ⟨id, hreach, hload⟩
      | ok res =>
          obtain ⟨ps, w'⟩ := res
          rw [hres] at hload
          obtain ⟨hps, hcol, hrec, hpre⟩ := hload
          rw [ok_bind]
          cases hen : onEnter s id with
          | mk s' stop =>
              cases stop with
              | true => exact ⟨id, hreach, s, by rw [hen]⟩
              | false =>
                  have hid' : id ∉ w'.colour := hcol ▸ hid
                  refine drain_explains (fun w s id rest h hid hf => ih s h hid hf) s'
                    (h.enter hid hps hcol hrec hpre) ?_
                  rw [length_setColour_of_notMem _ hid', hcol]
                  omega

theorem searching_start (provider : ParentProvider κ ε) (start : κ)
    (r : Option (AList fun _ : κ => List κ)) (hr : ∀ l, r = some l → l = ∅) :
    Searching provider r.isSome start { record := r } [.follow start] := by
  refine ⟨rfl, Or.inr (by simp), ?_, ?_, ?_, ?_, ?_, ?_, ?_, ?_⟩
  · intro c ps hc
    simp at hc
  · intro l hl c
    obtain rfl := hr l hl
    simp
  · simp
  · simp
  · simp
  · simp
  · simp
  · simp

theorem dfs_explains (hp : provider.Honest kind) (limits : TraversalLimits)
    (onEnter : σ → κ → σ × Bool) (s : σ) (start : κ) (r : Option (AList fun _ : κ => List κ))
    (hr : ∀ l, r = some l → l = ∅) :
    Explains provider limits r.isSome start onEnter
      (dfs provider limits kind onEnter { record := r } s start) :=
  explore_explains hp s (searching_start provider start r hr) (by simp) (by simp)

end Walk

variable {provider : ParentProvider κ ε} {limits : TraversalLimits} {head : κ} [DecidableEq κ]

theorem isAncestor_eq_true {ancestor descendant : κ} (hp : provider.Honest .ancestry)
    (h : isAncestor provider ancestor descendant limits = .ok true) :
    ancestor ∈ ancestors provider.Parent descendant := by
  unfold isAncestor at h
  obtain ⟨⟨w, s, outcome⟩, hdfs, hout⟩ := bind_eq_ok.mp h
  obtain rfl : outcome = .hit := by simpa using hout
  have hspec := Walk.dfs_explains hp limits (fun (_ : Unit) id => ((), decide (id = ancestor))) ()
    descendant none (by simp)
  rw [hdfs] at hspec
  obtain ⟨c, hc, s, hs⟩ := hspec
  obtain rfl : c = ancestor := by simpa using hs
  exact hc

/-- The recorded ancestry holds exactly the ancestors of `head`, with the provider's parents. -/
structure Ancestry.Of (provider : ParentProvider κ ε) (head : κ) (a : Ancestry κ) : Prop where
  mem_iff : ∀ c, c ∈ a.parents ↔ c ∈ ancestors provider.Parent head
  parents : ∀ c ps, a.parents.lookup c = some ps → provider.parents c = .ok (some ps)

theorem Walk.Searching.mem_colour_iff {w : Walk κ} {recording : Bool}
    (h : w.Searching provider recording head []) (c : κ) :
    c ∈ w.colour ↔ c ∈ ancestors provider.Parent head := by
  refine ⟨h.reached c, fun hc => ?_⟩
  refine ancestors_subset_of_closed (S := {x | x ∈ w.colour}) ?_ ?_ hc
  · simpa using h.start
  · intro x hx p hxp
    obtain ⟨ps, hps, hcl⟩ := h.closed x hx
    simpa using hcl p ((ParentProvider.parent_iff hps).mp hxp)

theorem Walk.Searching.ancestryOf {w : Walk κ} {r : AList fun _ : κ => List κ}
    (h : w.Searching provider true head []) (hr : w.record = some r) :
    Ancestry.Of provider head ⟨r⟩ := by
  refine ⟨fun c => ?_, fun c => (h.recorded r hr c).2⟩
  rw [(h.recorded r hr c).1, h.mem_colour_iff]

theorem ancestry_eq_ok {a : Ancestry κ} (hp : provider.Honest .ancestry)
    (h : ancestry provider head limits = .ok a) : Ancestry.Of provider head a := by
  unfold ancestry at h
  obtain ⟨⟨w, s, outcome⟩, hdfs, hout⟩ := bind_eq_ok.mp h
  have hspec := Walk.dfs_explains hp limits (fun (_ : Unit) _ => ((), false)) () head (some ∅)
    (by simp)
  rw [hdfs] at hspec
  obtain rfl := Except.ok.inj hout
  cases outcome with
  | hit =>
      obtain ⟨c, -, s, hs⟩ := hspec
      cases hs
  | complete =>
      obtain ⟨r, hr⟩ := Option.isSome_iff_exists.mp hspec.recording
      rw [hr]
      exact hspec.ancestryOf hr

theorem ancestry_eq_error {e : DagError κ ε} (hp : provider.Honest .ancestry)
    (hknown : ∀ c ∈ ancestors provider.Parent head, ∃ ps, provider.parents c = .ok (some ps))
    (hacyclic : Acyclic provider.Parent) (h : ancestry provider head limits = .error e) :
    (∃ n, e = .visitLimit n) ∨ e = .deadline := by
  unfold ancestry at h
  have hspec := Walk.dfs_explains hp limits (fun (_ : Unit) _ => ((), false)) () head (some ∅)
    (by simp)
  rcases bind_eq_error.mp h with hdfs | ⟨_, _, hout⟩
  · rw [hdfs] at hspec
    cases e with
    | unknownCommit c =>
        obtain ⟨ps, hps⟩ := hknown c hspec.1
        exact absurd (hps.symm.trans hspec.2) (by simp)
    | cycle c => exact absurd hspec.2 (hacyclic c)
    | visitLimit n => exact Or.inl ⟨n, rfl⟩
    | deadline => exact Or.inr rfl
    | provider e =>
        obtain ⟨c, hc, hce⟩ := hspec
        obtain ⟨ps, hps⟩ := hknown c hc
        exact absurd (hps.symm.trans hce) (by simp)
  · cases hout

end CognitiveLedger
