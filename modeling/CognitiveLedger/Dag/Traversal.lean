import CognitiveLedger.Dag.Windows
import CognitiveLedger.Lib.DepthFirst
import Mathlib.Data.Set.Card

/-!
# The walks are exact

A search is correct because of what holds between any two of its steps. An invariant of
a search is kept when a commit is finished, when a black parent is skipped and when a
new commit is entered; `SearchInvariant` packages those three, and a completed search
satisfies it with no work left.

Three invariants give the rest: the order so far, continued by any preorder of what is
still to follow, is a preorder from the head; the black commits are settled and every
unfinished commit has its parents scheduled before its end; no entered commit is one the
visitor stops at. Together with what a failure explains they make the walk decide exactly
whether the reachable history is known, acyclic and within the limit.
-/

open Relation (TransGen ReflTransGen)

namespace CognitiveLedger

open Lineage ExceptRules DepthFirst

variable {κ ε σ : Type}

/-- A provider that answers `parents` without failing, whatever its windows return. -/
structure ParentProvider.Serves (provider : ParentProvider κ ε) (parents : κ → Option (List κ)) :
    Prop where
  honest : provider.Honest .ancestry
  parents : ∀ c, provider.parents c = .ok (parents c)

theorem ParentProvider.serves_ofParents (parents : κ → Option (List κ)) :
    (ParentProvider.ofParents (ε := ε) fun c => .ok (parents c)).Serves parents :=
  ⟨ofParents_honest _ _, fun _ => rfl⟩

theorem ParentProvider.Serves.parent_eq {provider : ParentProvider κ ε}
    {parents : κ → Option (List κ)} (h : provider.Serves parents) :
    provider.Parent = Edge parents := by
  funext c p
  simp [Parent, Edge, h.parents]

namespace Walk

variable [DecidableEq κ] {provider : ParentProvider κ ε} {limits : TraversalLimits}
variable {kind : WindowKind} {w w' : Walk κ} {s : σ} {id head : κ} {rest : List (Work κ)}
variable {onEnter : σ → κ → σ × Bool} {recording : Bool}

structure SearchInvariant (provider : ParentProvider κ ε) (limits : TraversalLimits)
    (onEnter : σ → κ → σ × Bool) (I : Walk κ → σ → List (Work κ) → Prop) : Prop where
  finish : ∀ {w s id rest}, I w s (.finish id :: rest) → id ∈ w.colour →
    I (w.setColour id .black) s rest
  skip : ∀ {w s id rest}, I w s (.follow id :: rest) → w.colour.lookup id = some .black →
    I w s rest
  enter : ∀ {w w' : Walk κ} {s id ps rest}, I w s (.follow id :: rest) → id ∉ w.colour →
    provider.parents id = .ok (some ps) → w.colour.keys.length < limits.maxVisited →
    w'.colour = w.colour → (onEnter s id).2 = false →
    I (w'.setColour id .grey) (onEnter s id).1 (ps.map .follow ++ .finish id :: rest)

/-- A completed search ends in a state with property `Q`. -/
def Completes (Q : Walk κ → σ → Prop) : Except (DagError κ ε) (Walk κ × σ × DfsOutcome) → Prop
  | .ok (w, s, .complete) => Q w s
  | _ => True

variable {I : Walk κ → σ → List (Work κ) → Prop}

theorem lt_maxVisited_of_load {wanted : ℕ} {r : List κ × Walk κ}
    (h : w.load provider limits kind id wanted = .ok r) :
    w.colour.keys.length < limits.maxVisited := by
  by_contra hfull
  rw [load, if_pos (Nat.not_lt.mp hfull)] at h
  cases h

theorem drain_completes (hI : SearchInvariant provider limits onEnter I) {enter : Walk κ → σ → κ →
      List (Work κ) → Except (DagError κ ε) (Walk κ × σ × DfsOutcome)}
    (henter : ∀ w s id rest, Searching provider recording head w (.follow id :: rest) →
      I w s (.follow id :: rest) → id ∉ w.colour → Completes (I · · []) (enter w s id rest))
    {work : List (Work κ)} (hsearch : Searching provider recording head w work)
    (h : I w s work) :
    Completes (I · · []) (drain enter w s work) := by
  induction work generalizing w with
  | nil => exact h
  | cons item rest ih =>
      cases item with
      | finish id =>
          exact ih hsearch.finish (hI.finish h (hsearch.coloured id List.mem_cons_self))
      | follow id =>
          rw [drain]
          split
          next => trivial
          next hblack =>
            have hid : id ∈ w.colour := AList.lookup_isSome.mp (by simp [hblack])
            exact ih (hsearch.skip hid) (hI.skip h hblack)
          next hnone => exact henter w s id rest hsearch h (AList.lookup_eq_none.mp hnone)

theorem explore_completes (hp : provider.Honest kind)
    (hI : SearchInvariant provider limits onEnter I) {fuel : ℕ} (hsearch : Searching provider recording head w (.follow id :: rest))
    (h : I w s (.follow id :: rest)) (hid : id ∉ w.colour) :
    Completes (I · · []) (explore provider limits kind onEnter fuel w s id rest) := by
  induction fuel generalizing w s id rest with
  | zero => trivial
  | succ fuel ih =>
      have hload : Answers provider limits w id _ (w.load provider limits kind id usizeMax) :=
        load_answers hp hsearch.prefetches
      rw [explore]
      cases hres : w.load provider limits kind id usizeMax with
      | error e => trivial
      | ok res =>
          obtain ⟨ps, w'⟩ := res
          rw [hres] at hload
          obtain ⟨hps, hcol, hrec, hpre⟩ := hload
          rw [ok_bind]
          cases hen : onEnter s id with
          | mk s' stop =>
              cases stop with
              | true => trivial
              | false =>
                  have hnext := hI.enter h hid hps (lt_maxVisited_of_load hres) hcol (by rw [hen])
                  rw [hen] at hnext
                  exact drain_completes hI (fun w s id rest hsearch h hid => ih hsearch h hid)
                    (hsearch.enter hid hps hcol hrec hpre) hnext

theorem dfs_completes (hp : provider.Honest kind)
    (hI : SearchInvariant provider limits onEnter I)
    {r : Option (AList fun _ : κ => List κ)} (hr : ∀ l, r = some l → l = ∅)
    {outcome : Walk κ × σ × DfsOutcome} (hstart : I { record := r } s [.follow head])
    (h : dfs provider limits kind onEnter { record := r } s head = .ok outcome)
    (hcomplete : outcome.2.2 = .complete) : I outcome.1 outcome.2.1 [] := by
  have hdone : Completes (I · · []) (dfs provider limits kind onEnter { record := r } s head) :=
    explore_completes hp hI (searching_start provider head r hr) hstart (by simp)
  rw [h] at hdone
  obtain ⟨w, s, outcome⟩ := outcome
  obtain rfl : outcome = .complete := hcomplete
  exact hdone

/-! ## The preorder -/

/-- The commits of `work` still to follow, in order. -/
def follows : List (Work κ) → List κ
  | [] => []
  | .follow p :: rest => p :: follows rest
  | .finish _ :: rest => follows rest

omit [DecidableEq κ] in
@[simp] theorem follows_append_finish (ps : List κ) (id : κ) (rest : List (Work κ)) :
    follows (ps.map .follow ++ .finish id :: rest) = ps ++ follows rest := by
  induction ps with
  | nil => rfl
  | cons p ps ih => simp [follows, ih]

/-- However the search goes on from here in preorder, it is a preorder from the head. -/
def OrderSoFar (parents : κ → Option (List κ)) (head : κ) (w : Walk κ) (order : List κ)
    (work : List (Work κ)) : Prop :=
  (∀ c, c ∈ w.colour ↔ c ∈ order) ∧ order.Nodup ∧
    ∀ out, Preorder parents {c | c ∈ w.colour} (follows work) out →
      Preorder parents ∅ [head] (order ++ out)

theorem orderSoFar_invariant {parents : κ → Option (List κ)} (hs : provider.Serves parents)
    (limits : TraversalLimits) (head : κ) :
    SearchInvariant provider limits (fun (order : List κ) id => (order ++ [id], false))
      (OrderSoFar parents head) where
  finish {w order id rest} := by
    rintro ⟨hmem, hnodup, hgoes⟩ hid
    have hcoloured : ∀ c, c ∈ (w.setColour id .black).colour ↔ c ∈ w.colour := fun c => by
      rw [mem_setColour]
      exact or_iff_right_of_imp fun hc => hc ▸ hid
    refine ⟨fun c => (hcoloured c).trans (hmem c), hnodup, fun out hout => hgoes out ?_⟩
    simp only [hcoloured] at hout
    exact hout
  skip {w order id rest} := by
    rintro ⟨hmem, hnodup, hgoes⟩ hblack
    refine ⟨hmem, hnodup, fun out hout => hgoes out (.skip ?_ hout)⟩
    exact AList.lookup_isSome.mp (by simp [hblack])
  enter {w w' order id ps rest} := by
    rintro ⟨hmem, hnodup, hgoes⟩ hid hps - hcol -
    have hparents : parents id = some ps := by
      simpa [hs.parents] using hps
    have hset : {c | c ∈ (w'.setColour id .grey).colour} = insert id {c | c ∈ w.colour} := by
      ext c
      simp [mem_setColour, hcol]
    refine ⟨fun c => ?_, ?_, fun out hout => ?_⟩
    · simp only [mem_setColour, hcol, hmem, List.mem_append, List.mem_singleton]
      exact or_comm
    · refine List.nodup_append.mpr ⟨hnodup, List.nodup_singleton id, ?_⟩
      rintro a ha b hb rfl
      obtain rfl := List.mem_singleton.mp hb
      exact hid ((hmem a).mpr ha)
    · rw [hset, follows_append_finish] at hout
      obtain ⟨below, after, rfl, hbelow, hafter⟩ := hout.split
      have hwhole : Preorder parents {c | c ∈ w.colour} (id :: follows rest)
          (id :: (below ++ after)) := .enter hid hparents hbelow hafter
      have hgo := hgoes _ hwhole
      simpa using hgo

/-! ## The finished commits -/

def black (w : Walk κ) : Set κ := {c | w.colour.lookup c = some .black}

theorem black_finish (w : Walk κ) (id : κ) :
    (w.setColour id .black).black = insert id w.black := by
  ext c
  by_cases hc : c = id
  · simp [black, setColour, hc]
  · simp [black, setColour, hc]

theorem black_enter (hid : id ∉ w.colour) (hcol : w'.colour = w.colour) :
    (w'.setColour id .grey).black = w.black := by
  ext c
  by_cases hc : c = id
  · subst hc
    simp [black, setColour, AList.lookup_eq_none.mpr hid]
  · simp [black, setColour, hc, hcol]

/-- Every unfinished commit of the work has its parents in `S` or scheduled before its
end. -/
def Owed (P : κ → κ → Prop) : Set κ → List (Work κ) → Prop
  | _, [] => True
  | S, .follow p :: rest => Owed P (insert p S) rest
  | S, .finish c :: rest => (∀ p, P c p → p ∈ S) ∧ Owed P (insert c S) rest

variable {P : κ → κ → Prop}

omit [DecidableEq κ] in
theorem Owed.mono {S T : Set κ} {work : List (Work κ)} (hST : S ⊆ T) (h : Owed P S work) :
    Owed P T work := by
  induction work generalizing S T with
  | nil => trivial
  | cons item rest ih =>
      cases item with
      | follow p => exact ih (Set.insert_subset_insert hST) h
      | finish c => exact ⟨fun p hp => hST (h.1 p hp), ih (Set.insert_subset_insert hST) h.2⟩

omit [DecidableEq κ] in
theorem Owed.enter {S : Set κ} {ps : List κ} (hps : ∀ p, P id p → p ∈ S ∨ p ∈ ps)
    (h : Owed P (insert id S) rest) : Owed P S (ps.map .follow ++ .finish id :: rest) := by
  induction ps generalizing S with
  | nil =>
      refine ⟨fun p hp => ?_, h⟩
      simpa using hps p hp
  | cons q ps ih =>
      refine ih (fun p hp => ?_) (h.mono (Set.insert_subset_insert (Set.subset_insert q S)))
      rcases hps p hp with hp | hp
      · exact Or.inl (Set.mem_insert_of_mem q hp)
      · rcases List.mem_cons.mp hp with rfl | hp
        · exact Or.inl (Set.mem_insert p S)
        · exact Or.inr hp

def SettledSoFar (P : κ → κ → Prop) (w : Walk κ) (_ : σ) (work : List (Work κ)) : Prop :=
  Settled P w.black ∧ Owed P w.black work

theorem settledSoFar_invariant (provider : ParentProvider κ ε) (limits : TraversalLimits)
    (onEnter : σ → κ → σ × Bool) :
    SearchInvariant provider limits onEnter (SettledSoFar provider.Parent) where
  finish {w s id rest} := by
    rintro ⟨hsettled, hparents, howed⟩ -
    rw [SettledSoFar, black_finish]
    exact ⟨hsettled.insert hparents, howed⟩
  skip {w s id rest} := by
    rintro ⟨hsettled, howed⟩ hblack
    refine ⟨hsettled, ?_⟩
    rwa [Owed, Set.insert_eq_of_mem (show id ∈ w.black from hblack)] at howed
  enter {w w' s id ps rest} := by
    rintro ⟨hsettled, howed⟩ hid hps - hcol -
    rw [SettledSoFar, black_enter hid hcol]
    refine ⟨hsettled, Owed.enter (fun p hp => Or.inr ?_) howed⟩
    exact (ParentProvider.parent_iff hps).mp hp

theorem visited_invariant (provider : ParentProvider κ ε) (limits : TraversalLimits)
    (onEnter : σ → κ → σ × Bool) : SearchInvariant provider limits onEnter
      fun w _ _ => w.colour.keys.length ≤ limits.maxVisited where
  finish {w s id rest} := fun h hid => by rwa [length_setColour_of_mem _ hid]
  skip := fun h _ => h
  enter {w w' s id ps rest} := fun _ hid _ hlt hcol _ => by
    rw [length_setColour_of_notMem _ (hcol ▸ hid), hcol]
    exact hlt

theorem passed_invariant (provider : ParentProvider κ ε) (limits : TraversalLimits)
    (stop : κ → Bool) : SearchInvariant provider limits (fun (_ : Unit) id => ((), stop id))
      fun w _ _ => ∀ c ∈ w.colour, stop c = false where
  finish {w s id rest} := fun h hid c hc => by
    rcases (mem_setColour _ c).mp hc with rfl | hc
    · exact h c hid
    · exact h c hc
  skip := fun h _ => h
  enter {w w' s id ps rest} := fun h _ _ _ hcol hpass c hc => by
    rcases (mem_setColour _ c).mp hc with rfl | hc
    · exact hpass
    · exact h c (hcol ▸ hc)

/-! ## The fuel is no limit -/

theorem foldl_keep_colour (window : List (κ × List κ)) :
    (window.foldl (keep limits · id) w).colour = w.colour := by
  induction window generalizing w with
  | nil => rfl
  | cons entry window ih =>
      rw [List.foldl_cons, ih]
      exact keep_colour entry

omit [DecidableEq κ] in
theorem checkDeadline_colour (h : w.checkDeadline limits = (.ok w' : Except (DagError κ ε) _)) :
    w'.colour = w.colour := by
  obtain ⟨n, hn⟩ | ⟨hn, -⟩ := checkDeadline_cases (ε := ε) limits w
  · obtain rfl := Except.ok.inj (hn.symm.trans h)
    rfl
  · cases hn.symm.trans h

theorem fetch_colour {wanted : ℕ} {ps : List κ}
    (h : w.fetch provider limits kind id wanted = .ok (ps, w')) : w'.colour = w.colour := by
  obtain ⟨window, -, h⟩ := bind_eq_ok.mp h
  obtain ⟨w₁, hchecked, h⟩ := bind_eq_ok.mp h
  split at h
  · cases h
  · obtain ⟨-, rfl⟩ := Prod.mk.inj (Except.ok.inj h)
    rw [foldl_keep_colour, checkDeadline_colour hchecked]

theorem load_colour {wanted : ℕ} {ps : List κ}
    (h : w.load provider limits kind id wanted = .ok (ps, w')) : w'.colour = w.colour := by
  rw [load] at h
  split_ifs at h
  obtain ⟨w₁, hchecked, h⟩ := bind_eq_ok.mp h
  obtain ⟨⟨qs, w₂⟩, hserve, h⟩ := bind_eq_ok.mp h
  obtain ⟨-, rfl⟩ := Prod.mk.inj (Except.ok.inj h)
  have hserved : w₂.colour = w₁.colour := by
    rw [serve] at hserve
    split at hserve
    · obtain ⟨-, rfl⟩ := Prod.mk.inj (Except.ok.inj hserve)
      rfl
    · exact fetch_colour hserve
  exact hserved.trans (checkDeadline_colour hchecked)

theorem drain_congr {n : ℕ} {enter enter' : Walk κ → σ → κ → List (Work κ) →
      Except (DagError κ ε) (Walk κ × σ × DfsOutcome)}
    (henter : ∀ w s id rest, id ∉ w.colour → n ≤ w.colour.keys.length →
      enter w s id rest = enter' w s id rest)
    (work : List (Work κ)) (hn : n ≤ w.colour.keys.length) :
    drain enter w s work = drain enter' w s work := by
  induction work generalizing w with
  | nil => rfl
  | cons item rest ih =>
      cases item with
      | finish id =>
          refine ih ?_
          by_cases hid : id ∈ w.colour
          · rwa [length_setColour_of_mem _ hid]
          · rw [length_setColour_of_notMem _ hid]
            exact Nat.le_succ_of_le hn
      | follow id =>
          rw [drain, drain]
          split
          next => rfl
          next => exact ih hn
          next hnone => exact henter w s id rest (AList.lookup_eq_none.mp hnone) hn

/-- With the charges left as fuel, more fuel changes nothing: a search without fuel is at
the visit limit. -/
theorem explore_succ_fuel {fuel : ℕ} (hid : id ∉ w.colour)
    (hfuel : limits.maxVisited ≤ fuel + w.colour.keys.length) :
    explore provider limits kind onEnter (fuel + 1) w s id rest =
      explore provider limits kind onEnter fuel w s id rest := by
  induction fuel generalizing w s id rest with
  | zero =>
      rw [explore, explore, load, if_pos (by simpa using hfuel)]
      rfl
  | succ fuel ih =>
      rw [explore, explore]
      cases hres : w.load provider limits kind id usizeMax with
      | error e => rfl
      | ok res =>
          obtain ⟨ps, w'⟩ := res
          have hcol : w'.colour = w.colour := load_colour hres
          simp only [ok_bind]
          split
          · rfl
          · refine drain_congr (fun w s id rest hid hn => ih hid ?_)
              (n := w.colour.keys.length + 1) _ ?_
            · omega
            · rw [length_setColour_of_notMem _ (hcol ▸ hid), hcol]

theorem explore_fuel {fuel : ℕ} (hfuel : limits.maxVisited ≤ fuel)
    {r : Option (AList fun _ : κ => List κ)} :
    explore provider limits kind onEnter fuel { record := r } s head [] =
      dfs provider limits kind onEnter { record := r } s head := by
  induction fuel, hfuel using Nat.le_induction with
  | base => rfl
  | succ fuel hle ih => exact (explore_succ_fuel (by simp) (by simpa using hle)).trans ih

end Walk

/-- The history reachable from `head` is known and acyclic, and has at most `max` commits. -/
structure SoundHistory (parents : κ → Option (List κ)) (head : κ) (max : ℕ) : Prop where
  known : ∀ c ∈ ancestors (Edge parents) head, (parents c).isSome
  acyclic : ∀ c ∈ ancestors (Edge parents) head, ¬ TransGen (Edge parents) c c
  within : (ancestors (Edge parents) head).encard ≤ max

section Exact

variable [DecidableEq κ] {provider : ParentProvider κ ε} {parents : κ → Option (List κ)}
variable {head : κ} {max : ℕ} {w : Walk κ} {s s' : σ} {onEnter : σ → κ → σ × Bool}
variable {r : Option (AList fun _ : κ => List κ)}

theorem soundHistory_of_complete (hs : provider.Serves parents)
    (hr : ∀ l, r = some l → l = ∅)
    (h : Walk.dfs provider ⟨max, none⟩ .ancestry onEnter { record := r } s head =
      .ok (w, s', .complete)) : SoundHistory parents head max := by
  have hend : w.Searching provider r.isSome head [] := by
    have hexplains := Walk.dfs_explains hs.honest ⟨max, none⟩ onEnter s head r hr
    rwa [h] at hexplains
  have hblack : ∀ c ∈ ancestors provider.Parent head, c ∈ w.black := by
    intro c hc
    obtain ⟨colour, hcolour⟩ :=
      Option.isSome_iff_exists.mp (AList.lookup_isSome.mpr ((hend.mem_colour_iff c).mpr hc))
    cases colour with
    | grey => exact absurd (hend.grey c hcolour) List.not_mem_nil
    | black => exact hcolour
  obtain ⟨hsettled, -⟩ := Walk.dfs_completes hs.honest
    (Walk.settledSoFar_invariant provider ⟨max, none⟩ onEnter) hr
    (by simp [Walk.SettledSoFar, Walk.black, Walk.Owed, settled_empty]) h rfl
  have hvisited := Walk.dfs_completes hs.honest
    (Walk.visited_invariant provider ⟨max, none⟩ onEnter) hr (by simp) h rfl
  rw [hs.parent_eq] at hblack hsettled
  refine ⟨fun c hc => ?_, fun c hc => hsettled.acyclic c (hblack c hc), ?_⟩
  · rw [← hs.parent_eq, ← hend.mem_colour_iff] at hc
    obtain ⟨ps, hps, -⟩ := hend.closed c hc
    rw [hs.parents] at hps
    simp [Except.ok.inj hps]
  · have hset : ancestors (Edge parents) head = {c | c ∈ w.colour.keys} := by
      ext c
      rw [← hs.parent_eq, ← hend.mem_colour_iff]
      exact AList.mem_keys
    rw [hset, ← List.coe_toFinset, Set.encard_coe_eq_coe_finsetCard,
      List.toFinset_card_of_nodup w.colour.keys_nodup]
    exact_mod_cast hvisited

/-- What a search without deadline over answering windows can fail with. -/
inductive Fails (parents : κ → Option (List κ)) (head : κ) (max : ℕ) : DagError κ ε → Prop
  | unknownCommit {c : κ} (hc : c ∈ ancestors (Edge parents) head) (hnone : parents c = none) :
      Fails parents head max (.unknownCommit c)
  | cycle {c : κ} (hc : c ∈ ancestors (Edge parents) head)
      (hcycle : TransGen (Edge parents) c c) : Fails parents head max (.cycle c)
  | visitLimit {visited : ℕ} (hmore : max < (ancestors (Edge parents) head).encard) :
      Fails parents head max (.visitLimit visited)

theorem fails_of_dfs (hs : provider.Serves parents) (hr : ∀ l, r = some l → l = ∅)
    {e : DagError κ ε}
    (h : Walk.dfs provider ⟨max, none⟩ .ancestry onEnter { record := r } s head = .error e) :
    Fails parents head max e := by
  have hexplains := Walk.dfs_explains hs.honest ⟨max, none⟩ onEnter s head r hr
  rw [h] at hexplains
  cases e with
  | unknownCommit c =>
      obtain ⟨hc, hnone⟩ := hexplains
      rw [hs.parents] at hnone
      exact .unknownCommit (hs.parent_eq ▸ hc) (Except.ok.inj hnone)
  | cycle c => exact .cycle (hs.parent_eq ▸ hexplains.1) (hs.parent_eq ▸ hexplains.2)
  | visitLimit visited =>
      obtain ⟨l, hnodup, hlen, hreach⟩ := hexplains
      rw [hs.parent_eq] at hreach
      refine .visitLimit (lt_of_lt_of_le ?_ (Set.encard_le_encard (s := {c | c ∈ l}) hreach))
      rw [← List.coe_toFinset, Set.encard_coe_eq_coe_finsetCard,
        List.toFinset_card_of_nodup hnodup]
      exact_mod_cast hlen
  | deadline => exact absurd rfl hexplains
  | provider e =>
      obtain ⟨c, -, hc⟩ := hexplains
      rw [hs.parents] at hc
      cases hc

omit [DecidableEq κ] in
theorem SoundHistory.not_fails (h : SoundHistory parents head max) {e : DagError κ ε} :
    ¬ Fails parents head max e := by
  intro hfails
  cases hfails with
  | unknownCommit hc hnone => simpa [hnone] using h.known _ hc
  | cycle hc hcycle => exact h.acyclic _ hc hcycle
  | visitLimit hmore => exact absurd h.within (not_le.mpr hmore)

theorem SoundHistory.exists_dfs (h : SoundHistory parents head max) (hs : provider.Serves parents)
    (onEnter : σ → κ → σ × Bool) (s : σ) (hr : ∀ l, r = some l → l = ∅) :
    ∃ outcome, Walk.dfs provider ⟨max, none⟩ .ancestry onEnter { record := r } s head =
      .ok outcome := by
  cases hdfs : Walk.dfs provider ⟨max, none⟩ .ancestry onEnter { record := r } s head with
  | error e => exact absurd (fails_of_dfs hs hr hdfs) h.not_fails
  | ok outcome => exact ⟨outcome, rfl⟩

theorem dfs_of_ancestors (hs : provider.Serves parents) {order : List κ}
    (h : Dag.ancestors provider head ⟨max, none⟩ = .ok order) :
    ∃ w, Walk.dfs provider ⟨max, none⟩ .ancestry
      (fun (order : List κ) id => (order ++ [id], false)) {} [] head =
        .ok (w, order, .complete) := by
  obtain ⟨⟨w, order', outcome⟩, hdfs, hout⟩ := bind_eq_ok.mp h
  obtain rfl : order' = order := Except.ok.inj hout
  have hexplains := Walk.dfs_explains hs.honest ⟨max, none⟩
    (fun (order : List κ) id => (order ++ [id], false)) [] head none (by simp)
  rw [hdfs] at hexplains
  cases outcome with
  | hit =>
      obtain ⟨c, -, s, hstop⟩ := hexplains
      cases hstop
  | complete => exact ⟨w, hdfs⟩

theorem order_of_ancestors (hs : provider.Serves parents) {order : List κ}
    (h : Dag.ancestors provider head ⟨max, none⟩ = .ok order) :
    order.Nodup ∧ (∀ c, c ∈ order ↔ c ∈ ancestors (Edge parents) head) ∧
      Preorder parents ∅ [head] order := by
  obtain ⟨w, hdfs⟩ := dfs_of_ancestors hs h
  have hend : w.Searching provider false head [] := by
    have hexplains := Walk.dfs_explains hs.honest ⟨max, none⟩
      (fun (order : List κ) id => (order ++ [id], false)) [] head none (by simp)
    rwa [hdfs] at hexplains
  have hstart : Walk.OrderSoFar parents head {} [] [.follow head] :=
    ⟨by simp, List.nodup_nil, fun out hout => by simpa [Walk.follows] using hout⟩
  obtain ⟨hmem, hnodup, hgoes⟩ := Walk.dfs_completes hs.honest
    (Walk.orderSoFar_invariant hs ⟨max, none⟩ head) (by simp) hstart hdfs rfl
  refine ⟨hnodup, fun c => ?_, ?_⟩
  · rw [← hmem, hend.mem_colour_iff, hs.parent_eq]
  · simpa using hgoes [] (.nil _)

theorem isAncestor_eq_false_iff (hs : provider.Serves parents) (ancestor : κ) :
    isAncestor provider ancestor head ⟨max, none⟩ = .ok false ↔
      SoundHistory parents head max ∧ ancestor ∉ ancestors (Edge parents) head := by
  constructor
  · intro h
    obtain ⟨⟨w, s, outcome⟩, hdfs, hout⟩ := bind_eq_ok.mp h
    obtain rfl : outcome = .complete := by
      cases outcome with
      | hit => simp at hout
      | complete => rfl
    have hend : w.Searching provider false head [] := by
      have hexplains := Walk.dfs_explains hs.honest ⟨max, none⟩
        (fun (_ : Unit) id => ((), decide (id = ancestor))) () head none (by simp)
      rwa [hdfs] at hexplains
    have hpassed := Walk.dfs_completes hs.honest
      (Walk.passed_invariant provider ⟨max, none⟩ fun id => decide (id = ancestor)) (by simp)
      (by simp) hdfs rfl
    refine ⟨soundHistory_of_complete hs (by simp) hdfs, fun hc => ?_⟩
    rw [← hs.parent_eq, ← hend.mem_colour_iff] at hc
    simpa using hpassed ancestor hc
  · rintro ⟨hsound, hc⟩
    obtain ⟨outcome, hdfs⟩ := hsound.exists_dfs hs
      (fun (_ : Unit) id => ((), decide (id = ancestor))) () (r := none) (by simp)
    cases hres : isAncestor provider ancestor head ⟨max, none⟩ with
    | error e =>
        rw [isAncestor, hdfs] at hres
        cases hres
    | ok answer =>
        cases answer with
        | false => rfl
        | true => exact absurd (hs.parent_eq ▸ isAncestor_eq_true hs.honest hres) hc

/-- The walks decide the reachable history. For a provider that answers `parents` and any
visit limit, the fuel of the recursion is never what ends a walk; `ancestors` succeeds
exactly on a sound history and then lists what is reachable, once each, in the depth-first
preorder; it fails naming a reachable unknown commit or a reachable commit on a cycle, or
because more is reachable than the limit allows; `isAncestor` is true only of reachable
commits and false exactly for the others of a sound history. -/
theorem walks_are_exact (hs : provider.Serves parents) (head : κ) (max : ℕ) :
    (∀ (σ : Type) (onEnter : σ → κ → σ × Bool) (s : σ) (fuel : ℕ), max ≤ fuel →
      Walk.explore provider ⟨max, none⟩ .ancestry onEnter fuel {} s head [] =
        Walk.dfs provider ⟨max, none⟩ .ancestry onEnter {} s head) ∧
    ((∃ order, Dag.ancestors provider head ⟨max, none⟩ = .ok order) ↔
      SoundHistory parents head max) ∧
    (∀ order, Dag.ancestors provider head ⟨max, none⟩ = .ok order →
      order.Nodup ∧ (∀ c, c ∈ order ↔ c ∈ ancestors (Edge parents) head) ∧
        ∀ l, Preorder parents ∅ [head] l ↔ l = order) ∧
    (∀ e, Dag.ancestors provider head ⟨max, none⟩ = .error e → Fails parents head max e) ∧
    ∀ ancestor,
      (isAncestor provider ancestor head ⟨max, none⟩ = .ok true →
        ancestor ∈ ancestors (Edge parents) head) ∧
      (isAncestor provider ancestor head ⟨max, none⟩ = .ok false ↔
        SoundHistory parents head max ∧ ancestor ∉ ancestors (Edge parents) head) := by
  refine ⟨fun σ onEnter s fuel hfuel => Walk.explore_fuel hfuel, ⟨?_, fun hsound => ?_⟩,
    fun order h => ?_, fun e h => ?_, fun ancestor => ⟨fun h => ?_, ?_⟩⟩
  · rintro ⟨order, h⟩
    obtain ⟨w, hdfs⟩ := dfs_of_ancestors hs h
    exact soundHistory_of_complete hs (by simp) hdfs
  · obtain ⟨⟨w, order, outcome⟩, hdfs⟩ := hsound.exists_dfs hs
      (fun (order : List κ) id => (order ++ [id], false)) [] (r := none) (by simp)
    exact ⟨order, by rw [Dag.ancestors, hdfs]; rfl⟩
  · obtain ⟨hnodup, hmem, horder⟩ := order_of_ancestors hs h
    exact ⟨hnodup, hmem, fun l => ⟨fun hl => hl.unique horder, fun hl => hl ▸ horder⟩⟩
  · rcases bind_eq_error.mp h with hdfs | ⟨_, _, hout⟩
    · exact fails_of_dfs hs (by simp) hdfs
    · cases hout
  · exact hs.parent_eq ▸ isAncestor_eq_true hs.honest h
  · exact isAncestor_eq_false_iff hs ancestor

end Exact

/-- Two commits with a common parent, joined again. -/
def diamond : ℕ → Option (List ℕ)
  | 0 => some []
  | 1 => some [0]
  | 2 => some [0]
  | 3 => some [1, 2]
  | _ => none

theorem walks_are_exact_diamond :
    Dag.ancestors (ParentProvider.ofParents (ε := String) fun c => .ok (diamond c)) 3 ⟨4, none⟩ =
        .ok [3, 1, 0, 2] ∧
      (∀ c, c ∈ [3, 1, 0, 2] ↔ c ∈ ancestors (Edge diamond) 3) ∧
      isAncestor (ParentProvider.ofParents (ε := String) fun c => .ok (diamond c)) 4 3
        ⟨4, none⟩ = .ok false := by
  have hwalk : Dag.ancestors (ParentProvider.ofParents (ε := String) fun c => .ok (diamond c)) 3
      ⟨4, none⟩ = .ok [3, 1, 0, 2] := by rfl
  obtain ⟨-, hsound, horder, -, hancestor⟩ :=
    walks_are_exact (ParentProvider.serves_ofParents (ε := String) diamond) 3 4
  obtain ⟨-, hmem, -⟩ := horder _ hwalk
  refine ⟨hwalk, hmem, (hancestor 4).2.mpr ⟨hsound.mp ⟨_, hwalk⟩, ?_⟩⟩
  rw [← hmem]
  decide

end CognitiveLedger
