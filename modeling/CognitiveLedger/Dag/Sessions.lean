import CognitiveLedger.Dag.Traversal
import Mathlib.Data.Prod.Lex

/-!
# What a walk asks of its provider

Here a walk is watched: a session records every call it makes, and the most commits it
had entered and the most prefetched entries it held at any moment. The provider need not
answer the same question in the same way twice, nor with a window of any particular
shape; it may look at all the calls made so far.

Whatever it answers, a commit is an anchor at most once, since it is entered or the walk
ends; every entered commit is charged against the visit limit; and a window is stored
only as far as the limit allows. A walk that is not watched computes the same.
-/

set_option linter.unusedSectionVars false

namespace CognitiveLedger

open ExceptRules

variable {κ ε σ : Type}

/-- One call of `ancestry_window`. -/
structure Call (κ : Type) where
  anchor : κ
  asked : ℕ
  kind : WindowKind
  /-- How many commits had been entered when it was made. -/
  visited : ℕ

structure Session (κ : Type) where
  calls : List (Call κ) := []
  mostEntered : ℕ := 0
  mostPrefetched : ℕ := 0

/-- Any behaviour of a provider: it answers the last of the calls made so far. -/
abbrev Oracle (κ ε : Type) := List (Call κ) → Except ε (List (κ × List κ))

def ParentProvider.oracle (provider : ParentProvider κ ε) : Oracle κ ε := fun calls =>
  match calls.getLast? with
  | none => .ok []
  | some call => provider.ancestryWindow call.anchor call.asked call.kind

namespace Session

def observe (s : Session κ) (w : Walk κ) : Session κ :=
  { s with
    mostEntered := max s.mostEntered w.colour.keys.length
    mostPrefetched := max s.mostPrefetched w.prefetched.keys.length }

def call (s : Session κ) (c : Call κ) : Session κ := { s with calls := s.calls ++ [c] }

@[simp] theorem calls_observe (s : Session κ) (w : Walk κ) : (s.observe w).calls = s.calls := rfl

@[simp] theorem calls_call (s : Session κ) (c : Call κ) : (s.call c).calls = s.calls ++ [c] := rfl

end Session

/-! ## Watched walks -/

namespace Walk

variable [DecidableEq κ]

/-- The loop of `load` over a window. -/
def keepIn (limits : TraversalLimits) (id : κ) :
    List (κ × List κ) → Walk κ → Session κ → Walk κ × Session κ
  | [], w, s => (w, s)
  | entry :: window, w, s =>
      keepIn limits id window (w.keep limits id entry) (s.observe (w.keep limits id entry))

/-- The call that `load` makes for `id`. -/
def callFor (limits : TraversalLimits) (kind : WindowKind) (w : Walk κ) (id : κ) (wanted : ℕ) :
    Call κ := ⟨id, w.budget limits wanted, kind, w.colour.keys.length⟩

def fetchIn (oracle : Oracle κ ε) (limits : TraversalLimits) (kind : WindowKind) (w : Walk κ)
    (id : κ) (wanted : ℕ) (s : Session κ) :
    Except (DagError κ ε) (List κ × Walk κ) × Session κ :=
  let s := s.call (w.callFor limits kind id wanted)
  match oracle s.calls with
  | .error e => (.error (.provider e), s)
  | .ok window =>
      match { w with ramp := min (w.ramp * windowRamp) usizeMax }.checkDeadline limits with
      | .error e => (.error e, s)
      | .ok w =>
          let kept := keepIn limits id window w s
          match window.find? (·.1 = id) with
          | none => (.error (.unknownCommit id), kept.2)
          | some entry => (.ok (entry.2, kept.1), kept.2)

def serveIn (oracle : Oracle κ ε) (limits : TraversalLimits) (kind : WindowKind) (w : Walk κ)
    (id : κ) (wanted : ℕ) (s : Session κ) :
    Except (DagError κ ε) (List κ × Walk κ) × Session κ :=
  match w.prefetched.lookup id with
  | some parents => (.ok (parents, { w with prefetched := w.prefetched.erase id }), s)
  | none => w.fetchIn oracle limits kind id wanted s

def recorded (w : Walk κ) (id : κ) (parents : List κ) : Walk κ :=
  { w with record := w.record.map (·.insert id parents) }

/-- `Walk::load`. -/
def loadIn (oracle : Oracle κ ε) (limits : TraversalLimits) (kind : WindowKind) (w : Walk κ)
    (id : κ) (wanted : ℕ) (s : Session κ) :
    Except (DagError κ ε) (List κ × Walk κ) × Session κ :=
  if limits.maxVisited ≤ w.colour.keys.length then (.error (.visitLimit w.colour.keys.length), s)
  else
    match w.checkDeadline limits with
    | .error e => (.error e, s)
    | .ok w =>
        match w.serveIn oracle limits kind id wanted s with
        | (.error e, s) => (.error e, s)
        | (.ok (parents, w), s) => (.ok (parents, w.recorded id parents), s)

theorem keepIn_fst (limits : TraversalLimits) (id : κ) (window : List (κ × List κ)) (w : Walk κ)
    (s : Session κ) : (keepIn limits id window w s).1 = window.foldl (keep limits · id) w := by
  induction window generalizing w s with
  | nil => rfl
  | cons entry window ih => exact ih _ _

/-- The walk after a window was received, before its entries are kept. -/
def asked (w : Walk κ) (checks : ℕ) : Walk κ :=
  { w with ramp := min (w.ramp * windowRamp) usizeMax, checks := checks }

/-- Everything that `load` can do. -/
inductive Loads (oracle : Oracle κ ε) (limits : TraversalLimits) (kind : WindowKind) (w : Walk κ)
    (id : κ) (wanted : ℕ) (s : Session κ) :
    Except (DagError κ ε) (List κ × Walk κ) × Session κ → Prop
  | full (h : limits.maxVisited ≤ w.colour.keys.length) :
      Loads oracle limits kind w id wanted s (.error (.visitLimit w.colour.keys.length), s)
  | late (h : limits.deadline ≠ none) : Loads oracle limits kind w id wanted s (.error .deadline, s)
  | served (h : w.colour.keys.length < limits.maxVisited) {ps : List κ} (checks : ℕ)
      (hps : w.prefetched.lookup id = some ps) :
      Loads oracle limits kind w id wanted s
        (.ok (ps, { w with checks := checks, prefetched := w.prefetched.erase id }.recorded id ps), s)
  | refused (h : w.colour.keys.length < limits.maxVisited) (hnew : w.prefetched.lookup id = none)
      {e : ε} (hanswer : oracle (s.call (w.callFor limits kind id wanted)).calls = .error e) :
      Loads oracle limits kind w id wanted s
        (.error (.provider e), s.call (w.callFor limits kind id wanted))
  | lateAnswer (h : w.colour.keys.length < limits.maxVisited) (hnew : w.prefetched.lookup id = none)
      (hdeadline : limits.deadline ≠ none) :
      Loads oracle limits kind w id wanted s
        (.error .deadline, s.call (w.callFor limits kind id wanted))
  | unknown (h : w.colour.keys.length < limits.maxVisited) (hnew : w.prefetched.lookup id = none)
      {window : List (κ × List κ)} (checks : ℕ)
      (hanswer : oracle (s.call (w.callFor limits kind id wanted)).calls = .ok window)
      (hfound : window.find? (·.1 = id) = none) :
      Loads oracle limits kind w id wanted s (.error (.unknownCommit id),
        (keepIn limits id window (w.asked checks) (s.call (w.callFor limits kind id wanted))).2)
  | fetched (h : w.colour.keys.length < limits.maxVisited) (hnew : w.prefetched.lookup id = none)
      {window : List (κ × List κ)} {entry : κ × List κ} (checks : ℕ)
      (hanswer : oracle (s.call (w.callFor limits kind id wanted)).calls = .ok window)
      (hfound : window.find? (·.1 = id) = some entry) :
      Loads oracle limits kind w id wanted s
        (.ok (entry.2, (keepIn limits id window (w.asked checks)
            (s.call (w.callFor limits kind id wanted))).1.recorded id entry.2),
          (keepIn limits id window (w.asked checks) (s.call (w.callFor limits kind id wanted))).2)

theorem loads_loadIn (oracle : Oracle κ ε) (limits : TraversalLimits) (kind : WindowKind)
    (w : Walk κ) (id : κ) (wanted : ℕ) (s : Session κ) :
    Loads oracle limits kind w id wanted s (w.loadIn oracle limits kind id wanted s) := by
  unfold loadIn
  split_ifs with hfull
  · exact .full hfull
  have hroom : w.colour.keys.length < limits.maxVisited := Nat.lt_of_not_le hfull
  obtain ⟨checks, hchecked⟩ | ⟨hchecked, hdeadline⟩ := checkDeadline_cases (ε := ε) limits w
  · rw [hchecked]
    cases hlookup : w.prefetched.lookup id with
    | some ps =>
        simp only [serveIn, hlookup]
        exact .served hroom checks hlookup
    | none =>
        have hcall : ({ w with checks := checks }).callFor limits kind id wanted =
            w.callFor limits kind id wanted := rfl
        simp only [serveIn, hlookup, fetchIn, hcall]
        cases hanswer : oracle (s.call (w.callFor limits kind id wanted)).calls with
        | error e => exact .refused hroom hlookup hanswer
        | ok window =>
            obtain ⟨checks', hchecked'⟩ | ⟨hchecked', hdeadline⟩ := checkDeadline_cases (ε := ε)
              limits { w with checks := checks, ramp := min (w.ramp * windowRamp) usizeMax }
            · cases hfound : window.find? (·.1 = id) with
              | none =>
                  simp only [hchecked', hfound]
                  exact .unknown hroom hlookup checks' hanswer hfound
              | some entry =>
                  simp only [hchecked', hfound]
                  exact .fetched hroom hlookup checks' hanswer hfound
            · simp only [hchecked']
              exact .lateAnswer hroom hlookup hdeadline
  · rw [hchecked]
    exact .late hdeadline

variable {oracle : Oracle κ ε} {limits : TraversalLimits} {kind : WindowKind} {w w' : Walk κ}
variable {id : κ} {wanted : ℕ} {s s' : Session κ} {ps : List κ}

@[simp] theorem keepIn_colour (window : List (κ × List κ)) :
    (keepIn limits id window w s).1.colour = w.colour := by
  rw [keepIn_fst, foldl_keep_colour]

theorem loadIn_colour (h : w.loadIn oracle limits kind id wanted s = (.ok (ps, w'), s')) :
    w'.colour = w.colour ∧ w.colour.keys.length < limits.maxVisited := by
  have hload := loads_loadIn oracle limits kind w id wanted s
  rw [h] at hload
  cases hload with
  | served hroom => exact ⟨rfl, hroom⟩
  | fetched hroom => exact ⟨keepIn_colour _, hroom⟩

theorem le_length_setColour (w : Walk κ) (id : κ) (c : Colour) :
    w.colour.keys.length ≤ (w.setColour id c).colour.keys.length := by
  by_cases h : id ∈ w.colour
  · rw [length_setColour_of_mem c h]
  · rw [length_setColour_of_notMem c h]
    exact Nat.le_succ _

/-- The search of `Walk::dfs` with `work` still to do. No fuel is needed: an entered commit takes
from what the visit limit leaves. -/
def searchIn (oracle : Oracle κ ε) (limits : TraversalLimits) (kind : WindowKind)
    (onEnter : σ → κ → σ × Bool) (w : Walk κ) (v : σ) : List (Work κ) → Session κ →
    Except (DagError κ ε) (Walk κ × σ × DfsOutcome) × Session κ
  | [], s => (.ok (w, v, .complete), s)
  | .finish id :: rest, s =>
      searchIn oracle limits kind onEnter (w.setColour id .black) v rest
        (s.observe (w.setColour id .black))
  | .follow id :: rest, s =>
      match _ : w.colour.lookup id with
      | some .grey => (.error (.cycle id), s)
      | some .black => searchIn oracle limits kind onEnter w v rest s
      | none =>
          match _ : w.loadIn oracle limits kind id usizeMax s with
          | (.error e, s) => (.error e, s)
          | (.ok (parents, w'), s) =>
              match onEnter v id with
              | (v, true) =>
                  (.ok (w'.setColour id .grey, v, .hit), s.observe (w'.setColour id .grey))
              | (v, false) =>
                  searchIn oracle limits kind onEnter (w'.setColour id .grey) v
                    (parents.map .follow ++ .finish id :: rest) (s.observe (w'.setColour id .grey))
  termination_by work => (limits.maxVisited - w.colour.keys.length, work.length)
  decreasing_by
    · exact Prod.Lex.right' _ (Nat.sub_le_sub_left (le_length_setColour w id .black) _)
        (Nat.lt_succ_self _)
    · exact Prod.Lex.right _ (Nat.lt_succ_self _)
    · obtain ⟨hcolour, hroom⟩ := loadIn_colour ‹_›
      refine Prod.Lex.left _ _ ?_
      rw [length_setColour_of_notMem _ (hcolour ▸ AList.lookup_eq_none.mp ‹_›), hcolour]
      omega

/-- `Walk::dfs` on a walk that has not entered `start`. -/
def dfsIn (oracle : Oracle κ ε) (limits : TraversalLimits) (kind : WindowKind)
    (onEnter : σ → κ → σ × Bool) (w : Walk κ) (v : σ) (start : κ) (s : Session κ) :
    Except (DagError κ ε) (Walk κ × σ × DfsOutcome) × Session κ :=
  searchIn oracle limits kind onEnter w v [.follow start] s

/-- The loop of `first_parent_history`. -/
def firstParentsIn (oracle : Oracle κ ε) (limits : TraversalLimits) :
    ℕ → Walk κ → κ → Session κ → Except (DagError κ ε) (List κ) × Session κ
  | 0, _, _, s => (.ok [], s)
  | wanted + 1, w, current, s =>
      match w.loadIn oracle limits .firstParent current (wanted + 1) s with
      | (.error e, s) => (.error e, s)
      | (.ok (parents, w), s) =>
          let w := w.setColour current .grey
          let s := s.observe w
          if wanted = 0 then (.ok [current], s)
          else
            match parents.head? with
            | none => (.ok [current], s)
            | some first =>
                if first ∈ w.colour then (.error (.cycle first), s)
                else
                  let rest := firstParentsIn oracle limits wanted w first s
                  (rest.1.map (current :: ·), rest.2)

/-! ## Watching changes nothing -/

theorem fetch_erased (provider : ParentProvider κ ε) :
    (w.fetchIn provider.oracle limits kind id wanted s).1 =
      w.fetch provider limits kind id wanted := by
  have hanswer : provider.oracle (s.call (w.callFor limits kind id wanted)).calls =
      provider.ancestryWindow id (w.budget limits wanted) kind := by
    simp [ParentProvider.oracle, callFor]
  unfold fetchIn fetch
  simp only [hanswer]
  cases provider.ancestryWindow id (w.budget limits wanted) kind with
  | error e => rfl
  | ok window =>
      simp only [mapError_ok, ok_bind]
      cases checkDeadline limits { w with ramp := min (w.ramp * windowRamp) usizeMax } with
      | error e => rfl
      | ok w₁ =>
          simp only [ok_bind]
          cases window.find? (·.1 = id) with
          | none => rfl
          | some entry => simp only [keepIn_fst, pure_eq_ok]

theorem load_erased (provider : ParentProvider κ ε) :
    (w.loadIn provider.oracle limits kind id wanted s).1 =
      w.load provider limits kind id wanted := by
  unfold loadIn load
  split_ifs with hfull
  · rfl
  cases w.checkDeadline limits with
  | error e => rfl
  | ok w₁ =>
      have hserve : (w₁.serveIn provider.oracle limits kind id wanted s).1 =
          w₁.serve provider limits kind id wanted := by
        unfold serveIn serve
        cases w₁.prefetched.lookup id with
        | some parents => rfl
        | none => exact fetch_erased provider
      simp only [ok_bind]
      rw [← hserve]
      cases w₁.serveIn provider.oracle limits kind id wanted s with
      | mk r s₁ =>
          cases r with
          | error e => rfl
          | ok res => rfl

theorem load_of_loadIn {provider : ParentProvider κ ε}
    {r : Except (DagError κ ε) (List κ × Walk κ)}
    (h : w.loadIn provider.oracle limits kind id wanted s = (r, s')) :
    w.load provider limits kind id wanted = r := by
  rw [← load_erased (s := s), h]

theorem search_erased (provider : ParentProvider κ ε) {onEnter : σ → κ → σ × Bool} {v : σ}
    {work : List (Work κ)} {fuel : ℕ} (hfuel : limits.maxVisited ≤ fuel + w.colour.keys.length) :
    (searchIn provider.oracle limits kind onEnter w v work s).1 =
      drain (explore provider limits kind onEnter fuel) w v work := by
  fun_induction searchIn provider.oracle limits kind onEnter w v work s generalizing fuel with
  | case1 => rfl
  | case2 w v id rest s ih =>
      rw [drain]
      exact ih (hfuel.trans (Nat.add_le_add_left (le_length_setColour w id .black) fuel))
  | case3 w v id rest s hgrey => simp only [drain, hgrey]
  | case4 w v id rest s hblack ih =>
      simp only [drain, hblack]
      exact ih hfuel
  | case5 w v id rest s hnone e s' hload =>
      have hpure := load_of_loadIn hload
      simp only [drain, hnone]
      cases fuel with
      | zero =>
          -- without fuel the limit is reached, and `load` says so
          rw [load, if_pos (by simpa using hfuel)] at hpure
          rw [explore, ← Except.error.inj hpure]
      | succ fuel =>
          rw [explore, hpure]
          rfl
  | case6 w v id rest s hnone parents w' s' hload v' henter =>
      obtain ⟨hcolour, hroom⟩ := loadIn_colour hload
      obtain ⟨fuel, rfl⟩ : ∃ n, fuel = n + 1 := ⟨fuel - 1, by omega⟩
      simp only [drain, hnone, explore, load_of_loadIn hload, ok_bind, henter, pure_eq_ok]
  | case7 w v id rest s hnone parents w' s' hload v' henter ih =>
      obtain ⟨hcolour, hroom⟩ := loadIn_colour hload
      obtain ⟨fuel, rfl⟩ : ∃ n, fuel = n + 1 := ⟨fuel - 1, by omega⟩
      simp only [drain, hnone, explore, load_of_loadIn hload, ok_bind, henter]
      refine ih ?_
      rw [length_setColour_of_notMem _ (hcolour ▸ AList.lookup_eq_none.mp hnone), hcolour]
      omega

theorem dfs_erased (provider : ParentProvider κ ε) {onEnter : σ → κ → σ × Bool} {v : σ}
    {start : κ} (hstart : start ∉ w.colour) :
    (dfsIn provider.oracle limits kind onEnter w v start s).1 =
      dfs provider limits kind onEnter w v start := by
  rw [dfsIn, search_erased provider (Nat.le_add_right _ _), dfs, drain,
    AList.lookup_eq_none.mpr hstart]

theorem firstParents_erased (provider : ParentProvider κ ε) (w : Walk κ) (current : κ)
    (s : Session κ) : (firstParentsIn provider.oracle limits wanted w current s).1 =
      firstParents provider limits wanted w current := by
  induction wanted generalizing w current s with
  | zero => rfl
  | succ wanted ih =>
      rw [firstParentsIn, firstParents]
      cases hload : w.loadIn provider.oracle limits .firstParent current (wanted + 1) s with
      | mk r s' =>
          rw [load_of_loadIn hload]
          cases r with
          | error e => rfl
          | ok res =>
              simp only [ok_bind]
              split_ifs with hlast
              · rfl
              cases res.1.head? with
              | none => rfl
              | some first =>
                  simp only
                  split_ifs with hcycle
                  · rfl
                  · rw [← ih _ first (s'.observe (res.2.setColour current .grey))]
                    rfl

end Walk

/-! ## The bounds -/

structure Session.Bounded (limits : TraversalLimits) (s : Session κ) : Prop where
  anchors : (s.calls.map Call.anchor).Nodup
  count : s.calls.length ≤ limits.maxVisited
  asked : ∀ c ∈ s.calls, 1 ≤ c.asked ∧ c.asked ≤ limits.maxVisited - c.visited
  entered : s.mostEntered ≤ limits.maxVisited
  prefetched : s.mostPrefetched ≤ limits.maxVisited

namespace Walk

variable [DecidableEq κ] {oracle : Oracle κ ε} {limits : TraversalLimits} {kind : WindowKind}
variable {w w' : Walk κ} {id : κ} {wanted : ℕ} {s s' : Session κ} {ps : List κ}

structure Fits (limits : TraversalLimits) (w : Walk κ) (s : Session κ) : Prop where
  entered : w.colour.keys.length ≤ limits.maxVisited
  held : w.prefetched.keys.length ≤ limits.maxVisited
  mostEntered : s.mostEntered ≤ limits.maxVisited
  mostPrefetched : s.mostPrefetched ≤ limits.maxVisited

theorem Fits.observe (h : Fits limits w s) (hentered : w'.colour.keys.length ≤ limits.maxVisited)
    (hheld : w'.prefetched.keys.length ≤ limits.maxVisited) : Fits limits w' (s.observe w') :=
  ⟨hentered, hheld, max_le h.mostEntered hentered, max_le h.mostPrefetched hheld⟩

theorem length_keep_le (entry : κ × List κ) (h : w.prefetched.keys.length ≤ limits.maxVisited) :
    (w.keep limits id entry).prefetched.keys.length ≤ limits.maxVisited := by
  unfold keep
  split_ifs with _ hroom hmem
  · exact h
  · exact h
  · have hnot : entry.1 ∉ w.prefetched.keys := mt AList.mem_keys.mpr hmem
    simp only [AList.keys_insert, List.length_cons, List.erase_of_not_mem hnot]
    exact hroom.2
  · exact h

theorem Fits.keepIn (h : Fits limits w s) (window : List (κ × List κ)) :
    Fits limits (keepIn limits id window w s).1 (keepIn limits id window w s).2 := by
  induction window generalizing w s with
  | nil => exact h
  | cons entry window ih =>
      refine ih (h.observe ?_ (length_keep_le entry h.held))
      rw [keep_colour]
      exact h.entered

@[simp] theorem keepIn_calls (window : List (κ × List κ)) :
    (keepIn limits id window w s).2.calls = s.calls := by
  induction window generalizing w s with
  | nil => rfl
  | cons entry window ih => exact ih

structure Running (limits : TraversalLimits) (w : Walk κ) (s : Session κ) : Prop
    extends Fits limits w s where
  anchors : (s.calls.map Call.anchor).Nodup
  anchored : ∀ c ∈ s.calls, c.anchor ∈ w.colour
  count : s.calls.length ≤ w.colour.keys.length
  asked : ∀ c ∈ s.calls, 1 ≤ c.asked ∧ c.asked ≤ limits.maxVisited - c.visited

theorem running_start (r : Option (AList fun _ : κ => List κ)) :
    Running limits { record := r } ({} : Session κ) := by
  refine ⟨⟨?_, ?_, ?_, ?_⟩, ?_, ?_, ?_, ?_⟩ <;> simp

theorem Running.bounded (h : Running limits w s) : s.Bounded limits :=
  ⟨h.anchors, h.count.trans h.entered, h.asked, h.mostEntered, h.mostPrefetched⟩

theorem one_le_budget (w : Walk κ) : 1 ≤ w.budget limits wanted := Nat.le_max_left _ _

theorem budget_le (h : w.colour.keys.length < limits.maxVisited) :
    w.budget limits wanted ≤ limits.maxVisited - w.colour.keys.length := by
  unfold budget
  omega

theorem Running.call (h : Running limits w s) (hroom : w.colour.keys.length < limits.maxVisited)
    (hid : id ∉ w.colour) : (s.call (w.callFor limits kind id wanted)).Bounded limits := by
  refine ⟨?_, ?_, ?_, h.mostEntered, h.mostPrefetched⟩
  · rw [Session.calls_call, List.map_append, List.nodup_append]
    refine ⟨h.anchors, List.nodup_singleton _, ?_⟩
    rintro a ha b hb rfl
    obtain ⟨c, hc, rfl⟩ := List.mem_map.mp ha
    obtain rfl : c.anchor = id := List.mem_singleton.mp hb
    exact hid (h.anchored c hc)
  · rw [Session.calls_call, List.length_append]
    exact Nat.succ_le_of_lt (lt_of_le_of_lt h.count hroom)
  · intro c hc
    rcases List.mem_append.mp hc with hc | hc
    · exact h.asked c hc
    · rw [List.mem_singleton.mp hc]
      exact ⟨one_le_budget w, budget_le hroom⟩

theorem Running.enter {v : Session κ} (h : Running limits w s)
    (hroom : w.colour.keys.length < limits.maxVisited) (hid : id ∉ w.colour)
    (hcolour : w'.colour = w.colour) (hfits : Fits limits w' v) (hbounded : v.Bounded limits)
    (hanchored : ∀ c ∈ v.calls, c ∈ s.calls ∨ c.anchor = id)
    (hcount : v.calls.length ≤ s.calls.length + 1) :
    Running limits (w'.setColour id .grey) (v.observe (w'.setColour id .grey)) := by
  have hlength : (w'.setColour id .grey).colour.keys.length = w.colour.keys.length + 1 := by
    rw [length_setColour_of_notMem _ (hcolour ▸ hid), hcolour]
  refine ⟨hfits.observe (by omega) hfits.held, hbounded.anchors, fun c hc => ?_, ?_, hbounded.asked⟩
  · rw [mem_setColour, hcolour]
    exact (hanchored c hc).symm.imp_right (h.anchored c)
  · rw [hlength]
    exact hcount.trans (Nat.succ_le_succ h.count)

theorem Running.window (h : Running limits w s) (hroom : w.colour.keys.length < limits.maxVisited)
    (hid : id ∉ w.colour) (window : List (κ × List κ)) (checks : ℕ)
    {kept : Walk κ × Session κ} (hkept : kept = Walk.keepIn limits id window (w.asked checks)
      (s.call (w.callFor limits kind id wanted))) :
    Fits limits kept.1 kept.2 ∧ kept.2.Bounded limits := by
  subst hkept
  have hcall : (s.call (w.callFor limits kind id wanted)).Bounded limits := h.call hroom hid
  have hfits : Fits limits (w.asked checks) (s.call (w.callFor limits kind id wanted)) :=
    ⟨h.entered, h.held, h.mostEntered, h.mostPrefetched⟩
  have hkeep : Fits limits (Walk.keepIn limits id window (w.asked checks) _).1 _ :=
    hfits.keepIn window
  refine ⟨hkeep, ⟨?_, ?_, ?_, hkeep.mostEntered, hkeep.mostPrefetched⟩⟩
  · rw [keepIn_calls]
    exact hcall.anchors
  · rw [keepIn_calls]
    exact hcall.count
  · rw [keepIn_calls]
    exact hcall.asked

theorem Running.load (h : Running limits w s) (hid : id ∉ w.colour)
    {r : Except (DagError κ ε) (List κ × Walk κ) × Session κ}
    (hload : Loads oracle limits kind w id wanted s r) :
    r.2.Bounded limits ∧ ∀ ps w', r.1 = .ok (ps, w') →
      Running limits (w'.setColour id .grey) (r.2.observe (w'.setColour id .grey)) := by
  cases hload with
  | full => exact ⟨h.bounded, by simp⟩
  | late => exact ⟨h.bounded, by simp⟩
  | refused hroom hnew => exact ⟨h.call hroom hid, by simp⟩
  | lateAnswer hroom hnew => exact ⟨h.call hroom hid, by simp⟩
  | served hroom checks hps =>
      refine ⟨h.bounded, ?_⟩
      rintro _ _ ⟨⟩
      refine h.enter hroom hid rfl ⟨h.entered, ?_, h.mostEntered, h.mostPrefetched⟩ h.bounded
        (fun c hc => .inl hc) (Nat.le_succ _)
      have hkeys : (w.prefetched.erase id).keys.length ≤ w.prefetched.keys.length := by
        rw [AList.keys_erase]
        exact List.length_erase_le
      exact hkeys.trans h.held
  | @unknown hroom hnew window checks => exact ⟨(h.window hroom hid window checks rfl).2, by simp⟩
  | @fetched hroom hnew window entry checks hanswer hfound =>
      obtain ⟨hfits, hbounded⟩ := h.window hroom hid window checks rfl
      refine ⟨hbounded, ?_⟩
      rintro _ _ ⟨⟩
      refine h.enter hroom hid (keepIn_colour window)
        ⟨hfits.entered, hfits.held, hfits.mostEntered, hfits.mostPrefetched⟩ hbounded ?_ ?_
      · intro c hc
        rw [keepIn_calls, Session.calls_call, List.mem_append, List.mem_singleton] at hc
        exact hc.imp_right fun hc => congrArg Call.anchor hc
      · rw [keepIn_calls, Session.calls_call, List.length_append]
        exact le_rfl

theorem searchIn_bounded {onEnter : σ → κ → σ × Bool} {v : σ} {work : List (Work κ)}
    (h : Running limits w s) (hwork : ∀ id, .finish id ∈ work → id ∈ w.colour) :
    (searchIn oracle limits kind onEnter w v work s).2.Bounded limits := by
  fun_induction searchIn oracle limits kind onEnter w v work s with
  | case1 => exact h.bounded
  | case2 w v id rest s ih =>
      have hid := hwork id List.mem_cons_self
      have hlength := length_setColour_of_mem .black hid
      refine ih ⟨h.observe (hlength ▸ h.entered) h.held, h.anchors, fun c hc => ?_,
        hlength ▸ h.count, h.asked⟩ fun x hx => ?_
      · exact (mem_setColour _ _).mpr (.inr (h.anchored c hc))
      · exact (mem_setColour _ _).mpr (.inr (hwork x (.tail _ hx)))
  | case3 => exact h.bounded
  | case4 w v id rest s hblack ih => exact ih h fun x hx => hwork x (.tail _ hx)
  | case5 w v id rest s hnone e s' hload =>
      have hid := AList.lookup_eq_none.mp hnone
      have hstep := h.load hid (loads_loadIn oracle limits kind w id usizeMax s)
      rw [hload] at hstep
      exact hstep.1
  | case6 w v id rest s hnone parents w' s' hload v' henter =>
      have hid := AList.lookup_eq_none.mp hnone
      have hstep := h.load hid (loads_loadIn oracle limits kind w id usizeMax s)
      rw [hload] at hstep
      exact (hstep.2 parents w' rfl).bounded
  | case7 w v id rest s hnone parents w' s' hload v' henter ih =>
      have hid := AList.lookup_eq_none.mp hnone
      have hstep := h.load hid (loads_loadIn oracle limits kind w id usizeMax s)
      rw [hload] at hstep
      refine ih (hstep.2 parents w' rfl) fun x hx => ?_
      rw [mem_setColour, (loadIn_colour hload).1]
      rcases List.mem_append.mp hx with hx | hx
      · simp at hx
      · rcases List.mem_cons.mp hx with hx | hx
        · exact .inl (Work.finish.inj hx)
        · exact .inr (hwork x (.tail _ hx))

theorem firstParentsIn_bounded {wanted : ℕ} {current : κ} (h : Running limits w s)
    (hcurrent : current ∉ w.colour) :
    (firstParentsIn oracle limits wanted w current s).2.Bounded limits := by
  induction wanted generalizing w current s with
  | zero => exact h.bounded
  | succ wanted ih =>
      have hstep := h.load hcurrent
        (loads_loadIn oracle limits .firstParent w current (wanted + 1) s)
      rw [firstParentsIn]
      cases hload : w.loadIn oracle limits .firstParent current (wanted + 1) s with
      | mk r s' =>
          rw [hload] at hstep
          cases r with
          | error e => exact hstep.1
          | ok res =>
              have hrunning := hstep.2 res.1 res.2 rfl
              simp only
              split_ifs with hlast
              · exact hrunning.bounded
              cases res.1.head? with
              | none => exact hrunning.bounded
              | some first =>
                  simp only
                  split_ifs with hcycle
                  · exact hrunning.bounded
                  · exact ih hrunning hcycle

end Walk

variable [DecidableEq κ]

/-- `ancestors`, watched. -/
def Dag.ancestorsIn (oracle : Oracle κ ε) (head : κ) (limits : TraversalLimits) (s : Session κ) :
    Except (DagError κ ε) (List κ) × Session κ :=
  let r := Walk.dfsIn oracle limits .ancestry (fun (order : List κ) id => (order ++ [id], false))
    {} [] head s
  (r.1.map fun found => found.2.1, r.2)

/-- `first_parent_history`, watched. -/
def Dag.firstParentHistoryIn (oracle : Oracle κ ε) (head : κ) (max : ℕ) (limits : TraversalLimits)
    (s : Session κ) : Except (DagError κ ε) (List κ) × Session κ :=
  Walk.firstParentsIn oracle limits max {} head s

theorem Dag.ancestors_erased (provider : ParentProvider κ ε) (head : κ) (limits : TraversalLimits)
    (s : Session κ) : (Dag.ancestorsIn provider.oracle head limits s).1 =
      Dag.ancestors provider head limits := by
  rw [ancestorsIn, ancestors, ← Walk.dfs_erased (s := s) provider (by simp)]
  cases (Walk.dfsIn provider.oracle limits .ancestry _ {} [] head s).1 <;> rfl

theorem Dag.firstParentHistory_erased (provider : ParentProvider κ ε) (head : κ) (max : ℕ)
    (limits : TraversalLimits) (s : Session κ) :
    (Dag.firstParentHistoryIn provider.oracle head max limits s).1 =
      Dag.firstParentHistory provider head max limits :=
  Walk.firstParents_erased provider {} head s

end CognitiveLedger
