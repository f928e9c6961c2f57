import CognitiveLedger.Dag.Sessions
import Mathlib.Data.List.Perm.Basic
import Mathlib.Data.List.Perm.Subperm

/-!
# How many calls a linear history takes

Along a linear history a walk asks for one commit, then for four, then for sixteen, as
long as the provider's window and the visit limit allow. The commits it holds are always
the next ones of the line, so it asks again exactly when it has entered all that it has
fetched, and the number of calls is the closed loop of `window_calls`.
-/

set_option linter.unusedSectionVars false

namespace CognitiveLedger

variable {κ ε σ : Type}

/-! ## The formula -/

theorem windowRamp_pos {ask : ℕ} (h : 0 < ask) : 0 < min (ask * windowRamp) usizeMax := by
  simp only [windowRamp, usizeMax]
  omega

/-- The turns that the loop of `window_calls` still makes; `none` if `done` overflows. -/
def windowCallsLoop (commits window : ℕ) (hwindow : 0 < window) (done ask : ℕ) (hask : 0 < ask) :
    Option ℕ :=
  if done < commits then
    if done + min ask window ≤ usizeMax then
      (windowCallsLoop commits window hwindow (done + min ask window)
        (min (ask * windowRamp) usizeMax) (windowRamp_pos hask)).map (· + 1)
    else none
  else some 0
  termination_by commits - done

/-- `window_calls`. -/
def windowCalls (commits window : ℕ) : Option ℕ :=
  windowCallsLoop commits (max window 1) (by omega) 0 1 Nat.one_pos

variable {commits window done ask : ℕ} {hwindow : 0 < window} {hask : 0 < ask}

/-- The loop adds at most three times what it has, and one. So up to `2 ^ 62` commits nothing
overflows. -/
theorem windowCallsLoop_isSome (hcommits : commits ≤ 2 ^ 62) (h : min ask window ≤ 3 * done + 1) :
    (windowCallsLoop commits window hwindow done ask hask).isSome := by
  fun_induction windowCallsLoop commits window hwindow done ask hask with
  | case1 done ask hask hdone hfits ih =>
      rw [Option.isSome_map]
      refine ih ?_
      simp only [windowRamp]
      omega
  | case2 done ask hask hdone hfits =>
      simp only [usizeMax] at hfits
      omega
  | case3 => rfl

/-- Beyond the last commit it does not matter how far the loop has come. -/
theorem windowCallsLoop_min {k : ℕ} (h : windowCallsLoop commits window hwindow done ask hask = some k) :
    windowCallsLoop commits window hwindow (min done commits) ask hask = some k := by
  by_cases hdone : done < commits
  · rwa [min_eq_left hdone.le]
  · rw [windowCallsLoop, if_neg hdone] at h
    rw [min_eq_right (Nat.le_of_not_lt hdone), windowCallsLoop, if_neg (lt_irrefl _), h]

theorem windowCallsLoop_congr {done' ask' : ℕ} {hask' : 0 < ask'} (hdone : done = done')
    (h : ask = ask') : windowCallsLoop commits window hwindow done ask hask =
      windowCallsLoop commits window hwindow done' ask' hask' := by
  subst hdone h
  rfl

theorem windowCallsLoop_succ {k : ℕ}
    (h : windowCallsLoop commits window hwindow done ask hask = some k) (hdone : done < commits) :
    ∃ j, windowCallsLoop commits window hwindow (done + min ask window)
      (min (ask * windowRamp) usizeMax) (windowRamp_pos hask) = some j ∧ k = j + 1 := by
  rw [windowCallsLoop, if_pos hdone] at h
  split_ifs at h
  obtain ⟨j, hj, rfl⟩ := Option.map_eq_some_iff.mp h
  exact ⟨j, hj, rfl⟩

namespace Walk

variable [DecidableEq κ] {oracle : Oracle κ ε} {limits : TraversalLimits} {kind : WindowKind}
variable {w w' : Walk κ} {id : κ} {s s' : Session κ} {onEnter : σ → κ → σ × Bool} {v v' : σ}

theorem searchIn_enter {parents : List κ} {rest : List (Work κ)} (hid : id ∉ w.colour)
    (hload : w.loadIn oracle limits kind id usizeMax s = (.ok (parents, w'), s'))
    (henter : onEnter v id = (v', false)) :
    searchIn oracle limits kind onEnter w v (.follow id :: rest) s =
      searchIn oracle limits kind onEnter (w'.setColour id .grey) v'
        (parents.map .follow ++ .finish id :: rest) (s'.observe (w'.setColour id .grey)) := by
  have hnone := AList.lookup_eq_none.mpr hid
  rw [searchIn]
  split
  · rename_i hgrey
    cases hnone.symm.trans hgrey
  · rename_i hblack
    cases hnone.symm.trans hblack
  · split
    · rename_i herror
      cases hload.symm.trans herror
    · rename_i hok
      cases hload.symm.trans hok
      rw [henter]

theorem searchIn_fails {e : DagError κ ε} {rest : List (Work κ)} (hid : id ∉ w.colour)
    (hload : w.loadIn oracle limits kind id usizeMax s = (.error e, s')) :
    searchIn oracle limits kind onEnter w v (.follow id :: rest) s = (.error e, s') := by
  have hnone := AList.lookup_eq_none.mpr hid
  rw [searchIn]
  split
  · rename_i hgrey
    cases hnone.symm.trans hgrey
  · rename_i hblack
    cases hnone.symm.trans hblack
  · split
    · rename_i herror
      cases hload.symm.trans herror
      rfl
    · rename_i hok
      cases hload.symm.trans hok

/-- Ending the commits of a path asks for nothing. -/
theorem searchIn_finish {ids : List κ}
    {r : Except (DagError κ ε) (Walk κ × σ × DfsOutcome) × Session κ}
    (hr : searchIn oracle limits kind onEnter w v (ids.map .finish) s = r) :
    (∃ w', r.1 = .ok (w', v, .complete)) ∧ r.2.calls = s.calls := by
  induction ids generalizing w s with
  | nil =>
      rw [List.map_nil, searchIn] at hr
      subst hr
      exact ⟨⟨w, rfl⟩, rfl⟩
  | cons id ids ih =>
      rw [List.map_cons, searchIn] at hr
      have hrest := ih hr
      exact hrest

end Walk

/-! ## A linear history -/

/-- The commits of a line with their parents: the parent of each is the next one. -/
def lineEntries : List κ → List (κ × List κ)
  | [] => []
  | c :: rest => (c, rest.head?.toList) :: lineEntries rest

@[simp] theorem map_fst_lineEntries (line : List κ) : (lineEntries line).map Prod.fst = line := by
  induction line with
  | nil => rfl
  | cons c rest ih => rw [lineEntries, List.map_cons, ih]

@[simp] theorem length_lineEntries (line : List κ) : (lineEntries line).length = line.length := by
  rw [← List.length_map Prod.fst, map_fst_lineEntries]

/-- The provider fills its window along `line`: a call anchored there is answered with the anchor
and the commits that follow it, in any order, as many as were asked for and as the window takes. -/
def Oracle.Fills (oracle : Oracle κ ε) (line : List κ) (window : ℕ) : Prop :=
  ∀ calls call front back, line = front ++ call.anchor :: back →
    ∃ answer, oracle (calls ++ [call]) = .ok answer ∧
      answer.Perm ((lineEntries (call.anchor :: back)).take (min call.asked window))

namespace Walk

variable [DecidableEq κ] {oracle : Oracle κ ε} {limits : TraversalLimits} {kind : WindowKind}
variable {w w' : Walk κ} {id c : κ} {s s' : Session κ} {front back : List κ} {ahead window : ℕ}

@[simp] theorem foldl_keep_ramp (answer : List (κ × List κ)) :
    (answer.foldl (keep limits · id) w).ramp = w.ramp := by
  induction answer generalizing w with
  | nil => rfl
  | cons entry answer ih =>
      rw [List.foldl_cons, ih, keep]
      split_ifs <;> rfl

/-- A window of new commits is kept as it is, but for its anchor. -/
theorem foldl_keep_lookup {answer : List (κ × List κ)} (hnodup : (answer.map Prod.fst).Nodup)
    (hnew : ∀ c ∈ answer.map Prod.fst, c ∉ w.colour ∧ c ∉ w.prefetched)
    (hroom : w.prefetched.keys.length + answer.length ≤ limits.maxVisited) (c : κ) (ps : List κ) :
    (answer.foldl (keep limits · id) w).prefetched.lookup c = some ps ↔
      w.prefetched.lookup c = some ps ∨ (c ≠ id ∧ (c, ps) ∈ answer) := by
  induction answer generalizing w with
  | nil => simp
  | cons entry answer ih =>
      obtain ⟨d, qs⟩ := entry
      rw [List.map_cons, List.nodup_cons] at hnodup
      rw [List.map_cons, List.forall_mem_cons] at hnew
      obtain ⟨⟨hcolour, hheld⟩, hnew⟩ := hnew
      rw [List.length_cons] at hroom
      rw [List.foldl_cons]
      by_cases hd : d = id
      · subst hd
        rw [keep, if_pos rfl, ih hnodup.2 hnew (by omega)]
        refine or_congr_right (and_congr_right fun hc => ?_)
        simp [hc]
      · have hkept : w.keep limits id (d, qs) =
            { w with prefetched := w.prefetched.insert d qs } := by
          rw [keep, if_neg hd, if_pos ⟨hcolour, by omega⟩, if_neg hheld]
        have hnot : d ∉ w.prefetched.keys := mt AList.mem_keys.mpr hheld
        rw [hkept, ih hnodup.2]
        · by_cases hc : c = d
          · subst hc
            have hmiss : (c, ps) ∉ answer := fun hmem =>
              hnodup.1 (List.mem_map.mpr ⟨_, hmem, rfl⟩)
            simp [AList.lookup_eq_none.mpr hheld, hd, hmiss, eq_comm (a := qs) (b := ps)]
          · simp [AList.lookup_insert_ne hc, hc]
        · intro x hx
          refine ⟨(hnew x hx).1, fun hmem => ?_⟩
          rcases (AList.mem_insert _).mp hmem with rfl | hmem
          · exact hnodup.1 hx
          · exact (hnew x hx).2 hmem
        · simp only [AList.keys_insert, List.length_cons, List.erase_of_not_mem hnot]
          omega

/-- A walk along a line that has entered `front` and holds the next `ahead` commits of `back`. -/
structure OnLine (front back : List κ) (ahead : ℕ) (w : Walk κ) : Prop where
  entered : ∀ c, c ∈ w.colour ↔ c ∈ front
  held : ∀ c ps, w.prefetched.lookup c = some ps ↔ (c, ps) ∈ (lineEntries back).take ahead
  ahead_le : ahead ≤ back.length
  ramp_pos : 0 < w.ramp
  ramp_le : w.ramp ≤ usizeMax

theorem OnLine.length_colour (h : OnLine front back ahead w) (hnodup : front.Nodup) :
    w.colour.keys.length = front.length := by
  refine List.Perm.length_eq ((List.perm_ext_iff_of_nodup w.colour.keys_nodup hnodup).mpr fun c => ?_)
  rw [← AList.mem_keys, h.entered]

theorem OnLine.enter (h : OnLine front (c :: back) ahead w) {ahead' : ℕ}
    (hcolour : w'.colour = w.colour)
    (hheld : ∀ d ps, w'.prefetched.lookup d = some ps ↔ (d, ps) ∈ (lineEntries back).take ahead')
    (hahead : ahead' ≤ back.length) (hpos : 0 < w'.ramp) (hle : w'.ramp ≤ usizeMax) :
    OnLine (front ++ [c]) back ahead' (w'.setColour c .grey) := by
  refine ⟨fun d => ?_, hheld, hahead, hpos, hle⟩
  rw [mem_setColour, hcolour, h.entered, List.mem_append, List.mem_singleton, or_comm]

theorem fst_mem_of_mem_take {line : List κ} {n : ℕ} {d : κ} {ps : List κ}
    (h : (d, ps) ∈ (lineEntries line).take n) : d ∈ line := by
  rw [← map_fst_lineEntries line]
  exact List.mem_map.mpr ⟨_, List.mem_of_mem_take h, rfl⟩

/-- The held commits but for the first one. -/
theorem mem_take_tail {n : ℕ} {d : κ} {ps : List κ} (hc : c ∉ back) :
    (d ≠ c ∧ (d, ps) ∈ (lineEntries (c :: back)).take (n + 1)) ↔
      (d, ps) ∈ (lineEntries back).take n := by
  rw [lineEntries, List.take_succ_cons, List.mem_cons, Prod.mk.injEq]
  constructor
  · rintro ⟨hd, ⟨rfl, -⟩ | hmem⟩
    · exact absurd rfl hd
    · exact hmem
  · intro hmem
    refine ⟨?_, .inr hmem⟩
    rintro rfl
    exact hc (fst_mem_of_mem_take hmem)

/-- The parents of the first commit of a line. -/
theorem eq_head_of_mem_take {n : ℕ} {ps : List κ} (hc : c ∉ back)
    (h : (c, ps) ∈ (lineEntries (c :: back)).take n) : ps = back.head?.toList ∧ 0 < n := by
  cases n with
  | zero => simp at h
  | succ n =>
      rw [lineEntries, List.take_succ_cons, List.mem_cons, Prod.mk.injEq] at h
      rcases h with ⟨-, rfl⟩ | hmem
      · exact ⟨rfl, n.succ_pos⟩
      · exact absurd (fst_mem_of_mem_take hmem) hc

/-- What a load along a line did: it served the next commit from memory, or it made one call that
brought as much of the line as the ramp and the window take. -/
inductive Advance (window : ℕ) (back : List κ) (w w' : Walk κ) (s s' : Session κ) : ℕ → ℕ → Prop
  | served {ahead : ℕ} (hramp : w'.ramp = w.ramp) (hcalls : s'.calls = s.calls) :
      Advance window back w w' s s' (ahead + 1) ahead
  | asked {ahead : ℕ} (hramp : w'.ramp = min (w.ramp * windowRamp) usizeMax)
      (hcalls : s'.calls.length = s.calls.length + 1)
      (hahead : ahead + 1 = min (min w.ramp window) (back.length + 1)) :
      Advance window back w w' s s' 0 ahead

theorem OnLine.lookup_eq_none (h : OnLine front back 0 w) (d : κ) : w.prefetched.lookup d = none :=
  Option.eq_none_iff_forall_ne_some.mpr fun ps hps => by simpa using (h.held d ps).mp hps

theorem OnLine.keys_eq_nil (h : OnLine front back 0 w) : w.prefetched.keys = [] :=
  List.eq_nil_iff_forall_not_mem.mpr fun d hd =>
    AList.lookup_eq_none.mp (h.lookup_eq_none d) (AList.mem_keys.mpr hd)

section

variable (hnodup : (front ++ c :: back).Nodup)
  (hmax : (front ++ c :: back).length ≤ limits.maxVisited)
include hnodup hmax

theorem OnLine.keep_window (h : OnLine front (c :: back) 0 w) {answer : List (κ × List κ)} {n : ℕ}
    (hanswer : answer.Perm ((lineEntries (c :: back)).take (n + 1))) (checks : ℕ) (d : κ)
    (ps : List κ) :
    (answer.foldl (keep limits · c) (w.asked checks)).prefetched.lookup d = some ps ↔
      (d, ps) ∈ (lineEntries back).take n := by
  obtain ⟨-, hback, hdisjoint⟩ := List.nodup_append.mp hnodup
  have hkeys : (answer.map Prod.fst).Perm ((c :: back).take (n + 1)) := by
    have hmap := hanswer.map Prod.fst
    rwa [List.map_take, map_fst_lineEntries] at hmap
  have hlength : answer.length ≤ (c :: back).length := by
    rw [← List.length_map Prod.fst, hkeys.length_eq]
    exact List.length_take_le' _ _
  rw [foldl_keep_lookup]
  · have hnone : (w.asked checks).prefetched.lookup d = none := h.lookup_eq_none d
    rw [hnone, hanswer.mem_iff, mem_take_tail (List.nodup_cons.mp hback).1]
    simp
  · exact hkeys.nodup_iff.mpr (hback.sublist (List.take_sublist _ _))
  · intro x hx
    have hline : x ∈ c :: back := List.mem_of_mem_take (hkeys.mem_iff.mp hx)
    refine ⟨fun hcolour => ?_, AList.lookup_eq_none.mp (h.lookup_eq_none x)⟩
    exact hdisjoint x ((h.entered x).mp hcolour) x hline rfl
  · have hempty : (w.asked checks).prefetched.keys.length = 0 := by
      change w.prefetched.keys.length = 0
      rw [h.keys_eq_nil]
      rfl
    rw [List.length_append] at hmax
    omega

theorem OnLine.budget_eq (h : OnLine front (c :: back) ahead w) :
    w.budget limits usizeMax = min (limits.maxVisited - front.length) w.ramp := by
  have hpos := h.ramp_pos
  have hle := h.ramp_le
  rw [List.length_append, List.length_cons] at hmax
  rw [budget, h.length_colour (List.nodup_append.mp hnodup).1]
  omega

theorem OnLine.load (hfills : oracle.Fills (front ++ c :: back) window) (hwindow : 0 < window)
    (h : OnLine front (c :: back) ahead w)
    {r : Except (DagError κ ε) (List κ × Walk κ) × Session κ}
    (hload : Loads oracle limits kind w c usizeMax s r) :
    (r.1 = .error .deadline ∧ limits.deadline ≠ none) ∨
      ∃ w' ahead', r.1 = .ok (back.head?.toList, w') ∧
        OnLine (front ++ [c]) back ahead' (w'.setColour c .grey) ∧
        Advance window back w w' s r.2 ahead ahead' := by
  obtain ⟨hfront, hback, -⟩ := List.nodup_append.mp hnodup
  have hc : c ∉ back := (List.nodup_cons.mp hback).1
  have hlength := h.length_colour hfront
  have hbudget := h.budget_eq hnodup hmax
  obtain ⟨answer, hanswer, hperm⟩ :=
    hfills s.calls (w.callFor limits kind c usizeMax) front back rfl
  obtain ⟨n, hn⟩ : ∃ n, min (w.callFor limits kind c usizeMax).asked window = n + 1 :=
    Nat.exists_eq_succ_of_ne_zero (by
      have hpos : 1 ≤ w.budget limits usizeMax := one_le_budget w
      change min (w.budget limits usizeMax) window ≠ 0
      omega)
  have hperm : answer.Perm ((lineEntries (c :: back)).take (n + 1)) := hn ▸ hperm
  have hfirst : (c, back.head?.toList) ∈ answer := by
    rw [hperm.mem_iff, lineEntries, List.take_succ_cons]
    exact List.mem_cons_self
  -- a commit that is not held is the first one that has not been fetched
  have hahead : w.prefetched.lookup c = none → ahead = 0 := by
    intro hnone
    by_contra hne
    obtain ⟨n, rfl⟩ := Nat.exists_eq_succ_of_ne_zero hne
    have hmem : (c, back.head?.toList) ∈ (lineEntries (c :: back)).take (n + 1) := by
      rw [lineEntries, List.take_succ_cons]
      exact List.mem_cons_self
    rw [(h.held _ _).mpr hmem] at hnone
    cases hnone
  cases hload with
  | full hfull =>
      rw [List.length_append, List.length_cons] at hmax
      omega
  | late hdeadline => exact .inl ⟨rfl, hdeadline⟩
  | lateAnswer _ _ hdeadline => exact .inl ⟨rfl, hdeadline⟩
  | refused _ _ hrefused => cases hanswer.symm.trans hrefused
  | @served _ ps checks hps =>
      obtain ⟨rfl, hpos⟩ := eq_head_of_mem_take hc ((h.held c ps).mp hps)
      obtain ⟨n, rfl⟩ := Nat.exists_eq_succ_of_ne_zero hpos.ne'
      have hle : n ≤ back.length := Nat.le_of_succ_le_succ h.ahead_le
      refine .inr ⟨_, n, rfl, h.enter rfl (fun d qs => ?_) hle h.ramp_pos h.ramp_le, .served rfl rfl⟩
      rw [← mem_take_tail hc, ← h.held]
      change (w.prefetched.erase c).lookup d = some qs ↔ _
      by_cases hd : d = c
      · subst hd
        simp
      · simp [AList.lookup_erase_ne hd, hd]
  | @unknown _ hnew window' checks hwindow' hfound =>
      cases hanswer.symm.trans hwindow'
      simpa using List.find?_eq_none.mp hfound _ hfirst
  | @fetched _ hnew window' entry checks hwindow' hfound =>
      cases hanswer.symm.trans hwindow'
      obtain rfl := hahead hnew
      obtain ⟨d, ps⟩ := entry
      obtain rfl : d = c := by simpa using List.find?_some hfound
      obtain ⟨rfl, -⟩ :=
        eq_head_of_mem_take hc (hperm.mem_iff.mp (List.mem_of_find?_eq_some hfound))
      have hramp : (keepIn limits d answer (w.asked checks)
          (s.call (w.callFor limits kind d usizeMax))).1.ramp =
          min (w.ramp * windowRamp) usizeMax := by
        rw [keepIn_fst, foldl_keep_ramp]
        rfl
      refine .inr ⟨_, min n back.length, rfl, h.enter (keepIn_colour answer) (fun x qs => ?_)
        (min_le_right _ _) ?_ ?_, .asked hramp (by simp) ?_⟩
      · have htake : (lineEntries back).take (min n back.length) = (lineEntries back).take n := by
          rw [List.take_eq_take_iff, length_lineEntries]
          omega
        rw [htake, ← h.keep_window hnodup hmax hperm checks, ← keepIn_fst]
        rfl
      · exact hramp ▸ windowRamp_pos h.ramp_pos
      · exact hramp ▸ min_le_right _ _
      · have hasked : (w.callFor limits kind d usizeMax).asked =
            min (limits.maxVisited - front.length) w.ramp := hbudget
        rw [List.length_append, List.length_cons] at hmax
        omega

end

theorem searchIn_line (hwindow : 0 < window) {order : List κ}
    (hnodup : (front ++ back).Nodup) (hmax : (front ++ back).length ≤ limits.maxVisited)
    (hfills : oracle.Fills (front ++ back) window) (h : OnLine front back ahead w)
    {r : Except (DagError κ ε) (Walk κ × List κ × DfsOutcome) × Session κ}
    (hr : searchIn oracle limits kind (fun order id => (order ++ [id], false)) w order
      (back.head?.toList.map .follow ++ front.reverse.map .finish) s = r) :
    (r.1 = .error .deadline ∧ limits.deadline ≠ none) ∨
      (∃ w', r.1 = .ok (w', order ++ back, .complete)) ∧
        ∀ k, windowCallsLoop (front ++ back).length window hwindow (front.length + ahead) w.ramp
          h.ramp_pos = some k → r.2.calls.length = s.calls.length + k := by
  induction back generalizing front ahead w order s with
  | nil =>
      obtain ⟨⟨w', hdone⟩, hcalls⟩ := searchIn_finish hr
      refine .inr ⟨⟨w', by rw [hdone, List.append_nil]⟩, fun k hk => ?_⟩
      rw [windowCallsLoop, if_neg (by simp)] at hk
      rw [hcalls, ← Option.some.inj hk]
      rfl
  | cons c back ih =>
      have hc : c ∉ w.colour := by
        rw [h.entered]
        exact fun hmem => (List.nodup_append.mp hnodup).2.2 c hmem c List.mem_cons_self rfl
      have hline : front ++ c :: back = (front ++ [c]) ++ back := by simp
      have hload := h.load hnodup hmax hfills hwindow
        (loads_loadIn oracle limits kind w c usizeMax s)
      cases hstep : w.loadIn oracle limits kind c usizeMax s with
      | mk answer s' =>
          rw [hstep] at hload
          obtain ⟨rfl, hdeadline⟩ | ⟨w', ahead', rfl, hon, hadvance⟩ := hload
          · rw [List.head?_cons, Option.toList_some, List.map_singleton, List.singleton_append,
              searchIn_fails hc hstep] at hr
            exact .inl ⟨hr ▸ rfl, hdeadline⟩
          · rw [List.head?_cons, Option.toList_some, List.map_singleton, List.singleton_append,
              searchIn_enter hc hstep rfl] at hr
            rw [hline] at hnodup hmax hfills ⊢
            rcases ih hnodup hmax hfills hon (by simpa using hr) with hlate | ⟨⟨w₁, hdone⟩, hcalls⟩
            · exact .inl hlate
            refine .inr ⟨⟨w₁, by rw [hdone, List.append_assoc, List.singleton_append]⟩, fun k hk => ?_⟩
            cases hadvance with
            | served hramp hserved =>
                rw [hcalls k ?_]
                · exact congrArg (List.length · + k) hserved
                · rw [← hk]
                  exact windowCallsLoop_congr (by simp; omega) hramp
            | asked hramp hasked hahead =>
                obtain ⟨j, hj, rfl⟩ := windowCallsLoop_succ hk (by simp)
                rw [hcalls j ?_, Session.calls_observe, hasked]
                · omega
                · rw [← windowCallsLoop_min hj]
                  refine windowCallsLoop_congr ?_ hramp
                  simp only [List.length_append, List.length_singleton]
                  omega

theorem onLine_start (head : κ) (line : List κ) : OnLine [] (head :: line) 0 ({} : Walk κ) :=
  ⟨by simp, by simp, Nat.zero_le _, Nat.one_pos, show 1 ≤ usizeMax by decide⟩

end Walk

theorem Dag.ancestorsIn_line [DecidableEq κ] {oracle : Oracle κ ε} {limits : TraversalLimits}
    {head : κ} {line : List κ} {window : ℕ} (hwindow : 0 < window) (hnodup : (head :: line).Nodup)
    (hmax : (head :: line).length ≤ limits.maxVisited)
    (hfills : oracle.Fills (head :: line) window) :
    ((Dag.ancestorsIn oracle head limits {}).1 = .error .deadline ∧ limits.deadline ≠ none) ∨
      (Dag.ancestorsIn oracle head limits {}).1 = .ok (head :: line) ∧
        ∀ k, windowCallsLoop (head :: line).length window hwindow 0 1 Nat.one_pos = some k →
          (Dag.ancestorsIn oracle head limits {}).2.calls.length = k := by
  have hnodup' : ([] ++ head :: line).Nodup := hnodup
  rcases Walk.searchIn_line hwindow hnodup' hmax hfills (Walk.onLine_start head line) rfl with
    ⟨hlate, hdeadline⟩ | ⟨⟨w', hdone⟩, hcalls⟩
  · exact .inl ⟨congrArg (Except.map _) hlate, hdeadline⟩
  · refine .inr ⟨congrArg (Except.map _) hdone, fun k hk => ?_⟩
    exact (hcalls k hk).trans (Nat.zero_add k)

def lineOracle [DecidableEq κ] (line : List κ) (window : ℕ) : Oracle κ ε := fun calls =>
  match calls.getLast? with
  | none => .ok []
  | some call =>
      .ok (((lineEntries line).dropWhile (·.1 ≠ call.anchor)).take (min call.asked window))

theorem fills_lineOracle [DecidableEq κ] {line : List κ} (h : line.Nodup) (window : ℕ) :
    (lineOracle line window : Oracle κ ε).Fills line window := by
  rintro calls call front back rfl
  have hdrop : ∀ front : List κ, call.anchor ∉ front →
      (lineEntries (front ++ call.anchor :: back)).dropWhile (·.1 ≠ call.anchor) =
        lineEntries (call.anchor :: back) := by
    intro front hfront
    induction front with
    | nil => simp [lineEntries]
    | cons c front ih =>
        rw [List.mem_cons, not_or] at hfront
        rw [List.cons_append, lineEntries, List.dropWhile_cons_of_pos (by simpa using Ne.symm hfront.1),
          ih hfront.2]
  have hfront : call.anchor ∉ front := fun hmem =>
    (List.nodup_append.mp h).2.2 _ hmem _ List.mem_cons_self rfl
  refine ⟨(lineEntries (call.anchor :: back)).take (min call.asked window), ?_, List.Perm.refl _⟩
  simp only [lineOracle, List.getLast?_append, List.getLast?_singleton, Option.some_or]
  rw [hdrop front hfront]

/-- Whatever the provider answers, a search with any visitor and a first-parent history stay
within the visit limit: they enter that many commits at most, ask that often at most, never twice
for the same commit and for one commit at least and what the limit leaves at most, and hold that
many prefetched entries at most. Along a linear history, with a provider that fills its window,
the calls are exactly those of the formula, which does not overflow for any history in memory. -/
theorem traversals_are_bounded [DecidableEq κ] (oracle : Oracle κ ε) (limits : TraversalLimits) :
    (∀ (kind : WindowKind) (onEnter : σ → κ → σ × Bool) (v : σ)
        (record : Option (AList fun _ : κ => List κ)) (start : κ),
      (Walk.dfsIn oracle limits kind onEnter { record := record } v start {}).2.Bounded limits) ∧
    (∀ head max, (Dag.firstParentHistoryIn oracle head max limits {}).2.Bounded limits) ∧
    ∀ head line window, 1 ≤ window → (head :: line).Nodup →
      (head :: line).length ≤ limits.maxVisited → oracle.Fills (head :: line) window →
      ∀ r, Dag.ancestorsIn oracle head limits {} = r →
        (r.1 = .error .deadline ∧ limits.deadline ≠ none) ∨
        r.1 = .ok (head :: line) ∧
          (∀ k, windowCalls (head :: line).length window = some k → r.2.calls.length = k) ∧
          ((head :: line).length ≤ 2 ^ 62 →
            windowCalls (head :: line).length window = some r.2.calls.length) := by
  refine ⟨fun kind onEnter v record start => ?_, fun head max => ?_, ?_⟩
  · exact Walk.searchIn_bounded (Walk.running_start record) (by simp)
  · exact Walk.firstParentsIn_bounded (Walk.running_start none) (by simp)
  · rintro head line window hwindow hnodup hmax hfills r rfl
    have hloop : windowCalls (head :: line).length window =
        windowCallsLoop (head :: line).length window hwindow 0 1 Nat.one_pos := by
      simp only [windowCalls, max_eq_left hwindow]
    rcases Dag.ancestorsIn_line hwindow hnodup hmax hfills with hlate | ⟨hdone, hcalls⟩
    · exact .inl hlate
    · refine .inr ⟨hdone, fun k hk => hcalls k (hloop ▸ hk), fun hsmall => ?_⟩
      have hsome : (windowCallsLoop (head :: line).length window hwindow 0 1 Nat.one_pos).isSome :=
        windowCallsLoop_isSome hsmall (min_le_left _ _)
      obtain ⟨k, hk⟩ := Option.isSome_iff_exists.mp hsome
      rw [hloop, hk, hcalls k hk]

end CognitiveLedger
