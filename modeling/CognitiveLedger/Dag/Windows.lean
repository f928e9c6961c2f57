import CognitiveLedger.Dag.WalkSpec

/-!
# Windows change nothing

Without a deadline a walk's every step is determined by the parents of the commit
it asks for: what an honest window prefetched is what the provider would have
answered. Two honest providers with the same parents are therefore walked in step,
with the same visited commits, records and failures, whatever their windows return.
-/

namespace CognitiveLedger

open ExceptRules

variable {κ ε σ : Type}

theorem ParentProvider.ofParents_honest (parents : κ → Except ε (Option (List κ)))
    (kind : WindowKind) : (ParentProvider.ofParents parents).Honest kind := by
  refine ⟨fun {start n window} hwindow entry hentry => ?_, fun {start n window} hwindow hmissing => ?_,
    fun {start n e} herror => ?_⟩
  · obtain ⟨answer, hanswer, hpure⟩ := bind_eq_ok.mp hwindow
    cases answer with
    | none =>
        cases hpure
        cases hentry
    | some ps =>
        cases hpure
        obtain rfl := List.mem_singleton.mp hentry
        exact hanswer
  · obtain ⟨answer, hanswer, hpure⟩ := bind_eq_ok.mp hwindow
    cases answer with
    | none => exact hanswer
    | some ps =>
        cases hpure
        exact absurd rfl (hmissing (start, ps) (List.mem_singleton_self _))
  · rcases bind_eq_error.mp herror with h | ⟨_, _, hpure⟩
    · exact h
    · cases hpure

namespace Walk

variable {p q : ParentProvider κ ε} {limits : TraversalLimits} {kind : WindowKind}
variable [DecidableEq κ] {w v : Walk κ} {id : κ} {wanted : ℕ}

/-- What `load` answers without a deadline: the commit is charged, then asked for. -/
def answer (provider : ParentProvider κ ε) (limits : TraversalLimits) (visited : ℕ) (id : κ) :
    Except (DagError κ ε) (List κ) :=
  if limits.maxVisited ≤ visited then .error (.visitLimit visited)
  else match provider.parents id with
    | .error e => .error (.provider e)
    | .ok none => .error (.unknownCommit id)
    | .ok (some ps) => .ok ps

theorem load_answer (hp : p.Honest kind) (h : w.Prefetches p) (hd : limits.deadline = none) :
    Alike (fun ps (r : List κ × Walk κ) => r.1 = ps ∧ r.2.colour = w.colour ∧
        r.2.record = w.record.map (·.insert id ps) ∧ r.2.Prefetches p)
      (answer p limits w.colour.keys.length id) (w.load p limits kind id wanted) := by
  have hload : Answers p limits w id _ (w.load p limits kind id wanted) := load_answers hp h
  by_cases hvisited : limits.maxVisited ≤ w.colour.keys.length
  · rw [answer, load, if_pos hvisited, if_pos hvisited]
    exact .error _
  rw [answer, if_neg hvisited]
  cases hres : w.load p limits kind id wanted with
  | ok r =>
      rw [hres] at hload
      obtain ⟨hps, hrest⟩ := hload
      rw [hps]
      exact .ok ⟨rfl, hrest⟩
  | error e =>
      rw [hres] at hload
      cases e with
      | unknownCommit c =>
          obtain ⟨rfl, hnone⟩ := hload
          rw [hnone]
          exact .error _
      | cycle c => exact hload.elim
      | visitLimit n => exact absurd hload hvisited
      | deadline => exact absurd hd hload
      | provider e =>
          have herror : p.parents id = .error e := hload
          rw [herror]
          exact .error _

structure InStep (p q : ParentProvider κ ε) (w v : Walk κ) : Prop where
  colour : w.colour = v.colour
  record : w.record = v.record
  left : w.Prefetches p
  right : v.Prefetches q

theorem InStep.setColour (h : InStep p q w v) (id : κ) (c : Colour) :
    InStep p q (w.setColour id c) (v.setColour id c) where
  colour := by rw [Walk.setColour, Walk.setColour, h.colour]
  record := h.record
  left := h.left
  right := h.right

theorem drain_inStep {enterP enterQ : Walk κ → σ → κ → List (Work κ) →
      Except (DagError κ ε) (Walk κ × σ × DfsOutcome)}
    (henter : ∀ w v s id rest, InStep p q w v →
      Alike (fun a b => InStep p q a.1 b.1 ∧ a.2 = b.2) (enterP w s id rest) (enterQ v s id rest))
    (s : σ) (work : List (Work κ)) (h : InStep p q w v) :
    Alike (fun a b => InStep p q a.1 b.1 ∧ a.2 = b.2) (drain enterP w s work)
      (drain enterQ v s work) := by
  induction work generalizing w v with
  | nil => exact .ok ⟨h, rfl⟩
  | cons item rest ih =>
      cases item with
      | finish id => exact ih (h.setColour id .black)
      | follow id =>
          rw [drain, drain, ← h.colour]
          split
          · exact .error _
          · exact ih h
          · exact henter w v s id rest h

section Pair

variable (hp : p.Honest kind) (hq : q.Honest kind) (hparents : p.parents = q.parents)
variable (hd : limits.deadline = none)

include hp hq hparents hd

theorem load_inStep (h : InStep p q w v) :
    Alike (fun r s => r.1 = s.1 ∧ InStep p q r.2 s.2)
      (w.load p limits kind id wanted) (v.load q limits kind id wanted) := by
  have hsame : answer p limits w.colour.keys.length id = answer q limits v.colour.keys.length id := by
    rw [answer, answer, hparents, h.colour]
  refine (Alike.join (hsame ▸ load_answer hp h.left hd) (load_answer hq h.right hd)).imp ?_
  rintro r s ⟨ps, ⟨rfl, hwc, hwr, hwp⟩, ⟨hs, hvc, hvr, hvp⟩⟩
  refine ⟨hs.symm, hwc.trans (h.colour.trans hvc.symm), ?_, hwp, hvp⟩
  rw [hwr, hvr, h.record]

theorem explore_inStep (onEnter : σ → κ → σ × Bool) (fuel : ℕ) (s : σ) (id : κ)
    (rest : List (Work κ)) (h : InStep p q w v) :
    Alike (fun a b => InStep p q a.1 b.1 ∧ a.2 = b.2)
      (explore p limits kind onEnter fuel w s id rest)
      (explore q limits kind onEnter fuel v s id rest) := by
  induction fuel generalizing w v s id rest with
  | zero =>
      rw [explore, explore, h.colour]
      exact .error _
  | succ fuel ih =>
      rw [explore, explore]
      refine (load_inStep hp hq hparents hd h).bind ?_
      rintro ⟨ps, w'⟩ ⟨qs, v'⟩ ⟨rfl, hwv⟩
      have hwv := hwv.setColour id .grey
      cases hen : onEnter s id with
      | mk s' stop =>
          cases stop with
          | true => exact .ok ⟨hwv, rfl⟩
          | false =>
              exact drain_inStep (fun w v s id rest h => ih s id rest h) s' _ hwv

theorem dfs_inStep (onEnter : σ → κ → σ × Bool) (s : σ) (start : κ) (h : InStep p q w v) :
    Alike (fun a b => InStep p q a.1 b.1 ∧ a.2 = b.2) (dfs p limits kind onEnter w s start)
      (dfs q limits kind onEnter v s start) :=
  explore_inStep hp hq hparents hd onEnter _ s start [] h

end Pair

theorem firstParents_inStep (hp : p.Honest .firstParent) (hq : q.Honest .firstParent)
    (hparents : p.parents = q.parents) (hd : limits.deadline = none) (wanted : ℕ) (current : κ)
    (h : InStep p q w v) : Alike (· = ·) (firstParents p limits wanted w current)
      (firstParents q limits wanted v current) := by
  induction wanted generalizing w v current with
  | zero => exact .ok rfl
  | succ wanted ih =>
      rw [firstParents, firstParents]
      refine (load_inStep hp hq hparents hd h).bind ?_
      rintro ⟨ps, w'⟩ ⟨qs, v'⟩ ⟨rfl, hwv⟩
      have hwv := hwv.setColour current .grey
      by_cases hlast : wanted = 0
      · simp only [if_pos hlast]
        exact .ok rfl
      simp only [if_neg hlast]
      cases ps.head? with
      | none => exact .ok rfl
      | some first =>
          simp only [hwv.colour]
          by_cases hseen : first ∈ (v'.setColour current .grey).colour
          · simp only [if_pos hseen]
            exact .error _
          · simp only [if_neg hseen]
            exact (ih first hwv).bind fun a b hab => .ok (congrArg _ hab)

end Walk

/-- With any honest windows the walks answer and fail as with the window of one commit. -/
theorem walks_ignore_windows [DecidableEq κ] (provider : ParentProvider κ ε)
    (honest : ∀ kind, provider.Honest kind) (head : κ) (maxVisited : ℕ) :
    Dag.ancestors provider head ⟨maxVisited, none⟩ =
        Dag.ancestors (.ofParents provider.parents) head ⟨maxVisited, none⟩ ∧
      (∀ ancestor, isAncestor provider ancestor head ⟨maxVisited, none⟩ =
        isAncestor (.ofParents provider.parents) ancestor head ⟨maxVisited, none⟩) ∧
      ancestry provider head ⟨maxVisited, none⟩ =
        ancestry (.ofParents provider.parents) head ⟨maxVisited, none⟩ ∧
      ∀ max, Dag.firstParentHistory provider head max ⟨maxVisited, none⟩ =
        Dag.firstParentHistory (.ofParents provider.parents) head max ⟨maxVisited, none⟩ := by
  have hplain := ParentProvider.ofParents_honest provider.parents
  have hstart : ∀ r, Walk.InStep provider (.ofParents provider.parents) { record := r }
      { record := r } := fun r => ⟨rfl, rfl, fun c ps hc => by simp at hc, fun c ps hc => by simp at hc⟩
  have hdfs : ∀ {σ : Type} (onEnter : σ → κ → σ × Bool) (s : σ) r, Alike
      (fun a b : Walk κ × σ × DfsOutcome =>
        Walk.InStep provider (.ofParents provider.parents) a.1 b.1 ∧ a.2 = b.2)
      (Walk.dfs provider ⟨maxVisited, none⟩ .ancestry onEnter { record := r } s head)
      (Walk.dfs (.ofParents provider.parents) ⟨maxVisited, none⟩ .ancestry onEnter { record := r } s
        head) := fun onEnter s r =>
    Walk.dfs_inStep (honest .ancestry) (hplain .ancestry) rfl rfl onEnter s head (hstart r)
  refine ⟨?_, fun ancestor => ?_, ?_, fun max => ?_⟩
  · refine Alike.eq ((hdfs _ _ none).bind ?_)
    rintro ⟨w, order, outcome⟩ ⟨v, order', outcome'⟩ ⟨-, hsame⟩
    obtain ⟨rfl, -⟩ := Prod.mk.inj hsame
    exact .ok rfl
  · refine Alike.eq ((hdfs _ _ none).bind ?_)
    rintro ⟨w, s, outcome⟩ ⟨v, s', outcome'⟩ ⟨-, hsame⟩
    obtain ⟨-, rfl⟩ := Prod.mk.inj hsame
    exact .ok rfl
  · refine Alike.eq ((hdfs _ _ (some ∅)).bind ?_)
    rintro ⟨w, s, outcome⟩ ⟨v, s', outcome'⟩ ⟨hwv, -⟩
    refine .ok ?_
    rw [hwv.record]
  · exact (Walk.firstParents_inStep (honest .firstParent) (hplain .firstParent) rfl rfl max head
      (hstart none)).eq

def fourCommits : ParentProvider ℕ String where
  parents c := .ok (match c with
    | 0 => some []
    | 1 => some [0]
    | 2 => some [1]
    | 3 => some [2]
    | _ => none)
  ancestryWindow start _ _ := .ok (if start ≤ 3 then [(3, [2]), (2, [1]), (1, [0]), (0, [])] else [])

theorem fourCommits_honest (kind : WindowKind) : fourCommits.Honest kind := by
  refine ⟨fun {start n window} hwindow entry hentry => ?_, fun {start n window} hwindow hmissing => ?_,
    fun herror => by cases herror⟩
  · obtain rfl := Except.ok.inj hwindow
    by_cases hknown : start ≤ 3
    · rw [if_pos hknown] at hentry
      have hcases : entry = (3, [2]) ∨ entry = (2, [1]) ∨ entry = (1, [0]) ∨ entry = (0, []) := by
        simpa using hentry
      rcases hcases with rfl | rfl | rfl | rfl <;> rfl
    · rw [if_neg hknown] at hentry
      cases hentry
  · obtain rfl := Except.ok.inj hwindow
    match start, hmissing with
    | 0, hmissing => exact absurd rfl (hmissing (0, []) (by simp))
    | 1, hmissing => exact absurd rfl (hmissing (1, [0]) (by simp))
    | 2, hmissing => exact absurd rfl (hmissing (2, [1]) (by simp))
    | 3, hmissing => exact absurd rfl (hmissing (3, [2]) (by simp))
    | _ + 4, _ => rfl

theorem walks_ignore_windows_fourCommits : (∀ kind, fourCommits.Honest kind) ∧
    Dag.ancestors fourCommits 3 ⟨4, none⟩ =
      Dag.ancestors (.ofParents fourCommits.parents) 3 ⟨4, none⟩ ∧
    Dag.ancestors fourCommits 3 ⟨4, none⟩ = .ok [3, 2, 1, 0] :=
  ⟨fourCommits_honest, (walks_ignore_windows fourCommits fourCommits_honest 3 4).1, by decide⟩

end CognitiveLedger
