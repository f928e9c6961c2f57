import CognitiveLedger.Lib.Lineage

/-!
# Depth-first preorder

`Preorder parents seen roots order` says that `order` lists what a depth-first search
discovers from `roots`, taken in turn, when the nodes of `seen` are known already: a new
node comes first, then what its parents add in their own order, then what the remaining
roots add. The order is unique.

A finished region of a search is closed under parents and free of cycles. Adding a node
whose parents are all in the region keeps it so.
-/

namespace DepthFirst

open Relation

variable {κ : Type*}

/-- `p` is one of the parents listed for `c`. -/
def Edge (parents : κ → Option (List κ)) (c p : κ) : Prop := ∃ ps, parents c = some ps ∧ p ∈ ps

theorem edge_iff {parents : κ → Option (List κ)} {c p : κ} {ps : List κ}
    (h : parents c = some ps) : Edge parents c p ↔ p ∈ ps := by
  simp [Edge, h]

inductive Preorder (parents : κ → Option (List κ)) : Set κ → List κ → List κ → Prop
  | nil (seen : Set κ) : Preorder parents seen [] []
  | skip {seen : Set κ} {c : κ} {roots order : List κ} (hc : c ∈ seen)
      (rest : Preorder parents seen roots order) : Preorder parents seen (c :: roots) order
  | enter {seen : Set κ} {c : κ} {ps roots below order : List κ} (hc : c ∉ seen)
      (hps : parents c = some ps) (branch : Preorder parents (insert c seen) ps below)
      (rest : Preorder parents (insert c seen ∪ {x | x ∈ below}) roots order) :
      Preorder parents seen (c :: roots) (c :: below ++ order)

namespace Preorder

variable {parents : κ → Option (List κ)} {seen : Set κ} {roots order : List κ}

theorem split {first second : List κ} (h : Preorder parents seen (first ++ second) order) :
    ∃ found rest, order = found ++ rest ∧ Preorder parents seen first found ∧
      Preorder parents (seen ∪ {x | x ∈ found}) second rest := by
  generalize hroots : first ++ second = roots at h
  induction h generalizing first with
  | nil seen =>
      obtain ⟨rfl, rfl⟩ := List.append_eq_nil_iff.mp hroots
      exact ⟨[], [], rfl, .nil _, .nil _⟩
  | @skip seen c roots order hc rest ih =>
      cases first with
      | nil =>
          obtain rfl : second = c :: roots := hroots
          refine ⟨[], order, rfl, .nil _, ?_⟩
          simpa using Preorder.skip hc rest
      | cons d first =>
          obtain ⟨rfl, htail⟩ := List.cons.inj hroots
          obtain ⟨found, after, rfl, hfound, hafter⟩ := ih htail
          exact ⟨found, after, rfl, .skip hc hfound, hafter⟩
  | @enter seen c ps roots below order hc hps branch rest _ ih =>
      cases first with
      | nil =>
          obtain rfl : second = c :: roots := hroots
          refine ⟨[], c :: below ++ order, rfl, .nil _, ?_⟩
          simpa using Preorder.enter hc hps branch rest
      | cons d first =>
          obtain ⟨rfl, htail⟩ := List.cons.inj hroots
          obtain ⟨found, after, rfl, hfound, hafter⟩ := ih htail
          refine ⟨d :: below ++ found, after, by simp, .enter hc hps branch hfound, ?_⟩
          have hseen : seen ∪ {x | x ∈ d :: below ++ found} =
              insert d seen ∪ {x | x ∈ below} ∪ {x | x ∈ found} := by
            ext x
            simp only [Set.mem_union, Set.mem_insert_iff, Set.mem_ofPred_eq, List.cons_append,
              List.mem_cons, List.mem_append]
            tauto
          rwa [hseen]

theorem unique {order' : List κ} (h : Preorder parents seen roots order)
    (h' : Preorder parents seen roots order') : order = order' := by
  induction h generalizing order' with
  | nil seen =>
      cases h'
      rfl
  | skip hc rest ih =>
      cases h' with
      | skip _ rest' => exact ih rest'
      | enter hc' => exact absurd hc hc'
  | enter hc hps branch rest ihbranch ihrest =>
      cases h' with
      | skip hc' => exact absurd hc' hc
      | enter _ hps' branch' rest' =>
          obtain rfl := Option.some.inj (hps.symm.trans hps')
          obtain rfl := ihbranch branch'
          obtain rfl := ihrest rest'
          rfl

end Preorder

/-- A region that a search has finished. -/
structure Settled (P : κ → κ → Prop) (S : Set κ) : Prop where
  closed : ∀ c ∈ S, ∀ p, P c p → p ∈ S
  acyclic : ∀ c ∈ S, ¬ TransGen P c c

variable {P : κ → κ → Prop} {S : Set κ} {c : κ}

theorem settled_empty (P : κ → κ → Prop) : Settled P ∅ :=
  ⟨fun _ h => h.elim, fun _ h => h.elim⟩

theorem Settled.insert (h : Settled P S) (hparents : ∀ p, P c p → p ∈ S) :
    Settled P (insert c S) := by
  by_cases hc : c ∈ S
  · rwa [Set.insert_eq_of_mem hc]
  · refine ⟨?_, ?_⟩
    · rintro x (rfl | hx) p hp
      · exact Set.mem_insert_of_mem _ (hparents p hp)
      · exact Set.mem_insert_of_mem _ (h.closed x hx p hp)
    · rintro x (rfl | hx) hcycle
      · -- a cycle through `x` leaves it into the closed region and never comes back
        obtain ⟨p, hp, hpx⟩ := TransGen.head'_iff.mp hcycle
        exact hc (Lineage.ancestors_subset_of_closed (hparents p hp) h.closed hpx)
      · exact h.acyclic x hx hcycle

end DepthFirst
