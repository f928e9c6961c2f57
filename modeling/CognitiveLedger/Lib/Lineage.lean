import Mathlib.Logic.Relation
import Mathlib.Data.Set.Lattice
import Mathlib.Data.Fintype.Card
import Mathlib.Algebra.Order.BigOperators.Group.List
import Mathlib.Algebra.Order.Group.Nat

/-!
# Lineages of a parent relation

`P c p` says that `p` is a parent of `c`. The ancestors of a node are what it
reaches, itself included. The best common ancestors of two nodes are the
maximal elements of the intersection; when the intersection is the ancestor set
of one node, that node is the only one. Extending one side by a child, or by a
child that joins both sides, keeps the intersection of that form.
-/

namespace Lineage

open Relation

variable {κ : Type*} {P Q : κ → κ → Prop} {a b c m : κ}

/-- What `c` reaches along the parent relation, `c` included. -/
def ancestors (P : κ → κ → Prop) (c : κ) : Set κ := {a | ReflTransGen P c a}

theorem mem_ancestors : a ∈ ancestors P c ↔ ReflTransGen P c a := Iff.rfl

@[simp] theorem self_mem_ancestors (c : κ) : c ∈ ancestors P c := ReflTransGen.refl

theorem parent_mem_ancestors (h : P c a) : a ∈ ancestors P c := ReflTransGen.single h

theorem ancestors_subset (h : a ∈ ancestors P c) : ancestors P a ⊆ ancestors P c :=
  fun _ hx => ReflTransGen.trans h hx

/-- A node's ancestors are itself and its parents' ancestors. -/
theorem mem_ancestors_iff : a ∈ ancestors P c ↔ a = c ∨ ∃ p, P c p ∧ a ∈ ancestors P p := by
  rw [mem_ancestors, ReflTransGen.cases_head_iff]
  exact or_congr_left eq_comm

theorem ancestors_of_no_parent (h : ∀ p, ¬ P c p) : ancestors P c = {c} := by
  ext x
  rw [mem_ancestors_iff]
  simp [h]

theorem ancestors_of_parent (h : ∀ p, P c p ↔ p = a) :
    ancestors P c = insert c (ancestors P a) := by
  ext x
  rw [mem_ancestors_iff]
  simp [h]

theorem ancestors_of_parents (h : ∀ p, P c p ↔ p = a ∨ p = b) :
    ancestors P c = insert c (ancestors P a ∪ ancestors P b) := by
  ext x
  rw [mem_ancestors_iff]
  simp [h, or_and_right, exists_or]

/-- The ancestors depend only on the edges that leave them. -/
theorem ancestors_congr (h : ∀ x ∈ ancestors P c, ∀ p, Q x p ↔ P x p) :
    ancestors Q c = ancestors P c := by
  apply Set.Subset.antisymm
  · intro x hx
    induction hx with
    | refl => exact self_mem_ancestors c
    | tail _ hstep ih => exact ReflTransGen.tail ih ((h _ ih _).mp hstep)
  · intro x hx
    induction hx with
    | refl => exact self_mem_ancestors c
    | tail hpre hstep ih => exact ReflTransGen.tail ih ((h _ hpre _).mpr hstep)

theorem ancestors_mono (h : ∀ x p, P x p → Q x p) (c : κ) : ancestors P c ⊆ ancestors Q c :=
  fun x hx => ReflTransGen.mono h c x hx

/-- A set that holds `c` and is closed under parents holds all of `c`'s ancestors. -/
theorem ancestors_subset_of_closed {S : Set κ} (hc : c ∈ S)
    (hclosed : ∀ x ∈ S, ∀ p, P x p → p ∈ S) : ancestors P c ⊆ S := by
  intro x hx
  induction hx with
  | refl => exact hc
  | tail _ hstep ih => exact hclosed _ ih _ hstep

/-- No node is its own proper ancestor. -/
def Acyclic (P : κ → κ → Prop) : Prop := ∀ c, ¬ TransGen P c c

theorem acyclic_of_rank (rank : κ → ℕ) (h : ∀ x p, P x p → rank p < rank x) : Acyclic P := by
  have hlt : ∀ x y, TransGen P x y → rank y < rank x := by
    intro x y hxy
    induction hxy with
    | single hstep => exact h _ _ hstep
    | tail _ hstep ih => exact (h _ _ hstep).trans ih
  exact fun c hc => lt_irrefl _ (hlt c c hc)

/-- A ranked relation stays ranked when `c` gets parents that are not `c`, while nothing has `c`
as a parent. -/
theorem exists_rank_extend (h : ∃ rank : κ → ℕ, ∀ x p, P x p → rank p < rank x) (parents : List κ)
    (hQ : ∀ x p, Q x p → p ≠ c ∧ (x = c → p ∈ parents) ∧ (x ≠ c → P x p)) :
    ∃ rank : κ → ℕ, ∀ x p, Q x p → rank p < rank x := by
  classical
  obtain ⟨rank, hrank⟩ := h
  refine ⟨fun x => if x = c then (parents.map rank).sum + 1 else rank x, fun x p hp => ?_⟩
  obtain ⟨hpc, hnew, hold⟩ := hQ x p hp
  by_cases hx : x = c
  · have hle : rank p ≤ (parents.map rank).sum := List.le_sum_of_mem (List.mem_map_of_mem (hnew hx))
    simp only [hx, if_true, if_neg hpc]
    omega
  · simp only [if_neg hx, if_neg hpc]
    exact hrank x p (hold hx)

theorem Acyclic.antisymm (hP : Acyclic P) (hab : a ∈ ancestors P b) (hba : b ∈ ancestors P a) :
    a = b := by
  rcases ReflTransGen.cases_head hab with h | ⟨p, hstep, hp⟩
  · exact h.symm
  · exact absurd ((TransGen.head' hstep hp).trans_left hba) (hP b)

/-- A node is not an ancestor of its own parent. -/
theorem Acyclic.notMem_ancestors (hP : Acyclic P) (h : P c a) : c ∉ ancestors P a :=
  fun hc => hP c (TransGen.head' h hc)

/-- The common ancestors that are no proper ancestor of another common one. -/
def best (P : κ → κ → Prop) (a b : κ) : Set κ :=
  {m | m ∈ ancestors P a ∩ ancestors P b ∧
    ∀ x ∈ ancestors P a ∩ ancestors P b, ¬ TransGen P x m}

theorem best_eq_singleton (hm : ¬ TransGen P m m)
    (h : ancestors P a ∩ ancestors P b = ancestors P m) : best P a b = {m} := by
  ext x
  simp only [best, h, Set.mem_ofPred_eq, Set.mem_singleton_iff]
  constructor
  · rintro ⟨hx, hmax⟩
    rcases ReflTransGen.cases_head hx with hmx | ⟨p, hstep, hp⟩
    · exact hmx.symm
    · exact absurd (TransGen.head' hstep hp) (hmax m (self_mem_ancestors m))
  · rintro rfl
    exact ⟨self_mem_ancestors x, fun y hy hyx => hm (hyx.trans_right hy)⟩

theorem best_comm (P : κ → κ → Prop) (a b : κ) : best P a b = best P b a := by
  simp only [best, Set.inter_comm (ancestors P a)]

/-- Among finitely many common ancestors without a cycle, each one lies below a best one. -/
theorem exists_best (hfinite : (ancestors P a ∩ ancestors P b).Finite)
    (hacyclic : ∀ x ∈ ancestors P a ∩ ancestors P b, ¬ TransGen P x x)
    (hc : c ∈ ancestors P a ∩ ancestors P b) : ∃ m ∈ best P a b, c ∈ ancestors P m := by
  have : Finite ↑(ancestors P a ∩ ancestors P b) := hfinite
  let above (x y : ↑(ancestors P a ∩ ancestors P b)) : Prop := TransGen P x.1 y.1
  have : IsTrans _ above := ⟨fun _ _ _ hxy hyz => hxy.trans hyz⟩
  have : Std.Irrefl above := ⟨fun x hx => hacyclic x.1 x.2 hx⟩
  have hwf : WellFounded above := Finite.wellFounded_of_trans_of_irrefl above
  obtain ⟨m, hm, hmin⟩ := hwf.has_min {x | c ∈ ancestors P x.1} ⟨⟨c, hc⟩, self_mem_ancestors c⟩
  refine ⟨m.1, ⟨m.2, fun x hx hxm => ?_⟩, hm⟩
  exact hmin ⟨x, hx⟩ (hxm.to_reflTransGen.trans hm) hxm

theorem transGen_congr (h : ∀ x ∈ ancestors P c, ∀ p, Q x p ↔ P x p) :
    TransGen Q c a ↔ TransGen P c a := by
  simp only [TransGen.head'_iff]
  refine exists_congr fun x => ?_
  rw [h c (self_mem_ancestors c)]
  refine and_congr_right fun hx => ?_
  have hsub := ancestors_subset (parent_mem_ancestors hx)
  exact Set.ext_iff.mp (ancestors_congr fun y hy => h y (hsub hy)) a

theorem best_congr (ha : ∀ x ∈ ancestors P a, ∀ p, Q x p ↔ P x p)
    (hb : ∀ x ∈ ancestors P b, ∀ p, Q x p ↔ P x p) : best Q a b = best P a b := by
  ext m
  simp only [best, ancestors_congr ha, ancestors_congr hb, Set.mem_ofPred_eq]
  refine and_congr_right fun _ => forall₂_congr fun x hx => not_congr ?_
  exact transGen_congr fun y hy => ha y (ancestors_subset hx.1 hy)

/-- The common ancestors of `a` and `b` are the ancestors of one node. -/
def Rooted (P : κ → κ → Prop) (a b : κ) : Prop :=
  ∃ m, ancestors P a ∩ ancestors P b = ancestors P m

theorem Rooted.symm (h : Rooted P a b) : Rooted P b a := by
  obtain ⟨m, hm⟩ := h
  exact ⟨m, by rw [Set.inter_comm, hm]⟩

theorem rooted_of_mem (h : b ∈ ancestors P a) : Rooted P a b :=
  ⟨b, Set.inter_eq_right.mpr (ancestors_subset h)⟩

theorem Rooted.child (h : Rooted P a b) (hc : ∀ p, P c p ↔ p = a) : Rooted P c b := by
  by_cases hcb : c ∈ ancestors P b
  · exact (rooted_of_mem hcb).symm
  · obtain ⟨m, hm⟩ := h
    refine ⟨m, ?_⟩
    rw [ancestors_of_parent hc, Set.insert_inter_of_notMem hcb, hm]

/-- A child of both sides has the other side among its ancestors. -/
theorem rooted_join (hc : ∀ p, P c p ↔ p = a ∨ p = b) : Rooted P c b :=
  rooted_of_mem (parent_mem_ancestors ((hc b).mpr (Or.inr rfl)))

end Lineage
