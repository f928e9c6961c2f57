import Mathlib.Data.Finset.Sort
import Mathlib.Data.Finset.Card
import Mathlib.Data.List.Sort

/-!
# The elements of a finite set in ascending order

`ascending s` is the list a loop over an ordered set visits. It is computed by
insertion, so that it evaluates; it is the only strictly sorted list with the
elements of `s`.
-/

namespace Ascending

variable {α : Type*} [LinearOrder α]

/-- The elements of `s` in ascending order. -/
def ascending (s : Finset α) : List α :=
  Quot.lift (List.insertionSort (· ≤ ·))
    (fun a b h => List.Perm.eq_of_pairwise' (List.pairwise_insertionSort _ a)
      (List.pairwise_insertionSort _ b)
      ((List.perm_insertionSort _ a).trans (h.trans (List.perm_insertionSort _ b).symm)))
    s.val

theorem coe_ascending (s : Finset α) : (ascending s : Multiset α) = s.val := by
  obtain ⟨v, hv⟩ := s
  induction v using Quot.ind with
  | mk l => exact Quot.sound (List.perm_insertionSort _ l)

@[simp] theorem mem_ascending {s : Finset α} {a : α} : a ∈ ascending s ↔ a ∈ s := by
  rw [← Multiset.mem_coe, coe_ascending, Finset.mem_val]

theorem nodup_ascending (s : Finset α) : (ascending s).Nodup := by
  rw [← Multiset.coe_nodup, coe_ascending]
  exact s.nodup

theorem pairwise_ascending (s : Finset α) : (ascending s).Pairwise (· ≤ ·) := by
  obtain ⟨v, hv⟩ := s
  induction v using Quot.ind with
  | mk l => exact List.pairwise_insertionSort _ l

@[simp] theorem length_ascending (s : Finset α) : (ascending s).length = s.card := by
  rw [← Multiset.coe_card, coe_ascending]
  rfl

@[simp] theorem toFinset_ascending (s : Finset α) : (ascending s).toFinset = s := by
  ext a
  simp

theorem ascending_toFinset {l : List α} (h : l.Pairwise (· < ·)) :
    ascending l.toFinset = l := by
  have hnodup : l.Nodup := h.imp fun hab => hab.ne
  refine List.Perm.eq_of_pairwise' (pairwise_ascending _) (h.imp le_of_lt) ?_
  rw [← Multiset.coe_eq_coe, coe_ascending, List.toFinset_val, hnodup.dedup]

theorem pairwise_lt_ascending (s : Finset α) : (ascending s).Pairwise (· < ·) :=
  ((pairwise_ascending s).and (nodup_ascending s)).imp fun h => lt_of_le_of_ne h.1 h.2

end Ascending
