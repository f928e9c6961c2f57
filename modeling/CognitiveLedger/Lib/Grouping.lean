import Mathlib.Data.Finset.Basic
import Mathlib.Data.List.Basic
import Std.Data.TreeMap.Lemmas

/-!
# Grouping a list by a key

`groupInto key put empty m l` puts the elements of `l`, one after the other,
into the group of their key, starting a group at `empty` when the key is met for
the first time. This is the `entry(..).or_default()` loop over an ordered map.
What one key holds afterwards is the fold of the elements of that key alone,
and a key is present exactly when it was before or some element has it.
-/

namespace Grouping

open Std (TreeMap TransOrd LawfulEqOrd)

variable {α κ σ : Type*} [Ord κ]

/-- Put every element of `l` into the group of its key. -/
def groupInto (key : α → κ) (put : α → σ → σ) (empty : σ) (m : TreeMap κ σ) (l : List α) :
    TreeMap κ σ :=
  l.foldl (fun m a => m.alter (key a) fun group => some (put a (group.getD empty))) m

@[simp] theorem groupInto_nil (key : α → κ) (put : α → σ → σ) (empty : σ)
    (m : TreeMap κ σ) : groupInto key put empty m [] = m := rfl

theorem groupInto_cons (key : α → κ) (put : α → σ → σ) (empty : σ)
    (m : TreeMap κ σ) (a : α) (l : List α) :
    groupInto key put empty m (a :: l) =
      groupInto key put empty
        (m.alter (key a) fun group => some (put a (group.getD empty))) l := rfl

variable [DecidableEq κ] [TransOrd κ] [LawfulEqOrd κ]

theorem getD_groupInto (key : α → κ) (put : α → σ → σ) (empty : σ)
    (m : TreeMap κ σ) (l : List α) (k : κ) :
    (groupInto key put empty m l)[k]?.getD empty =
      (l.filter fun a => key a = k).foldl (fun s a => put a s) (m[k]?.getD empty) := by
  induction l generalizing m with
  | nil => rfl
  | cons a l ih =>
      rw [groupInto_cons, ih, TreeMap.getElem?_alter]
      by_cases h : key a = k
      · subst h
        simp
      · have hne : ¬ compare (key a) k = Ordering.eq := by
          simpa using h
        simp [h, hne]

/-- A key is present when it was before or an element has it. -/
theorem mem_groupInto (key : α → κ) (put : α → σ → σ) (empty : σ)
    (m : TreeMap κ σ) (l : List α) (k : κ) :
    (groupInto key put empty m l)[k]?.isSome ↔
      m[k]?.isSome ∨ ∃ a ∈ l, key a = k := by
  induction l generalizing m with
  | nil => simp
  | cons a l ih =>
      rw [groupInto_cons, ih, TreeMap.getElem?_alter]
      by_cases h : key a = k
      · subst h
        simp
      · have hne : ¬ compare (key a) k = Ordering.eq := by
          simpa using h
        simp [h, hne]

omit [DecidableEq κ] in
/-- A map that holds the images of another map's values lists them in the same order. -/
theorem toList_eq_map {τ : Type*} (f : σ → τ) {m : TreeMap κ σ} {m' : TreeMap κ τ}
    (h : ∀ k c, (k, c) ∈ m'.toList ↔ ∃ b, (k, b) ∈ m.toList ∧ f b = c) :
    m'.toList = m.toList.map fun e => (e.1, f e.2) := by
  have hord : (m.toList.map fun e => (e.1, f e.2)).Pairwise fun a b => compare a.1 b.1 = .lt :=
    List.pairwise_map.mpr m.ordered_keys_toList
  have hnodup : ∀ {ρ : Type _} {l : List (κ × ρ)},
      l.Pairwise (fun a b => compare a.1 b.1 = .lt) → l.Nodup := fun hl =>
    hl.imp fun hlt hab => by simp [hab] at hlt
  refine List.Perm.eq_of_pairwise (fun a b _ _ hab hba => ?_) m'.ordered_keys_toList hord ?_
  · have hgt := Std.OrientedOrd.eq_swap (a := a.1) (b := b.1)
    simp [hab, hba] at hgt
  · refine (List.perm_ext_iff_of_nodup (hnodup m'.ordered_keys_toList) (hnodup hord)).mpr ?_
    rintro ⟨k, c⟩
    simp [h]

end Grouping
