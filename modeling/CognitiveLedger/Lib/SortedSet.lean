import CognitiveLedger.Lib.Ascending
import Mathlib.Data.List.Nodup

/-!
# Sorting by a key and dropping repetitions

A list that stands for a set is brought into one form by sorting it by a key and
dropping every element with the key of the one before it. The result has strictly
ascending keys and the same keys as before, which determines its keys, and the whole
list where elements with one key are equal.
-/

namespace SortedSet

open Ascending

variable {α β γ : Type*} [LinearOrder β] [LinearOrder γ]

def dropAfter (key : α → β) (last : α) : List α → List α
  | [] => []
  | a :: rest =>
      if key a = key last then dropAfter key last rest else a :: dropAfter key a rest

def dropRepeated (key : α → β) : List α → List α
  | [] => []
  | a :: rest => a :: dropAfter key a rest

def sortDedup (key : α → β) (l : List α) : List α :=
  dropRepeated key (l.insertionSort fun a b => key a ≤ key b)

variable {key : α → β} {l l' : List α}

theorem dropAfter_sublist (last : α) (l : List α) : (dropAfter key last l).Sublist l := by
  induction l generalizing last with
  | nil => exact List.Sublist.refl _
  | cons a l ih =>
      unfold dropAfter
      split
      · exact (ih last).cons a
      · exact (ih a).cons_cons a

theorem dropRepeated_sublist (l : List α) : (dropRepeated key l).Sublist l := by
  cases l with
  | nil => exact List.Sublist.refl _
  | cons a l => exact (dropAfter_sublist a l).cons_cons a

/-- In a sorted list what is left has strictly ascending keys, and no key is lost. -/
theorem dropAfter_spec {last : α} (h : (last :: l).Pairwise fun a b => key a ≤ key b) :
    ((last :: dropAfter key last l).map key).Pairwise (· < ·) ∧
      ∀ k, k ∈ (last :: dropAfter key last l).map key ↔ k ∈ (last :: l).map key := by
  induction l generalizing last with
  | nil => exact ⟨List.pairwise_singleton _ _, fun _ => Iff.rfl⟩
  | cons a l ih =>
      obtain ⟨hlast, hrest⟩ := List.pairwise_cons.mp h
      unfold dropAfter
      split
      · rename_i heq
        have hskip : (last :: l).Pairwise fun a b => key a ≤ key b :=
          h.sublist ((List.sublist_cons_self a l).cons_cons last)
        obtain ⟨hsorted, hmem⟩ := ih hskip
        refine ⟨hsorted, fun k => ?_⟩
        rw [hmem]
        simp [heq]
      · rename_i hne
        obtain ⟨hsorted, hmem⟩ := ih hrest
        refine ⟨?_, fun k => ?_⟩
        · refine List.pairwise_cons.mpr ⟨fun k hk => ?_, hsorted⟩
          obtain ⟨b, hb, rfl⟩ := List.mem_map.mp ((hmem k).mp hk)
          have hfirst := lt_of_le_of_ne (hlast a List.mem_cons_self) (Ne.symm hne)
          rcases List.mem_cons.mp hb with rfl | hb
          · exact hfirst
          · exact hfirst.trans_le ((List.pairwise_cons.mp hrest).1 b hb)
        · rw [List.map_cons, List.mem_cons, hmem]
          simp

theorem pairwise_sorted (key : α → β) (l : List α) :
    (l.insertionSort fun a b => key a ≤ key b).Pairwise fun a b => key a ≤ key b := by
  have htotal : Std.Total fun a b => key a ≤ key b := ⟨fun a b => le_total (key a) (key b)⟩
  have htrans : IsTrans α fun a b => key a ≤ key b := ⟨fun _ _ _ => le_trans⟩
  exact List.pairwise_insertionSort _ l

theorem sortDedup_spec (key : α → β) (l : List α) :
    ((sortDedup key l).map key).Pairwise (· < ·) ∧
      ∀ k, k ∈ (sortDedup key l).map key ↔ k ∈ l.map key := by
  have hsorted := pairwise_sorted key l
  have hmem : ∀ k, k ∈ (l.insertionSort fun a b => key a ≤ key b).map key ↔ k ∈ l.map key :=
    fun k => ((List.perm_insertionSort _ l).map key).mem_iff
  unfold sortDedup
  cases hcases : l.insertionSort fun a b => key a ≤ key b with
  | nil =>
      rw [hcases] at hmem
      exact ⟨List.Pairwise.nil, hmem⟩
  | cons a rest =>
      rw [hcases] at hmem hsorted
      obtain ⟨hlt, hkeys⟩ := dropAfter_spec hsorted
      exact ⟨hlt, fun k => (hkeys k).trans (hmem k)⟩

theorem pairwise_sortDedup (key : α → β) (l : List α) :
    ((sortDedup key l).map key).Pairwise (· < ·) := (sortDedup_spec key l).1

theorem mem_map_sortDedup {k : β} : k ∈ (sortDedup key l).map key ↔ k ∈ l.map key :=
  (sortDedup_spec key l).2 k

theorem mem_of_mem_sortDedup {a : α} (h : a ∈ sortDedup key l) : a ∈ l :=
  (List.perm_insertionSort _ l).mem_iff.mp ((dropRepeated_sublist _).subset h)

theorem eq_of_pairwise_lt {l l' : List β} (h : l.Pairwise (· < ·)) (h' : l'.Pairwise (· < ·))
    (hmem : ∀ k, k ∈ l ↔ k ∈ l') : l = l' := by
  have hset : l.toFinset = l'.toFinset := by
    ext k
    simp [hmem]
  rw [← ascending_toFinset h, hset, ascending_toFinset h']

theorem map_sortDedup_congr (h : ∀ k, k ∈ l.map key ↔ k ∈ l'.map key) :
    (sortDedup key l).map key = (sortDedup key l').map key :=
  eq_of_pairwise_lt (pairwise_sortDedup key l) (pairwise_sortDedup key l') fun k => by
    rw [mem_map_sortDedup, mem_map_sortDedup, h]

theorem map_sortDedup (key : α → β) (l : List α) :
    (sortDedup key l).map key = sortDedup id (l.map key) := by
  have hid := sortDedup_spec id (l.map key)
  simp only [List.map_id_fun, id_eq] at hid
  exact eq_of_pairwise_lt (pairwise_sortDedup key l) hid.1 fun k => by
    rw [mem_map_sortDedup, hid.2]

theorem map_sortDedup_of_eq {w : α → β} (h : ∀ a ∈ l, key a = w a) :
    (sortDedup key l).map w = sortDedup id (l.map w) := by
  have hkeys : (sortDedup key l).map w = (sortDedup key l).map key :=
    List.map_congr_left fun a ha => (h a (mem_of_mem_sortDedup ha)).symm
  rw [hkeys, map_sortDedup, List.map_congr_left h]

section Injective

theorem mem_sortDedup (hinj : Set.InjOn key {a | a ∈ l}) {a : α} : a ∈ sortDedup key l ↔ a ∈ l := by
  refine ⟨mem_of_mem_sortDedup, fun ha => ?_⟩
  obtain ⟨b, hb, hkey⟩ := List.mem_map.mp (mem_map_sortDedup.mpr (List.mem_map_of_mem (f := key) ha))
  rwa [← hinj (mem_of_mem_sortDedup hb) ha hkey]

omit [LinearOrder β] in
theorem map_inj_of_injOn {l l' : List α} (hinj : Set.InjOn key {a | a ∈ l ∨ a ∈ l'})
    (h : l.map key = l'.map key) : l = l' := by
  induction l generalizing l' with
  | nil => exact (List.map_eq_nil_iff.mp h.symm).symm
  | cons a l ih =>
      cases l' with
      | nil => cases h
      | cons b l' =>
          obtain ⟨hkey, hrest⟩ := List.cons.inj h
          obtain rfl := hinj (Or.inl List.mem_cons_self) (Or.inr List.mem_cons_self) hkey
          rw [ih (hinj.mono fun c hc => hc.imp (List.mem_cons_of_mem a) (List.mem_cons_of_mem a))
            hrest]

/-- Where elements with one key are equal, the form depends only on the set, and shows it. -/
theorem sortDedup_eq_iff (hinj : Set.InjOn key {a | a ∈ l ∨ a ∈ l'}) :
    sortDedup key l = sortDedup key l' ↔ ∀ a, a ∈ l ↔ a ∈ l' := by
  have hl : Set.InjOn key {a | a ∈ l} := hinj.mono fun a => Or.inl
  have hl' : Set.InjOn key {a | a ∈ l'} := hinj.mono fun a => Or.inr
  constructor
  · intro h a
    rw [← mem_sortDedup hl, h, mem_sortDedup hl']
  · intro h
    refine map_inj_of_injOn (hinj.mono fun a ha => ?_) (map_sortDedup_congr fun k => ?_)
    · exact ha.imp mem_of_mem_sortDedup mem_of_mem_sortDedup
    · simp only [List.mem_map, h]

/-- A list with strictly ascending keys and the elements of `l` is the form of `l`. -/
theorem sortDedup_eq (hlt : (l'.map key).Pairwise (· < ·)) (hinj : Set.InjOn key {a | a ∈ l})
    (hmem : ∀ a, a ∈ l' ↔ a ∈ l) : sortDedup key l = l' := by
  refine map_inj_of_injOn (hinj.mono fun a ha => ?_) (eq_of_pairwise_lt
    (pairwise_sortDedup key l) hlt fun k => ?_)
  · exact ha.elim mem_of_mem_sortDedup (hmem a).mp
  · rw [mem_map_sortDedup]
    simp only [List.mem_map, hmem]

end Injective

theorem sortDedup_of_pairwise (h : (l.map key).Pairwise (· < ·)) : sortDedup key l = l := by
  have hinj : Set.InjOn key {a | a ∈ l} := fun a ha b hb hkey =>
    List.inj_on_of_nodup_map (h.imp fun hab => hab.ne) ha hb hkey
  exact sortDedup_eq h hinj fun _ => Iff.rfl

/-- Keys in the same order give the same form. -/
theorem sortDedup_congr_key {key' : α → γ} (hinj : Set.InjOn key {a | a ∈ l})
    (hlt : ∀ a ∈ l, ∀ b ∈ l, key' a < key' b → key a < key b)
    (hinj' : Set.InjOn key' {a | a ∈ l}) : sortDedup key l = sortDedup key' l := by
  refine sortDedup_eq ?_ hinj fun a => mem_sortDedup hinj'
  have hsorted := List.pairwise_map.mp (pairwise_sortDedup key' l)
  refine List.pairwise_map.mpr (hsorted.imp_of_mem fun ha hb => ?_)
  exact hlt _ (mem_of_mem_sortDedup ha) _ (mem_of_mem_sortDedup hb)

end SortedSet
