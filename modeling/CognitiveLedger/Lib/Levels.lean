import Mathlib.Data.List.Dedup
import Mathlib.Data.List.Sort
import Mathlib.Logic.Relation

/-!
# Level-by-level discovery

A recursive query discovers nodes level by level: the rows of one level, each with its
depth, then those of the next, every node of a level once and in an order the engine is
free to choose. `nearest` keeps a node at its least depth. Whatever is cut off behind,
the anchor of the discovery comes before everything else.
-/

namespace Levels

open Relation

variable {κ : Type*} [DecidableEq κ]

/-- The rows of `n` levels, from `level` at `depth` on. -/
def discover (arrange : ℕ → List κ → List κ) (next : κ → List κ) :
    ℕ → ℕ → List κ → List (κ × ℕ)
  | 0, _, _ => []
  | n + 1, depth, level =>
      level.map (·, depth) ++
        discover arrange next n (depth + 1) (arrange (depth + 1) (level.flatMap next).dedup)

/-- Every row whose node has no row of a lesser depth. -/
def nearest (rows : List (κ × ℕ)) : List (κ × ℕ) :=
  rows.filter fun p => ∀ q ∈ rows, q.1 = p.1 → p.2 ≤ q.2

variable {arrange : ℕ → List κ → List κ} {next : κ → List κ}

theorem le_depth {n depth : ℕ} {level : List κ} {p : κ × ℕ}
    (hp : p ∈ discover arrange next n depth level) : depth ≤ p.2 := by
  induction n generalizing depth level with
  | zero => cases hp
  | succ n ih =>
      rcases List.mem_append.mp hp with hp | hp
      · obtain ⟨c, -, rfl⟩ := List.mem_map.mp hp
        exact le_rfl
      · exact Nat.le_of_succ_le (ih hp)

theorem reached (hperm : ∀ d l, (arrange d l).Perm l) {n depth : ℕ} {level : List κ} {p : κ × ℕ}
    (hp : p ∈ discover arrange next n depth level) :
    ∃ c ∈ level, ReflTransGen (fun a b => b ∈ next a) c p.1 := by
  induction n generalizing depth level with
  | zero => cases hp
  | succ n ih =>
      rcases List.mem_append.mp hp with hp | hp
      · obtain ⟨c, hc, rfl⟩ := List.mem_map.mp hp
        exact ⟨c, hc, .refl⟩
      · obtain ⟨d, hd, hreach⟩ := ih hp
        have hd' : d ∈ level.flatMap next := List.mem_dedup.mp ((hperm _ _).mem_iff.mp hd)
        obtain ⟨c, hc, hcd⟩ := List.mem_flatMap.mp hd'
        exact ⟨c, hc, .head hcd hreach⟩

theorem nodup_discover (hperm : ∀ d l, (arrange d l).Perm l) {n depth : ℕ} {level : List κ}
    (hlevel : level.Nodup) : (discover arrange next n depth level).Nodup := by
  induction n generalizing depth level with
  | zero => exact List.nodup_nil
  | succ n ih =>
      refine List.nodup_append.mpr ⟨?_, ?_, ?_⟩
      · exact hlevel.map fun a b h => congrArg Prod.fst h
      · exact ih ((hperm _ _).nodup_iff.mpr (List.nodup_dedup _))
      · rintro p hp q hq rfl
        obtain ⟨c, -, rfl⟩ := List.mem_map.mp hp
        exact absurd (le_depth hq) (Nat.not_succ_le_self depth)

/-- Each node is kept once. -/
theorem nodup_nearest {rows : List (κ × ℕ)} (hrows : rows.Nodup) :
    ((nearest rows).map Prod.fst).Nodup := by
  refine List.Nodup.map_on (fun p hp q hq hpq => ?_) (hrows.filter _)
  have hp' := List.mem_filter.mp hp
  have hq' := List.mem_filter.mp hq
  have hle := of_decide_eq_true hp'.2 q hq'.1 hpq.symm
  have hge := of_decide_eq_true hq'.2 p hp'.1 hpq
  exact Prod.ext hpq (le_antisymm hle hge)

theorem mem_of_mem_nearest {p : κ × ℕ} {rows : List (κ × ℕ)} (h : p ∈ nearest rows) : p ∈ rows :=
  (List.mem_filter.mp h).1

/-- A row strictly before all others stands first in every listing by depth. -/
theorem take_of_least {listing : List (κ × ℕ)} {p : κ × ℕ}
    (hsorted : listing.Pairwise fun a b => a.2 ≤ b.2) (hp : p ∈ listing)
    (hleast : ∀ q ∈ listing, q ≠ p → p.2 < q.2) {max : ℕ} (hmax : 0 < max) :
    p ∈ listing.take max := by
  obtain ⟨max, rfl⟩ := Nat.exists_eq_succ_of_ne_zero hmax.ne'
  cases listing with
  | nil => cases hp
  | cons q rest =>
      by_cases hq : q = p
      · simp [hq]
      · rcases List.mem_cons.mp hp with rfl | hp
        · exact absurd rfl hq
        · have hle := List.rel_of_pairwise_cons hsorted hp
          exact absurd hle (Nat.not_le.mpr (hleast q List.mem_cons_self hq))

/-- The anchor of a discovery survives a cut of its rows, the choice of nearest rows, their
listing by depth and a cut of that. -/
theorem anchor_mem {start : κ} {n cap max : ℕ} (hn : 0 < n) (hcap : 0 < cap) (hmax : 0 < max)
    {listing : List (κ × ℕ)} (hsorted : listing.Pairwise fun a b => a.2 ≤ b.2)
    (hlisting : listing.Perm (nearest ((discover arrange next n 0 [start]).take cap))) :
    (start, 0) ∈ listing.take max := by
  obtain ⟨n, rfl⟩ := Nat.exists_eq_succ_of_ne_zero hn.ne'
  obtain ⟨cap, rfl⟩ := Nat.exists_eq_succ_of_ne_zero hcap.ne'
  have hrows : (discover arrange next (n + 1) 0 [start]).take (cap + 1) = (start, 0) ::
      (discover arrange next n 1 (arrange 1 ([start].flatMap next).dedup)).take cap := by
    simp [discover]
  rw [Nat.succ_eq_add_one, Nat.succ_eq_add_one, hrows] at hlisting
  refine take_of_least hsorted (hlisting.mem_iff.mpr ?_) (fun q hq hne => ?_) hmax
  · exact List.mem_filter.mpr ⟨List.mem_cons_self, by simp⟩
  · rcases List.mem_cons.mp (mem_of_mem_nearest (hlisting.mem_iff.mp hq)) with rfl | hq
    · exact absurd rfl hne
    · exact le_depth (List.mem_of_mem_take hq)

end Levels
