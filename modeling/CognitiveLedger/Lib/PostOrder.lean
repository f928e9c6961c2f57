import CognitiveLedger.Lib.DepthFirst
import Mathlib.Data.Finset.Card
import Mathlib.Data.List.Nodup
import Mathlib.Data.Prod.Lex

/-!
# Parents before children

A depth-first search over a finite map lists every node after its parents. It works
on a stack of marked nodes: an unmarked node is still to be opened, a marked one is
closed, and listed, once everything above it is gone. A node may be on the stack
several times; the set of closed nodes drops the repetitions, and the set of open
nodes finds cycles.

The open nodes of a stack lie on one line of descent, and nothing above an open node
is that node again. So the search ends with a complete list, or it names a parent
that the map lacks or a node on a cycle.
-/

set_option linter.unusedSectionVars false

namespace PostOrder

open DepthFirst Relation

variable {κ : Type*} [DecidableEq κ]

structure ParentMap (κ : Type*) where
  keys : Finset κ
  parents : κ → Option (List κ)
  mem_keys : ∀ c, c ∈ keys ↔ (parents c).isSome

/-- Why there is no order. -/
inductive Failure (κ : Type*)
  | missing (p : κ)
  | cycle (c : κ)
  deriving DecidableEq

variable (map : ParentMap κ)

def push (opened closed : Finset κ) : List κ → List (κ × Bool) → Except (Failure κ) (List (κ × Bool))
  | [], stack => .ok stack
  | p :: ps, stack =>
      if p ∈ closed then push opened closed ps stack
      else if p ∉ map.keys then .error (.missing p)
      else if p ∈ opened then .error (.cycle p)
      else push opened closed ps ((p, false) :: stack)

def ParentMap.unopened (opened closed : Finset κ) : Finset κ := map.keys \ (opened ∪ closed)

theorem unopened_close {map : ParentMap κ} {opened closed : Finset κ} (c : κ) :
    map.unopened (opened.erase c) (insert c closed) ⊆ map.unopened opened closed := by
  intro x hx
  simp only [ParentMap.unopened, Finset.mem_sdiff, Finset.mem_union, Finset.mem_erase,
    Finset.mem_insert] at hx ⊢
  tauto

theorem unopened_open {map : ParentMap κ} {opened closed : Finset κ} {c : κ} (hkey : c ∈ map.keys)
    (hopened : c ∉ opened) (hclosed : c ∉ closed) :
    (map.unopened (insert c opened) closed).card < (map.unopened opened closed).card := by
  refine Finset.card_lt_card ((Finset.ssubset_iff_of_subset ?_).mpr ⟨c, ?_, ?_⟩)
  · exact Finset.sdiff_subset_sdiff subset_rfl
      (Finset.union_subset_union (Finset.subset_insert c opened) subset_rfl)
  · simp [ParentMap.unopened, hkey, hopened, hclosed]
  · simp [ParentMap.unopened]

def search (opened closed : Finset κ) (order : List κ) :
    List (κ × Bool) → Except (Failure κ) (Finset κ × List κ)
  | [] => .ok (closed, order)
  | (c, mark) :: stack =>
      if c ∈ closed then search opened closed order stack
      else if mark then search (opened.erase c) (insert c closed) (order ++ [c]) stack
      else if c ∈ opened then .error (.cycle c)
      else
        match _ : map.parents c with
        | none => .error (.missing c)
        | some ps =>
            match push map (insert c opened) closed ps ((c, true) :: stack) with
            | .error e => .error e
            | .ok stack => search (insert c opened) closed order stack
  -- an opening leaves fewer nodes to open; the other turns take an entry off the stack
  termination_by stack => ((map.unopened opened closed).card, stack.length)
  decreasing_by
    · exact Prod.Lex.right _ (Nat.lt_succ_self _)
    · exact Prod.Lex.right' _ (Finset.card_le_card (unopened_close c)) (Nat.lt_succ_self _)
    · exact Prod.Lex.left _ _
        (unopened_open ((map.mem_keys c).mpr (Option.isSome_of_mem ‹_›)) ‹c ∉ opened› ‹c ∉ closed›)

def searchAll : List κ → Finset κ × List κ → Except (Failure κ) (Finset κ × List κ)
  | [], found => .ok found
  | root :: roots, found =>
      match search map ∅ found.1 found.2 [(root, false)] with
      | .error e => .error e
      | .ok found => searchAll roots found

/-- An order of the nodes in which parents come first. -/
def order (roots : List κ) : Except (Failure κ) (List κ) := (searchAll map roots (∅, [])).map Prod.snd

/-! ## What is listed -/

variable {map} {opened closed : Finset κ} {listed : List κ} {stack : List (κ × Bool)} {c : κ}

structure Listing (map : ParentMap κ) (closed : Finset κ) (listed : List κ) : Prop where
  mem_iff : ∀ c, c ∈ listed ↔ c ∈ closed
  nodup : listed.Nodup
  known : ∀ c ∈ listed, c ∈ map.keys
  parents_first : ∀ front c back, listed = front ++ c :: back →
    ∀ p, Edge map.parents c p → p ∈ front

theorem Listing.nil : Listing map ∅ [] := by
  refine ⟨by simp, List.nodup_nil, by simp, fun front c back h => ?_⟩
  cases front <;> cases h

theorem Listing.close (h : Listing map closed listed) (hc : c ∉ closed) (hkey : c ∈ map.keys)
    (hparents : ∀ p, Edge map.parents c p → p ∈ closed) :
    Listing map (insert c closed) (listed ++ [c]) := by
  have hnot : c ∉ listed := fun hmem => hc ((h.mem_iff c).mp hmem)
  refine ⟨fun x => ?_, ?_, ?_, fun front x back heq p hp => ?_⟩
  · rw [List.mem_append, List.mem_singleton, Finset.mem_insert, h.mem_iff, or_comm]
  · exact List.nodup_append.mpr ⟨h.nodup, List.nodup_singleton c, by
      rintro x hx y hy rfl
      exact hnot (List.mem_singleton.mp hy ▸ hx)⟩
  · intro x hx
    rcases List.mem_append.mp hx with hx | hx
    · exact h.known x hx
    · rwa [List.mem_singleton.mp hx]
  · rcases List.eq_nil_or_concat back with rfl | ⟨back, y, rfl⟩
    · obtain ⟨rfl, hlast⟩ := List.append_inj' heq rfl
      obtain rfl : c = x := by simpa using hlast
      exact (h.mem_iff p).mpr (hparents p hp)
    · have heq' : listed ++ [c] = (front ++ x :: back) ++ [y] := by simpa using heq
      obtain ⟨hlisted, -⟩ := List.append_inj' heq' rfl
      exact h.parents_first front x back hlisted p hp

/-- Listed nodes have their ancestors listed, and lie on no cycle. -/
theorem settled_of_parents_first (h : ∀ front c back, listed = front ++ c :: back →
    ∀ p, Edge map.parents c p → p ∈ front) : Settled (Edge map.parents) {x | x ∈ listed} := by
  induction listed using List.reverseRecOn with
  | nil => simpa using settled_empty (Edge map.parents)
  | append_singleton listed c ih =>
      have hset : {x | x ∈ listed ++ [c]} = insert c {x | x ∈ listed} := by
        ext x
        simp [or_comm]
      rw [hset]
      refine (ih fun front x back heq => ?_).insert fun p hp => h listed c [] rfl p hp
      refine h front x (back ++ [c]) ?_
      rw [heq]
      simp

/-! ## The stack -/

/-- A node stands above an open one of which it is a proper ancestor. -/
def Above (map : ParentMap κ) (e f : κ × Bool) : Prop :=
  f.2 = true → e.1 ≠ f.1 ∧ TransGen (Edge map.parents) f.1 e.1

def Waits (map : ParentMap κ) (closed : Finset κ) : Set κ → List (κ × Bool) → Prop
  | _, [] => True
  | above, (c, mark) :: stack =>
      (mark = true → ∀ p, Edge map.parents c p → p ∈ closed ∨ p ∈ above) ∧
        Waits map closed (insert c above) stack

theorem Waits.mono {above above' : Set κ} {closed' : Finset κ} (h : Waits map closed above stack)
    (habove : ∀ x ∈ above, x ∈ closed' ∨ x ∈ above') (hclosed : closed ⊆ closed') :
    Waits map closed' above' stack := by
  induction stack generalizing above above' with
  | nil => trivial
  | cons e stack ih =>
      obtain ⟨c, mark⟩ := e
      refine ⟨fun hmark p hp => ?_, ih h.2 ?_⟩
      · exact (h.1 hmark p hp).elim (fun hp => .inl (hclosed hp)) (habove p)
      · rintro x (rfl | hx)
        · exact .inr (Set.mem_insert _ _)
        · exact (habove x hx).imp_right (Set.mem_insert_of_mem _)

theorem Waits.push {above : Set κ} (new : List κ)
    (h : Waits map closed (above ∪ {x | x ∈ new}) stack) :
    Waits map closed above (new.map (·, false) ++ stack) := by
  induction new generalizing above with
  | nil => simpa using h
  | cons p new ih =>
      refine ⟨fun hmark => Bool.noConfusion hmark, ih (h.mono (fun x hx => .inr ?_) subset_rfl)⟩
      rcases hx with hx | hx
      · exact .inl (.inr hx)
      · rcases List.mem_cons.mp hx with rfl | hx
        · exact .inl (.inl rfl)
        · exact .inr hx

structure Stacked (map : ParentMap κ) (opened closed : Finset κ) (stack : List (κ × Bool)) :
    Prop where
  marked : ∀ c, c ∈ opened ↔ (c, true) ∈ stack
  unclosed : ∀ c ∈ opened, c ∉ closed
  known : ∀ e ∈ stack, e.1 ∈ map.keys
  line : stack.Pairwise (Above map)
  waits : Waits map closed ∅ stack

theorem Stacked.root (hc : c ∈ map.keys) : Stacked map ∅ closed [(c, false)] := by
  refine ⟨by simp, by simp, by simpa using hc, List.pairwise_singleton _ _, ?_⟩
  exact ⟨fun hmark => Bool.noConfusion hmark, trivial⟩

theorem Stacked.skip {mark : Bool} (h : Stacked map opened closed ((c, mark) :: stack))
    (hc : c ∈ closed) : Stacked map opened closed stack := by
  have hmark : mark = false := by
    cases mark with
    | false => rfl
    | true => exact absurd hc (h.unclosed c ((h.marked c).mpr List.mem_cons_self))
  subst hmark
  refine ⟨fun x => (h.marked x).trans (by simp), h.unclosed, fun e he => h.known e (.tail _ he),
    h.line.tail, h.waits.2.mono ?_ subset_rfl⟩
  rintro x (rfl | hx)
  · exact .inl hc
  · exact hx.elim

theorem Stacked.close (h : Stacked map opened closed ((c, true) :: stack)) :
    Stacked map (opened.erase c) (insert c closed) stack := by
  have hone : (c, true) ∉ stack := fun hmem =>
    ((List.pairwise_cons.mp h.line).1 _ hmem rfl).1 rfl
  refine ⟨fun x => ?_, fun x hx hclosed => ?_, fun e he => h.known e (.tail _ he), h.line.tail,
    h.waits.2.mono ?_ (Finset.subset_insert c closed)⟩
  · rw [Finset.mem_erase, h.marked, List.mem_cons, Prod.mk.injEq, and_iff_left rfl]
    constructor
    · rintro ⟨hne, rfl | hx⟩
      · exact absurd rfl hne
      · exact hx
    · intro hx
      refine ⟨?_, .inr hx⟩
      rintro rfl
      exact hone hx
  · obtain ⟨hne, hx⟩ := Finset.mem_erase.mp hx
    exact h.unclosed x hx ((Finset.mem_insert.mp hclosed).resolve_left hne)
  · rintro x (rfl | hx)
    · exact .inl (Finset.mem_insert_self x closed)
    · exact hx.elim

theorem Stacked.parents_closed (h : Stacked map opened closed ((c, true) :: stack)) :
    ∀ p, Edge map.parents c p → p ∈ closed := fun p hp => (h.waits.1 rfl p hp).resolve_right id

/-! ## Opening a node -/

theorem push_eq_ok {ps : List κ} {stack' : List (κ × Bool)}
    (h : push map opened closed ps stack = .ok stack') :
    ∃ new : List κ, stack' = new.map (·, false) ++ stack ∧
      (∀ p ∈ new, p ∈ ps ∧ p ∈ map.keys ∧ p ∉ opened) ∧ ∀ p ∈ ps, p ∈ closed ∨ p ∈ new := by
  induction ps generalizing stack with
  | nil =>
      cases h
      exact ⟨[], by simp⟩
  | cons p ps ih =>
      rw [push] at h
      split_ifs at h with hclosed hkey hopened
      · obtain ⟨new, hstack, hnew, hps⟩ := ih h
        refine ⟨new, hstack, fun q hq => ⟨.tail _ (hnew q hq).1, (hnew q hq).2⟩, ?_⟩
        rintro q (_ | ⟨_, hq⟩)
        · exact .inl hclosed
        · exact hps q hq
      · obtain ⟨new, hstack, hnew, hps⟩ := ih h
        refine ⟨new ++ [p], by simp [hstack], fun q hq => ?_, ?_⟩
        · rcases List.mem_append.mp hq with hq | hq
          · exact ⟨.tail _ (hnew q hq).1, (hnew q hq).2⟩
          · obtain rfl := List.mem_singleton.mp hq
            exact ⟨List.mem_cons_self, hkey, hopened⟩
        · rintro q (_ | ⟨_, hq⟩)
          · exact .inr (by simp)
          · exact (hps q hq).imp_right (List.mem_append_left _)

theorem push_eq_error {ps : List κ} {e : Failure κ}
    (h : push map opened closed ps stack = .error e) :
    ∃ p ∈ ps, (p ∉ map.keys ∧ e = .missing p) ∨ (p ∈ opened ∧ e = .cycle p) := by
  induction ps generalizing stack with
  | nil => cases h
  | cons p ps ih =>
      have hrest : (∃ q ∈ ps, (q ∉ map.keys ∧ e = .missing q) ∨ (q ∈ opened ∧ e = .cycle q)) →
          ∃ q ∈ p :: ps, (q ∉ map.keys ∧ e = .missing q) ∨ (q ∈ opened ∧ e = .cycle q) :=
        fun ⟨q, hq, hwhy⟩ => ⟨q, .tail _ hq, hwhy⟩
      rw [push] at h
      split_ifs at h with hclosed hkey hopened
      · exact hrest (ih h)
      · exact ⟨p, List.mem_cons_self, .inr ⟨hopened, (Except.error.inj h).symm⟩⟩
      · exact hrest (ih h)
      · exact ⟨p, List.mem_cons_self, .inl ⟨hkey, (Except.error.inj h).symm⟩⟩

theorem Stacked.descends {mark : Bool} (h : Stacked map opened closed ((c, mark) :: stack))
    {d : κ} (hd : (d, true) ∈ stack) : TransGen (Edge map.parents) d c :=
  ((List.pairwise_cons.mp h.line).1 _ hd rfl).2

theorem Stacked.open (h : Stacked map opened closed ((c, false) :: stack)) (hclosed : c ∉ closed)
    (hopened : c ∉ opened) {ps new : List κ} (hparents : map.parents c = some ps)
    (hnew : ∀ p ∈ new, p ∈ ps ∧ p ∈ map.keys ∧ p ∉ insert c opened)
    (hps : ∀ p ∈ ps, p ∈ closed ∨ p ∈ new) :
    Stacked map (insert c opened) closed (new.map (·, false) ++ (c, true) :: stack) := by
  have hmarked : ∀ x, x ∈ insert c opened ↔ (x, true) ∈ (c, true) :: stack := by
    intro x
    rw [Finset.mem_insert, h.marked, List.mem_cons, List.mem_cons, Prod.mk.injEq, Prod.mk.injEq]
    simp
  have hline := List.pairwise_cons.mp h.line
  refine ⟨fun x => ?_, ?_, fun e he => ?_, ?_, ?_⟩
  · rw [hmarked, List.mem_append]
    simp
  · intro x hx
    rcases Finset.mem_insert.mp hx with rfl | hx
    · exact hclosed
    · exact h.unclosed x hx
  · rcases List.mem_append.mp he with he | he
    · obtain ⟨p, hp, rfl⟩ := List.mem_map.mp he
      exact (hnew p hp).2.1
    · rcases List.mem_cons.mp he with rfl | he
      · exact h.known (c, false) List.mem_cons_self
      · exact h.known e (.tail _ he)
  · refine List.pairwise_append.mpr ⟨?_, List.pairwise_cons.mpr ⟨hline.1, hline.2⟩, ?_⟩
    · exact List.pairwise_map.mpr (List.pairwise_of_forall fun _ _ hmark => by cases hmark)
    · -- a new entry is a parent of the opened node, which is above all others
      intro e he f hf hmark
      obtain ⟨p, hp, rfl⟩ := List.mem_map.mp he
      obtain ⟨d, mark⟩ := f
      obtain rfl : mark = true := hmark
      have hedge : Edge map.parents c p := (edge_iff hparents).mpr (hnew p hp).1
      refine ⟨?_, ?_⟩
      · rintro rfl
        exact (hnew p hp).2.2 ((hmarked p).mpr hf)
      · rcases List.mem_cons.mp hf with heq | hf
        · cases heq
          exact .single hedge
        · exact (h.descends hf).tail hedge
  · refine Waits.push new ⟨fun _ p hp => ?_, h.waits.2.mono (fun x hx => .inr ?_) subset_rfl⟩
    · exact (hps p ((edge_iff hparents).mp hp)).imp_right Or.inr
    · exact hx.imp_right fun hx => hx.elim

/-! ## The search -/

def Failure.Real (map : ParentMap κ) : Failure κ → Prop
  | .missing p => p ∉ map.keys ∧ ∃ c, Edge map.parents c p
  | .cycle c => TransGen (Edge map.parents) c c

theorem ParentMap.edge_key (map : ParentMap κ) {p : κ} (h : Edge map.parents c p) : c ∈ map.keys := by
  obtain ⟨ps, hps, -⟩ := h
  exact (map.mem_keys c).mpr (Option.isSome_of_mem hps)

/-- A search fails for a reason, or it lists given nodes besides the closed ones. -/
def Outcome (map : ParentMap κ) (closed : Finset κ) (nodes : List κ) :
    Except (Failure κ) (Finset κ × List κ) → Prop
  | .error e => e.Real map
  | .ok found => Listing map found.1 found.2 ∧ closed ⊆ found.1 ∧ ∀ c ∈ nodes, c ∈ found.1

theorem Outcome.mono {closed' : Finset κ} {nodes nodes' : List κ}
    {r : Except (Failure κ) (Finset κ × List κ)} (h : Outcome map closed nodes r)
    (hclosed : closed' ⊆ closed) (hnodes : ∀ c ∈ nodes', c ∈ closed ∨ c ∈ nodes) :
    Outcome map closed' nodes' r := by
  cases r with
  | error e => exact h
  | ok found =>
      exact ⟨h.1, hclosed.trans h.2.1, fun c hc => (hnodes c hc).elim (@h.2.1 c) (h.2.2 c)⟩

theorem search_outcome (hlisting : Listing map closed listed)
    (h : Stacked map opened closed stack) :
    Outcome map closed (stack.map Prod.fst) (search map opened closed listed stack) := by
  fun_induction search map opened closed listed stack with
  | case1 opened closed listed => exact ⟨hlisting, subset_rfl, by simp⟩
  | case2 opened closed listed c mark stack hc ih =>
      refine (ih hlisting (h.skip hc)).mono subset_rfl fun x hx => ?_
      rcases List.mem_cons.mp hx with rfl | hx
      · exact .inl hc
      · exact .inr hx
  | case3 opened closed listed c stack hc ih =>
      have hkey : c ∈ map.keys := h.known (c, true) List.mem_cons_self
      refine (ih (hlisting.close hc hkey h.parents_closed) h.close).mono
        (Finset.subset_insert c closed) fun x hx => ?_
      rcases List.mem_cons.mp hx with rfl | hx
      · exact .inl (Finset.mem_insert_self _ closed)
      · exact .inr hx
  | case4 opened closed listed c mark stack hc hmark hopened =>
      -- a marked copy of the node would be below it
      have hmem : (c, true) ∈ stack := by
        have hmem := (h.marked c).mp hopened
        simpa [hmark] using hmem
      exact absurd rfl ((List.pairwise_cons.mp h.line).1 _ hmem rfl).1
  | case5 opened closed listed c mark stack hc hmark hopened hparents =>
      have hkey := (map.mem_keys c).mp (h.known (c, mark) List.mem_cons_self)
      rw [hparents] at hkey
      cases hkey
  | case6 opened closed listed c mark stack hc hmark hopened ps hparents e hpush =>
      obtain rfl : mark = false := by simpa using hmark
      have hmarked : ∀ p ∈ insert c opened, p = c ∨ (p, true) ∈ stack := by
        intro p hp
        refine (Finset.mem_insert.mp hp).imp_right fun hp => ?_
        simpa using (h.marked p).mp hp
      obtain ⟨p, hp, ⟨hkey, rfl⟩ | ⟨hopen, rfl⟩⟩ := push_eq_error hpush
      · exact ⟨hkey, c, (edge_iff hparents).mpr hp⟩
      · have hedge : Edge map.parents c p := (edge_iff hparents).mpr hp
        rcases hmarked p hopen with rfl | hbelow
        · exact .single hedge
        · exact (h.descends hbelow).tail hedge
  | case7 opened closed listed c mark stack hc hmark hopened ps hparents stack' hpush ih =>
      obtain rfl : mark = false := by simpa using hmark
      obtain ⟨new, rfl, hnew, hps⟩ := push_eq_ok hpush
      refine (ih hlisting (h.open hc hopened hparents hnew hps)).mono subset_rfl fun x hx => ?_
      rw [List.map_append]
      exact .inr (List.mem_append_right _ hx)

theorem searchAll_outcome {roots : List κ} {found : Finset κ × List κ}
    (hfound : Listing map found.1 found.2) (hroots : ∀ c ∈ roots, c ∈ map.keys) :
    Outcome map found.1 roots (searchAll map roots found) := by
  induction roots generalizing found with
  | nil => exact ⟨hfound, subset_rfl, by simp⟩
  | cons root roots ih =>
      have hroot := search_outcome hfound (Stacked.root (hroots root List.mem_cons_self))
      rw [searchAll]
      cases hsearch : search map ∅ found.1 found.2 [(root, false)] with
      | error e =>
          rw [hsearch] at hroot
          exact hroot
      | ok found' =>
          rw [hsearch] at hroot
          obtain ⟨hlisting, hsub, hin⟩ := hroot
          refine (ih hlisting fun c hc => hroots c (.tail _ hc)).mono hsub ?_
          rintro c (_ | ⟨_, hc⟩)
          · exact .inl (hin root (by simp))
          · exact .inr hc

section

variable {roots : List κ} (hroots : ∀ c, c ∈ roots ↔ c ∈ map.keys)
include hroots

theorem order_eq_ok {l : List κ} (h : order map roots = .ok l) :
    l.Nodup ∧ (∀ c, c ∈ l ↔ c ∈ map.keys) ∧
      ∀ front c back, l = front ++ c :: back → ∀ p, Edge map.parents c p → p ∈ front := by
  have hall : Outcome map ∅ roots (searchAll map roots (∅, [])) :=
    searchAll_outcome Listing.nil fun c hc => (hroots c).mp hc
  rw [order] at h
  cases hsearch : searchAll map roots (∅, []) with
  | error e =>
      rw [hsearch] at h
      cases h
  | ok found =>
      rw [hsearch] at h hall
      obtain rfl : found.2 = l := Except.ok.inj h
      obtain ⟨hlisting, -, hin⟩ := hall
      refine ⟨hlisting.nodup, fun c => ⟨hlisting.known c, fun hc => ?_⟩, hlisting.parents_first⟩
      exact (hlisting.mem_iff c).mpr (hin c ((hroots c).mpr hc))

theorem order_eq_error {e : Failure κ} (h : order map roots = .error e) : e.Real map := by
  have hall : Outcome map ∅ roots (searchAll map roots (∅, [])) :=
    searchAll_outcome Listing.nil fun c hc => (hroots c).mp hc
  rw [order] at h
  cases hsearch : searchAll map roots (∅, []) with
  | error e' =>
      rw [hsearch] at h hall
      obtain rfl : e' = e := Except.error.inj h
      exact hall
  | ok found =>
      rw [hsearch] at h
      cases h

theorem exists_order_iff : (∃ l, order map roots = .ok l) ↔
    (∀ c p, Edge map.parents c p → p ∈ map.keys) ∧ Lineage.Acyclic (Edge map.parents) := by
  constructor
  · rintro ⟨l, hl⟩
    obtain ⟨-, hmem, hfirst⟩ := order_eq_ok hroots hl
    have hsettled := settled_of_parents_first hfirst
    refine ⟨fun c p hp => ?_, fun c hcycle => ?_⟩
    · exact (hmem p).mp (hsettled.closed c ((hmem c).mpr (map.edge_key hp)) p hp)
    · obtain ⟨p, hp, -⟩ := TransGen.head'_iff.mp hcycle
      exact hsettled.acyclic c ((hmem c).mpr (map.edge_key hp)) hcycle
  · rintro ⟨hclosed, hacyclic⟩
    cases hresult : order map roots with
    | ok l => exact ⟨l, rfl⟩
    | error e =>
        have hreal := order_eq_error hroots hresult
        cases e with
        | missing p =>
            obtain ⟨hp, c, hedge⟩ := hreal
            exact absurd (hclosed c p hedge) hp
        | cycle c => exact absurd hreal (hacyclic c)

end

end PostOrder
