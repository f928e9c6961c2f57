import Mathlib.Order.Interval.Finset.Nat
import CognitiveLedger.Store.BranchPrograms
import CognitiveLedger.Store.QuietSteps
import CognitiveLedger.Store.RawRefs

/-!
# What every move of a ref keeps

Once refs are moved by imports, they no longer stand at their last event and their
heads no longer descend from each other. What is left is that a version is never used
twice, that an event says which head its version had, and that every event which
leaves a head leads to a descendant of it. It is kept by audited and by raw moves, and
it is enough to carry a reachable commit along a chain of events.
-/

set_option linter.unusedSectionVars false

namespace CognitiveLedger

open ReadCommitted Lineage ExceptRules ImmutableRows

variable [NQuadsParser] [Sha256] [TimeCrate] [StrDebug]

/-! ## The invariant -/

/-- The event `e` tells the version and, for the current version, the head of the ref `r`. -/
structure RefEventRow.Tells (e : RefEventRow) (r : RefRow) : Prop where
  version : e.newVersion ≤ r.version
  head : e.newVersion = r.version → e.newHead = r.head

structure Db.MovesOk (d : Db) : Prop where
  rows : d.rows.Derived
  told : ∀ e ∈ d.refEvents, ∃ r, d.refs e.graphId e.branch = some r ∧ e.Tells r
  versions : ∀ g b, ((d.eventsOf g b).map (·.newVersion)).Nodup
  forwards : ∀ e ∈ d.refEvents, ∀ h, e.oldHead = some h → h ∈ ancestors d.rows.Parent e.newHead
  merges : ∀ m ∈ d.mergeProposals, d.rows.Parent m.candidate m.targetHead

structure Db.MovesOn (d d' : Db) : Prop where
  rows : d.rows.Extends d'.rows
  refs : ∀ g b r, d.refs g b = some r → ∃ r', d'.refs g b = some r' ∧ r.version ≤ r'.version ∧
    (r'.version = r.version → r' = r)

theorem Db.MovesOn.refl (d : Db) : d.MovesOn d :=
  ⟨.refl _, fun _ _ r h => ⟨r, h, le_rfl, fun _ => rfl⟩⟩

theorem Db.MovesOn.trans {a b c : Db} (h : a.MovesOn b) (h' : b.MovesOn c) : a.MovesOn c where
  rows := h.rows.trans h'.rows
  refs g x r hr := by
    obtain ⟨r', hr', hle, heq⟩ := h.refs g x r hr
    obtain ⟨r'', hr'', hle', heq'⟩ := h'.refs g x r' hr'
    refine ⟨r'', hr'', hle.trans hle', fun hv => ?_⟩
    obtain rfl := heq' (by omega)
    exact heq hv

def Db.MovesStable : LockName → Db → Db → Prop
  | .ref g b, d, d' => Db.Stable (.ref g b) d d'
  | .row k, d, d' => Db.Stable (.row k) d d'
  | _, _, _ => True

def movesDiscipline : Discipline Db LockName where
  Inv := Db.MovesOk
  Grow := Db.MovesOn
  Fresh _ _ := True
  Stable := Db.MovesStable
  grow_refl := Db.MovesOn.refl
  grow_trans := Db.MovesOn.trans
  stable_refl l d := by
    cases l with
    | ref g b => exact Db.Stable.refl (.ref g b) d
    | row k => exact Db.Stable.refl (.row k) d
    | _ => trivial
  stable_trans {l _ _ _} h h' := by
    cases l with
    | ref g b => exact Db.Stable.trans (l := .ref g b) h h'
    | row k => exact Db.Stable.trans (l := .row k) h h'
    | _ => trivial

instance : KeepsRows movesDiscipline := ⟨Db.MovesOn.rows, id⟩

instance : KeepsRefs movesDiscipline := ⟨id⟩

theorem movesDiscipline_stable {l : LockName} {d d' : Db} (h : Db.Stable l d d') :
    movesDiscipline.Stable l d d' := by
  cases l with
  | ref g b => exact h
  | row k => exact h
  | _ => trivial

/-- What the discipline is about. -/
def Db.moving (d : Db) :
    ImmutableRows × (GraphId → String → Option RefRow) × List RefEventRow × List MergeRow :=
  (d.rows, d.refs, d.refEvents, d.mergeProposals)

theorem Db.moving_eq {d d' : Db} (h : d'.moving = d.moving) : d'.rows = d.rows ∧
    d'.refs = d.refs ∧ d'.refEvents = d.refEvents ∧ d'.mergeProposals = d.mergeProposals := by
  simpa only [Db.moving, Prod.mk.injEq] using h

theorem Db.stable_of_eq {d d' : Db} (hrows : d'.rows = d.rows) (hrefs : d'.refs = d.refs)
    (hevents : d'.refEvents = d.refEvents) (l : LockName) : movesDiscipline.Stable l d d' := by
  cases l with
  | ref g b => exact ⟨congrFun (congrFun hrefs g) b, by simp only [Db.eventsOf, hevents]⟩
  | row k => cases k <;> simp only [movesDiscipline, Db.MovesStable, Db.Stable, SameAt, hrows]
  | _ => trivial

theorem Db.stable_of_moving {d d' : Db} (h : d'.moving = d.moving) (l : LockName) :
    movesDiscipline.Stable l d d' := by
  obtain ⟨hrows, hrefs, hevents, -⟩ := Db.moving_eq h
  exact Db.stable_of_eq hrows hrefs hevents l

/-! ## One move -/

/-- The ref of a branch moves to `row`; an event may be written with it. -/
structure RefMove (d d' : Db) (g : GraphId) (b : String) (row : RefRow) (event : Option RefEventRow) :
    Prop where
  version : row.version = (d.refs g b).elim 1 (·.version + 1)
  on : ∀ e ∈ event, e.graphId = g ∧ e.branch = b
  tells : ∀ e ∈ event, e.newVersion = row.version ∧ e.newHead = row.head
  forward : ∀ e ∈ event, ∀ h, e.oldHead = some h → d.rows.Parent row.head h
  after : d'.moving =
    ({ d.setRef g b row with refEvents := d.refEvents ++ event.toList } : Db).moving

inductive RefStep (d d' : Db) : Prop
  | still (same : d'.moving = d.moving)
  | published (rows : d.rows.Extends d'.rows) (derived : d'.rows.Derived) (refs : d'.refs = d.refs)
      (events : d'.refEvents = d.refEvents) (merges : ∀ m ∈ d'.mergeProposals,
        m ∈ d.mergeProposals ∨ d'.rows.Parent m.candidate m.targetHead)
  | moved (g : GraphId) (b : String) (row : RefRow) (event : Option RefEventRow)
      (move : RefMove d d' g b row event)

namespace RefMove

variable {d d' : Db} {g : GraphId} {b : String} {row : RefRow} {event : Option RefEventRow}

theorem of_event {e : RefEventRow} (hversion : row.version = (d.refs g b).elim 1 (·.version + 1))
    (hon : e.graphId = g ∧ e.branch = b) (htells : e.newVersion = row.version ∧ e.newHead = row.head)
    (hforward : ∀ h, e.oldHead = some h → d.rows.Parent row.head h)
    (hafter : d'.moving =
      ({ d.setRef g b row with refEvents := d.refEvents ++ [e] } : Db).moving) :
    RefMove d d' g b row (some e) where
  version := hversion
  on _ hx := Option.some.inj hx ▸ hon
  tells _ hx := Option.some.inj hx ▸ htells
  forward _ hx := Option.some.inj hx ▸ hforward
  after := hafter

theorem refs_self (h : RefMove d d' g b row event) : d'.refs g b = some row := by
  rw [(Db.moving_eq h.after).2.1]
  simp [Db.setRef]

theorem refs_ne (h : RefMove d d' g b row event) {g' : GraphId} {b' : String}
    (hne : ¬ (g' = g ∧ b' = b)) : d'.refs g' b' = d.refs g' b' := by
  rw [(Db.moving_eq h.after).2.1]
  exact if_neg hne

theorem eventsOf_self (h : RefMove d d' g b row event) :
    d'.eventsOf g b = d.eventsOf g b ++ event.toList := by
  have hevents := (Db.moving_eq h.after).2.2.1
  simp only [Db.eventsOf, hevents, List.filter_append]
  congr 1
  refine List.filter_eq_self.mpr fun e he => ?_
  simpa using h.on e (by simpa using he)

theorem eventsOf_ne (h : RefMove d d' g b row event) {g' : GraphId} {b' : String}
    (hne : ¬ (g' = g ∧ b' = b)) : d'.eventsOf g' b' = d.eventsOf g' b' := by
  have hevents := (Db.moving_eq h.after).2.2.1
  have hnone : event.toList.filter (fun e => e.graphId = g' ∧ e.branch = b') = [] := by
    refine List.filter_eq_nil_iff.mpr fun e he => ?_
    obtain ⟨hg, hb⟩ := h.on e (by simpa using he)
    have hother : ¬ (e.graphId = g' ∧ e.branch = b') := fun hon =>
      hne ⟨hon.1.symm.trans hg, hon.2.symm.trans hb⟩
    simpa using hother
  simp only [Db.eventsOf, hevents, List.filter_append, hnone, List.append_nil]

theorem stable (h : RefMove d d' g b row event) {l : LockName} (hl : l ≠ .ref g b) :
    movesDiscipline.Stable l d d' := by
  have hrows : d'.rows = d.rows := (Db.moving_eq h.after).1
  cases l with
  | ref g' b' =>
      have hne : ¬ (g' = g ∧ b' = b) := fun hon => hl (by rw [hon.1, hon.2])
      exact ⟨h.refs_ne hne, h.eventsOf_ne hne⟩
  | row k => cases k <;> simp only [movesDiscipline, Db.MovesStable, Db.Stable, SameAt, hrows]
  | _ => trivial

theorem onward (h : RefMove d d' g b row event) : d.MovesOn d' := by
  refine ⟨by rw [(Db.moving_eq h.after).1]; exact .refl _, fun g' b' r hr => ?_⟩
  by_cases hon : g' = g ∧ b' = b
  · obtain ⟨rfl, rfl⟩ := hon
    have hversion := h.version
    rw [hr, Option.elim_some] at hversion
    exact ⟨row, h.refs_self, by omega, fun hv => by omega⟩
  · exact ⟨r, (h.refs_ne hon).trans hr, le_rfl, fun _ => rfl⟩

theorem version_lt (h : RefMove d d' g b row event) (hd : d.MovesOk) {e : RefEventRow}
    (he : e ∈ d.eventsOf g b) : e.newVersion < row.version := by
  obtain ⟨hmem, hg, hb⟩ : e ∈ d.refEvents ∧ e.graphId = g ∧ e.branch = b := by
    simpa [Db.eventsOf] using he
  obtain ⟨r, hr, htells⟩ := hd.told e hmem
  rw [hg, hb] at hr
  have hle := htells.version
  rw [h.version, hr, Option.elim_some]
  omega

theorem movesOk (h : RefMove d d' g b row event) (hd : d.MovesOk) : d'.MovesOk := by
  obtain ⟨hrows, -, hevents, hmerges⟩ := Db.moving_eq h.after
  have hrows : d'.rows = d.rows := hrows
  have hevents : d'.refEvents = d.refEvents ++ event.toList := hevents
  have hmerges : d'.mergeProposals = d.mergeProposals := hmerges
  refine ⟨hrows ▸ hd.rows, fun e he => ?_, fun g' b' => ?_, fun e he x hx => ?_, fun m hm => ?_⟩
  · rw [hevents, List.mem_append] at he
    rcases he with he | he
    · obtain ⟨r, hr, htells⟩ := hd.told e he
      by_cases hon : e.graphId = g ∧ e.branch = b
      · obtain ⟨rfl, rfl⟩ := hon
        have hlt : e.newVersion < row.version :=
          h.version_lt hd (List.mem_filter.mpr ⟨he, by simp⟩)
        exact ⟨row, h.refs_self, ⟨hlt.le, fun hv => absurd hv hlt.ne⟩⟩
      · exact ⟨r, (h.refs_ne hon).trans hr, htells⟩
    · have he : e ∈ event := by simpa using he
      obtain ⟨rfl, rfl⟩ := h.on e he
      obtain ⟨hversion, hhead⟩ := h.tells e he
      exact ⟨row, h.refs_self, ⟨hversion.le, fun _ => hhead⟩⟩
  · by_cases hon : g' = g ∧ b' = b
    · obtain ⟨rfl, rfl⟩ := hon
      rw [h.eventsOf_self, List.map_append]
      refine List.nodup_append.mpr ⟨hd.versions g' b', ?_, fun x hx y hy => ?_⟩
      · cases event <;> simp
      · obtain ⟨e, he, rfl⟩ := List.mem_map.mp hx
        obtain ⟨e', he', rfl⟩ := List.mem_map.mp hy
        rw [(h.tells e' (by simpa using he')).1]
        exact (h.version_lt hd he).ne
    · rw [h.eventsOf_ne hon]
      exact hd.versions g' b'
  · rw [hrows]
    rw [hevents, List.mem_append] at he
    rcases he with he | he
    · exact hd.forwards e he x hx
    · have he : e ∈ event := by simpa using he
      rw [(h.tells e he).2]
      exact parent_mem_ancestors (h.forward e he x hx)
  · rw [hrows]
    exact hd.merges m (hmerges ▸ hm)

end RefMove

theorem RefStep.keeps {d d' : Db} (h : RefStep d d') (hd : d.MovesOk) :
    d'.MovesOk ∧ d.MovesOn d' := by
  cases h with
  | still same =>
      obtain ⟨hrows, hrefs, hevents, hmerges⟩ := Db.moving_eq same
      refine ⟨⟨hrows ▸ hd.rows, ?_, ?_, ?_, ?_⟩, hrows ▸ .refl _, fun g b r hr => ?_⟩
      · rw [hevents, hrefs]
        exact hd.told
      · simp only [Db.eventsOf, hevents]
        exact hd.versions
      · rw [hevents, hrows]
        exact hd.forwards
      · rw [hmerges, hrows]
        exact hd.merges
      · exact ⟨r, by rw [hrefs, hr], le_rfl, fun _ => rfl⟩
  | published rows derived refs events merges =>
      refine ⟨⟨derived, ?_, ?_, ?_, fun m hm => ?_⟩, rows, fun g b r hr => ?_⟩
      · rw [events, refs]
        exact hd.told
      · simp only [Db.eventsOf, events]
        exact hd.versions
      · rw [events]
        exact fun e he x hx => hd.rows.ancestors_grow rows _ (hd.forwards e he x hx)
      · exact (merges m hm).elim (fun hold => hd.rows.parent_grow rows (hd.merges m hold)) id
      · exact ⟨r, by rw [refs, hr], le_rfl, fun _ => rfl⟩
  | moved g b row event move => exact ⟨move.movesOk hd, move.onward⟩

/-! ## Chains of events -/

section Chain

variable {d : Db} {g : GraphId} {b : String} {headThen : CommitId} {fromVersion toVersion : ℕ}

theorem Db.MovesOk.exists_event (hd : d.MovesOk)
    (h : movedByAuditedFastForwards (d.eventsOf g b) headThen fromVersion toVersion = true)
    {v : ℕ} (hlow : fromVersion < v) (hhigh : v ≤ toVersion) :
    ∃ e ∈ d.eventsOf g b, e.newVersion = v := by
  simp only [movedByAuditedFastForwards, Bool.and_eq_true, decide_eq_true_eq] at h
  obtain ⟨⟨-, hlength⟩, -⟩ := h
  set moved := (d.eventsOf g b).filter fun e =>
    fromVersion < e.newVersion ∧ e.newVersion ≤ toVersion
  have hnodup : (moved.map (·.newVersion)).Nodup :=
    (hd.versions g b).sublist (List.Sublist.map _ List.filter_sublist)
  have hsub : (moved.map (·.newVersion)).toFinset ⊆ Finset.Ioc fromVersion toVersion := by
    intro x hx
    obtain ⟨e, he, rfl⟩ := List.mem_map.mp (List.mem_toFinset.mp hx)
    have hrange := (List.mem_filter.mp he).2
    simpa using hrange
  have hall : (moved.map (·.newVersion)).toFinset = Finset.Ioc fromVersion toVersion := by
    refine Finset.eq_of_subset_of_card_le hsub ?_
    rw [List.toFinset_card_of_nodup hnodup, List.length_map, hlength, Nat.card_Ioc]
  have hv : v ∈ (moved.map (·.newVersion)).toFinset := by
    rw [hall]
    exact Finset.mem_Ioc.mpr ⟨hlow, hhigh⟩
  obtain ⟨e, he, rfl⟩ := List.mem_map.mp (List.mem_toFinset.mp hv)
  exact ⟨e, (List.mem_filter.mp he).1, rfl⟩

theorem Db.MovesOk.reached_of_chain (hd : d.MovesOk)
    (h : movedByAuditedFastForwards (d.eventsOf g b) headThen fromVersion toVersion = true)
    {e : RefEventRow} (he : e ∈ d.eventsOf g b) (hlow : fromVersion < e.newVersion)
    (hhigh : e.newVersion ≤ toVersion) : headThen ∈ ancestors d.rows.Parent e.newHead := by
  have hchained := h
  simp only [movedByAuditedFastForwards, Bool.and_eq_true, decide_eq_true_eq, List.all_eq_true,
    List.mem_filter] at hchained
  -- on the version of the event
  induction hv : e.newVersion generalizing e with
  | zero => omega
  | succ v ih =>
      have hold := hchained.2 e ⟨he, hlow, hhigh⟩
      have hmem : e ∈ d.refEvents := (List.mem_filter.mp he).1
      rw [hv, Nat.add_sub_cancel] at hold
      by_cases hfirst : fromVersion < v
      · obtain ⟨p, hp, hpv⟩ := hd.exists_event h hfirst (by omega : v ≤ toVersion)
        obtain ⟨q, hq⟩ : ∃ q, (d.eventsOf g b).find? (fun p => p.newVersion = v) = some q :=
          Option.isSome_iff_exists.mp (List.find?_isSome.mpr ⟨p, hp, by simpa using hpv⟩)
        have hqv : q.newVersion = v := by simpa using List.find?_some hq
        rw [if_pos hfirst, hq, Option.map_some, Option.getD_some] at hold
        refine ancestors_subset (hd.forwards e hmem _ hold) ?_
        exact ih (List.mem_of_find?_eq_some hq) (by omega) (by omega) hqv
      · rw [if_neg hfirst, Option.getD_none] at hold
        exact hd.forwards e hmem _ hold

/-- A head that was read without a lock is an ancestor of the current one, if the version is the
same or every move since was audited. -/
theorem Db.MovesOk.head_reached {d₁ : Db} (hd : d.MovesOk) (hon : d₁.MovesOn d) {ref source : RefRow}
    (href : d₁.refs g b = some ref) (hsource : d.refs g b = some source)
    (h : ref.version = source.version ∨
      movedByAuditedFastForwards (d.eventsOf g b) ref.head ref.version source.version = true) :
    ref.head ∈ ancestors d.rows.Parent source.head := by
  obtain ⟨r, hr, hle, hsame⟩ := hon.refs g b ref href
  obtain rfl := Option.some.inj (hsource.symm.trans hr)
  by_cases hversion : source.version = ref.version
  · rw [hsame hversion]
    exact self_mem_ancestors _
  · have hmoved := h.resolve_left fun hv => hversion hv.symm
    obtain ⟨e, he, hev⟩ := hd.exists_event hmoved (by omega) (le_refl source.version)
    obtain ⟨hmem, hg, hb⟩ : e ∈ d.refEvents ∧ e.graphId = g ∧ e.branch = b := by
      simpa [Db.eventsOf] using he
    obtain ⟨r', hr', htells⟩ := hd.told e hmem
    rw [hg, hb] at hr'
    obtain rfl := Option.some.inj (hsource.symm.trans hr')
    rw [← htells.head hev]
    exact hd.reached_of_chain hmoved he (by omega) (by omega)

end Chain

end CognitiveLedger
