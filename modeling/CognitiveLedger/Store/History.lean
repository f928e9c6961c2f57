import CognitiveLedger.Store.Invariant

/-!
# What the events of a branch say about its commits

Every head of a branch is an ancestor of the heads after it, so no commit is the
head twice. Every commit that a head reaches was proposed in the graph. The
versions of a branch count its events.
-/

namespace CognitiveLedger

open Lineage Logs

theorem exists_of_headIn {events : List RefEventRow} {g : GraphId} {b : String} {h : CommitId}
    (hh : headIn events g b = some h) :
    ∃ e ∈ events, e.graphId = g ∧ e.branch = b ∧ e.newHead = h := by
  obtain ⟨e, he, rfl⟩ := Option.map_eq_some_iff.mp hh
  obtain ⟨hmem, hg, hb⟩ := mem_of_lastIn he
  exact ⟨e, hmem, hg, hb, rfl⟩

theorem headIn_of_mem {events : List RefEventRow} {e : RefEventRow} (he : e ∈ events) :
    ∃ h, headIn events e.graphId e.branch = some h := by
  obtain ⟨x, hx⟩ := Option.isSome_iff_exists.mp (lastWhere_isSome he e.on_self)
  exact ⟨x.newHead, by rw [headIn, lastIn, hx]; rfl⟩

variable [Sha256] [TimeCrate] [StrDebug]
variable {d : Db} {events pre : List RefEventRow} {e : RefEventRow}

/-! ## One event -/

theorem EventOk.first_parent (h : EventOk d pre e) {old : CommitId}
    (hold : headIn pre e.graphId e.branch = some old) :
    (d.rows.parentsOf e.newHead).head? = some old := by
  have hfirst : lastIn pre e.graphId e.branch ≠ none := fun hnone => by simp [headIn, hnone] at hold
  cases h.moves with
  | genesis op main first root => exact absurd first hfirst
  | created op other first branch named current reached => exact absurd first hfirst
  | advance op last parents => rw [parents, ← hold, last]; rfl
  | merge op row onto last current parents => rw [parents, ← hold, last]; rfl

theorem EventOk.parent (h : EventOk d pre e) {old : CommitId}
    (hold : headIn pre e.graphId e.branch = some old) : d.rows.Parent e.newHead old :=
  ⟨h.inGraph.isSome, List.mem_of_head? (h.first_parent hold)⟩

theorem EventOk.parent_iff_of_parentsOf (h : EventOk d pre e) {parents : List CommitId}
    (hp : d.rows.parentsOf e.newHead = parents) (p : CommitId) :
    d.rows.Parent e.newHead p ↔ p ∈ parents := by
  rw [ImmutableRows.Parent, hp]
  exact and_iff_right h.inGraph.isSome

/-! ## All events -/

theorem Db.History.left {post : List RefEventRow} (h : d.History (events ++ post)) :
    d.History events := by
  intro a e b hsplit
  exact h a e (b ++ post) (by rw [hsplit]; simp)

theorem Db.History.append (h : d.History events) (he : EventOk d events e) :
    d.History (events ++ [e]) := by
  intro a x b hsplit
  rcases List.eq_nil_or_concat b with rfl | ⟨b', y, rfl⟩
  · obtain ⟨rfl, hx⟩ := List.append_inj' hsplit rfl
    rw [← List.singleton_inj.mp hx]
    exact he
  · have hlast : events ++ [e] = (a ++ x :: b') ++ [y] := by simpa using hsplit
    obtain ⟨rfl, -⟩ := List.append_inj' hlast rfl
    exact h a x b' rfl

theorem Db.History.reaches (h : d.History events) : ∀ e ∈ events,
    ∃ cur, headIn events e.graphId e.branch = some cur ∧
      e.newHead ∈ ancestors d.rows.Parent cur := by
  refine prefix_induction (P := fun l => ∀ e ∈ l, ∃ cur, headIn l e.graphId e.branch = some cur ∧
    e.newHead ∈ ancestors d.rows.Parent cur) events (by simp) fun pre a post hsplit ih e he => ?_
  by_cases hon : a.graphId = e.graphId ∧ a.branch = e.branch
  · refine ⟨a.newHead, by rw [← hon.1, ← hon.2, headIn_append_self], ?_⟩
    rcases List.mem_append.mp he with he | he
    · obtain ⟨cur, hcur, hreach⟩ := ih e he
      rw [← hon.1, ← hon.2] at hcur
      exact ancestors_subset (parent_mem_ancestors ((h pre a post hsplit).parent hcur)) hreach
    · rw [List.mem_singleton.mp he]
      exact self_mem_ancestors _
  · rw [headIn_append_ne hon]
    rcases List.mem_append.mp he with he | he
    · exact ih e he
    · exact absurd ⟨by rw [List.mem_singleton.mp he], by rw [List.mem_singleton.mp he]⟩ hon

theorem EventOk.newHead_ne [NQuadsParser] (hrows : d.rows.Sound) (hpre : d.History pre) (h : EventOk d pre e)
    {x : RefEventRow} (hx : x ∈ pre) (hon : x.graphId = e.graphId ∧ x.branch = e.branch) :
    x.newHead ≠ e.newHead := by
  intro heq
  obtain ⟨cur, hcur, hreach⟩ := hpre.reaches x hx
  rw [hon.1, hon.2] at hcur
  exact hrows.acyclic.notMem_ancestors (h.parent hcur) (heq ▸ hreach)

theorem Db.History.installed (h : d.History events) (c : CommitId) : ∀ e ∈ events,
    c ∈ ancestors d.rows.Parent e.newHead →
      ∃ x ∈ events, x.audited = true ∧ x.newHead = c ∧ x.graphId = e.graphId := by
  refine prefix_induction (P := fun l => ∀ e ∈ l, c ∈ ancestors d.rows.Parent e.newHead →
    ∃ x ∈ l, x.audited = true ∧ x.newHead = c ∧ x.graphId = e.graphId) events (by simp)
    fun pre a post hsplit ih e he hc => ?_
  have hearlier : ∀ y ∈ pre, c ∈ ancestors d.rows.Parent y.newHead →
      ∃ x ∈ pre ++ [a], x.audited = true ∧ x.newHead = c ∧ x.graphId = y.graphId := by
    intro y hy hcy
    obtain ⟨x, hx, hrest⟩ := ih y hy hcy
    exact ⟨x, List.mem_append_left _ hx, hrest⟩
  rcases List.mem_append.mp he with he | he
  · exact hearlier e he hc
  obtain rfl := List.mem_singleton.mp he
  have hok := h pre e post hsplit
  -- a head before the event, of any branch of the graph, is covered by the induction
  have hhead : ∀ b x, headIn pre e.graphId b = some x → c ∈ ancestors d.rows.Parent x →
      ∃ x ∈ pre ++ [e], x.audited = true ∧ x.newHead = c ∧ x.graphId = e.graphId := by
    intro b x hx hcx
    obtain ⟨y, hy, hg, -, rfl⟩ := exists_of_headIn hx
    exact hg ▸ hearlier y hy hcx
  have hself : e.audited = true → c = e.newHead →
      ∃ x ∈ pre ++ [e], x.audited = true ∧ x.newHead = c ∧ x.graphId = e.graphId := by
    rintro ha rfl
    exact ⟨e, List.mem_append_right _ (List.mem_singleton_self _), ha, rfl, rfl⟩
  cases hok.moves with
  | genesis op main first root =>
      rw [ancestors_of_no_parent fun p hp => by simpa [root] using hp.2] at hc
      exact hself (by simp [RefEventRow.audited, main]) hc
  | created op other first branch named current reached =>
      exact hhead _ _ current (ancestors_subset reached hc)
  | advance op last parents =>
      rw [ancestors_of_parent fun p => by
        rw [hok.parent_iff_of_parentsOf parents, List.mem_singleton]] at hc
      rcases hc with hc | hc
      · exact hself (by simp [RefEventRow.audited, op]) hc
      · exact hhead _ _ last hc
  | merge op row onto last current parents =>
      rw [ancestors_of_parents fun p => by
        rw [hok.parent_iff_of_parentsOf parents, List.mem_pair]] at hc
      rcases hc with hc | hc | hc
      · exact hself (by simp [RefEventRow.audited, op]) hc
      · exact hhead _ _ last hc
      · exact hhead _ _ current hc

theorem Db.History.proposed (h : d.History events) (c : CommitId) (e : RefEventRow)
    (he : e ∈ events) (hc : c ∈ ancestors d.rows.Parent e.newHead) :
    ∃ p ∈ d.proposals, p.candidateCommit = c ∧ p.graphId = e.graphId := by
  obtain ⟨x, hx, haudited, hnew, hg⟩ := h.installed c e he hc
  obtain ⟨pre, post, hsplit⟩ := List.append_of_mem hx
  obtain ⟨p, hp, hpc, hpg⟩ := (h pre x post hsplit).proposed haudited
  exact ⟨p, hp, hpc.trans hnew, hpg.trans hg⟩

end CognitiveLedger
