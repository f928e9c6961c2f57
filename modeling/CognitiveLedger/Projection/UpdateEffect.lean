import CognitiveLedger.Projection.Update

/-!
# What a guarded request does to a target

The operations of a request communicate through the token: the first two leave
either the token of this graph or none, and every data operation needs it. So a
request has one of two effects. If the precondition holds, a write makes the graph
the projected state and the marker subject the written marker with the target's own
count, and a fence changes only the write id; otherwise the graph and its marker
stay. Elsewhere nothing changes in either case, but for tokens, of which none
remains.
-/

namespace CognitiveLedger.Projection

open ExceptRules Sparql

section

variable {d : Dataset} {graph : CognitiveGraph} [Operators]

/-! ## The operations of a request -/

def IsToken (f : Fact) : Prop :=
  f.graph = some markerGraph ∧ f.triple.subject = .iri writeSubject ∧ f.triple.predicate = writeFor

theorem mem_exec_clear {f : Fact} : f ∈ clear.exec d ↔ f ∈ d ∧ ¬ IsToken f := by
  rw [clear, mem_exec_delete, matches_objects]
  rfl

theorem tests_token : (token graph).Tests d (tokenTriple graph ∈ d.graph markerGraph) :=
  (GraphPattern.tests_ground _ [_]).congr List.forall_mem_singleton

theorem exec_insertToken {guard : GraphPattern String} {P : Prop} (h : guard.Tests d P) :
    (P → (insertToken graph guard).exec d = insert ⟨some markerGraph, tokenTriple graph⟩ d) ∧
      (¬ P → (insertToken graph guard).exec d = d) := by
  have htoken : insertToken graph guard =
      { insert := [tokenTriple graph].map fun t => ⟨markerGraph, t.ground⟩, pattern := guard } := rfl
  have hinsert (f : Fact) : f ∈ (insertToken graph guard).exec d ↔
      f ∈ d ∨ P ∧ f.graph = some markerGraph ∧ f.triple ∈ [tokenTriple graph] := by
    rw [htoken, mem_exec_insert h]
  constructor
  · intro hP
    ext ⟨g, t⟩
    simp [hinsert, hP, or_comm]
  · intro hP
    ext f
    simp [hinsert, hP]

/-- An operation that does nothing unless the token is there. -/
def Gated (graph : CognitiveGraph) (op : Update String) : Prop :=
  ∀ d : Dataset, tokenTriple graph ∉ d.graph markerGraph → op.exec d = d

theorem gated_deleteUnder (name : String) (pattern : TriplePattern String) :
    Gated graph (deleteUnder graph name pattern) := fun d h => by
  rw [deleteUnder, token, exec_join_ground, if_neg h]

theorem gated_insertUnder (name : String) (triples : List Triple) :
    Gated graph (insertUnder graph name triples) := fun _ h =>
  Update.exec_of_no_solution (tests_token.2 h)

theorem gated_insertCount : Gated graph (insertCount graph) := fun d h => by
  rw [insertCount, token, exec_join_ground, if_neg h]

theorem exec_gated {ops : List (Update String)} (hops : ∀ op ∈ ops, Gated graph op)
    (h : tokenTriple graph ∉ d.graph markerGraph) : exec ops d = d := by
  induction ops with
  | nil => rfl
  | cons op ops ih =>
      rw [List.forall_mem_cons] at hops
      rw [exec_cons, hops.1 d h, ih hops.2]

/-- Clearing tokens leaves the statements about every cognitive graph. -/
theorem markerTriples_clear : markerTriples (clear.exec d) graph = markerTriples d graph := by
  ext t
  simp only [mem_markerTriples, mem_exec_clear]
  refine ⟨fun h => ⟨h.1.1, h.2⟩, fun h => ⟨⟨h.1, ?_⟩, h.2⟩⟩
  rintro ⟨-, hsubject, -⟩
  exact graph.asIri_ne_writeSubject (Resource.iri.inj (h.2.symm.trans hsubject))

theorem token_notMem_clear : tokenTriple graph ∉ (clear.exec d).graph markerGraph := by
  rw [Dataset.mem_graph, mem_exec_clear]
  exact fun h => h.2 ⟨rfl, rfl, rfl⟩

theorem exec_guarded {guard : GraphPattern String} {ops : List (Update String)} {P : Prop}
    (hguard : guard.Tests (clear.exec d) P) (hops : ∀ op ∈ ops, Gated graph op) :
    (P → exec (clear :: insertToken graph guard :: (ops ++ [clear])) d = clear.exec (exec ops
      (insert ⟨some markerGraph, tokenTriple graph⟩ (clear.exec d)))) ∧
    (¬ P → exec (clear :: insertToken graph guard :: (ops ++ [clear])) d = clear.exec d) := by
  constructor
  · intro hP
    rw [exec_cons, exec_cons, exec_append, (exec_insertToken hguard).1 hP]
    rfl
  · intro hP
    rw [exec_cons, exec_cons, exec_append, (exec_insertToken hguard).2 hP,
      exec_gated hops token_notMem_clear]
    ext f
    simp only [exec_cons, exec_nil, mem_exec_clear]
    exact ⟨fun h => h.1, fun h => ⟨h, h.2⟩⟩

/-! ## Operations under the token -/

/-- The statement that holds the target's count. -/
def countTriple (graph : CognitiveGraph) (n : ℕ) : Triple :=
  ⟨.iri graph.asIri, MarkerPredicate.tripleCount.iri, .integer n⟩

section

variable (htoken : (⟨some markerGraph, tokenTriple graph⟩ : Fact) ∈ d) {f : Fact}

include htoken

theorem mem_exec_deleteUnder {name : String} {pattern : TriplePattern String} :
    f ∈ (deleteUnder graph name pattern).exec d ↔
      f ∈ d ∧ ¬ (f.graph = some name ∧ pattern.Matches f.triple) := by
  rw [deleteUnder, token, exec_join_ground, if_pos (Dataset.mem_graph.mpr htoken), mem_exec_delete]

theorem mem_exec_insertUnder {name : String} {triples : List Triple} :
    f ∈ (insertUnder graph name triples).exec d ↔
      f ∈ d ∨ f.graph = some name ∧ f.triple ∈ triples := by
  rw [insertUnder, mem_exec_insert tests_token]
  simp [Dataset.mem_graph.mpr htoken]

theorem mem_exec_insertCount :
    f ∈ (insertCount graph).exec d ↔
      f ∈ d ∨ f = ⟨some markerGraph, countTriple graph (d.graph graph.asIri).card⟩ := by
  have hcount : (GraphPattern.count "n" (.graph graph.asIri [allTriples])).eval d .empty =
      {Function.update Binding.empty "n" (some (.integer (d.graph graph.asIri).card))} := by
    rw [GraphPattern.eval, allTriples, GraphPattern.card_eval_all (by decide) (by decide) (by decide)]
    rfl
  rw [insertCount, token, exec_join_ground, if_pos (Dataset.mem_graph.mpr htoken), Update.mem_exec,
    hcount]
  simp only [Multiset.mem_singleton, exists_eq_left, List.not_mem_nil, false_and, exists_false,
    not_false_eq_true, and_true, List.mem_singleton]
  refine or_congr_right ⟨fun h => ?_, fun h => ?_⟩
  · exact (Option.some.inj h).symm
  · rw [h]
    rfl

end

/-! ## What a request changes -/

def Framed (graph : CognitiveGraph) (d d' : Dataset) : Prop :=
  ∀ f : Fact, f.graph ≠ some graph.asIri →
    ¬ (f.graph = some markerGraph ∧ f.triple.subject = .iri graph.asIri) →
      (f ∈ d' ↔ f ∈ d ∧ ¬ IsToken f)

/-- The graph holds `content` and its marker subject `marker`. -/
structure Holds (graph : CognitiveGraph) (content marker : Finset Triple) (d : Dataset) : Prop where
  content : d.graph graph.asIri = content
  marker : markerTriples d graph = marker

/-- The data operations leave `content` in the graph, `marker` on its subject and the rest as it
was. -/
def Rewrites (graph : CognitiveGraph) (content marker : Finset Triple) (d d' : Dataset) : Prop :=
  (∀ t ∈ marker, t.subject = .iri graph.asIri) ∧ ∀ f : Fact, f ∈ d' ↔
    (f ∈ d ∧ f.graph ≠ some graph.asIri ∧
      ¬ (f.graph = some markerGraph ∧ f.triple.subject = .iri graph.asIri)) ∨
    (f.graph = some graph.asIri ∧ f.triple ∈ content) ∨ f.graph = some markerGraph ∧ f.triple ∈ marker

omit [Operators] in
theorem not_isToken_of_subject {name : Option String} {t : Triple}
    (h : t.subject = .iri graph.asIri) : ¬ IsToken ⟨name, t⟩ := fun htoken =>
  graph.asIri_ne_writeSubject (Resource.iri.inj (h.symm.trans htoken.2.1))

omit [Operators] in
theorem not_isToken_of_graph {t : Triple} : ¬ IsToken ⟨some graph.asIri, t⟩ := fun htoken =>
  graph.asIri_ne_markerGraph (Option.some.inj htoken.1)

theorem framed_clear : Framed graph d (clear.exec d) := fun _ _ _ => mem_exec_clear

theorem holds_clear :
    Holds graph (d.graph graph.asIri) (markerTriples d graph) (clear.exec d) := by
  refine ⟨?_, markerTriples_clear⟩
  ext t
  simp only [Dataset.mem_graph, mem_exec_clear]
  exact and_iff_left_of_imp fun _ => not_isToken_of_graph

/-- The dataset on which the data operations run. -/
def withToken (graph : CognitiveGraph) (d : Dataset) : Dataset :=
  insert ⟨some markerGraph, tokenTriple graph⟩ (clear.exec d)

theorem token_mem_withToken : (⟨some markerGraph, tokenTriple graph⟩ : Fact) ∈ withToken graph d :=
  Finset.mem_insert_self _ _

theorem mem_withToken {f : Fact} : f ∈ withToken graph d ∧ ¬ IsToken f ↔ f ∈ d ∧ ¬ IsToken f := by
  rw [withToken, Finset.mem_insert, mem_exec_clear]
  constructor
  · rintro ⟨rfl | h, hnot⟩
    · exact absurd ⟨rfl, rfl, rfl⟩ hnot
    · exact h
  · exact fun h => ⟨.inr h, h.2⟩

theorem Rewrites.clear {content marker : Finset Triple} {d' : Dataset}
    (h : Rewrites graph content marker (withToken graph d) d') :
    Holds graph content marker (clear.exec d') ∧ Framed graph d (clear.exec d') := by
  have hgraph : markerGraph ≠ graph.asIri := graph.asIri_ne_markerGraph.symm
  refine ⟨⟨?_, ?_⟩, fun f hg hsubject => ?_⟩
  · ext t
    simp [Dataset.mem_graph, mem_exec_clear, h.2, not_isToken_of_graph, hgraph.symm]
  · ext t
    simp only [mem_markerTriples, mem_exec_clear, h.2]
    constructor
    · rintro ⟨⟨⟨-, -, hnot⟩ | ⟨hg, -⟩ | ⟨-, ht⟩, -⟩, hsubject⟩
      · exact absurd ⟨trivial, hsubject⟩ hnot
      · exact absurd (Option.some.inj hg) hgraph
      · exact ht
    · intro ht
      exact ⟨⟨.inr (.inr ⟨trivial, ht⟩), not_isToken_of_subject (h.1 t ht)⟩, h.1 t ht⟩
  · rw [mem_exec_clear, h.2, ← mem_withToken]
    refine and_congr_left fun _ => ⟨?_, fun hf => .inl ⟨hf, hg, hsubject⟩⟩
    rintro (⟨hf, -⟩ | ⟨hg', -⟩ | ⟨hm, ht⟩)
    · exact hf
    · exact absurd hg' hg
    · exact absurd ⟨hm, h.1 _ ht⟩ hsubject

/-! ## Writes -/

variable [StatementReader]

def writtenMarker (graph : CognitiveGraph) (state : ProjectedState) (marker : ProjectionMarker) :
    Finset Triple :=
  insert (countTriple graph state.triples.toFinset.card) (marker.triples graph).toFinset

def writeOps (graph : CognitiveGraph) (state : ProjectedState) (marker : ProjectionMarker) :
    List (Update String) :=
  deleteUnder graph graph.asIri allTriples ::
    ((if state.statements.isEmpty then [] else [insertUnder graph graph.asIri state.triples]) ++
      [deleteUnder graph markerGraph ⟨.const (.iri graph.asIri), .var "mp", .var "mo"⟩,
        insertUnder graph markerGraph (marker.triples graph), insertCount graph])

variable {state : ProjectedState} {marker : ProjectionMarker}

theorem gated_writeOps : ∀ op ∈ writeOps graph state marker, Gated graph op := by
  simp only [writeOps, List.forall_mem_cons, List.forall_mem_append]
  refine ⟨gated_deleteUnder _ _, ?_, gated_deleteUnder _ _, gated_insertUnder _ _, gated_insertCount,
    by simp⟩
  split
  · simp
  · simpa using gated_insertUnder _ _

omit [Operators] in
theorem subject_of_mem_writtenMarker {t : Triple} (h : t ∈ writtenMarker graph state marker) :
    t.subject = .iri graph.asIri := by
  simp only [writtenMarker, ProjectionMarker.triples, Finset.mem_insert, List.mem_toFinset,
    List.mem_cons, List.not_mem_nil, or_false] at h
  rcases h with rfl | rfl | rfl | rfl | rfl | rfl | rfl | rfl <;> rfl

theorem rewrites_writeOps (htoken : (⟨some markerGraph, tokenTriple graph⟩ : Fact) ∈ d) :
    Rewrites graph state.triples.toFinset (writtenMarker graph state marker) d
      (exec (writeOps graph state marker) d) := by
  refine ⟨fun t => subject_of_mem_writtenMarker, fun f => ?_⟩
  have hgraph : markerGraph ≠ graph.asIri := graph.asIri_ne_markerGraph.symm
  have hsubject : (Resource.iri writeSubject) ≠ .iri graph.asIri := fun h =>
    graph.asIri_ne_writeSubject (Resource.iri.inj h).symm
  let d₂ := (deleteUnder graph graph.asIri allTriples).exec d
  have h₂ (f : Fact) : f ∈ d₂ ↔ f ∈ d ∧ f.graph ≠ some graph.asIri := by
    rw [mem_exec_deleteUnder htoken, allTriples]
    simp [matches_all]
  have htoken₂ : (⟨some markerGraph, tokenTriple graph⟩ : Fact) ∈ d₂ :=
    (h₂ _).mpr ⟨htoken, by simpa using hgraph⟩
  let d₃ := exec (if state.statements.isEmpty then [] else
    [insertUnder graph graph.asIri state.triples]) d₂
  have h₃ (f : Fact) : f ∈ d₃ ↔ f ∈ d₂ ∨ f.graph = some graph.asIri ∧ f.triple ∈ state.triples := by
    by_cases hempty : state.statements.isEmpty = true
    · have hnone : state.triples = [] := by
        rw [ProjectedState.triples, List.isEmpty_iff.mp hempty, List.map_nil]
      simp [d₃, hempty, hnone]
    · simp only [d₃, hempty]
      exact mem_exec_insertUnder htoken₂
  have htoken₃ : (⟨some markerGraph, tokenTriple graph⟩ : Fact) ∈ d₃ := (h₃ _).mpr (.inl htoken₂)
  let d₄ := (deleteUnder graph markerGraph ⟨.const (.iri graph.asIri), .var "mp", .var "mo"⟩).exec d₃
  have h₄ (f : Fact) : f ∈ d₄ ↔
      f ∈ d₃ ∧ ¬ (f.graph = some markerGraph ∧ f.triple.subject = .iri graph.asIri) := by
    rw [mem_exec_deleteUnder htoken₃, matches_statements (by decide)]
  have htoken₄ : (⟨some markerGraph, tokenTriple graph⟩ : Fact) ∈ d₄ :=
    (h₄ _).mpr ⟨htoken₃, fun h => hsubject h.2⟩
  let d₅ := (insertUnder graph markerGraph (marker.triples graph)).exec d₄
  have h₅ (f : Fact) : f ∈ d₅ ↔
      f ∈ d₄ ∨ f.graph = some markerGraph ∧ f.triple ∈ marker.triples graph :=
    mem_exec_insertUnder htoken₄
  have hcontent : d₅.graph graph.asIri = state.triples.toFinset := by
    ext t
    simp [Dataset.mem_graph, h₅, h₄, h₃, h₂, hgraph.symm]
  have hexec : exec (writeOps graph state marker) d = (insertCount graph).exec d₅ := by
    simp only [writeOps, exec_cons, exec_append, exec_nil]
    rfl
  rw [hexec, mem_exec_insertCount ((h₅ _).mpr (.inl htoken₄)), hcontent, h₅, h₄, h₃, h₂]
  obtain ⟨g, t⟩ := f
  simp only [writtenMarker, Finset.mem_insert, List.mem_toFinset, Fact.mk.injEq]
  by_cases hg : g = some graph.asIri
  · subst hg
    simp [hgraph.symm]
  · simp only [hg, false_and, or_false, ne_eq, not_false_eq_true, and_true, false_or]
    tauto

structure WriteEffect (graph : CognitiveGraph) (state : ProjectedState) (marker : ProjectionMarker)
    (mode : WriteMode) (expected : List (String × MarkerTerm)) (d d' : Dataset) : Prop where
  applied : Admits d graph expected mode marker.refVersion →
    Holds graph state.triples.toFinset (writtenMarker graph state marker) d'
  refused : ¬ Admits d graph expected mode marker.refVersion →
    Holds graph (d.graph graph.asIri) (markerTriples d graph) d'
  frame : Framed graph d d'

omit [StatementReader] in
theorem tests_writeGuard {guard : GraphPattern String} {expected : List (String × MarkerTerm)}
    (h : precondition graph expected = .ok guard) (mode : WriteMode) (version : ℤ) :
    (writeGuard graph guard mode version).Tests (clear.exec d)
      (Admits d graph expected mode version) := by
  have hclear : Admits (clear.exec d) graph expected mode version ↔
      Admits d graph expected mode version := by
    simp only [Admits, HoldsExactly, VersionsBelow, markerTriples_clear]
  refine GraphPattern.Tests.congr ?_ hclear
  cases mode with
  | conditional => exact (tests_versionRule (tests_precondition h) version).congr (by simp [Admits])
  | replace => exact (tests_precondition h).congr (by simp [Admits])

theorem writeUpdate_effect {mode : WriteMode} {expected : List (String × MarkerTerm)}
    {ops : List (Update String)} (h : writeUpdate graph state marker mode expected = .ok ops) :
    WriteEffect graph state marker mode expected d (exec ops d) := by
  obtain ⟨guard, hguard, h⟩ := bind_eq_ok.mp h
  have hops : ops = clear :: insertToken graph (writeGuard graph guard mode marker.refVersion) ::
      (writeOps graph state marker ++ [clear]) := by
    rw [← Except.ok.inj h, writeOps]
    simp
  have hrun := exec_guarded (tests_writeGuard hguard mode marker.refVersion) (d := d)
    (gated_writeOps : ∀ op ∈ writeOps graph state marker, Gated graph op)
  have hrewrites : Rewrites graph state.triples.toFinset (writtenMarker graph state marker)
      (withToken graph d) (exec (writeOps graph state marker) (withToken graph d)) :=
    rewrites_writeOps token_mem_withToken
  rw [hops]
  by_cases hadmits : Admits d graph expected mode marker.refVersion
  · rw [hrun.1 hadmits]
    exact ⟨fun _ => hrewrites.clear.1, fun h => absurd hadmits h, hrewrites.clear.2⟩
  · rw [hrun.2 hadmits]
    exact ⟨fun h => absurd h hadmits, fun _ => holds_clear, framed_clear⟩

/-! ## Fences -/

omit [StatementReader]

def writeIdTriple (graph : CognitiveGraph) (writeId : String) : Triple :=
  ⟨.iri graph.asIri, MarkerPredicate.writeId.iri, .typed writeId xsdString⟩

def fencedMarker (d : Dataset) (graph : CognitiveGraph) (writeId : String) : Finset Triple :=
  insert (writeIdTriple graph writeId)
    ((markerTriples d graph).filter fun t => t.predicate ≠ MarkerPredicate.writeId.iri)

def fenceOps (graph : CognitiveGraph) (writeId : String) : List (Update String) :=
  [deleteUnder graph markerGraph
      ⟨.const (.iri graph.asIri), .const (.iri MarkerPredicate.writeId.iri), .var "w"⟩,
    insertUnder graph markerGraph [writeIdTriple graph writeId]]

theorem gated_fenceOps {writeId : String} : ∀ op ∈ fenceOps graph writeId, Gated graph op := by
  simp only [fenceOps, List.forall_mem_cons]
  exact ⟨gated_deleteUnder _ _, gated_insertUnder _ _, by simp⟩

structure FenceEffect (graph : CognitiveGraph) (expected : List (String × MarkerTerm))
    (writeId : String) (d d' : Dataset) : Prop where
  applied : HoldsExactly d graph expected →
    Holds graph (d.graph graph.asIri) (fencedMarker d graph writeId) d'
  refused : ¬ HoldsExactly d graph expected →
    Holds graph (d.graph graph.asIri) (markerTriples d graph) d'
  frame : Framed graph d d'

theorem rewrites_fenceOps {writeId : String} :
    Rewrites graph (d.graph graph.asIri) (fencedMarker d graph writeId) (withToken graph d)
      (exec (fenceOps graph writeId) (withToken graph d)) := by
  have hgraph : markerGraph ≠ graph.asIri := graph.asIri_ne_markerGraph.symm
  have hsubject : (Resource.iri writeSubject) ≠ .iri graph.asIri := fun h =>
    graph.asIri_ne_writeSubject (Resource.iri.inj h).symm
  have hsame {f : Fact} (h : ¬ IsToken f) : f ∈ withToken graph d ↔ f ∈ d := by
    have hmem : f ∈ withToken graph d ∧ ¬ IsToken f ↔ f ∈ d ∧ ¬ IsToken f := mem_withToken
    simpa [h] using hmem
  let d₂ := (deleteUnder graph markerGraph
    ⟨.const (.iri graph.asIri), .const (.iri MarkerPredicate.writeId.iri), .var "w"⟩).exec
      (withToken graph d)
  have h₂ (f : Fact) : f ∈ d₂ ↔ f ∈ withToken graph d ∧ ¬ (f.graph = some markerGraph ∧
      f.triple.subject = .iri graph.asIri ∧ f.triple.predicate = MarkerPredicate.writeId.iri) := by
    rw [mem_exec_deleteUnder token_mem_withToken, matches_objects]
  have htoken₂ : (⟨some markerGraph, tokenTriple graph⟩ : Fact) ∈ d₂ :=
    (h₂ _).mpr ⟨token_mem_withToken, fun h => hsubject h.2.1⟩
  have hexec : exec (fenceOps graph writeId) (withToken graph d) =
      (insertUnder graph markerGraph [writeIdTriple graph writeId]).exec d₂ := rfl
  constructor
  · intro t ht
    rcases Finset.mem_insert.mp ht with rfl | ht
    · rfl
    · exact (mem_markerTriples.mp (Finset.mem_filter.mp ht).1).2
  · rintro ⟨g, t⟩
    rw [hexec, mem_exec_insertUnder htoken₂, h₂]
    simp only [fencedMarker, List.mem_singleton, Finset.mem_insert, Finset.mem_filter,
      mem_markerTriples, Dataset.mem_graph]
    by_cases hg : g = some graph.asIri
    · subst hg
      simp [hgraph.symm, hsame not_isToken_of_graph]
    · by_cases hs : g = some markerGraph ∧ t.subject = .iri graph.asIri
      · obtain ⟨rfl, hs⟩ := hs
        simp [hg, hs, hsame (not_isToken_of_subject hs), or_comm]
      · simp only [hg, false_and, ne_eq, not_false_eq_true, hs, and_true, false_or]
        tauto

theorem fenceUpdate_effect {expected : List (String × MarkerTerm)} {writeId : String}
    {ops : List (Update String)} (h : fenceUpdate graph expected writeId = .ok ops) :
    FenceEffect graph expected writeId d (exec ops d) := by
  obtain ⟨guard, hguard, h⟩ := bind_eq_ok.mp h
  have hops : ops = clear :: insertToken graph guard :: (fenceOps graph writeId ++ [clear]) :=
    (Except.ok.inj h).symm
  have htests : guard.Tests (clear.exec d) (HoldsExactly d graph expected) :=
    (tests_precondition hguard).congr (by simp only [HoldsExactly, markerTriples_clear])
  have hrun := exec_guarded htests (gated_fenceOps : ∀ op ∈ fenceOps graph writeId, Gated graph op)
  have hrewrites : Rewrites graph (d.graph graph.asIri) (fencedMarker d graph writeId)
      (withToken graph d) (exec (fenceOps graph writeId) (withToken graph d)) := rewrites_fenceOps
  rw [hops]
  by_cases hholds : HoldsExactly d graph expected
  · rw [hrun.1 hholds]
    exact ⟨fun _ => hrewrites.clear.1, fun h => absurd hholds h, hrewrites.clear.2⟩
  · rw [hrun.2 hholds]
    exact ⟨fun h => absurd h hholds, fun _ => holds_clear, framed_clear⟩

/-- Every request that can be written as an update, on every dataset: it replaces the graph and
its marker (a fence, only the write id), or leaves both; and it touches nothing else but tokens. -/
theorem requests_are_guarded [StatementReader] (graph : CognitiveGraph)
    (expected : List (String × MarkerTerm)) (d : Dataset) :
    (∀ state marker mode ops, writeUpdate graph state marker mode expected = .ok ops →
      WriteEffect graph state marker mode expected d (exec ops d)) ∧
    ∀ writeId ops, fenceUpdate graph expected writeId = .ok ops →
      FenceEffect graph expected writeId d (exec ops d) :=
  ⟨fun _ _ _ _ => writeUpdate_effect, fun _ _ => fenceUpdate_effect⟩

end

end CognitiveLedger.Projection
