import Mathlib.Data.Finset.Card
import Mathlib.Data.Finset.Union
import Mathlib.Data.Multiset.Bind
import Mathlib.Data.Multiset.Filter

/-!
# Update requests over RDF datasets

A dataset is a finite set of facts, each in one named graph or in the default
graph. A `GraphPattern` is a graph pattern with constants and variables; its solutions
under a binding form a multiset of extended bindings, so that `COUNT(*)` counts
solutions. An operation deletes and inserts what its templates become under the
solutions of its pattern, all computed from the dataset before it; a request
runs its operations in order.

Filters are evaluated in three values: `none` is a type error, which a filter
treats as false and `COALESCE` skips. `=` and `>=` depend on the literal types
an engine knows, so they are an operator table with the laws that hold in every
engine.
-/

namespace Sparql

variable {V : Type} [DecidableEq V]

/-! ## Terms and datasets -/

inductive Resource
  | iri (value : String)
  | blank (label : String)
  deriving DecidableEq

/-- An RDF term; a plain literal is typed `xsd:string`. -/
inductive Term
  | resource (r : Resource)
  | typed (value datatype : String)
  | tagged (value language : String)
  deriving DecidableEq

@[match_pattern]
abbrev Term.iri (value : String) : Term := .resource (.iri value)

def xsdInteger : String := "http://www.w3.org/2001/XMLSchema#integer"
def xsdString : String := "http://www.w3.org/2001/XMLSchema#string"

def Term.integer (n : ℤ) : Term := .typed (toString n) xsdInteger

structure Triple where
  subject : Resource
  predicate : String
  object : Term
  deriving DecidableEq

/-- A triple of the default graph (`none`) or of a named one. -/
structure Fact where
  graph : Option String
  triple : Triple
  deriving DecidableEq

abbrev Dataset := Finset Fact

/-! ## Patterns -/

inductive Node (V : Type)
  | const (t : Term)
  | var (v : V)

structure TriplePattern (V : Type) where
  subject : Node V
  predicate : Node V
  object : Node V

abbrev Binding (V : Type) := V → Option Term

def Binding.empty : Binding V := fun _ => none

def Node.unify (t : Term) (μ : Binding V) : Node V → Option (Binding V)
  | const c => if c = t then some μ else none
  | var v => match μ v with
    | none => some (Function.update μ v (some t))
    | some t' => if t' = t then some μ else none

def Node.value (μ : Binding V) : Node V → Option Term
  | const t => some t
  | var v => μ v

def TriplePattern.unify (p : TriplePattern V) (t : Triple) (μ : Binding V) : Option (Binding V) :=
  do
    let μ ← p.subject.unify (.resource t.subject) μ
    let μ ← p.predicate.unify (.iri t.predicate) μ
    p.object.unify t.object μ

/-- The operators whose result depends on the literal types an engine knows. -/
class Operators where
  equal : Term → Term → Option Bool
  atLeast : Term → Term → Option Bool
  equal_iri : ∀ a b, equal (.iri a) (.iri b) = some (decide (a = b))
  atLeast_integer : ∀ m n : ℤ, atLeast (.integer m) (.integer n) = some (decide (n ≤ m))

inductive Expr (V : Type)
  | bool (b : Bool)
  | equal (a b : Node V)
  | sameTerm (a b : Node V)
  | atLeast (a b : Node V)
  | not (e : Expr V)
  | and (a b : Expr V)
  | or (a b : Expr V)
  | coalesce (a b : Expr V)

def errorAnd : Option Bool → Option Bool → Option Bool
  | some a, some b => some (a && b)
  | some false, none => some false
  | none, some false => some false
  | _, _ => none

def errorOr : Option Bool → Option Bool → Option Bool
  | some a, some b => some (a || b)
  | some true, none => some true
  | none, some true => some true
  | _, _ => none

def Expr.eval [Operators] (μ : Binding V) : Expr V → Option Bool
  | bool b => some b
  | equal a b => do Operators.equal (← a.value μ) (← b.value μ)
  | sameTerm a b => do return decide ((← a.value μ) = (← b.value μ))
  | atLeast a b => do Operators.atLeast (← a.value μ) (← b.value μ)
  | not e => (e.eval μ).map (!·)
  | and a b => errorAnd (a.eval μ) (b.eval μ)
  | or a b => errorOr (a.eval μ) (b.eval μ)
  | coalesce a b => (a.eval μ).or (b.eval μ)

/-- The disjunction of some tests. -/
def Expr.anyOf : List (Expr V) → Expr V
  | [] => .bool false
  | [e] => e
  | e :: es => .or e (anyOf es)

inductive GraphPattern (V : Type)
  | unit
  /-- `GRAPH <name> { triples }` -/
  | graph (name : String) (triples : List (TriplePattern V))
  | join (a b : GraphPattern V)
  | filter (a : GraphPattern V) (e : Expr V)
  /-- `a FILTER NOT EXISTS { b }` -/
  | notExists (a b : GraphPattern V)
  /-- `{ SELECT (COUNT(*) AS ?v) WHERE { a } }` -/
  | count (v : V) (a : GraphPattern V)

def Dataset.graph (d : Dataset) (name : String) : Finset Triple :=
  (d.filter fun f => f.graph = some name).image Fact.triple

def TriplePattern.solutions (ts : Finset Triple) (p : TriplePattern V) (μ : Binding V) :
    Multiset (Binding V) :=
  ts.val.filterMap fun t => p.unify t μ

def GraphPattern.eval [Operators] (d : Dataset) : GraphPattern V → Binding V → Multiset (Binding V)
  | unit, μ => {μ}
  | graph name triples, μ =>
      triples.foldl (fun Ω p => Ω.bind (p.solutions (d.graph name))) {μ}
  | join a b, μ => (a.eval d μ).bind (b.eval d)
  | filter a e, μ => (a.eval d μ).filter fun ν => e.eval ν = some true
  | notExists a b, μ => (a.eval d μ).filter fun ν => (b.eval d ν).card = 0
  | count v a, μ => match (Node.var v).unify (.integer (a.eval d .empty).card) μ with
    | some ν => {ν}
    | none => 0

/-! ## Operations -/

structure Template (V : Type) where
  graph : String
  triple : TriplePattern V

/-- The fact a template becomes; an unbound variable or a literal where RDF has none gives
nothing. -/
def Template.instantiate (t : Template V) (μ : Binding V) : Option Fact :=
  match t.triple.subject.value μ, t.triple.predicate.value μ, t.triple.object.value μ with
  | some (.resource s), some (.iri p), some o => some ⟨some t.graph, s, p, o⟩
  | _, _, _ => none

/-- `DELETE { delete } INSERT { insert } WHERE { pattern }` -/
structure Update (V : Type) where
  delete : List (Template V) := []
  insert : List (Template V) := []
  pattern : GraphPattern V

def produced (templates : List (Template V)) (Ω : Multiset (Binding V)) : Finset Fact :=
  (Ω.bind fun μ => (templates.filterMap (·.instantiate μ) : Multiset Fact)).toFinset

def Update.exec [Operators] (op : Update V) (d : Dataset) : Dataset :=
  let Ω := op.pattern.eval d .empty
  (d \ produced op.delete Ω) ∪ produced op.insert Ω

def exec [Operators] (ops : List (Update V)) (d : Dataset) : Dataset :=
  ops.foldl (fun d op => op.exec d) d

/-! ## Matching -/

theorem Node.unify_eq_some {n : Node V} {t : Term} {μ ν : Binding V} (h : n.unify t μ = some ν) :
    n.value ν = some t ∧ ∀ v u, μ v = some u → ν v = some u := by
  cases n with
  | const c =>
      simp only [unify] at h
      split at h
      · cases h
        exact ⟨congrArg some ‹c = t›, fun _ _ hu => hu⟩
      · cases h
  | var v =>
      simp only [unify] at h
      split at h
      · rename_i hfree
        cases h
        refine ⟨Function.update_self .., fun w u hu => ?_⟩
        rw [Function.update_of_ne, hu]
        rintro rfl
        rw [hfree] at hu
        cases hu
      · rename_i t' hbound
        split at h
        · cases h
          exact ⟨hbound.trans (congrArg some ‹t' = t›), fun _ _ hu => hu⟩
        · cases h

omit [DecidableEq V] in
theorem Node.value_mono {n : Node V} {μ ν : Binding V} (h : ∀ v u, μ v = some u → ν v = some u)
    {t : Term} (ht : n.value μ = some t) : n.value ν = some t := by
  cases n with
  | const c => exact ht
  | var v => exact h v t ht

theorem TriplePattern.instantiate_of_unify {p : TriplePattern V} {t : Triple} {μ ν : Binding V}
    (h : p.unify t μ = some ν) (name : String) :
    Template.instantiate ⟨name, p⟩ ν = some ⟨some name, t⟩ := by
  simp only [unify, Option.bind_eq_bind, Option.bind_eq_some_iff] at h
  obtain ⟨μ₁, hs, μ₂, hp, ho⟩ := h
  obtain ⟨hs, hs'⟩ := Node.unify_eq_some hs
  obtain ⟨hp, hp'⟩ := Node.unify_eq_some hp
  obtain ⟨ho, ho'⟩ := Node.unify_eq_some ho
  have hsubject := Node.value_mono (fun v u hu => ho' v u (hp' v u hu)) hs
  have hpredicate := Node.value_mono ho' hp
  simp only [Template.instantiate, hsubject, hpredicate, ho]

def TriplePattern.Matches (p : TriplePattern V) (t : Triple) : Prop :=
  (p.unify t .empty).isSome

section

variable {s p : String} {u v w : V} {t : Triple}

/-- `<s> <p> ?v` -/
theorem unify_objects :
    (⟨.const (.iri s), .const (.iri p), .var v⟩ : TriplePattern V).unify t .empty =
      if t.subject = .iri s ∧ t.predicate = p then
        some (Function.update Binding.empty v (some t.object)) else none := by
  simp only [TriplePattern.unify, Node.unify]
  by_cases hs : t.subject = .iri s <;> by_cases hp : t.predicate = p <;>
    simp_all [eq_comm, Binding.empty]

/-- `<s> ?v ?w` -/
theorem unify_statements (hvw : v ≠ w) :
    (⟨.const (.iri s), .var v, .var w⟩ : TriplePattern V).unify t .empty =
      if t.subject = .iri s then
        some (Function.update (Function.update Binding.empty v (some (.iri t.predicate))) w
          (some t.object)) else none := by
  simp only [TriplePattern.unify, Node.unify]
  by_cases hs : t.subject = .iri s
  · simp [hs, Binding.empty, hvw.symm]
  · have hne : ¬ (Term.iri s = .resource t.subject) := fun h => hs (Term.resource.inj h).symm
    simp [hs, hne]

/-- `?u ?v ?w` -/
theorem unify_all (huv : u ≠ v) (huw : u ≠ w) (hvw : v ≠ w) :
    (⟨.var u, .var v, .var w⟩ : TriplePattern V).unify t .empty =
      some (Function.update (Function.update (Function.update Binding.empty u
        (some (.resource t.subject))) v (some (.iri t.predicate))) w (some t.object)) := by
  simp [TriplePattern.unify, Node.unify, Binding.empty, huv.symm, huw.symm, hvw.symm]

theorem matches_objects :
    (⟨.const (.iri s), .const (.iri p), .var v⟩ : TriplePattern V).Matches t ↔
      t.subject = .iri s ∧ t.predicate = p := by
  rw [TriplePattern.Matches, unify_objects]
  split <;> simp_all

theorem matches_statements (hvw : v ≠ w) :
    (⟨.const (.iri s), .var v, .var w⟩ : TriplePattern V).Matches t ↔ t.subject = .iri s := by
  rw [TriplePattern.Matches, unify_statements hvw]
  split <;> simp_all

theorem matches_all (huv : u ≠ v) (huw : u ≠ w) (hvw : v ≠ w) :
    (⟨.var u, .var v, .var w⟩ : TriplePattern V).Matches t := by
  rw [TriplePattern.Matches, unify_all huv huw hvw]
  rfl

end

/-! ## Patterns without variables -/

def Triple.ground (t : Triple) : TriplePattern V :=
  ⟨.const (.resource t.subject), .const (.iri t.predicate), .const t.object⟩

theorem Triple.unify_ground (t u : Triple) (μ : Binding V) :
    t.ground.unify u μ = if u = t then some μ else none := by
  obtain ⟨s, p, o⟩ := t
  obtain ⟨s', p', o'⟩ := u
  simp only [Triple.ground, TriplePattern.unify, Node.unify, Term.resource.injEq,
    Resource.iri.injEq, Triple.mk.injEq]
  by_cases hs : s = s' <;> by_cases hp : p = p' <;> by_cases ho : o = o' <;>
    simp_all [eq_comm]

omit [DecidableEq V] in
theorem Triple.instantiate_ground (name : String) (t : Triple) (μ : Binding V) :
    Template.instantiate ⟨name, t.ground⟩ μ = some ⟨some name, t⟩ := rfl

theorem Triple.solutions_ground (ts : Finset Triple) (t : Triple) (μ : Binding V) :
    t.ground.solutions ts μ = if t ∈ ts then {μ} else 0 := by
  have hunify : (fun u => t.ground.unify u μ) =
      fun u => (Option.guard (fun u => decide (u = t)) u).map fun _ => μ := by
    funext u
    rw [t.unify_ground]
    by_cases hu : u = t <;> simp [Option.guard, hu]
  rw [TriplePattern.solutions, hunify, ← Multiset.map_filterMap, Multiset.filterMap_eq_filter]
  simp only [Multiset.filter_eq', Multiset.map_replicate]
  split
  · rename_i hmem
    rw [Multiset.count_eq_one_of_mem ts.nodup hmem, Multiset.replicate_one]
  · rename_i hmem
    rw [Multiset.count_eq_zero_of_notMem hmem, Multiset.replicate_zero]

theorem foldl_solutions_ground (ts : Finset Triple) (l : List Triple) (μ : Binding V) :
    (l.map Triple.ground).foldl (fun (Ω : Multiset (Binding V)) p => Ω.bind (p.solutions ts)) {μ} =
      if ∀ t ∈ l, t ∈ ts then {μ} else 0 := by
  induction l with
  | nil => simp
  | cons t l ih =>
      have hzero : ∀ ps : List (TriplePattern V),
          ps.foldl (fun (Ω : Multiset (Binding V)) p => Ω.bind (p.solutions ts)) 0 = 0 := fun ps => by
        induction ps with
        | nil => rfl
        | cons p ps ih => simpa using ih
      simp only [List.map_cons, List.foldl_cons, Multiset.singleton_bind, t.solutions_ground,
        List.forall_mem_cons]
      by_cases ht : t ∈ ts
      · simp [ht, ih]
      · simp [ht, hzero]

/-! ## What an operation changes -/

omit [DecidableEq V] in
theorem mem_produced {templates : List (Template V)} {Ω : Multiset (Binding V)} {f : Fact} :
    f ∈ produced templates Ω ↔ ∃ μ ∈ Ω, ∃ t ∈ templates, t.instantiate μ = some f := by
  simp [produced, Multiset.mem_bind, List.mem_filterMap]

theorem Dataset.mem_graph {d : Dataset} {name : String} {t : Triple} :
    t ∈ d.graph name ↔ (⟨some name, t⟩ : Fact) ∈ d := by
  constructor
  · intro h
    obtain ⟨⟨graph, t'⟩, hf, rfl⟩ := Finset.mem_image.mp h
    obtain ⟨hmem, rfl⟩ := Finset.mem_filter.mp hf
    exact hmem
  · intro h
    exact Finset.mem_image.mpr ⟨_, Finset.mem_filter.mpr ⟨h, rfl⟩, rfl⟩

section

variable [Operators] {d : Dataset} {μ ν : Binding V}

theorem Update.mem_exec {op : Update V} {f : Fact} :
    f ∈ op.exec d ↔
      (f ∈ d ∧ ¬ ∃ μ ∈ op.pattern.eval d .empty, ∃ t ∈ op.delete, t.instantiate μ = some f) ∨
        ∃ μ ∈ op.pattern.eval d .empty, ∃ t ∈ op.insert, t.instantiate μ = some f := by
  simp only [exec, Finset.mem_union, Finset.mem_sdiff, mem_produced]

theorem Update.exec_of_no_solution {op : Update V} (h : op.pattern.eval d .empty = 0) :
    op.exec d = d := by
  ext f
  simp [mem_exec, h]

@[simp]
theorem exec_nil : exec ([] : List (Update V)) d = d := rfl

@[simp]
theorem exec_cons (op : Update V) (ops : List (Update V)) :
    exec (op :: ops) d = exec ops (op.exec d) := rfl

theorem exec_append (ops ops' : List (Update V)) :
    exec (ops ++ ops') d = exec ops' (exec ops d) := List.foldl_append

/-! ## Solutions of groups -/

namespace GraphPattern

theorem mem_eval_graph {name : String} {p : TriplePattern V} :
    ν ∈ (graph name [p]).eval d μ ↔ ∃ t ∈ d.graph name, p.unify t μ = some ν := by
  simp [eval, TriplePattern.solutions, Multiset.mem_filterMap]

theorem eval_ground (name : String) (l : List Triple) :
    (graph name (l.map Triple.ground)).eval d μ =
      if ∀ t ∈ l, t ∈ d.graph name then {μ} else 0 :=
  foldl_solutions_ground _ _ _

/-- A group that needs a fact has the solutions of the rest, or none. -/
theorem eval_join_ground (name : String) (t : Triple) (a : GraphPattern V) :
    (join (graph name [t.ground]) a).eval d μ = if t ∈ d.graph name then a.eval d μ else 0 := by
  have hground := eval_ground (d := d) (μ := μ) name [t]
  simp only [List.map_cons, List.map_nil, List.forall_mem_singleton] at hground
  rw [eval, hground]
  split <;> simp

theorem eval_notExists (a b : GraphPattern V) :
    (notExists a b).eval d μ = (a.eval d μ).filter fun ν => ∀ ν', ν' ∉ b.eval d ν := by
  refine Multiset.filter_congr fun ν _ => ?_
  rw [Multiset.card_eq_zero, Multiset.eq_zero_iff_forall_notMem]

theorem mem_eval_filter {a : GraphPattern V} {e : Expr V} :
    ν ∈ (filter a e).eval d μ ↔ ν ∈ a.eval d μ ∧ e.eval ν = some true :=
  Multiset.mem_filter

def Tests (a : GraphPattern V) (d : Dataset) (P : Prop) : Prop :=
  (P → a.eval d .empty = {Binding.empty}) ∧ (¬ P → a.eval d .empty = 0)

variable {P Q : Prop} {a b : GraphPattern V}

theorem Tests.congr (h : a.Tests d P) (hPQ : P ↔ Q) : a.Tests d Q :=
  ⟨fun hQ => h.1 (hPQ.mpr hQ), fun hQ => h.2 fun hP => hQ (hPQ.mp hP)⟩

theorem tests_unit : (unit : GraphPattern V).Tests d True :=
  ⟨fun _ => rfl, fun h => absurd trivial h⟩

theorem tests_ground (name : String) (l : List Triple) :
    (graph name (l.map Triple.ground) : GraphPattern V).Tests d (∀ t ∈ l, t ∈ d.graph name) :=
  ⟨fun h => (eval_ground name l).trans (if_pos h), fun h => (eval_ground name l).trans (if_neg h)⟩

theorem Tests.notExists (h : a.Tests d P) :
    (notExists a b).Tests d (P ∧ ∀ ν, ν ∉ b.eval d .empty) := by
  constructor
  · rintro ⟨hP, hb⟩
    rw [eval_notExists, h.1 hP, Multiset.filter_singleton, if_pos hb]
  · intro hnot
    by_cases hP : P
    · have hb : ¬ ∀ ν, ν ∉ b.eval d .empty := fun hb => hnot ⟨hP, hb⟩
      rw [eval_notExists, h.1 hP, Multiset.filter_singleton, if_neg hb]
      rfl
    · rw [eval_notExists, h.2 hP, Multiset.filter_zero]

theorem card_eval_all {name : String} {s p o : V} (hsp : s ≠ p) (hso : s ≠ o) (hpo : p ≠ o) :
    ((graph name [⟨.var s, .var p, .var o⟩]).eval d .empty).card = (d.graph name).card := by
  have hunify : (fun t => (⟨.var s, .var p, .var o⟩ : TriplePattern V).unify t .empty) =
      some ∘ fun t => Function.update (Function.update (Function.update Binding.empty s
        (some (.resource t.subject))) p (some (.iri t.predicate))) o (some t.object) := by
    funext t
    exact unify_all hsp hso hpo
  simp only [eval, List.foldl_cons, List.foldl_nil, Multiset.singleton_bind,
    TriplePattern.solutions, hunify, Multiset.filterMap_eq_map, Multiset.card_map]
  rfl

end GraphPattern

end

/-! ## Updates of one graph -/

section

variable [Operators] {d : Dataset}

theorem mem_exec_delete {name : String} {p : TriplePattern V} {f : Fact} :
    f ∈ Update.exec { delete := [⟨name, p⟩], pattern := .graph name [p] } d ↔
      f ∈ d ∧ ¬ (f.graph = some name ∧ p.Matches f.triple) := by
  simp only [Update.mem_exec, List.mem_singleton, exists_eq_left, GraphPattern.mem_eval_graph,
    List.not_mem_nil, false_and, exists_false, and_false, or_false]
  refine and_congr_right fun hf => not_congr ⟨?_, ?_⟩
  · rintro ⟨μ, ⟨t, ht, hμ⟩, hdeleted⟩
    rw [TriplePattern.instantiate_of_unify hμ] at hdeleted
    cases hdeleted
    exact ⟨rfl, Option.isSome_iff_exists.mpr ⟨μ, hμ⟩⟩
  · obtain ⟨graph, t⟩ := f
    rintro ⟨rfl, hmatch⟩
    obtain ⟨μ, hμ⟩ := Option.isSome_iff_exists.mp hmatch
    exact ⟨μ, ⟨t, Dataset.mem_graph.mpr hf, hμ⟩, TriplePattern.instantiate_of_unify hμ _⟩

/-- An update that needs a fact does nothing without it, and does its work with it. -/
theorem exec_join_ground (name : String) (t : Triple) (a : GraphPattern V)
    (delete insert : List (Template V)) :
    Update.exec ⟨delete, insert, .join (.graph name [t.ground]) a⟩ d =
      if t ∈ d.graph name then Update.exec ⟨delete, insert, a⟩ d else d := by
  split
  · rename_i ht
    simp only [Update.exec, GraphPattern.eval_join_ground, if_pos ht]
  · rename_i ht
    exact Update.exec_of_no_solution (by rw [GraphPattern.eval_join_ground, if_neg ht])

theorem mem_exec_insert {name : String} {triples : List Triple} {a : GraphPattern V} {f : Fact}
    {P : Prop} (ha : a.Tests d P) :
    f ∈ Update.exec { insert := triples.map fun t => ⟨name, t.ground⟩, pattern := a } d ↔
      f ∈ d ∨ P ∧ f.graph = some name ∧ f.triple ∈ triples := by
  by_cases hP : P
  · simp only [Update.mem_exec, ha.1 hP, Multiset.mem_singleton, exists_eq_left, List.not_mem_nil,
      false_and, exists_false, not_false_eq_true, and_true, List.mem_map, hP, true_and]
    refine or_congr_right ⟨?_, ?_⟩
    · rintro ⟨_, ⟨t, ht, rfl⟩, hf⟩
      cases hf
      exact ⟨rfl, ht⟩
    · obtain ⟨graph, t⟩ := f
      rintro ⟨rfl, ht⟩
      exact ⟨_, ⟨t, ht, rfl⟩, t.instantiate_ground _ _⟩
  · rw [Update.exec_of_no_solution (ha.2 hP)]
    simp [hP]

end

/-! ## Tests that cannot fail -/

section

variable [Operators] {μ : Binding V}

omit [DecidableEq V] in
theorem Expr.eval_not {e : Expr V} {b : Bool} (h : e.eval μ = some b) :
    (Expr.not e).eval μ = some !b := by
  rw [eval, h]
  rfl

omit [DecidableEq V] in
theorem Expr.eval_anyOf {α : Type} (l : List α) (e : α → Expr V) (test : α → Bool)
    (h : ∀ a, (e a).eval μ = some (test a)) :
    (Expr.anyOf (l.map e)).eval μ = some (l.any test) := by
  induction l with
  | nil => rfl
  | cons a l ih =>
      cases l with
      | nil => simpa [anyOf] using h a
      | cons b l =>
          change errorOr ((e a).eval μ) ((anyOf ((b :: l).map e)).eval μ) = _
          rw [h a, ih]
          rfl

end

end Sparql
