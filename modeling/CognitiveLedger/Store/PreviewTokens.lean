import CognitiveLedger.Core.Commit
import CognitiveLedger.Rdf.CanonicalText
import CognitiveLedger.Store.MergeWorkflow

/-!
# What a preview token stands for

The bytes under a token are fields with their lengths and single bytes in a fixed
order, so they can be read back. A token therefore names the branches, the heads,
the base and the way of the merge, and through the digest the merged state.
-/

namespace CognitiveLedger

open ExceptRules Reading

namespace PreviewIdentity

/-- The names of the branches are below `2 ^ 32` bytes. The other fields always are. -/
def Fits (p : PreviewIdentity) : Prop :=
  p.sourceBranch.utf8ByteSize < 2 ^ 32 ∧ p.targetBranch.utf8ByteSize < 2 ^ 32

structure SameMerge (p p' : PreviewIdentity) : Prop where
  graph : p.graph = p'.graph
  sourceBranch : p.sourceBranch = p'.sourceBranch
  sourceHead : p.sourceHead = p'.sourceHead
  targetBranch : p.targetBranch = p'.targetBranch
  targetHead : p.targetHead = p'.targetHead
  mergeBase : p.mergeBase = p'.mergeBase
  classification : p.classification = p'.classification
  strategy : p.classification = .divergent → p.strategy = p'.strategy
  mergedStateDigest : p.mergedStateDigest = p'.mergedStateDigest

end PreviewIdentity

theorem Classification.code_injective : Function.Injective Classification.code := by
  intro c c' h
  cases c <;> cases c' <;> first | rfl | cases h

theorem Strategy.code_injective : Function.Injective Strategy.code := by
  intro s s' h
  cases s <;> cases s' <;> first | rfl | cases h

namespace PreviewIdentity

theorem canonicalBytes_eq_iff {p p' : PreviewIdentity} (hp : p.Fits) (hp' : p'.Fits) :
    p.canonicalBytes = p'.canonicalBytes ↔ p.SameMerge p' := by
  constructor
  · intro h
    simp only [canonicalBytes, List.append_assoc] at h
    have h := List.append_cancel_left h
    obtain ⟨hgraph, h⟩ := fieldBytes_append p.graph.asStr_lt p'.graph.asStr_lt h
    obtain ⟨hsource, h⟩ := fieldBytes_append hp.1 hp'.1 h
    obtain ⟨hsourceHead, h⟩ :=
      fieldBytes_append (CommitV2.text_lt _) (CommitV2.text_lt _) h
    obtain ⟨htarget, h⟩ := fieldBytes_append hp.2 hp'.2 h
    obtain ⟨htargetHead, h⟩ :=
      fieldBytes_append (CommitV2.text_lt _) (CommitV2.text_lt _) h
    obtain ⟨hbase, h⟩ := fieldBytes_append (CommitV2.text_lt _) (CommitV2.text_lt _) h
    obtain ⟨hclass, hstrategy, h⟩ : p.classification.code = p'.classification.code ∧
        (p.classification.strategy p.strategy).code =
          (p'.classification.strategy p'.strategy).code ∧ _ := by
      simpa only [List.singleton_append, List.cons.injEq] using h
    have h := List.append_cancel_left h
    have hdigest := fieldBytes_injective h
    have hclass := Classification.code_injective hclass
    refine ⟨ValidatedToken.asStr_injective hgraph, hsource, CommitId.text_injective hsourceHead,
      htarget, CommitId.text_injective htargetHead, CommitId.text_injective hbase, hclass,
      fun hdivergent => ?_, ContentId.text_injective hdigest⟩
    have hsame := Strategy.code_injective hstrategy
    rwa [← hclass, hdivergent] at hsame
  · intro h
    have hstrategy : p.classification.strategy p.strategy =
        p'.classification.strategy p'.strategy := by
      rw [← h.classification]
      cases hclass : p.classification with
      | fastForward => rfl
      | divergent => exact h.strategy hclass
    rw [canonicalBytes, canonicalBytes, hstrategy, h.graph, h.sourceBranch, h.sourceHead,
      h.targetBranch, h.targetHead, h.mergeBase, h.classification, h.mergedStateDigest]

end PreviewIdentity

/-! ## Merges with one token -/

variable [NQuadsParser]

/-- What a preview computes a merge from: the heads and how they relate, the base, and the three
states. -/
structure MergeInputs where
  limits : ReconstructionLimits
  graph : GraphId
  spec : MergeSpec
  report : ReportLimits
  targetHead : CommitId
  sourceHead : CommitId
  analysis : Analysis CommitId
  targetAncestry : Ancestry CommitId
  sourceAncestry : Ancestry CommitId
  classification : Classification
  mergeBase : CommitId
  base : Reconstructed
  target : Reconstructed
  source : Reconstructed

namespace MergeInputs

def strategy (m : MergeInputs) : Strategy := m.classification.strategy m.spec.strategy

def merged (m : MergeInputs) : Option State :=
  (threeWayReported m.base.state m.target.state m.source.state m.strategy m.report).merged

variable [Sha256]

def preview (m : MergeInputs) : Except LedgerError MergePreview :=
  (MergePreview.start m.spec m.targetHead m.sourceHead m.analysis m.targetAncestry
    m.sourceAncestry).merge m.limits m.graph m.spec m.report m.classification m.mergeBase m.base
    m.target m.source

/-- What the token of a merge with this result binds. -/
def identity (m : MergeInputs) (merged : State) : PreviewIdentity where
  graph := m.graph
  sourceBranch := m.spec.source
  sourceHead := m.sourceHead
  targetBranch := m.spec.target
  targetHead := m.targetHead
  mergeBase := m.mergeBase
  classification := m.classification
  strategy := m.strategy
  mergedStateDigest := stateDigest merged

def hashed (m : MergeInputs) : Set Bytes :=
  {bytes | ∃ merged, m.merged = some merged ∧
    (bytes = canonicalStateBytes merged ∨ bytes = (m.identity merged).canonicalBytes)}

theorem exists_merged {m : MergeInputs} {out : MergePreview} {token : String}
    (h : m.preview = .ok out) (htoken : out.previewToken = some token) :
    ∃ merged, m.merged = some merged ∧ token = (m.identity merged).token := by
  simp only [preview, MergePreview.merge] at h
  split at h
  · cases h
    cases htoken
  · rename_i merged hmerged
    split_ifs at h
    · cases h
      cases htoken
    · simp only [bind_eq_ok] at h
      obtain ⟨-, -, -, -, h⟩ := h
      cases h
      exact ⟨merged, hmerged, (Option.some.inj htoken).symm⟩

end MergeInputs

/-- The bytes under a token say which merge it is for, and a token which state it leads to. -/
theorem tokens_identify_merges [Sha256] :
    (∀ p p' : PreviewIdentity, p.Fits → p'.Fits →
      (p.canonicalBytes = p'.canonicalBytes ↔ p.SameMerge p')) ∧
    ∀ (m m' : MergeInputs) (out out' : MergePreview) (token : String),
      (m.spec.source.utf8ByteSize < 2 ^ 32 ∧ m.spec.target.utf8ByteSize < 2 ^ 32) →
      (m'.spec.source.utf8ByteSize < 2 ^ 32 ∧ m'.spec.target.utf8ByteSize < 2 ^ 32) →
      Set.InjOn Sha256.forBytes (m.hashed ∪ m'.hashed) →
      m.preview = .ok out → m'.preview = .ok out' →
      out.previewToken = some token → out'.previewToken = some token →
      m.graph = m'.graph ∧ m.spec.source = m'.spec.source ∧ m.spec.target = m'.spec.target ∧
        m.sourceHead = m'.sourceHead ∧ m.targetHead = m'.targetHead ∧ m.mergeBase = m'.mergeBase ∧
        m.classification = m'.classification ∧ m.strategy = m'.strategy ∧
        ∃ merged, m.merged = some merged ∧ m'.merged = some merged := by
  refine ⟨fun p p' => PreviewIdentity.canonicalBytes_eq_iff, ?_⟩
  intro m m' out out' token hfits hfits' hhash hout hout' htoken htoken'
  obtain ⟨merged, hmerged, rfl⟩ := MergeInputs.exists_merged hout htoken
  obtain ⟨merged', hmerged', hsame⟩ := MergeInputs.exists_merged hout' htoken'
  have hbytes : (m.identity merged).canonicalBytes = (m'.identity merged').canonicalBytes :=
    hhash (Or.inl ⟨merged, hmerged, Or.inr rfl⟩) (Or.inr ⟨merged', hmerged', Or.inr rfl⟩)
      (ContentId.text_injective hsame)
  have hfits : (m.identity merged).Fits := hfits
  have hfits' : (m'.identity merged').Fits := hfits'
  have hmerge := (PreviewIdentity.canonicalBytes_eq_iff hfits hfits').mp hbytes
  have hstate : canonicalStateBytes merged = canonicalStateBytes merged' :=
    hhash (Or.inl ⟨merged, hmerged, Or.inl rfl⟩) (Or.inr ⟨merged', hmerged', Or.inl rfl⟩)
      hmerge.mergedStateDigest
  have hstrategy : m.strategy = m'.strategy := by
    have hclass : m.classification = m'.classification := hmerge.classification
    cases hcases : m.classification with
    | fastForward => simp [MergeInputs.strategy, ← hclass, hcases, Classification.strategy]
    | divergent => exact hmerge.strategy hcases
  exact ⟨hmerge.graph, hmerge.sourceBranch, hmerge.targetBranch, hmerge.sourceHead,
    hmerge.targetHead, hmerge.mergeBase, hmerge.classification, hstrategy, merged, hmerged,
    canonicalStateBytes_injective hstate ▸ hmerged'⟩

end CognitiveLedger
