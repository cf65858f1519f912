import Mathlib.Data.Finset.Lattice.Lemmas

/-!
# Analysis coverage

`analysis.rs`: what a bounded query has left unfinished, its limits, and what of its input it does
not know, its residuals.
-/

namespace ParadoxCode.Hir

/-- A resource or representation boundary that a query has reached. -/
inductive AnalysisLimit where
  | factStability
  | patternSearch
  | callDepth
  | nodes
  | recursiveState
  | unavailableTemplate
  | textBytes
  | parseNodes
  | consumptionDepth
  | output
  | dependentQuery
  | structuralRecovery
  deriving DecidableEq

/-- What is unknown of the input though the traversal is complete. -/
inductive ResidualReason where
  | dynamicKey
  | binding
  | interpretation
  | scope
  | textInterpretation
  deriving DecidableEq

structure AnalysisCoverage where
  limits : Finset AnalysisLimit := ∅
  residuals : Finset ResidualReason := ∅
  deriving DecidableEq

namespace AnalysisCoverage

variable (coverage : AnalysisCoverage)

/-- `is_complete`. -/
def isComplete : Bool := decide (coverage.limits = ∅)

/-- `is_known`. -/
def isKnown : Bool := coverage.isComplete && decide (coverage.residuals = ∅)

/-- `merge`. -/
def merge (other : AnalysisCoverage) : AnalysisCoverage :=
  ⟨coverage.limits ∪ other.limits, coverage.residuals ∪ other.residuals⟩

/-- `limits.insert`. -/
def limit (reason : AnalysisLimit) : AnalysisCoverage :=
  { coverage with limits := insert reason coverage.limits }

/-- `residuals.insert`. -/
def residual (reason : ResidualReason) : AnalysisCoverage :=
  { coverage with residuals := insert reason coverage.residuals }

end AnalysisCoverage

end ParadoxCode.Hir
