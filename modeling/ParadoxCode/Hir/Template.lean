import Mathlib.Data.List.Lex
import ParadoxCode.Hir.Analysis
import ParadoxCode.Rules.TemplateProgram

/-!
# Templates and their rules

What the evaluators of templates share: the scopes, a template with its program, and what they read
of the rules. The rules and the facts of the workspace are fixed during a query, and their functions
are parameters.
-/

namespace ParadoxCode.Hir

open Rules

/-! ## Scopes -/

/-- A set of possible scopes. -/
inductive ScopeValue where
  | known (names : List Str)
  | unknown
  | invalid
  deriving DecidableEq

/-- `ScopeValue::known_single`. -/
def ScopeValue.knownSingle (name : Str) : ScopeValue := .known [name]

/-- The scope registers at one place. -/
structure ScopeState where
  root : ScopeValue
  current : List ScopeValue
  from' : List ScopeValue
  previous : List ScopeValue
  deriving DecidableEq

/-! ## Templates -/

/-- `Template` with its program, which the index cache does not store. -/
structure Template extends Engine.Template TextRange where
  program : TemplateProgram

/-- Texts by their names. -/
abbrev Bindings : Type := Std.ExtTreeMap Str Str

def fragmentValue (values : Bindings) : TemplateFragment → Option Str
  | .literal text => some text
  | .parameter name _ => values[toAsciiLowercase name]?

/-- `value` of `template_scope.rs`, and the key of `binding_use_positions`: the text of a token,
where every parameter that it reads is bound. -/
def tokenValue (token : TemplateToken) (values : Bindings) : Option Str :=
  (token.fragments.mapM (fragmentValue values)).map List.flatten

/-! ## Rules -/

abbrev SchemaId := Nat

abbrev FieldId := Nat

abbrev TypeId := Nat

inductive Shape where
  | scalar
  | block
  deriving DecidableEq

/-- What the evaluators read of `RulesIr`. -/
structure TemplateRules where
  /-- `template_kind` of the key of a field. -/
  templateKind : FieldId → Option Str
  typeByName : Str → Option TypeId
  templateBody : TypeId → Option SchemaId
  shape : FieldId → Option Shape
  child : FieldId → SchemaId → Option SchemaId

end ParadoxCode.Hir
