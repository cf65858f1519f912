import ParadoxCode.Rules.Interner
import ParadoxCode.Rules.Pattern

/-!
# The scope model

Registers and links of `ScopeModel` in `ir.rs`, with the recognition of keys in `ir_lowering.rs`.
The texts of link patterns are resolved; positions count characters where the source counts bytes,
and the source only slices at character boundaries.
-/

namespace ParadoxCode.Rules

open Format

/-- Game-independent state slots. -/
inductive RegisterRole where
  | root
  | current
  | previous
  | from
  deriving DecidableEq

structure RegisterInfo where
  name : Symbol
  role : RegisterRole
  chain : Bool
  deriving DecidableEq

/-- One end of a scope link. -/
inductive ScopeRef where
  | any
  | type (name : Symbol)
  deriving DecidableEq

/-- A scope link: the pattern of its keys, the scopes it may start from and the one it lands in. -/
structure LinkInfo where
  pattern : List PatternPart
  «from» : List ScopeRef
  «to» : ScopeRef
  deriving DecidableEq

structure ScopeModel where
  types : List Symbol
  registers : List RegisterInfo
  links : List LinkInfo
  compat : List (Symbol × Symbol)
  deriving DecidableEq

/-- `lookup_folded`: the symbol of the text in lower case. -/
def Interner.lookupFolded (interner : Interner) (text : Str) : Option Symbol :=
  interner.strings.idxOf? (toAsciiLowercase text)

/-! ## Registers -/

/-- The depth of a spelling of a register: the name itself, or a chain of names without
underscores. -/
def registerDepth (base : Str) (chain : Bool) (name : Str) : Option Nat :=
  if eqIgnoreAsciiCase name base then some 1
  else if !chain then none
  else
    let name := name.filter (· ≠ '_')
    let base := base.filter (· ≠ '_')
    if base ≠ [] ∧ name.length % base.length = 0 ∧ name ≠ [] ∧
        (name.toChunks base.length).all (eqIgnoreAsciiCase · base) then
      some (name.length / base.length)
    else none

/-- `register`: a declared register by a spelling or a chain, with its depth. -/
def ScopeModel.register (model : ScopeModel) (strings : Interner)
    (name : Str) : Option (RegisterInfo × Nat) :=
  model.registers.findSome? fun register =>
    (registerDepth (strings.resolve register.name) register.chain name).map fun depth =>
      (register, depth)

/-- `scopes_compatible`. -/
def ScopeModel.compatible (model : ScopeModel) (strings : Interner)
    (actual expected : Symbol) : Bool :=
  actual == expected || strings.resolve actual == "any".toList ||
    strings.resolve expected == "any".toList || model.compat.contains (actual, expected)

/-! ## Keys of links -/

/-- `find_ascii_case_insensitive`. -/
def findAsciiCaseInsensitive (text needle : Str) : Option Nat :=
  (List.range (text.length + 1 - needle.length)).find? fun offset =>
    eqIgnoreAsciiCase ((text.drop offset).take needle.length) needle

/-- The loop of `template_key_matches` over the parts from an index on, with the rest of the key. -/
def templateKeyRest : Bool → List PatternPart → Str → Bool
  | _, [], rest => rest == []
  | true, .text literal :: parts, rest =>
    eqIgnoreAsciiCase (rest.take literal.length) literal && templateKeyRest false parts
      (rest.drop literal.length)
  | false, .text literal :: parts, rest =>
    match findAsciiCaseInsensitive rest literal with
    | none => false
    | some offset => templateKeyRest false parts (rest.drop (offset + literal.length))
  | _, [.hole _], _ => true
  | _, .hole _ :: .text next :: parts, rest =>
    match findAsciiCaseInsensitive rest next with
    | none => false
    | some offset => templateKeyRest false (.text next :: parts) (rest.drop offset)
  | _, .hole _ :: .hole other :: parts, rest => templateKeyRest false (.hole other :: parts) rest

/-- `template_key_matches`. -/
def templateKeyMatches (parts : List PatternPart) (key : Str) : Bool :=
  match parts with
  | [.text text] => eqIgnoreAsciiCase key text
  | _ => templateKeyRest true parts key

/-- `link_or_register_matches` for a key without dots. -/
def ScopeModel.segmentMatches (model : ScopeModel) (strings : Interner) (segment : Str) : Bool :=
  (model.register strings segment).isSome || model.links.any fun link =>
    templateKeyMatches link.pattern segment

/-- `link_or_register_matches`. The segments of a dotted key have no dots. -/
def ScopeModel.linkOrRegisterMatches (model : ScopeModel) (strings : Interner) (key : Str) : Bool :=
  if '.' ∈ key then (key.splitOn '.').all fun segment =>
    segment ≠ [] && model.segmentMatches strings segment
  else model.segmentMatches strings key

end ParadoxCode.Rules
