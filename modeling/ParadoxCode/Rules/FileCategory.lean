import ParadoxCode.Format.Paths

/-!
# File categories

The categories of a rules catalog and the one that a logical path falls into: `matcher.rs`,
`catalog.rs` and `classify` of `runtime.rs`.
-/

namespace ParadoxCode.Rules

open Format

/-- Parser selected by a file category. -/
inductive ParserKind where
  | script
  | localisation
  | asset
  | syntaxOnly
  deriving DecidableEq

/-- Overlay conflict behaviour. -/
inductive FileResolutionPolicy where
  | replaceByRelativePath
  | merge
  | replaceDirectory
  deriving DecidableEq

/-- A path matcher of the catalog. -/
structure FileMatcher where
  pathPrefix : Option Str
  pathExact : Option Str
  extensions : List Str
  pathSuffix : Option Str
  pathExcludePrefixes : List Str
  caseSensitive : Bool
  deriving DecidableEq

structure FileCategory where
  id : Str
  parser : ParserKind
  resolution : FileResolutionPolicy
  matcher : FileMatcher
  deriving DecidableEq

/-- Two texts, with case or without. -/
def sameText (caseSensitive : Bool) (left right : Str) : Bool :=
  if caseSensitive then left == right else eqIgnoreAsciiCase left right

/-- `directory_prefix_matches`: the path itself or one below it. -/
def directoryPrefixMatches (candidate front : Str) (caseSensitive : Bool) : Bool :=
  sameText caseSensitive candidate front ||
    (sameText caseSensitive (candidate.take front.length) front &&
      candidate[front.length]? == some '/')

/-- Whether the path ends with a text. -/
def suffixMatches (candidate suffix : Str) (caseSensitive : Bool) : Bool :=
  suffix.length ≤ candidate.length &&
    sameText caseSensitive (candidate.drop (candidate.length - suffix.length)) suffix

namespace FileMatcher

/-- How precise a matcher is. -/
def specificity (matcher : FileMatcher) : Nat × Nat :=
  match matcher.pathExact with
  | some path => (2, byteLen path)
  | none =>
    ((matcher.pathPrefix.isSome || matcher.pathSuffix.isSome).toNat,
      (matcher.pathPrefix.map byteLen).getD 0 + (matcher.pathSuffix.map byteLen).getD 0)

def «matches» (matcher : FileMatcher) (path : Str) : Bool :=
  (matcher.pathExact.all fun exact => sameText matcher.caseSensitive path exact) &&
    !(matcher.pathExcludePrefixes.any fun front =>
      directoryPrefixMatches path front matcher.caseSensitive) &&
    (matcher.pathPrefix.all fun front =>
      directoryPrefixMatches path front matcher.caseSensitive) &&
    (matcher.pathSuffix.all fun suffix => suffixMatches path suffix matcher.caseSensitive) &&
    (matcher.extensions.isEmpty ||
      (extension? path).any fun extension =>
        matcher.extensions.any fun item => sameText matcher.caseSensitive item extension)

end FileMatcher

/-- `max_by_key` over the specificity: the last of the greatest. -/
def mostSpecific : List FileCategory → Option FileCategory
  | [] => none
  | category :: rest =>
    match mostSpecific rest with
    | none => some category
    | some other =>
      let key := category.matcher.specificity
      let otherKey := other.matcher.specificity
      if otherKey.1 < key.1 ∨ otherKey.1 = key.1 ∧ otherKey.2 < key.2 then some category
      else some other

/-- `classify`. -/
def classify (categories : List FileCategory) (path : Str) : Option FileCategory :=
  mostSpecific (categories.filter fun category => category.matcher.matches path)

end ParadoxCode.Rules
