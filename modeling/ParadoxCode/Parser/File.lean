import ParadoxCode.Parser.Localisation
import ParadoxCode.Parser.Script

/-!
# Parsing files

The entry points of `lib.rs`. A checkpoint is a closure that the caller passes in; what it answers
in one run is a schedule, its answer to each of its calls. The model counts the calls.
-/

namespace ParadoxCode.Parser

/-- `parse_with_revision`. -/
def parseWithRevision (format : FileFormat) (source : List Char) (revision : Nat) :
    Option ParsedFile :=
  (match format with
    | .script => Script.parse source
    | .localisation => Localisation.parse source).map fun parts =>
    ParsedFile.fromParts format source parts revision

/-- `parse`. -/
def parse (format : FileFormat) (source : List Char) : Option ParsedFile :=
  parseWithRevision format source 0

inductive ScriptParseLimit where
  | bytes
  | nodes
  | depth
  deriving DecidableEq

/-- Limits checked before source allocation and during token/container scanning. -/
structure ScriptParseBudget where
  bytes : Nat
  nodes : Nat
  depth : Nat
  deriving DecidableEq

/-- The answers of the caller's checkpoint, call by call. -/
def Checkpoint (E : Type) : Type := Nat → Except E Unit

/-- What the guards of both bounded parses keep: the calls of the checkpoint so far, its refusal,
and the limit that was hit. -/
structure GuardState (E L : Type) where
  calls : Nat
  cancellation : Option E
  limit : Option L

variable {E : Type}

/-- The limit that a number of nodes and a depth are over. -/
def ScriptParseBudget.exceeded (budget : ScriptParseBudget) (nodes depth : Nat) :
    Option ScriptParseLimit :=
  if budget.depth < depth then some .depth
  else if budget.nodes ≤ nodes then some .nodes
  else none

/-- The guard of `parse_script_bounded`. -/
def boundedGuard (budget : ScriptParseBudget) (checkpoint : Checkpoint E) :
    Script.Guard (GuardState E ScriptParseLimit) := fun state _ nodes depth =>
  match checkpoint state.calls with
  | .error error => (false, ⟨state.calls + 1, some error, state.limit⟩)
  | .ok () =>
    let limit := budget.exceeded nodes depth
    (limit.isNone, ⟨state.calls + 1, state.cancellation, limit⟩)

/-- `parse_script_bounded`, with the number of calls of the checkpoint. -/
def parseScriptBounded (source : List Char) (budget : ScriptParseBudget)
    (checkpoint : Checkpoint E) : Option (Except E (Except ScriptParseLimit ParsedFile) × Nat) :=
  match checkpoint 0 with
  | .error error => some (.error error, 1)
  | .ok () =>
    if budget.bytes < byteLen source then some (.ok (.error .bytes), 1)
    else
      (Script.parseGuarded source (boundedGuard budget checkpoint) ⟨1, none, none⟩).map
        fun (parts, state) =>
          match state.cancellation with
          | some error => (.error error, state.calls)
          | none =>
            match parts with
            | none => (.ok (.error (state.limit.getD .nodes)), state.calls)
            | some parts =>
              match checkpoint state.calls with
              | .error error => (.error error, state.calls + 1)
              | .ok () => (.ok (.ok (ParsedFile.fromParts .script source parts 0)), state.calls + 1)

/-- A bounded prefix plus the first unparsed byte. -/
structure ScriptParseProgress where
  parsed : Option ParsedFile
  frontier : Option (ScriptParseLimit × Nat)
  deriving DecidableEq

/-- The guard of `parse_script_prefix_bounded`. -/
def prefixGuard (budget : ScriptParseBudget) (checkpoint : Checkpoint E) :
    Script.Guard (GuardState E (ScriptParseLimit × Nat)) := fun state offset nodes depth =>
  match checkpoint state.calls with
  | .error error => (false, ⟨state.calls + 1, some error, state.limit⟩)
  | .ok () =>
    match budget.exceeded nodes depth with
    | some limit => (false, ⟨state.calls + 1, state.cancellation, some (limit, asU32 offset)⟩)
    | none => (true, ⟨state.calls + 1, state.cancellation, state.limit⟩)

/-- `parse_script_prefix_bounded`, with the number of calls of the checkpoint. -/
def parseScriptPrefixBounded (source : List Char) (budget : ScriptParseBudget)
    (checkpoint : Checkpoint E) : Option (Except E ScriptParseProgress × Nat) :=
  match checkpoint 0 with
  | .error error => some (.error error, 1)
  | .ok () =>
    if budget.bytes < byteLen source then some (.ok ⟨none, some (.bytes, 0)⟩, 1)
    else
      (Script.parseGuardedPrefix source (prefixGuard budget checkpoint) ⟨1, none, none⟩).bind
        fun (parts, stopped, state) =>
          match state.cancellation with
          | some error => some (.error error, state.calls)
          | none =>
            match checkpoint state.calls with
            | .error error => some (.error error, state.calls + 1)
            | .ok () =>
              -- `debug_assert!(!stopped || frontier.is_some())`
              if stopped && state.limit.isNone then none
              else some (.ok ⟨some (ParsedFile.fromParts .script source parts 0), state.limit⟩,
                state.calls + 1)

end ParadoxCode.Parser
