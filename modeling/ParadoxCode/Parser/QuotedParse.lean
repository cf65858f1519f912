import ParadoxCode.Parser.Bounded
import ParadoxCode.Parser.QuotedScript

/-!
# Parsing a script in a quoted scalar

`parse_quoted_script` and `parse_quoted_script_bounded` strip the delimiters on their own. They
agree on every source but a lone quote.
-/

namespace ParadoxCode.Parser

/-- A decoded payload with its parse. -/
structure QuotedScript where
  parsed : ParsedFile
  sourceMap : QuotedScriptSourceMap
  closed : Bool
  deriving DecidableEq

/-- The source ends with a quote that no backslash escapes. -/
def endsWithQuote (source : Str) : Bool :=
  decide (source.getLast? = some '"') && !closingQuoteIsEscaped source

/-- `parse_quoted_script`. The outer `none` is the parser model running out of fuel. -/
def parseQuotedScript (source : Str) : Option (Option QuotedScript) :=
  match decodeQuotedScript source with
  | none => some none
  | some (decoded, sourceMap) =>
    (parse .script decoded).map fun parsed => some ⟨parsed, sourceMap, endsWithQuote source⟩

/-! ## The bounded parse -/

/-- How often the loop of `decode_payload_with_checkpoint` calls its checkpoint. It stops where the
checkpoint refuses, where an offset leaves `u32` and at a backslash that stands last. -/
def decodeCalls (checkpoint : Nat → Bool) : Str → Nat → Nat → Nat
  | [], _, work => work / 256
  | character :: rest, offset, work =>
    let work := work + 1
    if work % 256 = 0 ∧ checkpoint (work / 256) = false then work / 256
    else if character ≠ '\\' then
      if (pushOffsets (1 + offset) character.utf8Size).isNone then work / 256
      else decodeCalls checkpoint rest (offset + character.utf8Size) work
    else
      let escapedOffset := offset + 1
      match rest with
      | [] => work / 256
      | escaped :: rest =>
        if (pushOffsets (1 + escapedOffset) escaped.utf8Size).isNone then work / 256
        else decodeCalls checkpoint rest (escapedOffset + escaped.utf8Size) work

/-- `payload.strip_suffix('"').unwrap_or(payload)`, where the source is closed. -/
def stripClosing (source payload : Str) : Str :=
  if endsWithQuote source then
    if payload.getLast? = some '"' then payload.dropLast else payload
  else payload

variable {E : Type}

/-- `parse_quoted_script_bounded`, with the number of calls of the checkpoint. -/
def parseQuotedScriptBounded (source : Str) (budget : ScriptParseBudget)
    (checkpoint : Checkpoint E) :
    Option (Except E (Except ScriptParseLimit (Option QuotedScript)) × Nat) :=
  match checkpoint 0 with
  | .error error => some (.error error, 1)
  | .ok () =>
    if budget.bytes < byteLen source then some (.ok (.error .bytes), 1)
    else
      match source with
      | '"' :: payload =>
        let payload := stripClosing source payload
        let allows (call : Nat) : Bool := (checkpoint call).isOk
        -- A refusal is the last call of the loop.
        let calls := decodeCalls allows payload 0 0
        match if calls = 0 then .ok () else checkpoint calls with
        | .error error => some (.error error, calls + 1)
        | .ok () =>
          match decodePayloadWithCheckpoint payload (byteLen source) allows with
          | none => some (.ok (.ok none), calls + 1)
          | some (decoded, sourceMap) =>
            (parseScriptBounded decoded budget fun call => checkpoint (calls + 1 + call)).map
              fun (outcome, more) =>
                match outcome with
                | .error error => (.error error, calls + 1 + more)
                | .ok (.error limit) => (.ok (.error limit), calls + 1 + more)
                | .ok (.ok parsed) =>
                  (.ok (.ok (some ⟨parsed, sourceMap, endsWithQuote source⟩)), calls + 1 + more)
      | _ => some (.ok (.ok none), 1)

/-! ## Both parses -/

/-- The script that a quoted source carries. -/
def carried (source : Str) : Option Str :=
  match source with
  | '"' :: payload => (decodePayload (stripClosing source payload) (byteLen source)).map Prod.fst
  | _ => none

/-- The source and the script that it carries do not exhaust the budget. -/
structure Suffices (budget : ScriptParseBudget) (source : Str) : Prop where
  bytes : byteLen source ≤ budget.bytes
  nodes : ∀ text ∈ carried source, ∀ full, parse .script text = some full →
  full.tree.cores.length ≤ budget.nodes
  depth : ∀ text ∈ carried source, Script.nesting text ≤ budget.depth

/-- Both parses return, and they return the same. -/
def ParsesAgree (source : Str) (budget : ScriptParseBudget) (checkpoint : Checkpoint E) : Prop :=
  ∃ script calls, parseQuotedScript source = some script ∧
    parseQuotedScriptBounded source budget checkpoint = some (.ok (.ok script), calls)

theorem byteLen_stripClosing_le (source payload : Str) : byteLen (stripClosing source payload) ≤
    byteLen payload := by
  unfold stripClosing
  split_ifs with hclosed hlast
  · have hsplit := congrArg byteLen (List.dropLast_append_getLast? _ hlast)
    rw [byteLen_append] at hsplit
    omega
  · exact le_rfl
  · exact le_rfl

/-- A script is not longer than the source that carries it. -/
theorem byteLen_carried_le {source text : Str} (h : carried source = some text) :
    byteLen text ≤ byteLen source := by
  unfold carried at h
  split at h
  · rename_i payload
    obtain ⟨⟨decoded, sourceMap⟩, hdecoded, rfl⟩ := Option.map_eq_some_iff.mp h
    have hlt : byteLen (stripClosing ('"' :: payload) payload) < byteLen ('"' :: payload) := by
      have := byteLen_stripClosing_le ('"' :: payload) payload
      rw [byteLen_cons, quote_utf8Size]
      omega
    obtain ⟨cells, hcells, -, rfl, -⟩ := (decodePayload_eq_some_iff hlt).mp hdecoded
    have hle := byteLen_decodedText_le cells
    rw [← payload_of_cellsOf hcells] at hle
    exact hle.trans (Nat.le_of_lt hlt)
  · cases h

/-- A bounded parse that nothing stops is the ordinary one. -/
theorem parseScriptBounded_of_suffices {text : Str} {budget : ScriptParseBudget}
    {checkpoint : Checkpoint E}
    (hcheck : ∀ call, checkpoint call = .ok ()) (hbytes : byteLen text ≤ budget.bytes)
    (hnodes : ∀ full, parse .script text = some full → full.tree.cores.length ≤ budget.nodes)
    (hdepth : Script.nesting text ≤ budget.depth) : ∃ full calls, parse .script text = some full ∧
      parseScriptBounded text budget checkpoint = some (.ok (.ok full), calls) := by
  obtain ⟨outcome, calls, full, hbounded, hparse, hjustified⟩ :=
    parseScriptBounded_justified text budget checkpoint
  refine ⟨full, calls, hparse, ?_⟩
  rw [hbounded]
  cases outcome with
  | error error =>
    obtain ⟨call, -, hrefused⟩ := hjustified
    rw [hcheck] at hrefused
    cases hrefused
  | ok result =>
    cases result with
    | ok file =>
      obtain rfl : file = full := hjustified
      rfl
    | error limit =>
      cases limit with
      | bytes => exact absurd hbytes (Nat.not_le.mpr hjustified)
      | nodes => exact absurd (hnodes full hparse) (Nat.not_le.mpr hjustified)
      | depth => exact absurd hdepth (Nat.not_le.mpr hjustified)

/-- What the bounded parse gives where nothing stops it. -/
theorem parseQuotedScriptBounded_of_suffices {payload : Str} {budget : ScriptParseBudget}
    {checkpoint : Checkpoint E} (hbudget : Suffices budget ('"' :: payload))
    (hcheck : ∀ call, checkpoint call = .ok ()) : ∃ script calls,
      parseQuotedScriptBounded ('"' :: payload) budget checkpoint = some (.ok (.ok script), calls) ∧
      match decodePayload (stripClosing ('"' :: payload) payload) (byteLen ('"' :: payload)) with
      | none => script = none
      | some (decoded, sourceMap) => ∃ parsed, parse .script decoded = some parsed ∧
        script = some ⟨parsed, sourceMap, endsWithQuote ('"' :: payload)⟩ := by
  have hdecode (text : Str) (len : Nat) :
      decodePayloadWithCheckpoint text len (fun _ => true) = decodePayload text len := rfl
  have hok : (.ok () : Except E Unit).isOk = true := rfl
  unfold parseQuotedScriptBounded
  simp only [hcheck, ite_self, if_neg (Nat.not_lt.mpr hbudget.bytes), hok, hdecode]
  cases hdecoded : decodePayload (stripClosing ('"' :: payload) payload)
    (byteLen ('"' :: payload)) with
  | none => exact ⟨none, _, rfl, rfl⟩
  | some found =>
    obtain ⟨decoded, sourceMap⟩ := found
    have hcarried : carried ('"' :: payload) = some decoded := by
      show (decodePayload (stripClosing ('"' :: payload) payload) (byteLen ('"' :: payload))).map
        Prod.fst = _
      rw [hdecoded]
      rfl
    obtain ⟨full, calls, hparse, hbounded⟩ := parseScriptBounded_of_suffices
      (fun _ => rfl : ∀ call, (fun _ => .ok () : Checkpoint E) call = .ok ())
        ((byteLen_carried_le hcarried).trans hbudget.bytes)
      (hbudget.nodes decoded hcarried)
      (hbudget.depth decoded hcarried)
    dsimp only
    rw [hbounded]
    exact ⟨_, _, rfl, full, hparse, rfl⟩

/-- The payload that `decode_quoted_script` decodes is the one that the bounded parse decodes, if
there is one behind the opening quote. -/
theorem decodeQuotedScript_eq {payload : Str} (h : payload ≠ []) :
    decodeQuotedScript ('"' :: payload) =
      decodePayload (stripClosing ('"' :: payload) payload) (byteLen ('"' :: payload)) := by
  have hlast : ('"' :: payload).getLast? = payload.getLast? := by
    obtain ⟨c, rest, rfl⟩ := List.exists_cons_of_ne_nil h
    rfl
  show (if ('"' :: payload).getLast? = some '"' ∧
    closingQuoteIsEscaped ('"' :: payload) = false then
      if payload.getLast? = some '"' then decodePayload payload.dropLast
        (byteLen ('"' :: payload)) else none
    else decodePayload payload (byteLen ('"' :: payload))) = _
  unfold stripClosing endsWithQuote
  rw [hlast]
  by_cases hquote : payload.getLast? = some '"'
  · cases closingQuoteIsEscaped ('"' :: payload) <;> simp [hquote]
  · rw [if_neg (fun hboth => hquote hboth.1), if_neg (by simp [hquote])]

/-- **The bounded parse of a quoted script agrees with the unbounded one**, under a budget that is
large enough, on every source but a lone quote. -/
theorem parsesAgree_iff {source : Str} {budget : ScriptParseBudget} {checkpoint : Checkpoint E}
    (hbudget : Suffices budget source) (hcheck : ∀ call, checkpoint call = .ok ()) :
    ParsesAgree source budget checkpoint ↔ source ≠ ['"'] := by
  unfold ParsesAgree
  by_cases hquoted : ∃ payload, source = '"' :: payload
  · obtain ⟨payload, rfl⟩ := hquoted
    obtain ⟨script, calls, hbounded, hscript⟩ := parseQuotedScriptBounded_of_suffices hbudget hcheck
    by_cases hempty : payload = []
    · subst hempty
      -- The bounded parse decodes the empty payload, the other one gives up.
      have hdecode : decodePayload (stripClosing ['"'] []) (byteLen ['"']) =
        some ([], ⟨[1], 1⟩) := by decide
      rw [hdecode] at hscript
      obtain ⟨parsed, -, rfl⟩ := hscript
      have hnone : parseQuotedScript ['"'] = some none := by decide
      refine iff_of_false ?_ (fun hne => hne rfl)
      rintro ⟨other, calls', hunbounded, hbounded'⟩
      rw [hnone] at hunbounded
      rw [hbounded] at hbounded'
      cases hunbounded
      cases hbounded'
    · refine iff_of_true ⟨script, calls, ?_, hbounded⟩ (fun heq => hempty (List.cons.inj heq).2)
      unfold parseQuotedScript
      rw [decodeQuotedScript_eq hempty]
      cases hdecoded : decodePayload (stripClosing ('"' :: payload) payload)
        (byteLen ('"' :: payload)) with
      | none =>
        rw [hdecoded] at hscript
        obtain rfl : script = none := hscript
        rfl
      | some found =>
        rw [hdecoded] at hscript
        obtain ⟨parsed, hparse, rfl⟩ := hscript
        dsimp only
        rw [hparse]
        rfl
  · have hunbounded : parseQuotedScript source = some none := by
      unfold parseQuotedScript decodeQuotedScript
      split
      · rfl
      · rename_i hdecoded
        split at hdecoded
        · rename_i payload
          exact absurd ⟨payload, rfl⟩ hquoted
        · cases hdecoded
    have hbounded : parseQuotedScriptBounded source budget checkpoint =
      some (.ok (.ok none), 1) := by
      unfold parseQuotedScriptBounded
      rw [hcheck]
      dsimp only
      rw [if_neg (Nat.not_lt.mpr hbudget.bytes)]
      split
      · rename_i payload
        exact absurd ⟨payload, rfl⟩ hquoted
      · rfl
    exact iff_of_true ⟨none, 1, hunbounded, hbounded⟩ (fun heq => hquoted ⟨[], heq⟩)

/-- `ScriptParseBudget::default`. -/
def ScriptParseBudget.default : ScriptParseBudget := ⟨1024 * 1024, 50000, 128⟩

/-- A small script does not exhaust the default budget. -/
theorem suffices_default {source script : Str} (hcarried : carried source = some script)
    (hbytes : byteLen source ≤ ScriptParseBudget.default.bytes)
    (hnodes : ((parse .script script).all fun full =>
      decide (full.tree.cores.length ≤ ScriptParseBudget.default.nodes)) = true)
    (hdepth : Script.nesting script ≤ ScriptParseBudget.default.depth) :
    Suffices .default source where
  bytes := hbytes
  nodes := by
    intro text htext full hfull
    cases hcarried.symm.trans htext
    rw [hfull] at hnodes
    exact of_decide_eq_true hnodes
  depth := by
    intro text htext
    cases hcarried.symm.trans htext
    exact hdepth

theorem suffices_loneQuote : Suffices .default ['"'] :=
  @suffices_default _ [] (by decide) (by decide) (by decide +kernel) (by decide +kernel)

/-- A source with a block and an escaped quote. -/
def nestedSource : Str := "\"k = \x7b a = \\\"b\\\" \x7d\"".toList

theorem suffices_nested : Suffices .default nestedSource :=
  @suffices_default _ "k = \x7b a = \"b\" \x7d".toList (by decide +kernel) (by decide +kernel)
    (by decide +kernel) (by decide +kernel)

theorem parsesAgree_nested : ParsesAgree nestedSource .default
    (fun _ => .ok () : Checkpoint Empty) ↔ nestedSource ≠ ['"'] :=
  parsesAgree_iff suffices_nested fun _ => rfl

/-- The parses need not agree. -/
theorem not_parsesAgree : ¬∀ (source : Str) (budget : ScriptParseBudget), Suffices budget source →
    ParsesAgree source budget (fun _ => .ok () : Checkpoint Empty) := by
  intro h
  obtain ⟨script, calls, hunbounded, hbounded⟩ := h ['"'] .default suffices_loneQuote
  have hnone : parseQuotedScript ['"'] = some none := by decide
  have hsome : (parseQuotedScriptBounded ['"'] .default (fun _ => .ok () : Checkpoint Empty)).map
      (fun outcome => match outcome.1 with
        | .ok (.ok script) => script.isSome
        | _ => false) = some true := by decide +kernel
  rw [hnone] at hunbounded
  cases hunbounded
  rw [hbounded] at hsome
  cases hsome

end ParadoxCode.Parser
