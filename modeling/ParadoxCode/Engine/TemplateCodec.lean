import ParadoxCode.Format.Paths
import ParadoxCode.Lib.Json

/-!
# Template payloads

`template_codec.rs`: the templates that the index cache stores as JSON. What is stored differs from
the model in its ranges only, so that the types are generic in them: a template has a `TextRange`
where its payload has two numbers. The JSON library is a parameter.
-/

namespace ParadoxCode.Engine

open ParadoxCode.Format

/-! ## Templates -/

inductive TemplateFragment (ρ : Type) where
  | literal (text : Str)
  | parameter (name : Str) (range : ρ)
  deriving DecidableEq

structure TemplateToken (ρ : Type) where
  range : ρ
  quoted : Bool
  fragments : List (TemplateFragment ρ)
  deriving DecidableEq

mutual

inductive TemplateItem (ρ : Type) where
  | recover (token : TemplateToken ρ)
  | property (key : TemplateToken ρ) (range : ρ) (operator : Option Str) (value : TemplateValue ρ)
  | bareValue (token : TemplateToken ρ)
  | conditional (name : Str) (negated : Bool) (range : ρ) (items : List (TemplateItem ρ))

inductive TemplateValue (ρ : Type) where
  | scalar (token : TemplateToken ρ)
  | block (range : ρ) (items : List (TemplateItem ρ))

end

structure Template (ρ : Type) where
  source : Str
  kind : Str
  name : Str
  definitionRange : ρ
  bodyRange : ρ
  items : List (TemplateItem ρ)

/-- `[u32; 2]`. -/
abbrev RawRange := Nat × Nat

/-! ## What is stored -/

section Convert

/-- `From<TextRange> for Range`. -/
def rawRange (range : TextRange) : RawRange := (range.start, range.stop)

def TemplateFragment.raw : TemplateFragment TextRange → TemplateFragment RawRange
  | .literal text => .literal text
  | .parameter name range => .parameter name (rawRange range)

def TemplateToken.raw (token : TemplateToken TextRange) : TemplateToken RawRange :=
  ⟨rawRange token.range, token.quoted, token.fragments.map TemplateFragment.raw⟩

mutual

def TemplateItem.raw : TemplateItem TextRange → TemplateItem RawRange
  | .recover token => .recover token.raw
  | .property key range operator value => .property key.raw (rawRange range) operator value.raw
  | .bareValue token => .bareValue token.raw
  | .conditional name negated range items =>
    .conditional name negated (rawRange range) (TemplateItem.rawAll items)

def TemplateItem.rawAll : List (TemplateItem TextRange) → List (TemplateItem RawRange)
  | [] => []
  | item :: items => item.raw :: TemplateItem.rawAll items

def TemplateValue.raw : TemplateValue TextRange → TemplateValue RawRange
  | .scalar token => .scalar token.raw
  | .block range items => .block (rawRange range) (TemplateItem.rawAll items)

end

/-- `From<&Template> for EncodedTemplate`. -/
def Template.raw (template : Template TextRange) : Template RawRange :=
  ⟨template.source, template.kind, template.name, rawRange template.definitionRange,
    rawRange template.bodyRange, TemplateItem.rawAll template.items⟩

end Convert

/-! ## JSON -/

section ToJson

def rangeJson (range : RawRange) : Json := .array [.number range.1, .number range.2]

def TemplateFragment.json : TemplateFragment RawRange → Json
  | .literal text => .object [("literal".toList, .string text)]
  | .parameter name range => .object [("parameter".toList,
      .object [("name".toList, .string name), ("range".toList, rangeJson range)])]

def TemplateToken.json (token : TemplateToken RawRange) : Json :=
  .object [("range".toList, rangeJson token.range), ("quoted".toList, .bool token.quoted),
    ("fragments".toList, .array (token.fragments.map TemplateFragment.json))]

def operatorJson : Option Str → Json
  | none => .null
  | some operator => .string operator

mutual

def TemplateItem.json : TemplateItem RawRange → Json
  | .recover token => .object [("recover".toList, token.json)]
  | .property key range operator value => .object [("property".toList,
      .object [("key".toList, key.json), ("range".toList, rangeJson range),
        ("operator".toList, operatorJson operator), ("value".toList, value.json)])]
  | .bareValue token => .object [("bare_value".toList, token.json)]
  | .conditional name negated range items => .object [("conditional".toList,
      .object [("name".toList, .string name), ("negated".toList, .bool negated),
        ("range".toList, rangeJson range), ("items".toList, .array (TemplateItem.jsonAll items))])]

def TemplateItem.jsonAll : List (TemplateItem RawRange) → List Json
  | [] => []
  | item :: items => item.json :: TemplateItem.jsonAll items

def TemplateValue.json : TemplateValue RawRange → Json
  | .scalar token => .object [("scalar".toList, token.json)]
  | .block range items => .object [("block".toList,
      .object [("range".toList, rangeJson range),
        ("items".toList, .array (TemplateItem.jsonAll items))])]

end

def Template.json (template : Template RawRange) : Json :=
  .object [("source".toList, .string template.source), ("kind".toList, .string template.kind),
    ("name".toList, .string template.name),
    ("definition_range".toList, rangeJson template.definitionRange),
    ("body_range".toList, rangeJson template.bodyRange),
    ("items".toList, .array (TemplateItem.jsonAll template.items))]

end ToJson

/-- How deep `serde_json` reads values. -/
def recursionLimit : Nat := 128

/-- What is relied on of `serde_json`: `to_vec` writes every byte of the strings in a value, and
`from_slice` reads what it writes, unless that is nested too deep. -/
structure SerdeJson where
  toVec : Template RawRange → List UInt8
  fromSlice : List UInt8 → Except Str (Template RawRange)
  texts : ∀ template : Template RawRange, template.json.textBytes ≤ (toVec template).length
  reads : ∀ template : Template RawRange, template.json.depth ≤ recursionLimit →
    fromSlice (toVec template) = .ok template
  rejects : ∀ template : Template RawRange, recursionLimit < template.json.depth →
    ∃ e, fromSlice (toVec template) = .error e

/-! ## The budget -/

inductive IndexCacheError where
  | limitExceeded (kind : String) (limit : Nat)
  | invalidData (detail : Str)
  deriving DecidableEq

/-- `MAX_TEMPLATE_BYTES`. -/
def maxTemplateBytes : Nat := 16 * 1024 * 1024

/-- `MAX_TEMPLATE_NODES`. -/
def maxTemplateNodes : Nat := 1000000

structure Budget where
  nodes : Nat
  textBytes : Nat
  deriving DecidableEq

/-- A conversion that spends from a budget. -/
abbrev Spend := StateT Budget (Except IndexCacheError)

/-- `Budget::node`. -/
def Budget.node : Spend Unit := fun budget =>
  let nodes := budget.nodes + 1
  if maxTemplateNodes < nodes then .error (.limitExceeded "dynamic template node" maxTemplateNodes)
  else .ok ((), { budget with nodes })

/-- `Budget::text`. -/
def Budget.text (value : Str) : Spend Unit := fun budget =>
  let textBytes := budget.textBytes + byteLen value
  if maxTemplateBytes < textBytes then
    .error (.limitExceeded "dynamic template text byte" maxTemplateBytes)
  else .ok ((), { budget with textBytes })

/-! ## Conversions -/

def decodeRange (range : RawRange) : Spend TextRange :=
  match TextRange.new range.1 range.2 with
  | some range => pure range
  | none => throw (.invalidData "dynamic template range end precedes start".toList)

def TemplateFragment.intoModel : TemplateFragment RawRange → Spend (TemplateFragment TextRange)
  | .literal text => do
    Budget.node
    Budget.text text
    return .literal text
  | .parameter name range => do
    Budget.node
    Budget.text name
    let range ← decodeRange range
    return .parameter name range

def TemplateToken.intoModel (token : TemplateToken RawRange) : Spend (TemplateToken TextRange) := do
  let range ← decodeRange token.range
  let fragments ← token.fragments.mapM TemplateFragment.intoModel
  return ⟨range, token.quoted, fragments⟩

mutual

def TemplateItem.intoModel : TemplateItem RawRange → Spend (TemplateItem TextRange)
  | .property key range operator value => do
    Budget.node
    operator.forM Budget.text
    let key ← key.intoModel
    let range ← decodeRange range
    let value ← value.intoModel
    return .property key range operator value
  | .recover token => do
    Budget.node
    let token ← token.intoModel
    return .recover token
  | .bareValue token => do
    Budget.node
    let token ← token.intoModel
    return .bareValue token
  | .conditional name negated range items => do
    Budget.node
    Budget.text name
    let range ← decodeRange range
    let items ← decodeItems items
    return .conditional name negated range items

def decodeItems : List (TemplateItem RawRange) → Spend (List (TemplateItem TextRange))
  | [] => return []
  | item :: items => do
    let item ← item.intoModel
    let items ← decodeItems items
    return item :: items

def TemplateValue.intoModel : TemplateValue RawRange → Spend (TemplateValue TextRange)
  | .scalar token => do
    let token ← token.intoModel
    return .scalar token
  | .block range items => do
    let range ← decodeRange range
    let items ← decodeItems items
    return .block range items

end

def Template.intoModel (template : Template RawRange) : Spend (Template TextRange) := do
  Budget.node
  Budget.text template.source
  Budget.text template.kind
  Budget.text template.name
  let items ← decodeItems template.items
  let definitionRange ← decodeRange template.definitionRange
  let bodyRange ← decodeRange template.bodyRange
  return ⟨template.source, template.kind, template.name, definitionRange, bodyRange, items⟩

/-! ## Ranges -/

def rangeWithin (inner outer : TextRange) : Bool :=
  outer.start ≤ inner.start && inner.stop ≤ outer.stop

def requireRange (range owner : TextRange) : Except IndexCacheError Unit :=
  if rangeWithin range owner then .ok ()
  else .error (.invalidData "dynamic template item range escapes its definition".toList)

def validateFragmentRange (owner : TextRange) :
    TemplateFragment TextRange → Except IndexCacheError Unit
  | .literal _ => .ok ()
  | .parameter _ range => requireRange range owner

def validateTokenRange (token : TemplateToken TextRange) (owner : TextRange) :
    Except IndexCacheError Unit := do
  requireRange token.range owner
  token.fragments.forM (validateFragmentRange owner)

mutual

/-- One item of `validate_items_ranges`. -/
def validateItemRanges (owner : TextRange) : TemplateItem TextRange → Except IndexCacheError Unit
  | .property key range _ value => do
    requireRange range owner
    validateTokenRange key owner
    validateValueRanges owner value
  | .bareValue token => validateTokenRange token owner
  | .recover token => validateTokenRange token owner
  | .conditional _ _ range items => do
    requireRange range owner
    validateItemsRanges owner items

def validateItemsRanges (owner : TextRange) :
    List (TemplateItem TextRange) → Except IndexCacheError Unit
  | [] => .ok ()
  | item :: items => do
    validateItemRanges owner item
    validateItemsRanges owner items

def validateValueRanges (owner : TextRange) : TemplateValue TextRange → Except IndexCacheError Unit
  | .scalar token => validateTokenRange token owner
  | .block range items => do
    requireRange range owner
    validateItemsRanges owner items

end

def validateTemplateRanges (template : Template TextRange) : Except IndexCacheError Unit := do
  if rangeWithin template.bodyRange template.definitionRange = false then
    throw (.invalidData "dynamic template body range escapes its definition".toList)
  validateItemsRanges template.definitionRange template.items

/-! ## The codec -/

def encode (serde : SerdeJson) (template : Template TextRange) :
    Except IndexCacheError (List UInt8) :=
  let payload := serde.toVec template.raw
  if maxTemplateBytes < payload.length then
    .error (.limitExceeded "dynamic template byte" maxTemplateBytes)
  else .ok payload

def decode (serde : SerdeJson) (payload : List UInt8) (expectedKind expectedName : Str)
    (expectedDefinitionRange : TextRange) : Except IndexCacheError (Template TextRange) := do
  if maxTemplateBytes < payload.length then
    throw (.limitExceeded "dynamic template byte" maxTemplateBytes)
  let dto ← match serde.fromSlice payload with
    | .ok dto => pure dto
    | .error e => throw (.invalidData ("invalid dynamic template payload: ".toList ++ e))
  let (template, _) ← dto.intoModel ⟨0, 0⟩
  if eqIgnoreAsciiCase template.kind expectedKind = false ∨
      eqIgnoreAsciiCase template.name expectedName = false ∨
      template.definitionRange ≠ expectedDefinitionRange then
    throw (.invalidData ("dynamic template identity does not match ".toList ++ expectedKind ++
      " ".toList ++ "`".toList ++ expectedName ++ "`".toList))
  validateTemplateRanges template
  return template

end ParadoxCode.Engine
