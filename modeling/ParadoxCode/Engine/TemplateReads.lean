import Mathlib.Tactic.Ring
import ParadoxCode.Engine.TemplateCodec

/-!
# Which payloads are read

The writer has a limit on the bytes of a payload and no other. The reader counts nodes and bytes of
texts, and JSON nests at most `recursionLimit` levels deep. The bytes of the texts are within those
of the payload, so that a template which was written is read back if and only if it has few enough
nodes and is not nested too deep.
-/

namespace ParadoxCode.Engine

open ParadoxCode.Format

variable {α β : Type}

/-! ## What is counted -/

section Counts

variable {ρ : Type}

def TemplateFragment.textBytes : TemplateFragment ρ → Nat
  | .literal text => byteLen text
  | .parameter name _ => byteLen name

def TemplateToken.nodes (token : TemplateToken ρ) : Nat := token.fragments.length

def TemplateToken.textBytes (token : TemplateToken ρ) : Nat :=
  (token.fragments.map TemplateFragment.textBytes).sum

mutual

/-- Items and fragments. -/
def TemplateItem.nodes : TemplateItem ρ → Nat
  | .recover token => 1 + token.nodes
  | .property key _ _ value => 1 + key.nodes + value.nodes
  | .bareValue token => 1 + token.nodes
  | .conditional _ _ _ items => 1 + TemplateItem.nodesAll items

def TemplateItem.nodesAll : List (TemplateItem ρ) → Nat
  | [] => 0
  | item :: items => item.nodes + TemplateItem.nodesAll items

def TemplateValue.nodes : TemplateValue ρ → Nat
  | .scalar token => token.nodes
  | .block _ items => TemplateItem.nodesAll items

end

def operatorBytes (operator : Option Str) : Nat := (operator.map byteLen).getD 0

mutual

def TemplateItem.textBytes : TemplateItem ρ → Nat
  | .recover token => token.textBytes
  | .property key _ operator value => operatorBytes operator + key.textBytes + value.textBytes
  | .bareValue token => token.textBytes
  | .conditional name _ _ items => byteLen name + TemplateItem.textBytesAll items

def TemplateItem.textBytesAll : List (TemplateItem ρ) → Nat
  | [] => 0
  | item :: items => item.textBytes + TemplateItem.textBytesAll items

def TemplateValue.textBytes : TemplateValue ρ → Nat
  | .scalar token => token.textBytes
  | .block _ items => TemplateItem.textBytesAll items

end

/-- The nodes of a template: itself, its items and the fragments of its tokens. -/
def Template.nodes (template : Template ρ) : Nat := 1 + TemplateItem.nodesAll template.items

def Template.textBytes (template : Template ρ) : Nat :=
  byteLen template.source + byteLen template.kind + byteLen template.name +
    TemplateItem.textBytesAll template.items

end Counts

/-! ## Spending -/

def Budget.Within (budget : Budget) : Prop :=
  budget.nodes ≤ maxTemplateNodes ∧ budget.textBytes ≤ maxTemplateBytes

def Budget.add (budget : Budget) (nodes textBytes : Nat) : Budget :=
  ⟨budget.nodes + nodes, budget.textBytes + textBytes⟩

/-- A conversion gives its result and spends so much, or fails where the budget has no room for
it. -/
structure Spends (m : Spend α) (result : α) (nodes textBytes : Nat) : Prop where
  gives : ∀ budget : Budget, (budget.add nodes textBytes).Within →
    m budget = .ok (result, budget.add nodes textBytes)
  fails : ∀ budget : Budget, budget.Within → ¬ (budget.add nodes textBytes).Within →
    ∃ e, m budget = .error e

namespace Spends

theorem pure (result : α) : Spends (pure result) result 0 0 :=
  ⟨fun _ _ => rfl, fun _ hwithin hfull => absurd hwithin hfull⟩

theorem bind {m : Spend α} {k : α → Spend β} {a : α} {result : β} {n n' t t' : Nat}
    (hm : Spends m a n t) (hk : Spends (k a) result n' t') :
    Spends (m >>= k) result (n + n') (t + t') := by
  have hadd : ∀ budget : Budget, budget.add (n + n') (t + t') = (budget.add n t).add n' t' := by
    intro budget
    simp only [Budget.add, Nat.add_assoc]
  constructor
  · intro budget hwithin
    have hfirst : (budget.add n t).Within := by
      obtain ⟨hnodes, htext⟩ := hwithin
      simp only [Budget.add] at hnodes htext
      exact ⟨by simp only [Budget.add]; omega, by simp only [Budget.add]; omega⟩
    rw [hadd] at hwithin ⊢
    show (m budget >>= fun p => k p.1 p.2) = _
    rw [hm.gives budget hfirst]
    exact hk.gives _ hwithin
  · intro budget hwithin hfull
    show ∃ e, (m budget >>= fun p => k p.1 p.2) = _
    by_cases hfirst : (budget.add n t).Within
    · rw [hm.gives budget hfirst]
      rw [hadd] at hfull
      exact hk.fails _ hfirst hfull
    · obtain ⟨e, he⟩ := hm.fails budget hwithin hfirst
      exact ⟨e, by rw [he]; rfl⟩

theorem of_eq {m : Spend α} {result : α} {n n' t t' : Nat} (h : Spends m result n t) (hn : n = n')
    (ht : t = t') : Spends m result n' t' := by
  subst hn ht
  exact h

theorem node : Spends Budget.node () 1 0 := by
  constructor
  · rintro budget ⟨hnodes, -⟩
    exact if_neg (Nat.not_lt.mpr hnodes)
  · rintro budget ⟨-, htext⟩ hfull
    exact ⟨_, if_pos (Nat.lt_of_not_le fun hnodes => hfull ⟨hnodes, htext⟩)⟩

theorem text (value : Str) : Spends (Budget.text value) () 0 (byteLen value) := by
  constructor
  · rintro budget ⟨-, htext⟩
    exact if_neg (Nat.not_lt.mpr htext)
  · rintro budget ⟨hnodes, -⟩ hfull
    exact ⟨_, if_pos (Nat.lt_of_not_le fun htext => hfull ⟨hnodes, htext⟩)⟩

theorem operator (operator : Option Str) :
    Spends (operator.forM Budget.text) () 0 (operatorBytes operator) := by
  cases operator with
  | none => exact pure ()
  | some operator => exact text operator

theorem range (range : TextRange) : Spends (decodeRange (rawRange range)) range 0 0 := by
  have h : decodeRange (rawRange range) = Pure.pure range := by
    unfold decodeRange rawRange TextRange.new
    dsimp only
    rw [dif_pos range.le]
  rw [h]
  exact pure range

theorem fragment (fragment : TemplateFragment TextRange) :
    Spends fragment.raw.intoModel fragment 1 fragment.textBytes := by
  cases fragment with
  | literal value =>
    rw [TemplateFragment.raw, TemplateFragment.intoModel, TemplateFragment.textBytes]
    exact of_eq (node.bind ((text value).bind (pure _))) rfl (by omega)
  | parameter name place =>
    rw [TemplateFragment.raw, TemplateFragment.intoModel, TemplateFragment.textBytes]
    exact of_eq (node.bind ((text name).bind ((range place).bind (pure _)))) rfl (by omega)

theorem fragments (fragments : List (TemplateFragment TextRange)) :
    Spends ((fragments.map TemplateFragment.raw).mapM TemplateFragment.intoModel) fragments
      fragments.length (fragments.map TemplateFragment.textBytes).sum := by
  induction fragments with
  | nil => exact pure []
  | cons first rest ih =>
    rw [List.map_cons, List.mapM_cons, List.map_cons, List.sum_cons, List.length_cons]
    exact of_eq ((fragment first).bind (ih.bind (pure _))) (by omega) (by omega)

theorem token (token : TemplateToken TextRange) :
    Spends token.raw.intoModel token token.nodes token.textBytes := by
  unfold TemplateToken.raw TemplateToken.intoModel TemplateToken.nodes TemplateToken.textBytes
  exact of_eq ((range token.range).bind ((fragments token.fragments).bind (pure _)))
    (by omega) (by omega)

mutual

theorem item : ∀ item : TemplateItem TextRange, Spends item.raw.intoModel item item.nodes
    item.textBytes
  | .recover place => by
    rw [TemplateItem.raw, TemplateItem.intoModel, TemplateItem.nodes, TemplateItem.textBytes]
    exact of_eq (node.bind ((token place).bind (pure _))) (by omega) (by omega)
  | .property key place sign content => by
    rw [TemplateItem.raw, TemplateItem.intoModel, TemplateItem.nodes, TemplateItem.textBytes]
    exact of_eq (node.bind ((operator sign).bind ((token key).bind ((range place).bind
      ((value content).bind (pure _)))))) (by omega) (by omega)
  | .bareValue place => by
    rw [TemplateItem.raw, TemplateItem.intoModel, TemplateItem.nodes, TemplateItem.textBytes]
    exact of_eq (node.bind ((token place).bind (pure _))) (by omega) (by omega)
  | .conditional name negated place below => by
    rw [TemplateItem.raw, TemplateItem.intoModel, TemplateItem.nodes, TemplateItem.textBytes]
    exact of_eq (node.bind ((text name).bind ((range place).bind ((items below).bind (pure _)))))
      (by omega) (by omega)

theorem items : ∀ items : List (TemplateItem TextRange),
    Spends (decodeItems (TemplateItem.rawAll items))
    items (TemplateItem.nodesAll items) (TemplateItem.textBytesAll items)
  | [] => by
    rw [TemplateItem.rawAll, decodeItems, TemplateItem.nodesAll, TemplateItem.textBytesAll]
    exact pure []
  | first :: rest => by
    rw [TemplateItem.rawAll, decodeItems, TemplateItem.nodesAll, TemplateItem.textBytesAll]
    exact of_eq ((item first).bind ((items rest).bind (pure _))) (by omega) (by omega)

theorem value : ∀ value : TemplateValue TextRange,
    Spends value.raw.intoModel value value.nodes value.textBytes
  | .scalar place => by
    rw [TemplateValue.raw, TemplateValue.intoModel, TemplateValue.nodes, TemplateValue.textBytes]
    exact of_eq ((token place).bind (pure _)) (by omega) (by omega)
  | .block place below => by
    rw [TemplateValue.raw, TemplateValue.intoModel, TemplateValue.nodes, TemplateValue.textBytes]
    exact of_eq ((range place).bind ((items below).bind (pure _))) (by omega) (by omega)

end

theorem template (template : Template TextRange) :
    Spends template.raw.intoModel template template.nodes template.textBytes := by
  unfold Template.raw Template.intoModel Template.nodes Template.textBytes
  exact of_eq (node.bind ((text template.source).bind ((text template.kind).bind
    ((text template.name).bind ((items template.items).bind ((range template.definitionRange).bind
      ((range template.bodyRange).bind (pure _)))))))) (by omega) (by omega)

end Spends

/-! ## The texts are in the payload -/

theorem fragmentTexts_le (fragments : List (TemplateFragment TextRange)) :
    (fragments.map TemplateFragment.textBytes).sum ≤
      Json.textBytesAll ((fragments.map TemplateFragment.raw).map TemplateFragment.json) := by
  induction fragments with
  | nil => exact Nat.zero_le _
  | cons first rest ih =>
    have hfirst : first.textBytes ≤ first.raw.json.textBytes := by
      cases first with
      | literal text => exact le_rfl
      | parameter name range => exact Nat.le_add_right _ _
    rw [List.map_cons, List.sum_cons, List.map_cons, List.map_cons, Json.textBytesAll]
    omega

theorem TemplateToken.textBytes_le (token : TemplateToken TextRange) :
    token.textBytes ≤ token.raw.json.textBytes := by
  have h := fragmentTexts_le token.fragments
  simp only [TemplateToken.textBytes, TemplateToken.raw, TemplateToken.json, Json.textBytes,
    Json.textBytesMembers, Json.textBytesMember]
  omega

theorem operatorBytes_le (operator : Option Str) :
    operatorBytes operator ≤ (operatorJson operator).textBytes := by
  cases operator with
  | none => exact Nat.zero_le _
  | some operator => exact le_rfl

theorem byteLen_eq_textBytes (text : Str) : byteLen text = (Json.string text).textBytes := rfl

mutual

theorem TemplateItem.textBytes_le : ∀ item : TemplateItem TextRange,
    item.textBytes ≤ item.raw.json.textBytes
  | .recover token => by
    have h := token.textBytes_le
    simp only [TemplateItem.textBytes, TemplateItem.raw, TemplateItem.json, Json.textBytes,
      Json.textBytesMembers, Json.textBytesMember]
    omega
  | .property key range operator value => by
    have hkey := key.textBytes_le
    have hoperator := operatorBytes_le operator
    have hvalue := value.textBytes_le
    simp only [TemplateItem.textBytes, TemplateItem.raw, TemplateItem.json, Json.textBytes,
      Json.textBytesMembers, Json.textBytesMember]
    omega
  | .bareValue token => by
    have h := token.textBytes_le
    simp only [TemplateItem.textBytes, TemplateItem.raw, TemplateItem.json, Json.textBytes,
      Json.textBytesMembers, Json.textBytesMember]
    omega
  | .conditional name negated range items => by
    have h := TemplateItem.textBytesAll_le items
    rw [TemplateItem.textBytes, byteLen_eq_textBytes]
    simp only [TemplateItem.raw, TemplateItem.json, Json.textBytes,
      Json.textBytesMembers, Json.textBytesMember]
    omega

theorem TemplateItem.textBytesAll_le : ∀ items : List (TemplateItem TextRange),
    TemplateItem.textBytesAll items ≤ Json.textBytesAll
      (TemplateItem.jsonAll (TemplateItem.rawAll items))
  | [] => Nat.zero_le _
  | item :: items => by
    have hitem := item.textBytes_le
    have hitems := TemplateItem.textBytesAll_le items
    simp only [TemplateItem.textBytesAll, TemplateItem.rawAll, TemplateItem.jsonAll,
      Json.textBytesAll]
    omega

theorem TemplateValue.textBytes_le : ∀ value : TemplateValue TextRange,
    value.textBytes ≤ value.raw.json.textBytes
  | .scalar token => by
    have h := token.textBytes_le
    simp only [TemplateValue.textBytes, TemplateValue.raw, TemplateValue.json, Json.textBytes,
      Json.textBytesMembers, Json.textBytesMember]
    omega
  | .block range items => by
    have h := TemplateItem.textBytesAll_le items
    simp only [TemplateValue.textBytes, TemplateValue.raw, TemplateValue.json, Json.textBytes,
      Json.textBytesMembers, Json.textBytesMember]
    omega

end

/-- The texts of a template take no more bytes than its payload. -/
theorem Template.textBytes_le (serde : SerdeJson) (template : Template TextRange) :
    template.textBytes ≤ (serde.toVec template.raw).length := by
  have hjson : template.textBytes ≤ template.raw.json.textBytes := by
    have h := TemplateItem.textBytesAll_le template.items
    simp only [Template.textBytes, byteLen_eq_textBytes, Template.raw, Template.json,
      Json.textBytes, Json.textBytesMembers, Json.textBytesMember]
    omega
  exact Nat.le_trans hjson (serde.texts _)

/-! ## Ranges within the definition -/

section Ranges

def TemplateFragment.ranges : TemplateFragment TextRange → List TextRange
  | .literal _ => []
  | .parameter _ range => [range]

def TemplateToken.ranges (token : TemplateToken TextRange) : List TextRange :=
  token.range :: token.fragments.flatMap TemplateFragment.ranges

mutual

def TemplateItem.ranges : TemplateItem TextRange → List TextRange
  | .recover token => token.ranges
  | .property key range _ value => range :: (key.ranges ++ value.ranges)
  | .bareValue token => token.ranges
  | .conditional _ _ range items => range :: TemplateItem.rangesAll items

def TemplateItem.rangesAll : List (TemplateItem TextRange) → List TextRange
  | [] => []
  | item :: items => item.ranges ++ TemplateItem.rangesAll items

def TemplateValue.ranges : TemplateValue TextRange → List TextRange
  | .scalar token => token.ranges
  | .block range items => range :: TemplateItem.rangesAll items

end

/-- All ranges of a template lie within its definition. -/
def Template.RangesWithin (template : Template TextRange) : Prop :=
  ∀ range ∈ template.bodyRange :: TemplateItem.rangesAll template.items,
    rangeWithin range template.definitionRange = true

variable {owner : TextRange}

theorem requireRange_ok {range : TextRange} (h : rangeWithin range owner = true) :
    requireRange range owner = .ok () := if_pos h

theorem validateTokenRange_ok {token : TemplateToken TextRange}
    (h : ∀ range ∈ token.ranges, rangeWithin range owner = true) :
    validateTokenRange token owner = .ok () := by
  have hfragments : ∀ fragments : List (TemplateFragment TextRange),
      (∀ range ∈ fragments.flatMap TemplateFragment.ranges, rangeWithin range owner = true) →
        fragments.forM (validateFragmentRange owner) = .ok () := by
    intro fragments
    induction fragments with
    | nil => exact fun _ => rfl
    | cons first rest ih =>
      intro hranges
      rw [List.flatMap_cons] at hranges
      have hfirst : validateFragmentRange owner first = .ok () := by
        cases first with
        | literal text => rfl
        | parameter name range =>
          exact requireRange_ok (hranges range (List.mem_append_left _ (List.mem_singleton_self _)))
      show (validateFragmentRange owner first >>= fun _ =>
        rest.forM (validateFragmentRange owner)) = _
      rw [hfirst]
      exact ih fun range hrange => hranges range (List.mem_append_right _ hrange)
  unfold validateTokenRange
  rw [requireRange_ok (h token.range List.mem_cons_self)]
  exact hfragments token.fragments fun range hrange => h range (List.mem_cons_of_mem _ hrange)

mutual

theorem validateItemRanges_ok : ∀ item : TemplateItem TextRange,
    (∀ range ∈ item.ranges, rangeWithin range owner = true) → validateItemRanges owner item = .ok ()
  | .recover token => fun h => by
    rw [TemplateItem.ranges] at h
    rw [validateItemRanges]
    exact validateTokenRange_ok h
  | .property key place operator value => fun h => by
    rw [TemplateItem.ranges] at h
    rw [validateItemRanges, requireRange_ok (h place List.mem_cons_self),
      validateTokenRange_ok fun range hrange =>
        h range (List.mem_cons_of_mem _ (List.mem_append_left _ hrange))]
    exact validateValueRanges_ok value fun range hrange =>
      h range (List.mem_cons_of_mem _ (List.mem_append_right _ hrange))
  | .bareValue token => fun h => by
    rw [TemplateItem.ranges] at h
    rw [validateItemRanges]
    exact validateTokenRange_ok h
  | .conditional name negated place items => fun h => by
    rw [TemplateItem.ranges] at h
    rw [validateItemRanges, requireRange_ok (h place List.mem_cons_self)]
    exact validateItemsRanges_ok items fun range hrange => h range (List.mem_cons_of_mem _ hrange)

theorem validateItemsRanges_ok : ∀ items : List (TemplateItem TextRange),
    (∀ range ∈ TemplateItem.rangesAll items, rangeWithin range owner = true) →
      validateItemsRanges owner items = .ok ()
  | [] => fun _ => by rw [validateItemsRanges]
  | item :: items => fun h => by
    rw [TemplateItem.rangesAll] at h
    rw [validateItemsRanges,
      validateItemRanges_ok item fun range hrange => h range (List.mem_append_left _ hrange)]
    exact validateItemsRanges_ok items fun range hrange => h range (List.mem_append_right _ hrange)

theorem validateValueRanges_ok : ∀ value : TemplateValue TextRange,
    (∀ range ∈ value.ranges, rangeWithin range owner = true) →
    validateValueRanges owner value = .ok ()
  | .scalar token => fun h => by
    rw [TemplateValue.ranges] at h
    rw [validateValueRanges]
    exact validateTokenRange_ok h
  | .block place items => fun h => by
    rw [TemplateValue.ranges] at h
    rw [validateValueRanges, requireRange_ok (h place List.mem_cons_self)]
    exact validateItemsRanges_ok items fun range hrange => h range (List.mem_cons_of_mem _ hrange)

end

theorem Template.RangesWithin.validate {template : Template TextRange} (h : template.RangesWithin) :
    validateTemplateRanges template = .ok () := by
  unfold validateTemplateRanges
  rw [h template.bodyRange List.mem_cons_self]
  exact validateItemsRanges_ok template.items fun range hrange =>
    h range (List.mem_cons_of_mem _ hrange)

end Ranges

/-! ## Compact payloads -/

section Compact

/-- The compact text of the value. -/
def compact (template : Template RawRange) : List UInt8 := Utf8.encode template.json.print

theorem rangeJson_inj {a b : RawRange} (h : rangeJson a = rangeJson b) : a = b := by
  obtain ⟨start, stop⟩ := a
  obtain ⟨start', stop'⟩ := b
  simpa [rangeJson] using h

theorem TemplateFragment.json_inj {a b : TemplateFragment RawRange}
    (h : a.json = b.json) : a = b := by
  cases a with
  | literal text =>
    cases b with
    | literal text' => simpa [TemplateFragment.json] using h
    | parameter name range => simp [TemplateFragment.json] at h
  | parameter name range =>
    cases b with
    | literal text => simp [TemplateFragment.json] at h
    | parameter name' range' =>
      simp only [TemplateFragment.json, Json.object.injEq, List.cons.injEq, Prod.mk.injEq, true_and,
        and_true, Json.string.injEq] at h
      rw [h.1, rangeJson_inj h.2]

theorem TemplateToken.json_inj {a b : TemplateToken RawRange} (h : a.json = b.json) : a = b := by
  obtain ⟨range, quoted, fragments⟩ := a
  obtain ⟨range', quoted', fragments'⟩ := b
  simp only [TemplateToken.json, Json.object.injEq, List.cons.injEq, Prod.mk.injEq,
    true_and, and_true, Json.bool.injEq, Json.array.injEq] at h
  have hfragments : fragments = fragments' :=
    List.map_injective_iff.mpr (fun _ _ => TemplateFragment.json_inj) h.2.2
  rw [rangeJson_inj h.1, h.2.1, hfragments]

theorem operatorJson_inj {a b : Option Str} (h : operatorJson a = operatorJson b) : a = b := by
  cases a <;> cases b <;> simp_all [operatorJson]

mutual

theorem TemplateItem.json_inj : ∀ a b : TemplateItem RawRange, a.json = b.json → a = b
  | .recover token, b, h => by
    cases b with
    | recover token' =>
      simp only [TemplateItem.json, Json.object.injEq, List.cons.injEq, Prod.mk.injEq, true_and,
        and_true] at h
      rw [TemplateToken.json_inj h]
    | property key range operator value => simp [TemplateItem.json] at h
    | bareValue token' => simp [TemplateItem.json] at h
    | conditional name negated range items => simp [TemplateItem.json] at h
  | .property key range operator value, b, h => by
    cases b with
    | recover token => simp [TemplateItem.json] at h
    | property key' range' operator' value' =>
      simp only [TemplateItem.json, Json.object.injEq, List.cons.injEq, Prod.mk.injEq, true_and,
        and_true] at h
      rw [TemplateToken.json_inj h.1, rangeJson_inj h.2.1, operatorJson_inj h.2.2.1,
        TemplateValue.json_inj value value' h.2.2.2]
    | bareValue token => simp [TemplateItem.json] at h
    | conditional name negated range items => simp [TemplateItem.json] at h
  | .bareValue token, b, h => by
    cases b with
    | recover token' => simp [TemplateItem.json] at h
    | property key range operator value => simp [TemplateItem.json] at h
    | bareValue token' =>
      simp only [TemplateItem.json, Json.object.injEq, List.cons.injEq, Prod.mk.injEq, true_and,
        and_true] at h
      rw [TemplateToken.json_inj h]
    | conditional name negated range items => simp [TemplateItem.json] at h
  | .conditional name negated range items, b, h => by
    cases b with
    | recover token => simp [TemplateItem.json] at h
    | property key range operator value => simp [TemplateItem.json] at h
    | bareValue token => simp [TemplateItem.json] at h
    | conditional name' negated' range' items' =>
      simp only [TemplateItem.json, Json.object.injEq, List.cons.injEq, Prod.mk.injEq, true_and,
        and_true, Json.string.injEq, Json.bool.injEq, Json.array.injEq] at h
      rw [h.1, h.2.1, rangeJson_inj h.2.2.1, TemplateItem.jsonAll_inj items items' h.2.2.2]

theorem TemplateItem.jsonAll_inj : ∀ a b : List (TemplateItem RawRange),
    TemplateItem.jsonAll a = TemplateItem.jsonAll b → a = b
  | [], [], _ => rfl
  | [], b :: bs, h => by simp [TemplateItem.jsonAll] at h
  | a :: as, [], h => by simp [TemplateItem.jsonAll] at h
  | a :: as, b :: bs, h => by
    simp only [TemplateItem.jsonAll, List.cons.injEq] at h
    rw [TemplateItem.json_inj a b h.1, TemplateItem.jsonAll_inj as bs h.2]

theorem TemplateValue.json_inj : ∀ a b : TemplateValue RawRange, a.json = b.json → a = b
  | .scalar token, b, h => by
    cases b with
    | scalar token' =>
      simp only [TemplateValue.json, Json.object.injEq, List.cons.injEq, Prod.mk.injEq, true_and,
        and_true] at h
      rw [TemplateToken.json_inj h]
    | block range items => simp [TemplateValue.json] at h
  | .block range items, b, h => by
    cases b with
    | scalar token => simp [TemplateValue.json] at h
    | block range' items' =>
      simp only [TemplateValue.json, Json.object.injEq, List.cons.injEq, Prod.mk.injEq, true_and,
        and_true, Json.array.injEq] at h
      rw [rangeJson_inj h.1, TemplateItem.jsonAll_inj items items' h.2]

end

/-- A payload is written for one template only. -/
theorem compact_injective : Function.Injective compact := by
  intro a b h
  have hjson := Json.print_injective (Utf8.encode_injective h)
  obtain ⟨source, kind, name, definitionRange, bodyRange, items⟩ := a
  obtain ⟨source', kind', name', definitionRange', bodyRange', items'⟩ := b
  simp only [Template.json, Json.object.injEq, List.cons.injEq, Prod.mk.injEq, true_and, and_true,
    Json.string.injEq, Json.array.injEq] at hjson
  obtain ⟨rfl, rfl, rfl, hdefinition, hbody, hitems⟩ := hjson
  rw [rangeJson_inj hdefinition, rangeJson_inj hbody, TemplateItem.jsonAll_inj items items' hitems]

end Compact

/-! ## Nested templates -/

/-- A token at the start of the definition. -/
def wordToken (word : String) : TemplateToken TextRange :=
  ⟨.empty 0, false, [.literal word.toList]⟩

/-- Blocks `limit = { limit = .. }` nested in each other. -/
def nestedItems : Nat → List (TemplateItem TextRange)
  | 0 => []
  | depth + 1 => [.property (wordToken "limit") (.empty 0) (some ['='])
      (.block (.empty 0) (nestedItems depth))]

def nestedTemplate (depth : Nat) : Template TextRange :=
  ⟨[], "scripted_trigger".toList, "deep".toList, .empty 0, .empty 0, nestedItems depth⟩

theorem nestedTemplate_within (depth : Nat) : (nestedTemplate depth).RangesWithin := by
  have hitems : ∀ range ∈ TemplateItem.rangesAll (nestedItems depth), range = .empty 0 := by
    induction depth with
    | zero => simp [nestedItems, TemplateItem.rangesAll]
    | succ depth ih =>
      simpa [nestedItems, TemplateItem.rangesAll, TemplateItem.ranges, TemplateValue.ranges,
        TemplateToken.ranges, TemplateFragment.ranges, wordToken] using ih
  intro range hrange
  rcases List.mem_cons.mp hrange with rfl | hrange
  · rfl
  · rw [hitems range hrange]
    rfl

/-- A block around items has the same text around theirs. -/
theorem length_printElements_block (items : List (TemplateItem TextRange)) :
    (Json.printElements [] (TemplateItem.jsonAll (TemplateItem.rawAll
        [.property (wordToken "limit") (.empty 0) (some ['='])
          (.block (.empty 0) items)]))).length =
      159 + (Json.printElements [] (TemplateItem.jsonAll (TemplateItem.rawAll items))).length := by
  simp [TemplateItem.jsonAll, TemplateItem.rawAll, TemplateItem.raw, TemplateItem.json,
    TemplateValue.raw, TemplateValue.json, TemplateToken.json, TemplateToken.raw, wordToken,
    Json.printElements, Json.print, Json.printMembers, Json.printMember, Json.printString,
      rangeJson, rawRange, TextRange.empty,
    operatorJson, TemplateFragment.raw, TemplateFragment.json, Json.escape]
  omega

theorem length_printElements_nested (depth : Nat) :
    (Json.printElements []
      (TemplateItem.jsonAll (TemplateItem.rawAll (nestedItems depth)))).length =
      159 * depth + 1 := by
  induction depth with
  | zero => rfl
  | succ depth ih =>
    rw [nestedItems, length_printElements_block, ih]
    omega

theorem length_encode_le (text : Str) : (Utf8.encode text).length ≤ 4 * text.length := by
  induction text with
  | nil => exact le_rfl
  | cons c text ih =>
    have hsize := c.utf8Size_le_four
    rw [Utf8.encode_cons, List.length_append, String.length_utf8EncodeChar, List.length_cons]
    omega

theorem length_compact_nested (depth : Nat) :
    (compact (nestedTemplate depth).raw).length ≤ 4 * (159 * depth + 200) := by
  have hlength : (Template.json (nestedTemplate depth).raw).print.length ≤ 159 * depth + 200 := by
    have hitems := length_printElements_nested depth
    simp [nestedTemplate, Template.raw, Template.json, Json.print, Json.printMembers,
      Json.printMember, Json.printString, Json.printElements, rangeJson, rawRange, TextRange.empty,
      Json.escape, hitems]
  have hbytes := length_encode_le (Template.json (nestedTemplate depth).raw).print
  unfold compact
  omega

/-- Every block nests the JSON five levels deeper. -/
theorem depth_nested (depth : Nat) : (Template.json (nestedTemplate depth).raw).depth =
    5 * depth + 2 := by
  have hitems : Json.depths (TemplateItem.jsonAll (TemplateItem.rawAll (nestedItems depth))) =
      5 * depth := by
    induction depth with
    | zero => rfl
    | succ depth ih =>
      simp [nestedItems, TemplateItem.rawAll, TemplateItem.raw, TemplateValue.raw,
        TemplateItem.jsonAll, TemplateItem.json, TemplateValue.json, TemplateToken.raw,
        TemplateToken.json, wordToken, TemplateFragment.raw, TemplateFragment.json, operatorJson,
        rangeJson, Json.depths, Json.depth, Json.depthMembers, Json.depthMember, ih]
      omega
  simp [nestedTemplate, Template.raw, Template.json, rangeJson, Json.depth, Json.depths,
    Json.depthMembers, Json.depthMember, hitems]
  omega

/-! ## Reading back -/

theorem encode_ok {serde : SerdeJson} {template : Template TextRange}
    (h : (serde.toVec template.raw).length ≤ maxTemplateBytes) :
    encode serde template = .ok (serde.toVec template.raw) :=
  if_neg (Nat.not_lt.mpr h)

/-- What was read from the payload of a template goes into the model if it has few enough nodes. -/
theorem intoModel_iff {template : Template TextRange} (h : template.textBytes ≤ maxTemplateBytes) :
    if template.nodes ≤ maxTemplateNodes then
      template.raw.intoModel ⟨0, 0⟩ = .ok (template, ⟨template.nodes, template.textBytes⟩)
    else ∃ e, template.raw.intoModel ⟨0, 0⟩ = .error e := by
  have hspends := Spends.template template
  have hadd : Budget.add ⟨0, 0⟩ template.nodes template.textBytes =
      ⟨template.nodes, template.textBytes⟩ := by
    simp [Budget.add]
  split_ifs with hnodes
  · rw [hspends.gives ⟨0, 0⟩ (by rw [hadd]; exact ⟨hnodes, h⟩), hadd]
  · refine hspends.fails ⟨0, 0⟩ ⟨Nat.zero_le _, Nat.zero_le _⟩ ?_
    rw [hadd]
    exact fun hwithin => hnodes hwithin.1

/-- A library as it is relied on: it writes compact payloads, and looks for the template that one is
written for. -/
noncomputable def searchingSerde : SerdeJson where
  toVec := compact
  fromSlice payload :=
    open Classical in
    if h : ∃ template, compact template = payload then
      if h.choose.json.depth ≤ recursionLimit then .ok h.choose
      else .error "recursion limit exceeded".toList
    else .error "expected value".toList
  texts template := Json.textBytes_le template.json
  reads template hdepth := by
    have hexists : ∃ other, compact other = compact template := ⟨template, rfl⟩
    have hchoose : hexists.choose = template := compact_injective hexists.choose_spec
    rw [dif_pos hexists, hchoose, if_pos hdepth]
  rejects template hdepth := by
    have hexists : ∃ other, compact other = compact template := ⟨template, rfl⟩
    have hchoose : hexists.choose = template := compact_injective hexists.choose_spec
    rw [dif_pos hexists, hchoose, if_neg (Nat.not_le.mpr hdepth)]
    exact ⟨_, rfl⟩

/-- A payload that was written is read back to the template if and only if the template has few
enough nodes and its JSON is not nested too deep. -/
theorem decode_encode_iff (serde : SerdeJson) {template : Template TextRange} {payload : List UInt8}
    (hranges : template.RangesWithin) (hencode : encode serde template = .ok payload) :
    decode serde payload template.kind template.name template.definitionRange = .ok template ↔
      template.nodes ≤ maxTemplateNodes ∧ template.raw.json.depth ≤ recursionLimit := by
  have hsize : payload = serde.toVec template.raw ∧ payload.length ≤ maxTemplateBytes := by
    unfold encode at hencode
    dsimp only at hencode
    split_ifs at hencode with hlong
    cases hencode
    exact ⟨rfl, Nat.le_of_not_lt hlong⟩
  obtain ⟨rfl, hlength⟩ := hsize
  unfold decode
  rw [if_neg (Nat.not_lt.mpr hlength)]
  by_cases hdepth : template.raw.json.depth ≤ recursionLimit
  · rw [serde.reads _ hdepth]
    have hmodel := intoModel_iff (Nat.le_trans (template.textBytes_le serde) hlength)
    split_ifs at hmodel with hnodes
    · refine iff_of_true ?_ ⟨hnodes, hdepth⟩
      show (template.raw.intoModel ⟨0, 0⟩ >>= _) = _
      rw [hmodel]
      have hidentity : ¬ (eqIgnoreAsciiCase template.kind template.kind = false ∨
          eqIgnoreAsciiCase template.name template.name = false ∨
          template.definitionRange ≠ template.definitionRange) := by
        simp [eqIgnoreAsciiCase]
      dsimp only [bind, Except.bind]
      rw [if_neg hidentity]
      dsimp only [pure, Except.pure]
      rw [hranges.validate]
    · obtain ⟨e, he⟩ := hmodel
      refine iff_of_false ?_ fun h => hnodes h.1
      show (template.raw.intoModel ⟨0, 0⟩ >>= _) ≠ _
      rw [he]
      rintro ⟨⟩
  · obtain ⟨e, he⟩ := serde.rejects _ (Nat.lt_of_not_le hdepth)
    refine iff_of_false ?_ fun h => hdepth h.2
    rw [he]
    rintro ⟨⟩

/-- A block in a block is read back. -/
theorem decode_encode_iff_nested :
    encode searchingSerde (nestedTemplate 2) = .ok (searchingSerde.toVec (nestedTemplate 2).raw) ∧
      (decode searchingSerde (searchingSerde.toVec (nestedTemplate 2).raw) (nestedTemplate 2).kind
          (nestedTemplate 2).name (nestedTemplate 2).definitionRange = .ok (nestedTemplate 2) ↔
        (nestedTemplate 2).nodes ≤ maxTemplateNodes ∧
          (nestedTemplate 2).raw.json.depth ≤ recursionLimit) := by
  have hlength : (searchingSerde.toVec (nestedTemplate 2).raw).length ≤ maxTemplateBytes :=
    Nat.le_trans (length_compact_nested 2) (by decide)
  exact ⟨encode_ok hlength,
    decode_encode_iff searchingSerde (nestedTemplate_within 2) (encode_ok hlength)⟩

/-- A template of 26 blocks in each other is written and not read. -/
theorem decode_encode_fails :
    ¬ ∀ (serde : SerdeJson) (template : Template TextRange) (payload : List UInt8),
      template.RangesWithin → encode serde template = .ok payload →
        decode serde payload template.kind template.name template.definitionRange =
          .ok template := by
  intro h
  have hlength := length_compact_nested 26
  have hlimit : (searchingSerde.toVec (nestedTemplate 26).raw).length ≤ maxTemplateBytes :=
    Nat.le_trans hlength (by decide)
  have hread := h searchingSerde _ _ (nestedTemplate_within 26) (encode_ok hlimit)
  obtain ⟨e, he⟩ := searchingSerde.rejects (nestedTemplate 26).raw (by rw [depth_nested]; decide)
  unfold decode at hread
  rw [if_neg (Nat.not_lt.mpr hlimit), he] at hread
  cases hread

end ParadoxCode.Engine
