import Mathlib.Data.List.DropRight
import ParadoxCode.Parser.File
import ParadoxCode.Parser.ScriptReads

/-!
# The parse of a script

Every round of the parser's loop takes one item off the text. The parse of a source below 1 GiB has
the nodes, the tokens and the errors of the items of its text.
-/

namespace ParadoxCode.Script

open ParadoxCode.Parser
open Run (bind_of_eq_some read_bind)

section

variable {σ : Type} {source : Str} {container : Option UInt8 → ParseM σ Unit}
  {read : Option Char → Str → Option (List Item × Str)} {held : Nat} {pending : List CstNode}
  {cs rest rest' : Str} {items : List Item} {item : Item} {p p₁ p' : Parser σ}

/-! ## Items -/

/-- A run from `p` on queues the nodes of an item, and stops in the whitespace before `rest`. -/
structure Appends (source : Str) (held : Nat) (pending : List CstNode) (place : Place) (item : Item)
    (rest gap stop : Str) (p p' : Parser σ) : Prop where
  rest : rest = gap ++ stop
  spaces : ∀ c ∈ gap, isSpace c = true
  adds : Adds source held (pending ++ item.nodes p.position) stop (item.tokens p.position)
    (item.errors (byteLen source) place p.position) (CstNode.sizes (item.nodes p.position)) p p'

theorem Returns.push {place : Place} {node : CstNode} {index : Nat} {gap stop : Str}
    (h : Returns source held pending place item rest node index gap stop p p₁) :
    ∃ p', Script.push index p₁ = some ((), p') ∧
      Appends source held pending place item rest gap stop p p' := by
  obtain ⟨p', h', hadds⟩ := push_adds h.yields.adds.stands h.yields.holds
  refine ⟨p', h', h.rest, h.spaces, ?_⟩
  rw [h.nodes, sizes_singleton]
  exact (h.yields.adds.trans hadds).of_eq (List.append_nil _) (List.append_nil _) (Nat.add_zero _)

theorem operatorStartsHere_eq (h : Stands source held pending cs p) :
    operatorStartsHere source p = some (cs.head?.any startsOperator, p) := by
  unfold operatorStartsHere
  rw [bind_of_eq_some (peek_eq h)]
  simp only [head_encode '=' (show (0x3D : UInt8) = _ from rfl) (by decide),
    head_encode '<' (show (0x3C : UInt8) = _ from rfl) (by decide),
    head_encode '>' (show (0x3E : UInt8) = _ from rfl) (by decide),
    head_encode '!' (show (0x21 : UInt8) = _ from rfl) (by decide),
    head_encode '?' (show (0x3F : UInt8) = _ from rfl) (by decide)]
  cases cs with
  | nil => rfl
  | cons c cs =>
    rw [Run.pure_apply]
    simp only [List.head?_cons, Option.some_inj, Option.any_some]
    rfl

/-- What follows a scalar. `alone` is what is done about a scalar that stands alone. -/
theorem afterScalar_spec (hc : Computes source container read) (hlen : byteLen source ≤ u32Max)
    (place : Place) {scalar : Scalar} {first : Nat} (hs : scalar.text ≠ [])
    (h : Stands source held pending (scalar.text ++ cs) p)
    (h₁ : Yields source held pending cs (scalar.tokens p.position) (scalar.errors p.position)
      (scalar.node p.position) first p p₁)
    (hroom : p.tree.count + 3 * byteLen (scalar.text ++ cs) < u32Max) {alone : ParseM σ Unit}
    (halone : ∀ q : Parser σ, Stands source (held + 1) pending (cs.dropWhile isSpace) q →
      q.tree.Holds first (scalar.node p.position) → q.tree.InU32 → ∃ q', alone q = some ((), q') ∧
        Adds source (held + 1) pending (cs.dropWhile isSpace) []
          (scalar.unassigned place p.position)
          0 q q') (hread : readScalar read scalar cs = some (item, rest)) :
    ∃ gap stop p', afterScalar none source container p.position first alone p₁ = some ((), p') ∧
      Appends source held pending place item rest gap stop p p' := by
  obtain ⟨p₂, h₂, hadds₂⟩ := skipWhitespace_spec h₁.adds.stands
  have hoperator := operatorStartsHere_eq hadds₂.stands
  have hbrace := head_encode '\x7B' (show (0x7B : UInt8) = _ from rfl) (by decide)
    (cs.dropWhile isSpace)
  have hyields : Yields source held pending (cs.dropWhile isSpace) (scalar.tokens p.position)
      (scalar.errors p.position) (scalar.node p.position) first p p₂ :=
    ⟨(h₁.adds.trans hadds₂).of_eq (List.append_nil _) (List.append_nil _) (Nat.add_zero _),
      h₁.holds.mono hadds₂.grows⟩
  have hsplit : scalar.text ++ cs = (scalar.text ++ cs.takeWhile isSpace) ++
    cs.dropWhile isSpace := by
    rw [List.append_assoc, List.takeWhile_append_dropWhile]
  unfold afterScalar
  rw [bind_of_eq_some h₂, bind_of_eq_some hoperator]
  have hscalar (hbrace : (cs.dropWhile isSpace).head? ≠ some '\x7B')
      (hread : some (Item.scalar scalar, cs) = some (item, rest)) :
      ∃ gap stop p', (do
          let byte ← peek source
          if byte = some 0x7B then do
            let header ← parseHeader none source container p.position first
            push header
          else do
            alone
            push first : ParseM σ Unit) p₂ = some ((), p') ∧
        Appends source held pending place item rest gap stop p p' := by
    cases hread
    have hu32 : u32Max < 2 ^ 32 := by decide
    have hcount : p₂.tree.count = p.tree.count + 1 := hyields.adds.count
    have hpos := byteLen_pos hs
    rw [byteLen_append] at hroom
    obtain ⟨p₃, h₃, hadds₃⟩ := halone p₂ hyields.adds.stands hyields.holds
      (by unfold SyntaxTreeBuilder.InU32; omega)
    have hreturns : Returns source held pending place (.scalar scalar) cs (scalar.node p.position)
        first (cs.takeWhile isSpace) (cs.dropWhile isSpace) p p₃ :=
      ⟨by rw [Item.nodes], List.takeWhile_append_dropWhile.symm,
        List.all_eq_true.mp List.all_takeWhile,
        (hyields.adds.trans hadds₃).of_eq (by rw [Item.tokens, List.append_nil])
          (by rw [Item.errors]) (Nat.add_zero _), hyields.holds.mono hadds₃.grows⟩
    obtain ⟨p₄, h₄, happends⟩ := hreturns.push
    refine ⟨_, _, p₄, ?_, happends⟩
    have hno : ¬(Utf8.encode (cs.dropWhile isSpace)).head? = some 0x7B :=
      fun hb => hbrace ((head_encode '\x7B' rfl (by decide) _).mp hb)
    rw [bind_of_eq_some (peek_eq hyields.adds.stands), if_neg hno, bind_of_eq_some h₃, h₄]
  unfold readScalar at hread
  split at hread
  · rename_i c cs' hcs
    split_ifs at hread with hstarts
    · -- a property
      rw [hsplit, hcs] at h hroom
      rw [hcs] at hyields
      obtain ⟨node, index, gap, stop, p₃, h₃, hreturns⟩ :=
        parseProperty_spec hc hlen place hs hstarts h hyields hroom hread
      obtain ⟨p₄, h₄, happends⟩ := hreturns.push
      refine ⟨gap, stop, p₄, ?_, happends⟩
      rw [hcs, List.head?_cons, Option.any_some, if_pos hstarts, bind_of_eq_some h₃, h₄]
    · rw [hcs, List.head?_cons, Option.any_some, if_neg hstarts]
      unfold readHeader at hread
      dsimp only at hread
      split at hread
      · -- a header
        rename_i rest' hrest
        obtain ⟨⟨block, rest''⟩, hblock, hread⟩ := Option.map_eq_some_iff.mp hread
        obtain ⟨rfl, rfl⟩ := Prod.mk.inj hread
        rw [hsplit, hrest] at h hroom
        rw [hrest] at hyields hbrace
        obtain ⟨node, index, p₃, h₃, hreturns⟩ :=
          parseHeader_spec hc hlen place hs h hyields hroom hblock
        obtain ⟨p₄, h₄, happends⟩ := hreturns.push
        refine ⟨[], _, p₄, ?_, happends⟩
        rw [bind_of_eq_some (peek_eq hyields.adds.stands), if_pos (hbrace.mpr rfl),
          bind_of_eq_some h₃, h₄]
      · rename_i hno
        refine hscalar (fun hhead => ?_) hread
        obtain ⟨tail, htail⟩ := List.head?_eq_some_iff.mp hhead
        exact hno tail htail
  · rename_i hnil
    rw [hnil]
    refine hscalar (fun hhead => ?_) hread
    rw [hnil] at hhead
    cases hhead

/-- The report on a string at top level that is no key. -/
theorem unassigned_spec (terminator : Option Char) {scalar : Scalar} {start quoted : Nat}
    (hlen : byteLen source ≤ u32Max) (hstop : start + byteLen scalar.text ≤ byteLen source)
    (hs : scalar.kind = .quotedString) (h : Stands source held pending cs p)
    (hi : p.tree.Holds quoted (scalar.node start)) (hfit : p.tree.InU32) :
    ∃ p', unassigned (terminator.map fun c => UInt8.ofNat c.toNat) start quoted p = some ((), p') ∧
      Adds source held pending cs [] (scalar.unassigned (placeIn terminator) start) 0 p p' := by
  cases scalar with
  | bare word => cases hs
  | quoted body closed =>
    unfold unassigned Scalar.unassigned
    cases terminator with
    | some c => exact ⟨p, rfl, Adds.refl h⟩
    | none =>
      have hrange := nodeRange_eq_some hi hfit
      have hend : ((Scalar.quoted body closed).node start).range.stop =
          start + byteLen (Scalar.quoted body closed).text :=
        range_stop (Nat.le_add_right _ _) (by omega)
      rw [Option.map_none, if_pos rfl, bind_of_eq_some hrange, hend]
      exact error_adds h _ _ _ _

/-- The report on a closing delimiter that closes nothing, with an error node in its place. -/
theorem stray_spec {c : Char} (hsize : byteLen [c] = 1) (place : Place)
    (h : Stands source held pending (c :: cs) p) (message : String) :
    ∃ p', (do
        advance 1
        let stop ← position
        error .unexpectedToken p.position stop message
        let recovery ← node none source .error p.position stop 0
        push recovery : ParseM σ Unit) p = some ((), p') ∧
      Appends source held pending place (.stray c message) cs [] cs p p' := by
  have hcs : Stands source held pending ([c] ++ cs) p := h
  obtain ⟨p₁, h₁, hadds₁⟩ := advance_adds hcs hsize.symm
  have hposition := hcs.position_eq hadds₁.stands
  obtain ⟨p₂, h₂, hadds₂⟩ := error_adds hadds₁.stands .unexpectedToken p.position
    p₁.position message
  obtain ⟨index, p₃, h₃, hadds₃, hholds⟩ := leaf_adds hadds₂.stands .error p.position p₁.position
  rw [hposition] at hholds hadds₂
  have hyields : Yields source held pending cs (Item.tokens p.position (.stray c message))
      (Item.errors (byteLen source) place p.position (.stray c message))
      (spanning .error p.position [c] []) index p p₃ :=
    ⟨(hadds₁.after (hadds₂.trans hadds₃)).of_eq (by rw [Item.tokens]; rfl)
      (by rw [Item.errors]; rfl) (by rw [size_spanning]; rfl), hholds⟩
  obtain ⟨p₄, h₄, happends⟩ :=
    (Returns.of_yields place (.stray c message) (by rw [Item.nodes]) hyields).push
  refine ⟨p₄, ?_, happends⟩
  rw [bind_of_eq_some h₁, position, read_bind, bind_of_eq_some h₂,
    bind_of_eq_some h₃, h₄]

/-- The rounds that start with no comment and no closing delimiter. -/
theorem parseItem_eq (container : Option UInt8 → ParseM σ Unit) (terminator : Option UInt8)
    (h : Stands source held pending cs p)
    (hhash : cs.head? ≠ some '#') (hbrace : cs.head? ≠ some '\x7D')
    (hbracket : cs.head? ≠ some ']') :
    parseItem none source container terminator p = (do
      let first ← parseBare none source
      match first with
      | some first => afterScalar none source container p.position first (pure ())
      | none => do
        let byte ← peek source
        if byte = some 0x7B then do
          let block ← parseBlock none source container
          push block
        else if byte = some 0x22 then do
          let quoted ← parseQuoted none source .quotedString
          afterScalar none source container p.position quoted
            (unassigned terminator p.position quoted)
        else do
          let parameter ← startsParameterBlock source
          if parameter then do
            let parameter ← parseParameterBlock none source container
            push parameter
          else do
            let recovery ← recover none source p.position fun text =>
              "unexpected character `" ++ text ++ "`"
            push recovery : ParseM σ Unit) p := by
  have hhash' : ¬(Utf8.encode cs).head? = some 0x23 :=
    fun hb => hhash ((head_encode '#' rfl (by decide) cs).mp hb)
  have hclose : ¬((Utf8.encode cs).head? = some 0x7D ∨ (Utf8.encode cs).head? = some 0x5D) :=
    fun hb => hb.elim (fun hb => hbrace ((head_encode '\x7D' rfl (by decide) cs).mp hb))
      fun hb => hbracket ((head_encode ']' rfl (by decide) cs).mp hb)
  unfold parseItem
  rw [position, read_bind, bind_of_eq_some (peek_eq h), if_neg hhash']
  exact congrFun (if_neg hclose) p

theorem parseItem_spec (hc : Computes source container read) (hlen : byteLen source ≤ u32Max)
    (terminator : Option Char) (h : Stands source held pending cs p)
    (hroom : p.tree.count + 3 * byteLen cs < u32Max)
    (hread : readItem read cs = some (item, rest)) :
    ∃ gap stop p', parseItem none source container (terminator.map fun c => UInt8.ofNat c.toNat) p =
        some ((), p') ∧
      Appends source held pending (placeIn terminator) item rest gap stop p p' := by
  have hparameter := startsParameterBlock_eq h
  have hhash := head_encode '#' (show (0x23 : UInt8) = _ from rfl) (by decide) cs
  have hclose := head_encode '\x7D' (show (0x7D : UInt8) = _ from rfl) (by decide) cs
  have hclose' := head_encode ']' (show (0x5D : UInt8) = _ from rfl) (by decide) cs
  have hquote := head_encode '"' (show (0x22 : UInt8) = _ from rfl) (by decide) cs
  have hbrace := head_encode '\x7B' (show (0x7B : UInt8) = _ from rfl) (by decide) cs
  unfold readItem at hread
  split at hread
  · -- a comment
    obtain ⟨rfl, rfl⟩ := Prod.mk.inj (Option.some.inj hread)
    obtain ⟨index, p₁, h₁, hyields⟩ := parseComment_spec h
    obtain ⟨p₂, h₂, happends⟩ := (Returns.of_yields (placeIn terminator)
      (.comment _) (by rw [Item.nodes])
      (hyields.of_eq (by rw [Item.tokens]) (by rw [Item.errors]) rfl)).push
    refine ⟨[], _, p₂, ?_, happends⟩
    unfold parseItem
    rw [position, read_bind, bind_of_eq_some (peek_eq h), if_pos (hhash.mpr rfl),
      bind_of_eq_some h₁, h₂]
  · obtain ⟨rfl, rfl⟩ := Prod.mk.inj (Option.some.inj hread)
    obtain ⟨p₁, h₁, happends⟩ := stray_spec (by decide) (placeIn terminator) h "unexpected `\x7d`"
    refine ⟨[], _, p₁, ?_, happends⟩
    unfold parseItem
    rw [position, read_bind, bind_of_eq_some (peek_eq h),
      if_neg (fun hb => absurd (hhash.mp hb) (by simp)), if_pos (Or.inl (hclose.mpr rfl)),
      if_pos (hclose.mpr rfl)]
    exact h₁
  · obtain ⟨rfl, rfl⟩ := Prod.mk.inj (Option.some.inj hread)
    obtain ⟨p₁, h₁, happends⟩ := stray_spec (by decide) (placeIn terminator) h "unexpected `]`"
    refine ⟨[], _, p₁, ?_, happends⟩
    unfold parseItem
    rw [position, read_bind, bind_of_eq_some (peek_eq h),
      if_neg (fun hb => absurd (hhash.mp hb) (by simp)), if_pos (Or.inr (hclose'.mpr rfl)),
      if_neg (fun hb => absurd (hclose.mp hb) (by simp))]
    exact h₁
  · -- a block
    obtain ⟨p₁, h₁, hadds₁⟩ := parseBare_none h (List.takeWhile_cons_of_neg (by decide))
    have hposition : p₁.position = p.position := h.position_same hadds₁.stands
    obtain ⟨node, index, p₂, h₂, hreturns⟩ := parseBlock_spec hc (placeIn terminator) hadds₁.stands
      (by rw [hadds₁.count]; exact hroom) hread
    have hreturns' : Returns source held pending (placeIn terminator) item rest node index [] rest p
        p₂ := by
      have hnodes := hreturns.nodes
      have hyields := hreturns.yields
      rw [hposition] at hnodes hyields
      exact .of_yields _ _ hnodes (hadds₁.yields hyields)
    obtain ⟨p₃, h₃, happends⟩ := hreturns'.push
    refine ⟨[], _, p₃, ?_, happends⟩
    rw [parseItem_eq _ _ h (by simp) (by simp) (by simp), bind_of_eq_some h₁]
    dsimp only
    rw [bind_of_eq_some (peek_eq hadds₁.stands), if_pos (hbrace.mpr rfl),
      bind_of_eq_some h₂, h₃]
  · -- a string
    rename_i cs
    rcases hquoted : readQuoted cs with ⟨scalar, rest'⟩
    rw [hquoted] at hread
    have heq := readQuoted_eq hquoted
    have hkind : scalar.kind = .quotedString := by
      cases hquoted
      rfl
    obtain ⟨p₁, h₁, hadds₁⟩ := parseBare_none h (List.takeWhile_cons_of_neg (by decide))
    have hposition : p₁.position = p.position := h.position_same hadds₁.stands
    obtain ⟨index, p₂, h₂, hyields⟩ := parseQuoted_spec hadds₁.stands hquoted
    rw [hposition] at hyields
    rw [heq] at h hroom
    have hlength := h.length
    rw [byteLen_append] at hlength
    obtain ⟨gap, stop, p₃, h₃, happends⟩ := afterScalar_spec hc hlen
      (placeIn terminator) (by cases hquoted; exact quoted_ne_nil cs) h
      (hadds₁.yields hyields) hroom
      (fun q hq hi hfit => unassigned_spec terminator hlen (by omega) hkind hq hi hfit)
      hread
    refine ⟨gap, stop, p₃, ?_, happends⟩
    rw [← heq] at h
    rw [parseItem_eq _ _ h (by simp) (by simp) (by simp), bind_of_eq_some h₁]
    dsimp only
    rw [bind_of_eq_some (peek_eq hadds₁.stands),
      if_neg (fun hb => absurd (hbrace.mp hb) (by simp)), if_pos (hquote.mpr rfl),
      bind_of_eq_some h₂]
    exact h₃
  · -- a parameter block
    obtain ⟨p₁, h₁, hadds₁⟩ := parseBare_none h (List.takeWhile_cons_of_neg (by decide))
    have hposition : p₁.position = p.position := h.position_same hadds₁.stands
    obtain ⟨node, index, p₂, h₂, hreturns⟩ := parseParameterBlock_spec hc (placeIn terminator)
      hadds₁.stands (by rw [hadds₁.count]; exact hroom) hread
    have hreturns' : Returns source held pending (placeIn terminator) item rest node index [] rest p
        p₂ := by
      have hnodes := hreturns.nodes
      have hyields := hreturns.yields
      rw [hposition] at hnodes hyields
      exact .of_yields _ _ hnodes (hadds₁.yields hyields)
    obtain ⟨p₃, h₃, happends⟩ := hreturns'.push
    refine ⟨[], _, p₃, ?_, happends⟩
    rw [parseItem_eq _ _ h (by simp) (by simp) (by simp), bind_of_eq_some h₁]
    dsimp only
    rw [bind_of_eq_some (peek_eq hadds₁.stands),
      if_neg (fun hb => absurd (hbrace.mp hb) (by simp)),
      if_neg (fun hb => absurd (hquote.mp hb) (by simp)),
      bind_of_eq_some (startsParameterBlock_eq hadds₁.stands), if_pos (by simp),
      bind_of_eq_some h₂, h₃]
  · rename_i c cs hhash' hclose₁ hclose₂ hbrace' hquote' hbracket'
    have hitem := parseItem_eq container
      (terminator.map fun c => UInt8.ofNat c.toNat) h (by simpa using hhash')
      (by simpa using hclose₁) (by simpa using hclose₂)
    split_ifs at hread with hbare
    · -- a bare word
      have hword := bare_ne_nil hbare cs
      obtain ⟨first, p₁, h₁, hyields⟩ := parseBare_some h hword
      have hsplit : c :: cs = (Scalar.bare ((c :: cs).takeWhile isBare)).text ++
          (c :: cs).dropWhile isBare := by
        rw [Scalar.text, List.takeWhile_append_dropWhile]
      have h' := h
      rw [hsplit] at h' hroom
      obtain ⟨gap, stop, p₂, h₂, happends⟩ := afterScalar_spec hc hlen
        (placeIn terminator) hword h' hyields hroom
        (fun q hq _ _ => ⟨q, rfl, Adds.refl hq⟩) hread
      refine ⟨gap, stop, p₂, ?_, happends⟩
      rw [hitem, bind_of_eq_some h₁]
      exact h₂
    · -- no item starts here
      obtain ⟨rfl, rfl⟩ := Prod.mk.inj (Option.some.inj hread)
      obtain ⟨p₁, h₁, hadds₁⟩ := parseBare_none h (List.takeWhile_cons_of_neg hbare)
      have hposition : p₁.position = p.position := h.position_same hadds₁.stands
      have hascii : c.toNat < 0x80 := by
        rw [isBare, Bool.not_eq_true', Bool.not_eq_false, Bool.or_eq_true] at hbare
        rcases hbare with hc | hc
        · exact isSpace_lt hc
        · exact isDelimiterChar_lt hc
      obtain ⟨index, p₂, h₂, hyields⟩ := recover_spec hascii hadds₁.stands
        fun text => "unexpected character `" ++ text ++ "`"
      rw [hposition] at h₂ hyields
      obtain ⟨p₃, h₃, happends⟩ := (Returns.of_yields (placeIn terminator)
        (.stray c ("unexpected character `" ++ shorten [c] ++ "`")) (by rw [Item.nodes])
        ((hadds₁.yields hyields).of_eq (by rw [Item.tokens]) (by rw [Item.errors]) rfl)).push
      have hbracket : ¬(c :: cs).take 2 = ['[', '['] := fun htake => by
        cases cs with
        | nil => cases htake
        | cons d cs =>
          cases htake
          exact hbracket' cs rfl rfl
      rw [List.head?_cons, Option.some_inj] at hquote hbrace
      refine ⟨[], _, p₃, ?_, happends⟩
      rw [hitem, bind_of_eq_some h₁]
      dsimp only
      rw [bind_of_eq_some (peek_eq hadds₁.stands), if_neg (fun hb => hbrace' (hbrace.mp hb)),
        if_neg (fun hb => hquote' (hquote.mp hb)),
        bind_of_eq_some (startsParameterBlock_eq hadds₁.stands),
        if_neg (by rw [decide_eq_true_eq]; exact hbracket), bind_of_eq_some h₂, h₃]
  · cases hread

/-! ## Containers and documents -/

theorem no_gap : ∀ c ∈ ([] : Str), isSpace c = true := by rintro _ ⟨⟩

theorem dropWhile_gap {gap : Str} (hgap : ∀ c ∈ gap, isSpace c = true) (stop : Str) :
    (gap ++ stop).dropWhile isSpace = stop.dropWhile isSpace := by
  rw [List.dropWhile_append, List.dropWhile_eq_nil_iff.mpr hgap]
  rfl

/-- The bytes of the terminator at the front of a text. -/
theorem head_terminator {terminator : Option Char} (hascii : ∀ c ∈ terminator, c.toNat < 0x80)
    (cs : Str) :
    (terminator.map (fun c => UInt8.ofNat c.toNat) ≠ none ∧
      (Utf8.encode cs).head? = terminator.map fun c => UInt8.ofNat c.toNat) ↔
      terminator ≠ none ∧ cs.head? = terminator := by
  cases terminator with
  | none => simp
  | some c =>
    rw [Option.map_some, head_encode c rfl (hascii c rfl)]
    simp

theorem parseContainer_spec {loop : Option UInt8 → ParseM σ Unit} {terminator : Option UInt8}
    {tokens : List SyntaxToken} {errors : List SyntaxError} {count : Nat}
    {pending' : List CstNode} (h : Stands source held pending cs p)
    (hloop : ∀ q : Parser σ, q.position = p.position → q.tree.count = p.tree.count →
      Stands source held pending cs q → ∃ q', loop terminator q = some ((), q') ∧
        Adds source held pending' rest tokens errors count q q') :
    ∃ p', parseContainer none source loop terminator p = some ((), p') ∧
      Adds source held pending' rest tokens errors count p p' := by
  let p₁ : Parser σ := { p with depth := p.depth + 1 }
  have hadds₁ : Adds source held pending cs [] [] 0 p p₁ :=
    ⟨⟨h.running, h.cursor, h.builds, h.saturated⟩, .refl _, (List.append_nil _).symm,
      (List.append_nil _).symm, rfl⟩
  obtain ⟨p₂, h₂, hadds₂⟩ := checkWork_adds hadds₁.stands true
  have hadds := hadds₁.after hadds₂
  obtain ⟨p₃, h₃, hadds₃⟩ := hloop p₂ (h.position_same hadds.stands) hadds.count hadds.stands
  refine ⟨{ p₃ with depth := p₃.depth - 1 }, ?_, hadds.after ⟨⟨hadds₃.stands.running,
    hadds₃.stands.cursor, hadds₃.stands.builds, hadds₃.stands.saturated⟩, hadds₃.grows,
    hadds₃.tokens, hadds₃.errors, hadds₃.count⟩⟩
  unfold parseContainer
  rw [Run.modify_bind, bind_of_eq_some h₂, bind_of_eq_some h₃]
  rfl

/-- The loop of a container computes what `readItems` reads, from a cursor that has some of the
first whitespace behind it. -/
theorem containerLoop_spec (hlen : byteLen source ≤ u32Max) (fuel : Nat) (terminator : Option Char)
    (hascii : ∀ c ∈ terminator, c.toNat < 0x80) {gap stop : Str} {start : Nat}
    (hgap : ∀ c ∈ gap, isSpace c = true) (hcs : cs = gap ++ stop)
    (hstart : start + byteLen cs = byteLen source)
    (h : Stands source held pending stop p) (hroom : p.tree.count + 3 * byteLen stop < u32Max)
    (hread : readItems fuel terminator cs = some (items, rest)) :
    ∃ p', containerLoop none source fuel (terminator.map fun c => UInt8.ofNat c.toNat) p =
        some ((), p') ∧
      Adds source held (pending ++ Item.nodesAll start items) rest (Item.tokensAll start items)
        (Item.errorsAll (byteLen source) (placeIn terminator) start items)
        (CstNode.sizes (Item.nodesAll start items)) p p' := by
  induction fuel generalizing terminator held pending cs gap stop start p items rest with
  | zero => cases hread
  | succ fuel ih =>
    have hcomputes : Computes source
        (parseContainer (σ := σ) none source (containerLoop none source fuel)) (readItems fuel) :=
      ⟨readItems_keeping fuel, readItems_sparing fuel,
        fun terminator held pending cs p items rest hascii h hroom hread =>
          parseContainer_spec h fun q hposition hcount hq => by
            rw [← hposition]
            exact ih terminator hascii no_gap rfl
              hq.length hq
              (by rw [hcount]; exact hroom) hread⟩
    obtain ⟨p₁, h₁, hadds₁⟩ := checkWork_adds h false
    obtain ⟨p₂, h₂, hadds₂⟩ := skipWhitespace_spec hadds₁.stands
    have hadds := hadds₁.after hadds₂
    have hstands := hadds.stands
    have hdrop : cs.dropWhile isSpace = stop.dropWhile isSpace := by rw [hcs, dropWhile_gap hgap]
    have hsplit : byteLen cs = byteLen (cs.takeWhile isSpace) + byteLen (cs.dropWhile isSpace) := by
      rw [← byteLen_append, List.takeWhile_append_dropWhile]
    have hcount : p₂.tree.count = p.tree.count := hadds.count
    have hless : byteLen (stop.dropWhile isSpace) ≤ byteLen stop := by
      have := congrArg byteLen (List.takeWhile_append_dropWhile (p := isSpace) (l := stop))
      rw [byteLen_append] at this
      omega
    rw [← hdrop] at hstands hadds hless
    have hlength := hstands.length
    have hfresh : p₂.tree.saturated = false := by
      cases hs : p₂.tree.saturated with
      | false => rfl
      | true =>
        have := hstands.saturated hs
        omega
    have hend : byteLen source ≤ p₂.position ↔ cs.dropWhile isSpace = [] := by
      rw [← byteLen_eq_zero_iff]
      omega
    unfold containerLoop
    rw [bind_of_eq_some h₁, if_pos rfl, bind_of_eq_some h₂, position, read_bind,
      isSaturated, read_bind, hfresh]
    unfold readItems at hread
    dsimp only at hread
    by_cases hnil : cs.dropWhile isSpace = []
    · rw [if_pos (Or.inl hnil)] at hread
      cases hread
      rw [if_pos (Or.inl (hend.mpr hnil)), Item.nodesAll_space, Item.tokensAll_space,
        Item.errorsAll_space, List.append_nil]
      exact ⟨p₂, rfl, hadds⟩
    rw [if_neg (by rw [hend]; exact fun hb => hb.elim hnil Bool.false_ne_true),
      bind_of_eq_some (peek_eq hstands)]
    by_cases hstop : terminator ≠ none ∧ (cs.dropWhile isSpace).head? = terminator
    · rw [if_pos (Or.inr hstop)] at hread
      cases hread
      rw [if_pos ((head_terminator hascii _).mpr hstop), Item.nodesAll_space, Item.tokensAll_space,
        Item.errorsAll_space, List.append_nil]
      exact ⟨p₂, rfl, hadds⟩
    rw [if_neg (fun hb => hstop ((head_terminator hascii _).mp hb))]
    rw [if_neg (fun hb => hb.elim hnil hstop)] at hread
    obtain ⟨⟨item, rest'⟩, hitem, hread⟩ := Option.bind_eq_some_iff.mp hread
    obtain ⟨⟨items', rest''⟩, hitems, hread⟩ := Option.map_eq_some_iff.mp hread
    obtain ⟨rfl, rfl⟩ := Prod.mk.inj hread
    obtain ⟨gap', stop', p₃, h₃, happends⟩ := parseItem_spec hcomputes hlen terminator hstands
      (by omega) hitem
    have hcut := readItem_eq (readItems_keeping fuel) hitem
    obtain ⟨node, hnode, hsize⟩ := readItem_small (readItems_sparing fuel) hitem p₂.position
    have hadds₃ := happends.adds
    rw [hnode, sizes_singleton] at hadds₃
    rw [hcut, byteLen_append] at hsplit hlength hless
    have hcount₃ := hadds₃.count
    have hposition : p₂.position = start + byteLen (cs.takeWhile isSpace) := by omega
    have hless' : byteLen stop' ≤ byteLen rest' := by
      rw [happends.rest, byteLen_append]
      omega
    obtain ⟨p₄, h₄, hadds₄⟩ := ih terminator hascii happends.spaces happends.rest
      (show start + byteLen (cs.takeWhile isSpace) + byteLen item.text + byteLen rest' = _ by omega)
      hadds₃.stands (by omega) hitems
    refine ⟨p₄, by rw [bind_of_eq_some h₃, h₄], ?_⟩
    have htotal := hadds.after (hadds₃.trans hadds₄)
    rw [hposition] at htotal hnode
    dsimp only
    rw [Item.nodesAll_append, Item.nodesAll_space, Item.tokensAll_append, Item.tokensAll_space,
      Item.errorsAll_append, Item.errorsAll_space, Item.texts_space, List.nil_append,
      List.nil_append, List.nil_append, Item.nodesAll, Item.tokensAll, Item.errorsAll, hnode,
      CstNode.sizes_append, sizes_singleton, ← List.append_assoc]
    exact htotal

end

/-! ## The parse of a source -/

/-- What the parse of a source is: the nodes, the tokens and the errors of the items of its text. -/
structure Parsed (source : Str) (parts : ParseParts) (items : List Item) : Prop where
  reads : readItems (byteLen source + 1) none source = some (items, [])
  tokens : parts.tokens = Item.tokensAll 0 items
  errors : parts.errors = Item.errorsAll (byteLen source) .top 0 items
  root : parts.tree.nodeAt (parts.tree.cores.length + 1) parts.tree.root =
    some (.mk .document (range 0 (byteLen source)) (Item.nodesAll 0 items))

/-- The parser reads every source below 1 GiB, and the arena has room for its nodes. -/
theorem exists_parse {source : Str} (hlen : byteLen source < 2 ^ 30) :
    ∃ parts items, Script.parse source = some parts ∧ Parsed source parts items := by
  have hroom : 3 * byteLen source + 1 < u32Max := by
    have : 3 * 2 ^ 30 < u32Max := by decide
    omega
  obtain ⟨items, rest, hread⟩ := exists_readItems (byteLen source + 1) none source
    (Nat.lt_succ_of_le (length_le_byteLen source))
  obtain rfl : rest = [] := by
    rcases readItems_stop hread with hnil | ⟨hno, -⟩
    · exact hnil
    · exact absurd rfl hno
  have hsource := readItems_keeping _ _ _ _ _ hread
  rw [List.append_nil] at hsource
  have hstands : Stands source 0 [] source (Parser.new ()) :=
    ⟨rfl, ⟨[], rfl, rfl⟩, .empty, by rintro ⟨⟩⟩
  have hcount : (Parser.new () : Parser Unit).tree.count = 0 := rfl
  obtain ⟨p₁, h₁, hadds₁⟩ := parseContainer_spec hstands fun q _ hq hstands =>
    containerLoop_spec (by omega) _ none (by rintro _ ⟨⟩)
      no_gap rfl (Nat.zero_add _) hstands
      (by omega) hread
  obtain ⟨index, p₂, h₂, hadds₂, hholds⟩ :=
    node_adds hadds₁.stands .document 0 (byteLen source)
  have hadds := hadds₁.trans hadds₂
  have hsize := readItems_sparing _ _ _ _ _ hread 0
  rw [← hsource] at hsize
  have htotal : p₂.tree.count = CstNode.sizes (Item.nodesAll 0 items) + 1 := by
    rw [hadds.count, hcount, Nat.zero_add]
  have hu32 : u32Max < 2 ^ 32 := by decide
  have hindex : index + 1 = p₂.tree.count := by
    have hcount₁ : p₁.tree.count = CstNode.sizes (Item.nodesAll 0 items) := by
      rw [hadds₁.count, hcount, Nat.zero_add]
    rw [index_of_node hadds₁.stands.running h₂, asU32_eq (by omega), hadds₂.count]
  have htree : p₂.parts.tree = p₂.tree.finish := by unfold Parser.parts; rfl
  refine ⟨p₂.parts, items, ?_, hread, ?_, ?_, ?_⟩
  · rw [Option.map_none] at h₁
    unfold Script.parse parseDocument
    rw [bind_of_eq_some (childrenMark_eq hstands), bind_of_eq_some h₁,
      bind_of_eq_some (childrenSince_eq_some hadds₁.stands),
      bind_of_eq_some h₂]
    rfl
  · exact hadds.tokens.trans (List.append_nil _)
  · exact hadds.errors.trans (List.append_nil _)
  · rw [htree]
    exact hholds.root (by unfold SyntaxTreeBuilder.InU32; omega) hindex

end ParadoxCode.Script
