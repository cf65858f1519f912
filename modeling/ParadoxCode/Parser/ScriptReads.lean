import ParadoxCode.Parser.ScriptLossless
import ParadoxCode.Parser.ScriptScan

/-!
# The script parser computes the grammar

Each function of the parser has a lemma that runs it on the text its reader takes an item off: it
emits the node of the item and adds the tokens and the errors of the item, in a source below 4 GiB
and as long as the arena has room for three nodes for every byte that is left.

A bare word that is a value or stands alone has the whitespace behind it skipped with it, so a run
may stop behind some of the whitespace that the reader leaves.
-/

namespace ParadoxCode.Script

open ParadoxCode.Parser
open Run (bind_of_eq_some read_bind)

/-! ## What a function returns -/

section

variable {σ : Type} (source : Str)

/-- A run returns the index of `node`. -/
structure Yields (held : Nat) (pending : List CstNode) (rest : Str) (tokens : List SyntaxToken)
    (errors : List SyntaxError) (node : CstNode) (index : Nat) (p p' : Parser σ) : Prop where
  adds : Adds source (held + 1) pending rest tokens errors node.size p p'
  holds : p'.tree.Holds index node

/-- A run from `p` on returns the node of an item, and stops in the whitespace before `rest`. -/
structure Returns (held : Nat) (pending : List CstNode) (place : Place) (item : Item) (rest : Str)
    (node : CstNode) (index : Nat) (gap stop : Str) (p p' : Parser σ) : Prop where
  nodes : item.nodes p.position = [node]
  rest : rest = gap ++ stop
  spaces : ∀ c ∈ gap, isSpace c = true
  yields : Yields source held pending stop (item.tokens p.position)
    (item.errors (byteLen source) place p.position) node index p p'

end

section

variable {σ : Type} {source : Str} {held : Nat} {pending : List CstNode} {cs front rest : Str}
  {tokens tokens' : List SyntaxToken} {errors errors' : List SyntaxError} {node node' : CstNode}
  {index : Nat} {p p₁ p' : Parser σ}

theorem Yields.of_eq (h : Yields source held pending rest tokens errors node index p p')
    (htokens : tokens = tokens') (herrors : errors = errors') (hnode : node = node') :
    Yields source held pending rest tokens' errors' node' index p p' := by
  rw [← htokens, ← herrors, ← hnode]
  exact h

theorem Adds.yields {held' : Nat} {pending' : List CstNode}
    (h : Adds source held' pending' cs [] [] 0 p p₁)
    (h' : Yields source held pending rest tokens errors node index p₁ p') :
    Yields source held pending rest tokens errors node index p p' :=
  ⟨h.after h'.adds, h'.holds⟩

/-! ## Ranges and texts at the cursor -/

theorem Stands.snippet_eq (h : Stands source held pending (front ++ rest) p) :
    snippet source p.position (p.position + byteLen front) = shorten front := by
  have hlen := h.length
  rw [byteLen_append] at hlen
  have hslice : slice source p.position (p.position + byteLen front) = front := by
    unfold slice
    dsimp only
    rw [Nat.min_eq_left (show p.position + byteLen front ≤ byteLen source by omega),
      Nat.min_eq_left (Nat.le_add_right _ _), h.getText]
    rfl
  unfold snippet
  rw [hslice]
  rfl

/-! ## Scalars and comments -/

/-- A token and a leaf over the characters just scanned. -/
theorem leaf_yields (h : Stands source held pending (front ++ rest) p)
    (h₁ : Adds source held pending rest [] [] 0 p p₁) (kind : TokenKind) (nodeKind : CstKind) :
    ∃ p₂ index p₃, pushToken kind p.position p₁ = some ((), p₂) ∧ p₂.position = p₁.position ∧
      Script.node none source nodeKind p.position p₁.position 0 p₂ = some (index, p₃) ∧
      Yields source held pending rest [token kind p.position front] []
        (spanning nodeKind p.position front []) index p p₃ := by
  have hposition := h.position_eq h₁.stands
  obtain ⟨p₂, h₂, hadds₂⟩ := pushToken_adds h₁.stands kind p.position
  obtain ⟨index, p₃, h₃, hadds₃, hholds⟩ :=
    leaf_adds hadds₂.stands nodeKind p.position p₁.position
  have hstop : p₂.position = p₁.position :=
    h₁.stands.position_same hadds₂.stands
  rw [hposition] at hholds
  refine ⟨p₂, index, p₃, h₂, hstop, h₃, (h₁.after (hadds₂.trans hadds₃)).of_eq ?_ rfl ?_, hholds⟩
  · unfold token
    rw [hposition]
    rfl
  · rw [size_spanning]
    rfl

theorem parseComment_spec (h : Stands source held pending ('#' :: cs) p) :
    let body := cs.takeWhile fun c => !isLineEnd c
    ∃ index p', parseComment none source p = some (index, p') ∧
      Yields source held pending (cs.dropWhile fun c => !isLineEnd c)
        [token .comment p.position ('#' :: body)] []
        (spanning .comment p.position ('#' :: body) []) index p p' := by
  intro body
  obtain ⟨p₁, h₁, hadds₁⟩ := skipLoop_spec lifts_line h
  have hsplit : Stands source held pending (('#' :: body) ++ cs.dropWhile fun c => !isLineEnd c)
    p := by
    rw [List.cons_append, List.takeWhile_append_dropWhile]
    exact h
  obtain ⟨p₂, index, p₃, h₂, hposition, h₃, hyields⟩ :=
    leaf_yields hsplit hadds₁ .comment .comment
  refine ⟨index, p₃, ?_, hyields⟩
  unfold parseComment
  rw [position, read_bind, Script.rest, read_bind, bind_of_eq_some h₁,
    bind_of_eq_some h₂, read_bind, hposition, h₃]

theorem parseBare_none (h : Stands source held pending cs p) (hcs : cs.takeWhile isBare = []) :
    ∃ p', parseBare none source p = some (none, p') ∧ Adds source held pending cs [] [] 0 p p' := by
  obtain ⟨p₁, h₁, hadds₁⟩ := bareLoop_spec h
  have hdrop : cs.dropWhile isBare = cs := by
    have := List.takeWhile_append_dropWhile (p := isBare) (l := cs)
    rwa [hcs] at this
  rw [hdrop] at hadds₁
  have hposition : p₁.position = p.position := h.position_same hadds₁.stands
  refine ⟨p₁, ?_, hadds₁⟩
  unfold parseBare
  rw [position, read_bind, Script.rest, read_bind, bind_of_eq_some h₁, read_bind,
    if_pos hposition]
  rfl

theorem parseBare_some (h : Stands source held pending cs p) (hcs : cs.takeWhile isBare ≠ []) :
    let scalar := Scalar.bare (cs.takeWhile isBare)
    ∃ index p', parseBare none source p = some (some index, p') ∧
      Yields source held pending (cs.dropWhile isBare) (scalar.tokens p.position)
        (scalar.errors p.position) (scalar.node p.position) index p p' := by
  intro scalar
  obtain ⟨p₁, h₁, hadds₁⟩ := bareLoop_spec h
  have hsplit : Stands source held pending (cs.takeWhile isBare ++ cs.dropWhile isBare) p := by
    rw [List.takeWhile_append_dropWhile]
    exact h
  have hposition := hsplit.position_eq hadds₁.stands
  have hpos := byteLen_pos hcs
  obtain ⟨p₂, index, p₃, h₂, -, h₃, hyields⟩ := leaf_yields hsplit hadds₁ .bare .bareValue
  refine ⟨index, p₃, ?_, hyields⟩
  unfold parseBare
  rw [position, read_bind, Script.rest, read_bind, bind_of_eq_some h₁, read_bind,
    if_neg (by omega), bind_of_eq_some h₂, bind_of_eq_some h₃]
  rfl

/-! ### Quoted strings -/

variable {c : Char}

theorem advanceChar_spec (h : Stands source held pending (c :: cs) p) :
    ∃ p', advanceChar source p = some (true, p') ∧ Adds source held pending cs [] [] 0 p p' := by
  obtain ⟨p', h', hadds⟩ := advance_adds (show Stands source held pending ([c] ++ cs) p from h) rfl
  refine ⟨p', ?_, hadds⟩
  have hsize : byteLen [c] = c.utf8Size := by simp
  rw [hsize] at h'
  unfold advanceChar nextChar
  rw [position, Run.bind_apply, read_bind, isCharBoundary_iff.mpr h.boundary, if_pos rfl, h.bytes,
    Utf8.encode_cons, Utf8.decodeFirst_encodeChar]
  change (advance c.utf8Size >>= fun _ => pure true : ParseM σ Bool) p = _
  rw [bind_of_eq_some h']
  rfl

theorem advanceEscape_spec (h : Stands source held pending ('\\' :: cs) p) :
    ∃ p', advanceEscape source p = some ((), p') ∧
      Adds source held pending cs.tail [] [] 0 p p' := by
  obtain ⟨p₁, h₁, hadds₁⟩ := advance_adds (show Stands source held pending (['\\'] ++ cs) p from h)
    rfl
  have hlen := hadds₁.stands.length
  unfold advanceEscape
  rw [bind_of_eq_some (show advance 1 p = _ from h₁), position, read_bind]
  cases cs with
  | nil =>
    rw [byteLen_nil] at hlen
    rw [if_neg (by omega)]
    exact ⟨p₁, rfl, hadds₁⟩
  | cons c cs =>
    have hpos := byteLen_pos (List.cons_ne_nil c cs)
    obtain ⟨p₂, h₂, hadds₂⟩ := advanceChar_spec hadds₁.stands
    rw [if_pos (by omega), bind_of_eq_some h₂]
    exact ⟨p₂, rfl, hadds₁.after hadds₂⟩

theorem quotedLoop_spec (fuel : Nat) (hfuel : cs.length < fuel)
    (h : Stands source held pending cs p) :
    ∃ p', quotedLoop none source fuel p = some ((splitQuoted cs).2.1, p') ∧
      Adds source held pending (splitQuoted cs).2.2 [] [] 0 p p' := by
  induction fuel generalizing cs p with
  | zero => exact absurd hfuel (Nat.not_lt_zero _)
  | succ fuel ih =>
    unfold quotedLoop
    rw [bind_of_eq_some (peek_eq h)]
    cases cs with
    | nil => exact ⟨p, rfl, Adds.refl h⟩
    | cons c cs =>
      rw [List.length_cons] at hfuel
      obtain ⟨b, tl, henc, -⟩ := Utf8.encodeChar_cons c
      have hhead : (Utf8.encode (c :: cs)).head? = some b := by
        rw [Utf8.encode_cons, henc]
        rfl
      have hquote := head_encode '"' rfl (by decide) (c :: cs)
      have hslash := head_encode '\\' rfl (by decide) (c :: cs)
      rw [hhead, Option.some_inj, List.head?_cons, Option.some_inj] at hquote hslash
      obtain ⟨p₁, h₁, hadds₁⟩ := checkWork_adds h false
      rw [hhead]
      dsimp only
      rw [bind_of_eq_some h₁, if_pos rfl]
      by_cases hb : b = 0x22
      · -- the closing quote
        obtain rfl := hquote.mp hb
        obtain ⟨p₂, h₂, hadds₂⟩ := advance_adds
          (show Stands source held pending (['"'] ++ cs) p₁ from
          hadds₁.stands) (show 1 = byteLen ['"'] from rfl)
        rw [if_pos hb, bind_of_eq_some h₂, splitQuoted_quote]
        exact ⟨p₂, rfl, hadds₁.after hadds₂⟩
      rw [if_neg hb]
      by_cases hb' : b = 0x5C
      · -- an escape
        obtain rfl := hslash.mp hb'
        obtain ⟨p₂, h₂, hadds₂⟩ := advanceEscape_spec hadds₁.stands
        obtain ⟨p₃, h₃, hadds₃⟩ := ih (by rw [List.length_tail]; omega) hadds₂.stands
        rw [if_pos hb', bind_of_eq_some h₂, h₃]
        cases cs with
        | nil => exact ⟨p₃, by rw [splitQuoted_slash]; rfl, hadds₁.after (hadds₂.after hadds₃)⟩
        | cons d cs =>
          rw [splitQuoted_escape]
          exact ⟨p₃, rfl, hadds₁.after (hadds₂.after hadds₃)⟩
      · -- any other character
        obtain ⟨p₂, h₂, hadds₂⟩ := advanceChar_spec hadds₁.stands
        obtain ⟨p₃, h₃, hadds₃⟩ := ih (Nat.lt_of_succ_lt_succ hfuel) hadds₂.stands
        rw [if_neg hb', bind_of_eq_some h₂, if_pos rfl, h₃,
          splitQuoted_char (fun h => hb (hquote.mpr h)) fun h => hb' (hslash.mpr h)]
        exact ⟨p₃, rfl, hadds₁.after (hadds₂.after hadds₃)⟩

theorem length_le_byteLen (cs : Str) : cs.length ≤ byteLen cs := by
  induction cs with
  | nil => exact le_rfl
  | cons c cs ih =>
    have := c.utf8Size_pos
    rw [List.length_cons, byteLen_cons]
    omega

theorem reportUnclosed_adds (h : Stands source held pending cs p) (body : Str) (closed : Bool)
    {start stop : Nat} (hstop : stop = start + byteLen (Scalar.quoted body closed).text) :
    ∃ p', reportUnclosed closed start stop p = some ((), p') ∧
      Adds source held pending cs [] ((Scalar.quoted body closed).errors start) 0 p p' := by
  cases closed with
  | true => exact ⟨p, rfl, Adds.refl h⟩
  | false =>
    rw [hstop]
    exact error_adds h _ _ _ _

theorem parseQuoted_spec {scalar : Scalar} (h : Stands source held pending ('"' :: cs) p)
    (hscalar : readQuoted cs = (scalar, rest)) :
    ∃ index p', parseQuoted none source .quotedString p = some (index, p') ∧
      Yields source held pending rest (scalar.tokens p.position) (scalar.errors p.position)
        (scalar.node p.position) index p p' := by
  have heq := readQuoted_eq hscalar
  obtain ⟨p₁, h₁, hadds₁⟩ := advance_adds (show Stands source held pending (['"'] ++ cs) p from h)
    (show 1 = byteLen ['"'] from rfl)
  have hlen := h.length
  obtain ⟨p₂, h₂, hadds₂⟩ := quotedLoop_spec (byteLen source + 1) (by
    have := length_le_byteLen cs
    rw [byteLen_cons] at hlen
    omega) hadds₁.stands
  cases hscalar
  rw [heq] at h
  have hposition := h.position_eq hadds₂.stands
  have hadds := hadds₁.after hadds₂
  obtain ⟨p₃, h₃, hadds₃⟩ := pushToken_adds hadds.stands .quoted p.position
  obtain ⟨p₄, h₄, hadds₄⟩ := reportUnclosed_adds hadds₃.stands _ _ hposition
  obtain ⟨index, p₅, h₅, hadds₅, hholds⟩ :=
    leaf_adds hadds₄.stands .quotedString p.position p₂.position
  rw [hposition] at hholds
  refine ⟨index, p₅, ?_, (hadds.after (hadds₃.trans (hadds₄.trans hadds₅))).of_eq ?_ ?_ ?_, hholds⟩
  · unfold parseQuoted
    rw [position, read_bind, bind_of_eq_some h₁, bind_of_eq_some h₂, read_bind,
      bind_of_eq_some h₃, bind_of_eq_some h₄, h₅]
  · unfold Scalar.tokens token
    rw [hposition]
    rfl
  · exact List.append_nil _
  · rw [Scalar.node, size_spanning]
    rfl

/-! ## Operators and delimiters -/

theorem operatorLength_one {byte : UInt8} {bytes : List UInt8} (h : bytes.head? ≠ some 0x3D) :
    operatorLength (byte :: bytes) =
      if byte = 0x3D ∨ byte = 0x3E ∨ byte = 0x3C then some 1 else none := by
  have hne : ∀ more, bytes ≠ 0x3D :: more := by
    rintro more rfl
    exact h rfl
  unfold operatorLength
  split <;> simp_all

theorem encode_cons_ascii (hc : c.toNat < 0x80) (cs : Str) :
    Utf8.encode (c :: cs) = UInt8.ofNat c.toNat :: Utf8.encode cs := by
  rw [Utf8.encode_cons, Utf8.encodeChar_ascii hc]
  rfl

theorem startsOperator_iff :
    startsOperator c = true ↔ c = '=' ∨ c = '<' ∨ c = '>' ∨ c = '!' ∨ c = '?' := by
  simp only [startsOperator, Bool.or_eq_true, beq_iff_eq, or_assoc]

theorem splitOperator_one (h : cs.head? ≠ some '=') : splitOperator (c :: cs) = ([c], cs) := by
  unfold splitOperator
  split
  · rename_i heq
    cases heq
    exact absurd rfl h
  · rename_i heq
    cases heq
    rfl
  · rename_i heq
    cases heq

theorem operatorLength_eq (hc : startsOperator c = true) (cs : Str) :
    operatorLength (Utf8.encode (c :: cs)) =
      if isOperator (splitOperator (c :: cs)).1 then some (byteLen (splitOperator (c :: cs)).1)
      else none := by
  have hascii : c.toNat < 0x80 := by
    rcases startsOperator_iff.mp hc with rfl | rfl | rfl | rfl | rfl <;> decide
  rw [encode_cons_ascii hascii]
  by_cases hcs : cs.head? = some '='
  · obtain ⟨cs', rfl⟩ : ∃ cs', cs = '=' :: cs' := by
      cases cs with
      | nil => cases hcs
      | cons d cs' =>
        cases hcs
        exact ⟨cs', rfl⟩
    rw [encode_cons_ascii (by decide)]
    rcases startsOperator_iff.mp hc with rfl | rfl | rfl | rfl | rfl <;> rfl
  · rw [splitOperator_one hcs,
      operatorLength_one (fun h => hcs ((head_encode '=' rfl (by decide) cs).mp h))]
    rcases startsOperator_iff.mp hc with rfl | rfl | rfl | rfl | rfl <;> rfl

theorem recover_spec (hc : c.toNat < 0x80) (h : Stands source held pending (c :: cs) p)
    (message : String → String) :
    ∃ index p', recover none source p.position message p = some (index, p') ∧
      Yields source held pending cs []
        [⟨.unexpectedToken, range p.position (p.position + byteLen [c]), message (shorten [c])⟩]
        (spanning .error p.position [c] []) index p p' := by
  have hsize : byteLen [c] = 1 := by rw [byteLen, encode_cons_ascii hc]; rfl
  have hlen := h.length
  rw [show c :: cs = [c] ++ cs from rfl] at h hlen
  rw [byteLen_append] at hlen
  have hadds₁ := Adds.move h (show min (p.position + 1) (byteLen source) =
    p.position + byteLen [c] by omega) p.work
  obtain ⟨p₂, h₂, hadds₂⟩ := error_adds hadds₁.stands .unexpectedToken p.position
    (p.position + byteLen [c]) (message (shorten [c]))
  obtain ⟨index, p₃, h₃, hadds₃, hholds⟩ :=
    leaf_adds hadds₂.stands .error p.position (p.position + byteLen [c])
  refine ⟨index, p₃, ?_, (hadds₁.after (hadds₂.trans hadds₃)).of_eq rfl rfl ?_, hholds⟩
  · unfold recover
    rw [advanceOne, Run.modify_bind, position, read_bind]
    dsimp only
    rw [show min (p.position + 1) (byteLen source) = p.position + byteLen [c] by omega,
      h.snippet_eq]
    rw [show min (p.position + 1) (byteLen source) = p.position + byteLen [c] by omega] at h₂
    rw [bind_of_eq_some h₂, h₃]
  · rw [size_spanning]
    rfl

/-- The operator of a property, or the error node in its place. -/
theorem operatorOrError_spec {operator : Str} (hc : startsOperator c = true)
    (h : Stands source held pending (c :: cs) p)
    (hsplit : splitOperator (c :: cs) = (operator, rest)) :
    ∃ index p', operatorOrError none source p = some (index, p') ∧
      Yields source held pending rest (operatorTokens p.position operator)
        (operatorErrors p.position operator) (operatorNode p.position operator) index p p' := by
  have hlength := operatorLength_eq hc cs
  have heq := splitOperator_eq hsplit
  have hlen := h.length
  have hbytes := h.bytes
  rw [hsplit] at hlength
  dsimp only at hlength
  unfold operatorOrError operatorTokens operatorErrors operatorNode
  rw [position, read_bind]
  split_ifs at hlength ⊢ with hoperator
  · rw [heq] at h
    obtain ⟨p₁, h₁, hadds₁⟩ := advance_adds h rfl
    obtain ⟨p₂, index, p₃, h₂, hposition, h₃, hyields⟩ := leaf_yields h hadds₁ .operator .operator
    have hrun : parseOperator none source p = some (some index, p₃) := by
      unfold parseOperator
      rw [position, read_bind, if_neg (by omega), Script.rest, read_bind, hbytes, hlength]
      dsimp only
      rw [bind_of_eq_some h₁, bind_of_eq_some h₂, read_bind, hposition,
        bind_of_eq_some h₃]
      rfl
    rw [bind_of_eq_some hrun]
    exact ⟨index, p₃, rfl, hyields⟩
  · have hrun : parseOperator none source p = some (none, p) := by
      unfold parseOperator
      rw [position, read_bind, if_neg (by omega), Script.rest, read_bind, hbytes, hlength]
      rfl
    have hascii : c.toNat < 0x80 := by
      rcases startsOperator_iff.mp hc with rfl | rfl | rfl | rfl | rfl <;> decide
    obtain ⟨rfl, rfl⟩ : operator = [c] ∧ rest = cs := by
      have hcs : cs.head? ≠ some '=' := by
        intro hhead
        cases cs with
        | nil => cases hhead
        | cons d cs' =>
          cases hhead
          cases hsplit
          exact hoperator (by simp [isOperator])
      rw [splitOperator_one hcs] at hsplit
      cases hsplit
      exact ⟨rfl, rfl⟩
    rw [bind_of_eq_some hrun]
    exact recover_spec hascii h _

theorem consumeDelimiter_spec (k : Char) (hk : k.toNat < 0x80)
    (h : Stands source held pending (k :: cs) p) (kind : TokenKind) :
    ∃ p', consumeDelimiter source kind p = some ((), p') ∧
      Adds source held pending cs [token kind p.position [k]] [] 0 p p' := by
  have hsize : byteLen [k] = 1 := by rw [byteLen, encode_cons_ascii hk]; rfl
  have hlen := h.length
  rw [show k :: cs = [k] ++ cs from rfl] at h hlen
  rw [byteLen_append] at hlen
  have hadds₁ := Adds.move h (show min (p.position + 1) (byteLen source) =
    p.position + byteLen [k] by omega) p.work
  obtain ⟨p₂, h₂, hadds₂⟩ := pushToken_adds hadds₁.stands kind p.position
  refine ⟨p₂, ?_, (hadds₁.after hadds₂).of_eq ?_ rfl rfl⟩
  · unfold consumeDelimiter
    rw [position, read_bind, advanceOne, Run.modify_bind]
    exact h₂
  · dsimp only
    rw [token, show min (p.position + 1) (byteLen source) = p.position + byteLen [k] by omega]

theorem closeOr_spec (k : Char) {byte : UInt8} (hbyte : byte = UInt8.ofNat k.toNat)
    (hk : k.toNat < 0x80) (h : Stands source held pending cs p) {closed : Bool}
    (hsplit : splitClosing k cs = (closed, rest)) (kind : SyntaxErrorKind) (start : Nat)
    (message : String) :
    ∃ p', closeOr source byte kind start message p = some ((), p') ∧
      Adds source held pending rest (tokenOf .closeDelimiter p.position (closing k closed))
        (unterminated kind start (byteLen source) message closed) 0 p p' := by
  have hhead := head_encode k hbyte hk cs
  unfold closeOr
  rw [bind_of_eq_some (peek_eq h)]
  unfold splitClosing at hsplit
  split_ifs at hsplit with hcs
  · cases hsplit
    obtain ⟨cs', rfl⟩ : ∃ cs', cs = k :: cs' := by
      cases cs with
      | nil => cases hcs
      | cons d cs' =>
        cases hcs
        exact ⟨cs', rfl⟩
    rw [if_pos (hhead.mpr hcs)]
    exact consumeDelimiter_spec k hk h _
  · cases hsplit
    rw [if_neg (fun h => hcs (hhead.mp h))]
    exact error_adds h _ _ _ _

/-! ## Conditions -/

/-- A queued node gets a node of its own around it. -/
theorem wrap_adds (h : Stands source (held + 1) pending cs p) (hi : p.tree.Holds index node)
    (kind : CstKind) (start stop : Nat) :
    ∃ p₁ index' p', push index p = some ((), p₁) ∧
      Script.node none source kind start stop 1 p₁ = some (index', p') ∧
      Adds source (held + 1) pending cs [] [] 1 p p' ∧
      p'.tree.Holds index' (.mk kind (range start stop) [node]) := by
  obtain ⟨p₁, h₁, hadds₁⟩ := push_adds h hi
  obtain ⟨index', p₂, h₂, hadds₂, hholds⟩ := node_adds hadds₁.stands kind start stop
  exact ⟨p₁, index', p₂, h₁, h₂, hadds₁.after hadds₂, hholds⟩

theorem skipNegation_spec {negated : Bool} (h : Stands source held pending cs p)
    (hsplit : splitClosing '!' cs = (negated, rest)) :
    ∃ p', skipNegation source p = some ((), p') ∧ Adds source held pending rest [] [] 0 p p' := by
  have hhead := head_encode '!' (show (0x21 : UInt8) = _ from rfl) (by decide) cs
  unfold skipNegation
  rw [bind_of_eq_some (peek_eq h)]
  unfold splitClosing at hsplit
  split_ifs at hsplit with hcs
  · cases hsplit
    rw [if_pos (hhead.mpr hcs)]
    cases cs with
    | nil => cases hcs
    | cons d cs =>
      cases hcs
      exact advance_adds (show Stands source held pending (['!'] ++ cs) p from h) rfl
  · cases hsplit
    rw [if_neg (fun h => hcs (hhead.mp h))]
    exact ⟨p, rfl, Adds.refl h⟩

theorem closeCondition_spec {closed : Bool} (h : Stands source held pending cs p)
    (hsplit : splitClosing ']' cs = (closed, rest)) :
    ∃ p', closeCondition source p = some ((), p') ∧
      Adds source held pending rest (tokenOf .closeDelimiter p.position (closing ']' closed))
        (if closed then [] else [⟨.unexpectedToken, range p.position p.position,
          "parameter condition is missing `]`"⟩]) 0 p p' := by
  have hhead := head_encode ']' (show (0x5D : UInt8) = _ from rfl) (by decide) cs
  unfold closeCondition
  rw [bind_of_eq_some (peek_eq h)]
  unfold splitClosing at hsplit
  split_ifs at hsplit with hcs
  · cases hsplit
    rw [if_pos (hhead.mpr hcs)]
    cases cs with
    | nil => cases hcs
    | cons d cs =>
      cases hcs
      exact consumeDelimiter_spec ']' (by decide) h _
  · cases hsplit
    rw [if_neg (fun h => hcs (hhead.mp h)), position, read_bind]
    exact error_adds h _ _ _ _

/-- The name of a condition, or the error node in its place. -/
theorem conditionName_spec {negated : Bool} (h : Stands source held pending cs p)
    (hcs : Stands source held pending rest p₁) (hadds : Adds source held pending rest [] [] 0 p p₁)
    (hnegated : cs = closing '!' negated ++ rest) (gap : Str) (closed : Bool) :
    let condition : Condition := ⟨negated, rest.takeWhile isBare, gap, closed⟩
    ∃ name p₂ index p₃, parseBare none source p₁ = some (name, p₂) ∧
      p₂.position = p.position + byteLen condition.head ∧
      conditionOrError none source name p.position p₂.position p₂ = some (index, p₃) ∧
      Yields source held pending (rest.dropWhile isBare)
        (tokenOf .bare (p.position + byteLen (closing '!' negated)) condition.name)
        (if condition.name = [] then [⟨.unexpectedToken,
          range p.position (p.position + byteLen condition.head),
          "parameter block is missing a condition"⟩] else [])
        (condition.nameNode p.position) index p p₃ := by
  intro condition
  rw [hnegated] at h
  have hposition := h.position_eq hcs
  have hhead : condition.head = closing '!' negated ++ rest.takeWhile isBare := rfl
  have hname : condition.name = rest.takeWhile isBare := rfl
  have hsplit : Stands source held pending
      ((closing '!' negated ++ rest.takeWhile isBare) ++ rest.dropWhile isBare) p := by
    rw [List.append_assoc, List.takeWhile_append_dropWhile]
    exact h
  unfold Condition.nameNode tokenOf
  rw [hname]
  split_ifs with hnil
  · have hdrop : rest.dropWhile isBare = rest := by
      have := List.takeWhile_append_dropWhile (p := isBare) (l := rest)
      rwa [hnil] at this
    obtain ⟨p₂, h₂, hadds₂⟩ := parseBare_none hcs hnil
    rw [← hdrop] at hadds₂
    have hposition₂ := hsplit.position_eq hadds₂.stands
    obtain ⟨p₃, h₃, hadds₃⟩ := error_adds hadds₂.stands .unexpectedToken p.position p₂.position
      "parameter block is missing a condition"
    obtain ⟨index, p₄, h₄, hadds₄, hholds⟩ :=
      leaf_adds hadds₃.stands .error p.position p₂.position
    refine ⟨none, p₂, index, p₄, h₂, hposition₂, ?_,
      (hadds.after (hadds₂.after (hadds₃.trans hadds₄))).of_eq rfl ?_ ?_, ?_⟩
    · unfold conditionOrError
      dsimp only
      rw [bind_of_eq_some h₃, h₄]
    · rw [hposition₂, hhead]
      rfl
    · rw [size_spanning]
      rfl
    · rw [hposition₂] at hholds
      exact hholds
  · obtain ⟨index, p₂, h₂, hyields⟩ := parseBare_some hcs hnil
    have hposition₂ := hsplit.position_eq hyields.adds.stands
    refine ⟨some index, p₂, index, p₂, h₂, hposition₂, rfl, (hadds.yields hyields).of_eq ?_ rfl ?_⟩
    · rw [hposition]
      rfl
    · rw [hposition]
      rfl

theorem parseCondition_spec {condition : Condition} (h : Stands source held pending cs p)
    (hread : readCondition cs = (condition, rest)) :
    ∃ p', parseCondition none source p = some ((), p') ∧
      Adds source held (pending ++ [condition.node p.position]) rest (condition.tokens p.position)
        (condition.errors p.position) (condition.node p.position).size p p' := by
  rcases hnegated : splitClosing '!' cs with ⟨negated, cs₁⟩
  rcases hclosed : splitClosing ']' ((cs₁.dropWhile isBare).dropWhile isSpace) with ⟨closed, cs₂⟩
  unfold readCondition at hread
  rw [hnegated] at hread
  dsimp only at hread
  rw [hclosed] at hread
  obtain ⟨rfl, rfl⟩ := Prod.mk.inj hread
  obtain ⟨p₁, h₁, hadds₁⟩ := skipNegation_spec h hnegated
  obtain ⟨name, p₂, index, p₃, h₂, hposition₂, h₃, hyields₃⟩ :=
    conditionName_spec h hadds₁.stands hadds₁ (splitClosing_eq hnegated)
      ((cs₁.dropWhile isBare).takeWhile isSpace) closed
  generalize hcondition : Condition.mk negated (cs₁.takeWhile isBare)
    ((cs₁.dropWhile isBare).takeWhile isSpace) closed = condition at *
  obtain ⟨p₄, h₄, hadds₄⟩ := skipWhitespace_spec hyields₃.adds.stands
  obtain ⟨p₅, h₅, hadds₅⟩ := closeCondition_spec hadds₄.stands hclosed
  have hadds := hyields₃.adds.trans (hadds₄.after hadds₅)
  obtain ⟨p₆, index', p₇, h₆, h₇, hadds₇, hholds₇⟩ := wrap_adds hadds.stands
    (hyields₃.holds.mono (hadds₄.grows.trans hadds₅.grows)) .parameterCondition
      p.position p₂.position
  obtain ⟨p₈, h₈, hadds₈⟩ := push_adds hadds₇.stands hholds₇
  have hposition₄ : p₄.position = p.position + byteLen (condition.head ++ condition.gap) := by
    have hsplit : Stands source held pending
        ((condition.head ++ condition.gap) ++ (cs₁.dropWhile isBare).dropWhile isSpace) p := by
      rw [← hcondition, Condition.head]
      dsimp only
      rw [List.append_assoc, List.append_assoc, List.takeWhile_append_dropWhile,
        List.takeWhile_append_dropWhile, ← splitClosing_eq hnegated]
      exact h
    exact hsplit.position_eq hadds₄.stands
  have hnode : Parser.CstNode.mk .parameterCondition (range p.position p₂.position)
      [condition.nameNode p.position] = condition.node p.position := by
    rw [hposition₂]
    rfl
  have hadds' := hadds.trans (hadds₇.trans hadds₈)
  rw [hnode] at hadds'
  refine ⟨p₈, ?_, hadds'.of_eq ?_ ?_ ?_⟩
  · unfold parseCondition
    rw [position, read_bind, bind_of_eq_some h₁, bind_of_eq_some h₂, read_bind,
      bind_of_eq_some h₃, bind_of_eq_some h₄, bind_of_eq_some h₅,
      bind_of_eq_some h₆, bind_of_eq_some h₇, h₈]
  · unfold Condition.tokens
    rw [hposition₄, ← hcondition]
    exact List.append_nil _
  · unfold Condition.errors
    rw [hposition₄, ← hcondition]
    simp
  · rw [Condition.node, size_spanning, CstNode.sizes, CstNode.sizes]

end

/-! ## Containers -/

/-- A container of the parser that computes what a reader of containers reads. -/
structure Computes {σ : Type} (source : Str) (container : Option UInt8 → ParseM σ Unit)
    (read : Option Char → Str → Option (List Item × Str)) : Prop where
  keeping : Keeping read
  sparing : Sparing read
  runs : ∀ (terminator : Option Char) (held : Nat) (pending : List CstNode) (cs : Str)
    (p : Parser σ) (items : List Item) (rest : Str), (∀ c ∈ terminator, c.toNat < 0x80) →
    Stands source held pending cs p → p.tree.count + 3 * byteLen cs < u32Max →
    read terminator cs = some (items, rest) →
    ∃ p', container (terminator.map fun c => UInt8.ofNat c.toNat) p = some ((), p') ∧
      Adds source held (pending ++ Item.nodesAll p.position items) rest
        (Item.tokensAll p.position items)
        (Item.errorsAll (byteLen source) (placeIn terminator) p.position items)
        (CstNode.sizes (Item.nodesAll p.position items)) p p'

section

variable {σ : Type} {source : Str} {container : Option UInt8 → ParseM σ Unit}
  {read : Option Char → Str → Option (List Item × Str)} {held : Nat} {pending : List CstNode}
  {cs rest rest' : Str} {items : List Item} {item : Item} {p p₁ p' : Parser σ}

/-- The items of a container and the delimiter that closes it. -/
theorem body_spec (hc : Computes source container read) (k : Char) {byte : UInt8}
    (hbyte : byte = UInt8.ofNat k.toNat) (hk : k.toNat < 0x80)
    (h : Stands source held pending cs p) (hroom : p.tree.count + 3 * byteLen cs < u32Max)
    (hread : read (some k) cs = some (items, rest')) {closed : Bool}
    (hclosing : splitClosing k rest' = (closed, rest)) (kind : SyntaxErrorKind) (start : Nat)
    (message : String) : let nodes := Item.nodesAll p.position items
    ∃ p₁ p₂, container (some byte) p = some ((), p₁) ∧
      childrenSince pending.length p₁ = some (nodes.length, p₁) ∧
      closeOr source byte kind start message p₁ = some ((), p₂) ∧
      Adds source held (pending ++ nodes) rest
        (Item.tokensAll p.position items ++
          tokenOf .closeDelimiter (p.position + byteLen (Item.texts items)) (closing k closed))
        (Item.errorsAll (byteLen source) .nested p.position items ++
          unterminated kind start (byteLen source) message closed)
        (CstNode.sizes nodes) p p₂ := by
  intro nodes
  obtain ⟨p₁, h₁, hadds₁⟩ := hc.runs (some k) held pending cs p items rest'
    (by rintro c ⟨⟩; exact hk) h hroom hread
  rw [hc.keeping _ _ _ _ hread] at h
  have hposition := h.position_eq hadds₁.stands
  obtain ⟨p₂, h₂, hadds₂⟩ := closeOr_spec k hbyte hk hadds₁.stands hclosing kind start message
  rw [hposition] at hadds₂
  refine ⟨p₁, p₂, ?_, childrenSince_eq_some hadds₁.stands, h₂, hadds₁.trans hadds₂⟩
  rw [hbyte]
  exact h₁

theorem parseBlock_spec (hc : Computes source container read) (place : Place)
    (h : Stands source held pending ('\x7B' :: cs) p)
    (hroom : p.tree.count + 3 * byteLen ('\x7B' :: cs) < u32Max)
    (hread : readBlock read cs = some (item, rest)) :
    ∃ node index p', parseBlock none source container p = some (index, p') ∧
      Returns source held pending place item rest node index [] rest p p' := by
  have heq := readBlock_eq hc.keeping hread
  obtain ⟨⟨items, rest'⟩, hitems, hread⟩ := Option.map_eq_some_iff.mp hread
  rcases hclosing : splitClosing '\x7D' rest' with ⟨closed, rest''⟩
  dsimp only at hread
  rw [hclosing] at hread
  obtain ⟨rfl, rfl⟩ := Prod.mk.inj (Option.some.inj (congrArg some hread))
  obtain ⟨p₁, h₁, hadds₁⟩ := consumeDelimiter_spec '\x7B' (by decide) h .openDelimiter
  have hposition₁ : p₁.position = p.position + 1 :=
    (show Stands source held pending (['\x7B'] ++ cs) p from h).position_eq hadds₁.stands
  rw [byteLen_cons] at hroom
  obtain ⟨p₂, p₃, h₂, hsince, h₃, hadds₃⟩ := body_spec hc '\x7D' (show (0x7D : UInt8) = _ from rfl)
    (by decide) hadds₁.stands (by have := hadds₁.count; omega) hitems hclosing .unterminatedBlock
    p.position "script block is missing `\x7d`"
  obtain ⟨index, p₄, h₄, hadds₄, hholds⟩ :=
    node_adds hadds₃.stands .block p.position (max p₃.position p.position)
  have hposition₃ : p₃.position = p.position + byteLen (Item.text (.block items closed)) :=
    (heq ▸ h).position_eq hadds₃.stands
  rw [hposition₁] at hadds₃ hholds
  have hnode : Parser.CstNode.mk .block (range p.position (max p₃.position p.position))
      (Item.nodesAll (p.position + 1) items) =
      spanning .block p.position (Item.text (.block items closed))
        (Item.nodesAll (p.position + 1) items) := by
    rw [hposition₃, Nat.max_eq_left (Nat.le_add_right _ _)]
    rfl
  rw [hnode] at hholds
  refine ⟨_, index, p₄, ?_, by rw [Item.nodes], rfl, by rintro _ ⟨⟩,
    (hadds₁.trans (hadds₃.trans hadds₄)).of_eq ?_ ?_ ?_, hholds⟩
  · unfold parseBlock
    have hopen : consumeOpenBrace source p = some ((), p₁) := by
      unfold consumeOpenBrace
      rw [bind_of_eq_some (peek_eq h), encode_cons_ascii (by decide)]
      exact h₁
    rw [position, read_bind, bind_of_eq_some hopen,
      bind_of_eq_some (childrenMark_eq hadds₁.stands), bind_of_eq_some h₂,
      bind_of_eq_some hsince, bind_of_eq_some h₃, read_bind, h₄]
  · rw [Item.tokens, List.append_nil]
    rfl
  · rw [Item.errors, List.append_nil]
    rfl
  · rw [size_spanning, Nat.zero_add]

theorem parseParameterBlock_spec (hc : Computes source container read) (place : Place)
    (h : Stands source held pending ('[' :: '[' :: cs) p)
    (hroom : p.tree.count + 3 * byteLen ('[' :: '[' :: cs) < u32Max)
    (hread : readParameter read cs = some (item, rest)) :
    ∃ node index p', parseParameterBlock none source container p = some (index, p') ∧
      Returns source held pending place item rest node index [] rest p p' := by
  have heq := readParameter_eq hc.keeping hread
  rcases hcondition : readCondition cs with ⟨condition, cs'⟩
  unfold readParameter at hread
  rw [hcondition] at hread
  obtain ⟨⟨items, rest'⟩, hitems, hread⟩ := Option.map_eq_some_iff.mp hread
  rcases hclosing : splitClosing ']' rest' with ⟨closed, rest''⟩
  dsimp only at hread
  rw [hclosing] at hread
  obtain ⟨rfl, rfl⟩ := Prod.mk.inj (Option.some.inj (congrArg some hread))
  obtain ⟨p₁, h₁, hadds₁⟩ := consumeDelimiter_spec '[' (by decide) h .openDelimiter
  obtain ⟨p₂, h₂, hadds₂⟩ := consumeDelimiter_spec '[' (by decide) hadds₁.stands .openDelimiter
  have hposition₁ : p₁.position = p.position + 1 :=
    (show Stands source held pending (['['] ++ '[' :: cs) p from h).position_eq hadds₁.stands
  have hposition₂ : p₂.position = p.position + 2 :=
    (show Stands source held pending (['[', '['] ++ cs) p from h).position_eq hadds₂.stands
  obtain ⟨p₃, h₃, hadds₃⟩ := parseCondition_spec hadds₂.stands hcondition
  have hsplit := hadds₂.stands
  rw [readCondition_eq hcondition] at hsplit
  have hposition₃ := hsplit.position_eq hadds₃.stands
  have hsize : (condition.node p₂.position).size = 2 := by
    have hname : (condition.nameNode p₂.position).size = 1 := by
      unfold Condition.nameNode
      split_ifs <;> rw [size_spanning] <;> rfl
    rw [Condition.node, size_spanning, sizes_singleton, hname]
  rw [readCondition_eq hcondition, byteLen_cons, byteLen_cons, byteLen_append] at hroom
  have hbracket := Char.utf8Size_pos '['
  obtain ⟨p₄, p₅, h₄, hsince, h₅, hadds₅⟩ := body_spec hc ']' (show (0x5D : UInt8) = _ from rfl)
    (by decide) hadds₃.stands
    (by have := hadds₁.count; have := hadds₂.count; have := hadds₃.count; omega)
    hitems hclosing .unterminatedParameterBlock p.position "parameter block is missing `]`"
  have hstands := hadds₅.stands
  rw [List.append_assoc, List.singleton_append] at hstands
  obtain ⟨index, p₆, h₆, hadds₆, hholds⟩ :=
    node_adds hstands .parameterBlock p.position (max p₅.position p.position)
  have hposition₅ : p₅.position =
      p.position + byteLen (Item.text (.parameter condition items closed)) :=
    (heq ▸ h).position_eq hadds₅.stands
  have hadds := hadds₁.trans (hadds₂.trans (hadds₃.trans (hadds₅.trans hadds₆)))
  rw [hposition₃, hposition₂] at hadds hholds
  have hnode : Parser.CstNode.mk .parameterBlock (range p.position (max p₅.position p.position))
      (condition.node (p.position + 2) ::
        Item.nodesAll (p.position + 2 + byteLen condition.text) items) =
      spanning .parameterBlock p.position (Item.text (.parameter condition items closed))
        (condition.node (p.position + 2) ::
          Item.nodesAll (p.position + 2 + byteLen condition.text) items) := by
    rw [hposition₅, Nat.max_eq_left (Nat.le_add_right _ _)]
    rfl
  rw [hnode] at hholds
  refine ⟨_, index, p₆, ?_, by rw [Item.nodes], rfl, by rintro _ ⟨⟩, hadds.of_eq ?_ ?_ ?_, hholds⟩
  · unfold parseParameterBlock
    rw [position, read_bind, bind_of_eq_some h₁, bind_of_eq_some h₂,
      bind_of_eq_some h₃, bind_of_eq_some (childrenMark_eq hadds₃.stands),
      bind_of_eq_some h₄, bind_of_eq_some hsince, bind_of_eq_some h₅, read_bind]
    exact h₆
  · rw [Item.tokens, hposition₁]
    simp
  · rw [Item.errors]
    simp
  · rw [size_spanning, CstNode.sizes]
    omega

/-- The node of an item covers its text. -/
theorem range_of_nodes {start : Nat} {node : CstNode} (h : item.nodes start = [node]) :
    node.range = range start (start + byteLen item.text) := by
  cases item <;> rw [Item.nodes] at h <;> cases h <;> first
    | rfl
    | (simp only [propertyNode, Item.text, List.append_nil]; rfl)

/-- The room that is left when a node of an item is emitted. -/
theorem inU32_of_small {start : Nat} {node : CstNode} (hsmall : item.Small)
    (hnode : item.nodes start = [node]) {count size : Nat} (hcount : p'.tree.count = count + size)
    (hsize : size = node.size) (hroom : count + 3 * byteLen item.text < u32Max) :
    p'.tree.InU32 := by
  obtain ⟨node', hnode', hle⟩ := hsmall start
  rw [hnode] at hnode'
  cases hnode'
  unfold SyntaxTreeBuilder.InU32
  have : u32Max < 2 ^ 32 := by decide
  omega

theorem parseHeader_spec (hc : Computes source container read) (hlen : byteLen source ≤ u32Max)
    (place : Place) {scalar : Scalar} {gap : Str} {block : Item} {first : Nat}
    (hs : scalar.text ≠ [])
    (h : Stands source held pending ((scalar.text ++ gap) ++ '\x7B' :: cs) p)
    (h₁ : Yields source held pending ('\x7B' :: cs) (scalar.tokens p.position)
      (scalar.errors p.position) (scalar.node p.position) first p p₁)
    (hroom : p.tree.count + 3 * byteLen ((scalar.text ++ gap) ++ '\x7B' :: cs) < u32Max)
    (hread : readBlock read cs = some (block, rest)) :
    ∃ node index p', parseHeader none source container p.position first p₁ = some (index, p') ∧
      Returns source held pending place (.header scalar gap block) rest node index []
        rest p p' := by
  have heq := readBlock_eq hc.keeping hread
  have hposition₁ := h.position_eq h₁.adds.stands
  have hcount₁ := h₁.adds.count
  have hpos := byteLen_pos hs
  have hlength := h.length
  rw [Scalar.node, size_spanning, CstNode.sizes] at hcount₁
  rw [byteLen_append, byteLen_append] at hroom hlength
  obtain ⟨node, index, p₂, h₂, hreturns⟩ :=
    parseBlock_spec hc .nested h₁.adds.stands (by omega) hread
  have hyields := hreturns.yields
  have hnodes := hreturns.nodes
  rw [hposition₁] at hyields hnodes
  rw [heq, byteLen_append] at hroom hlength
  have hrange := nodeRange_eq_some hyields.holds
    (inU32_of_small (readBlock_small hc.sparing hread) hnodes hyields.adds.count rfl (by omega))
  obtain ⟨p₃, h₃, hadds₃⟩ :=
    push_adds hyields.adds.stands (h₁.holds.mono hyields.adds.grows)
  obtain ⟨p₄, h₄, hadds₄⟩ := push_adds hadds₃.stands (hyields.holds.mono hadds₃.grows)
  have hstands := hadds₄.stands
  rw [List.append_assoc] at hstands
  obtain ⟨index', p₅, h₅, hadds₅, hholds⟩ :=
    node_adds hstands .headerBlock p.position node.range.stop
  have hadds := h₁.adds.trans (hyields.adds.trans (hadds₃.trans (hadds₄.trans hadds₅)))
  have hnode : Parser.CstNode.mk .headerBlock (range p.position node.range.stop)
      ([scalar.node p.position] ++ [node]) =
      spanning .headerBlock p.position (Item.text (.header scalar gap block))
        (scalar.node p.position ::
          Item.nodes (p.position + byteLen (scalar.text ++ gap)) block) := by
    rw [range_of_nodes hnodes, range_stop (Nat.le_add_right _ _)
      (by rw [byteLen_append]; omega), hnodes, Item.text, spanning, byteLen_append _ block.text,
      Nat.add_assoc]
    rfl
  rw [hnode] at hholds
  refine ⟨_, index', p₅, ?_, by rw [Item.nodes], rfl, by rintro _ ⟨⟩, hadds.of_eq ?_ ?_ ?_, hholds⟩
  · unfold parseHeader
    rw [bind_of_eq_some h₂, bind_of_eq_some hrange, bind_of_eq_some h₃,
      bind_of_eq_some h₄]
    exact h₅
  · rw [Item.tokens]
    simp
  · rw [Item.errors]
    simp
  · rw [size_spanning, hnodes, CstNode.sizes, sizes_singleton]
    omega

/-! ## Values -/

theorem startsParameterBlock_eq (h : Stands source held pending cs p) :
    startsParameterBlock source p = some (decide (cs.take 2 = ['[', '[']), p) := by
  have hiff : (Utf8.encode cs).take 2 = [0x5B, 0x5B] ↔ cs.take 2 = ['[', '['] := by
    have hfirst := head_encode '[' (show (0x5B : UInt8) = _ from rfl) (by decide) cs
    cases cs with
    | nil => simp
    | cons c cs =>
      by_cases hc : c = '['
      · subst hc
        have hsecond := head_encode '[' (show (0x5B : UInt8) = _ from rfl) (by decide) cs
        rw [encode_cons_ascii (by decide)]
        cases cs with
        | nil => simp
        | cons d cs =>
          obtain ⟨b, tl, henc, -⟩ := Utf8.encodeChar_cons d
          rw [Utf8.encode_cons, henc, List.cons_append] at hsecond ⊢
          rw [List.head?_cons, List.head?_cons, Option.some_inj, Option.some_inj] at hsecond
          simp [hsecond]
      · rw [List.head?_cons, Option.some_inj] at hfirst
        refine iff_of_false (fun htake => hc (hfirst.mp ?_)) fun htake => hc (by simp_all)
        have := congrArg List.head? htake
        rwa [List.head?_take, if_neg (by decide)] at this
  unfold startsParameterBlock
  rw [Script.rest, read_bind, h.bytes]
  simp only [hiff]
  rfl

theorem Returns.of_yields (place : Place) (item : Item) {node : CstNode} {index : Nat}
    (hnodes : item.nodes p.position = [node])
    (h : Yields source held pending rest (item.tokens p.position)
      (item.errors (byteLen source) place p.position) node index p p') :
    Returns source held pending place item rest node index [] rest p p' :=
  ⟨hnodes, rfl, by rintro _ ⟨⟩, h⟩

/-- A scalar that stands alone, with the whitespace behind it skipped. -/
theorem Returns.of_scalar {place : Place} {scalar : Scalar} {index : Nat} {p₂ : Parser σ}
    (h : Yields source held pending cs (scalar.tokens p.position)
      (scalar.errors p.position ++ scalar.unassigned place p.position) (scalar.node p.position)
      index p p₁) (h₂ : Adds source (held + 1) pending (cs.dropWhile isSpace) [] [] 0 p₁ p₂) :
    Returns source held pending place (.scalar scalar) cs (scalar.node p.position) index
      (cs.takeWhile isSpace) (cs.dropWhile isSpace) p p₂ where
  nodes := by rw [Item.nodes]
  rest := List.takeWhile_append_dropWhile.symm
  spaces := List.all_eq_true.mp List.all_takeWhile
  yields :=
    ⟨(h.adds.trans h₂).of_eq (by rw [Item.tokens, List.append_nil])
      (by rw [Item.errors, List.append_nil]) (Nat.add_zero _), h.holds.mono h₂.grows⟩

theorem parseValue_spec (hc : Computes source container read) (hlen : byteLen source ≤ u32Max)
    (h : Stands source held pending cs p) (hroom : p.tree.count + 3 * byteLen cs < u32Max)
    (hread : readValue read cs = some (item, rest)) :
    ∃ node index gap stop p', parseValue none source container p = some (index, p') ∧
      Returns source held pending .value item rest node index gap stop p p' := by
  have hparameter := startsParameterBlock_eq h
  have hquote := head_encode '"' (show (0x22 : UInt8) = _ from rfl) (by decide) cs
  have hbrace := head_encode '\x7B' (show (0x7B : UInt8) = _ from rfl) (by decide) cs
  unfold parseValue
  rw [position, read_bind, bind_of_eq_some (peek_eq h)]
  unfold readValue at hread
  split at hread
  · -- a string
    rename_i cs
    rcases hquoted : readQuoted cs with ⟨scalar, rest'⟩
    rw [hquoted] at hread
    cases hread
    obtain ⟨index, p₁, h₁, hyields⟩ := parseQuoted_spec h hquoted
    rw [if_pos (hquote.mpr rfl)]
    refine ⟨_, index, [], rest, p₁, h₁, .of_yields _ _ (by rw [Item.nodes])
      (hyields.of_eq ?_ ?_ rfl)⟩
    · rw [Item.tokens]
    · rw [Item.errors]
      cases hquoted
      exact (List.append_nil _).symm
  · rw [if_neg (fun hb => absurd (hquote.mp hb) (by simp)), if_pos (hbrace.mpr rfl)]
    obtain ⟨node, index, p₁, h₁, hreturns⟩ := parseBlock_spec hc .value h hroom hread
    exact ⟨node, index, [], rest, p₁, h₁, hreturns⟩
  · rw [if_neg (fun hb => absurd (hquote.mp hb) (by simp)),
      if_neg (fun hb => absurd (hbrace.mp hb) (by simp)), bind_of_eq_some hparameter,
        if_pos (by simp)]
    obtain ⟨node, index, p₁, h₁, hreturns⟩ := parseParameterBlock_spec hc .value h hroom hread
    exact ⟨node, index, [], rest, p₁, h₁, hreturns⟩
  · rename_i c cs hquote' hbrace' hbracket'
    rw [List.head?_cons, Option.some_inj] at hquote hbrace
    have hbracket : ¬(c :: cs).take 2 = ['[', '['] := fun htake => by
      cases cs with
      | nil => cases htake
      | cons d cs =>
        cases htake
        exact hbracket' cs rfl rfl
    rw [if_neg (fun hb => hquote' (hquote.mp hb)), if_neg (fun hb => hbrace' (hbrace.mp hb)),
      bind_of_eq_some hparameter, if_neg (by rw [decide_eq_true_eq]; exact hbracket)]
    split_ifs at hread with hbare
    · -- a bare word
      have hword := bare_ne_nil hbare cs
      obtain ⟨first, p₁, h₁, hyields⟩ := parseBare_some h hword
      obtain ⟨p₂, h₂, hadds₂⟩ := skipWhitespace_spec hyields.adds.stands
      have hhead := head_encode '\x7B' (show (0x7B : UInt8) = _ from rfl) (by decide)
        (((c :: cs).dropWhile isBare).dropWhile isSpace)
      rw [bind_of_eq_some h₁]
      dsimp only
      rw [bind_of_eq_some h₂, bind_of_eq_some (peek_eq hadds₂.stands)]
      unfold readHeader at hread
      dsimp only at hread
      split at hread
      · rename_i rest' hrest
        obtain ⟨⟨block, rest''⟩, hblock, hread⟩ := Option.map_eq_some_iff.mp hread
        obtain ⟨rfl, rfl⟩ := Prod.mk.inj hread
        have hsplit : c :: cs = ((Scalar.bare ((c :: cs).takeWhile isBare)).text ++
            ((c :: cs).dropWhile isBare).takeWhile isSpace) ++ '\x7B' :: rest' := by
          rw [← hrest, List.append_assoc, List.takeWhile_append_dropWhile, Scalar.text,
            List.takeWhile_append_dropWhile]
        rw [if_pos (hhead.mpr (by rw [hrest]; rfl))]
        rw [hsplit] at h hroom
        rw [hrest] at hadds₂
        obtain ⟨node, index, p₃, h₃, hreturns⟩ := parseHeader_spec hc hlen .value hword h
          ⟨(hyields.adds.trans hadds₂).of_eq (List.append_nil _) (List.append_nil _)
            (Nat.add_zero _), hyields.holds.mono hadds₂.grows⟩ hroom hblock
        exact ⟨node, index, [], _, p₃, h₃, hreturns⟩
      · rename_i hno
        obtain ⟨rfl, rfl⟩ := Prod.mk.inj (Option.some.inj hread)
        rw [if_neg (fun hb => ?_)]
        · exact ⟨_, first, _, _, p₂, rfl,
            Returns.of_scalar (hyields.of_eq rfl (List.append_nil _).symm rfl) hadds₂⟩
        · have hhead' := hhead.mp hb
          cases hdrop : ((c :: cs).dropWhile isBare).dropWhile isSpace with
          | nil =>
            rw [hdrop] at hhead'
            cases hhead'
          | cons d ds =>
            rw [hdrop] at hhead'
            cases hhead'
            exact hno ds hdrop
    · -- no value
      obtain ⟨rfl, rfl⟩ := Prod.mk.inj (Option.some.inj hread)
      have hnil : (c :: cs).takeWhile isBare = [] := List.takeWhile_cons_of_neg hbare
      obtain ⟨p₁, h₁, hadds₁⟩ := parseBare_none h hnil
      have hascii : c.toNat < 0x80 := by
        rw [isBare, Bool.not_eq_true', Bool.not_eq_false, Bool.or_eq_true] at hbare
        rcases hbare with hc | hc
        · exact isSpace_lt hc
        · exact isDelimiterChar_lt hc
      have hposition : p₁.position = p.position := h.position_same hadds₁.stands
      obtain ⟨index, p₂, h₂, hyields⟩ := recover_spec hascii hadds₁.stands
        fun text => "expected a value, found `" ++ text ++ "`"
      rw [hposition] at h₂ hyields
      rw [bind_of_eq_some h₁]
      exact ⟨_, index, [], _, p₂, h₂, .of_yields _ _ (by rw [Item.nodes])
        ((hadds₁.yields hyields).of_eq (by rw [Item.tokens]) (by rw [Item.errors]) rfl)⟩
  · cases hread

/-! ## Properties -/

/-- The end of `parse_property`, behind the value. -/
def closeProperty (source : Str) (start key operator value : Nat) : ParseM σ Nat := do
  let keyRange ← nodeRange key
  push key
  let keyNode ← node none source .key keyRange.start keyRange.stop 1
  let valueRange ← nodeRange value
  push value
  let valueNode ← node none source .value valueRange.start valueRange.stop 1
  push keyNode
  push operator
  push valueNode
  node none source .property start valueRange.stop 3

theorem parseProperty_eq (start key : Nat) :
    parseProperty none source container start key = (do
      let operator ← operatorOrError none source
      skipWhitespace none source
      let value ← valueOrError none source container key
      closeProperty source start key operator value : ParseM σ Nat) := rfl

theorem closeProperty_spec (start : Nat) {key operator value : Nat} {k o v : CstNode}
    (h : Stands source (held + 3) pending cs p) (hkey : p.tree.Holds key k)
    (hoperator : p.tree.Holds operator o) (hvalue : p.tree.Holds value v)
    (hfit : p.tree.count + 1 ≤ 2 ^ 32) :
    ∃ index p', closeProperty source start key operator value p = some (index, p') ∧
      Adds source (held + 1) pending cs [] [] 3 p p' ∧
      p'.tree.Holds index (.mk .property (range start v.range.stop)
        [.mk .key (range k.range.start k.range.stop) [k], o,
          .mk .value (range v.range.start v.range.stop) [v]]) := by
  have hrange := nodeRange_eq_some hkey (Nat.le_of_succ_le hfit)
  obtain ⟨p₁, keyNode, p₂, h₁, h₂, hadds₂, hholds₂⟩ :=
    wrap_adds h hkey .key k.range.start k.range.stop
  have hvalue₂ := hvalue.mono hadds₂.grows
  have hrange₂ := nodeRange_eq_some hvalue₂
    (by unfold SyntaxTreeBuilder.InU32; rw [hadds₂.count]; exact hfit)
  obtain ⟨p₃, valueNode, p₄, h₃, h₄, hadds₄, hholds₄⟩ :=
    wrap_adds hadds₂.stands hvalue₂ .value v.range.start v.range.stop
  obtain ⟨p₅, h₅, hadds₅⟩ := push_adds hadds₄.stands (hholds₂.mono hadds₄.grows)
  obtain ⟨p₆, h₆, hadds₆⟩ := push_adds hadds₅.stands
    (hoperator.mono (hadds₂.grows.trans (hadds₄.grows.trans hadds₅.grows)))
  obtain ⟨p₇, h₇, hadds₇⟩ := push_adds hadds₆.stands
    (hholds₄.mono (hadds₅.grows.trans hadds₆.grows))
  have hstands := hadds₇.stands
  rw [List.append_assoc, List.append_assoc] at hstands
  obtain ⟨index, p₈, h₈, hadds₈, hholds₈⟩ := node_adds hstands .property start v.range.stop
  refine ⟨index, p₈, ?_, hadds₂.trans (hadds₄.trans (hadds₅.trans (hadds₆.trans
    (hadds₇.trans hadds₈)))), hholds₈⟩
  unfold closeProperty
  rw [bind_of_eq_some hrange, bind_of_eq_some h₁, bind_of_eq_some h₂,
    bind_of_eq_some hrange₂, bind_of_eq_some h₃, bind_of_eq_some h₄,
    bind_of_eq_some h₅, bind_of_eq_some h₆, bind_of_eq_some h₇]
  exact h₈

/-- The characters that no value starts with. -/
def NoValue (cs : Str) : Prop :=
  cs = [] ∨ cs.head? = some '#' ∨ cs.head? = some '\x7D' ∨ cs.head? = some ']'

theorem noValue_iff (h : Stands source held pending cs p) :
    (byteLen source ≤ p.position ∨ (Utf8.encode cs).head? = some 0x23 ∨
      (Utf8.encode cs).head? = some 0x7D ∨ (Utf8.encode cs).head? = some 0x5D) ↔ NoValue cs := by
  have hlen := h.length
  have hend : byteLen source ≤ p.position ↔ cs = [] := by
    rw [← byteLen_eq_zero_iff]
    omega
  unfold NoValue
  rw [hend, head_encode '#' (show (0x23 : UInt8) = _ from rfl) (by decide),
    head_encode '\x7D' (show (0x7D : UInt8) = _ from rfl) (by decide),
    head_encode ']' (show (0x5D : UInt8) = _ from rfl) (by decide)]

/-- The report on a missing value, and the error node in its place. -/
theorem valueOrError_missing (container : Option UInt8 → ParseM σ Unit) {p₀ : Parser σ}
    {held₀ : Nat} {pending₀ : List CstNode} {more : Str}
    {scalar : Scalar} {key : Nat} (hlen : byteLen source ≤ u32Max)
    (h₀ : Stands source held₀ pending₀ (scalar.text ++ more) p₀)
    (h : Stands source held pending cs p) (hkey : p.tree.Holds key (scalar.node p₀.position))
    (hfit : p.tree.InU32) (hcs : NoValue cs) :
    ∃ index p', valueOrError none source container key p = some (index, p') ∧
      Yields source held pending cs []
        [⟨.missingValue, range p₀.position p.position,
          "`" ++ shorten scalar.text ++ "` is missing a value"⟩]
        (spanning .error p.position [] []) index p p' := by
  have hrange := nodeRange_eq_some hkey hfit
  have hlength := h₀.length
  rw [byteLen_append] at hlength
  have hstart : (scalar.node p₀.position).range.start = p₀.position :=
    range_start (by omega)
  have hstop : (scalar.node p₀.position).range.stop = p₀.position + byteLen scalar.text :=
    range_stop (Nat.le_add_right _ _) (by omega)
  obtain ⟨p₁, h₁, hadds₁⟩ := error_adds h .missingValue p₀.position p.position
    ("`" ++ shorten scalar.text ++ "` is missing a value")
  obtain ⟨index, p₂, h₂, hadds₂, hholds⟩ := leaf_adds hadds₁.stands .error p.position p.position
  refine ⟨index, p₂, ?_, (hadds₁.trans hadds₂).of_eq rfl rfl ?_, hholds⟩
  · unfold valueOrError
    rw [position, read_bind, bind_of_eq_some (peek_eq h), if_pos ((noValue_iff h).mpr hcs),
      bind_of_eq_some hrange, hstart, hstop, h₀.snippet_eq, bind_of_eq_some h₁, h₂]
  · rw [size_spanning]
    rfl

theorem valueOrError_value (container : Option UInt8 → ParseM σ Unit)
    (h : Stands source held pending cs p) (hcs : ¬NoValue cs) (key : Nat) :
    valueOrError none source container key p = parseValue none source container p := by
  unfold valueOrError
  rw [position, read_bind, bind_of_eq_some (peek_eq h),
    if_neg (fun hno => hcs ((noValue_iff h).mp hno))]

theorem propertyNode_eq {start : Nat} {key : Scalar} {gap operator : Str} (gap' value : Str)
    {v : CstNode} (hfit : start + byteLen (key.text ++ gap ++ operator ++ gap' ++ value) ≤ u32Max)
    (hv : v.range = range (start + byteLen (key.text ++ gap ++ operator ++ gap'))
      (start + byteLen (key.text ++ gap ++ operator ++ gap') + byteLen value)) :
    Parser.CstNode.mk .property (range start v.range.stop)
      [.mk .key (range (key.node start).range.start (key.node start).range.stop) [key.node start],
        operatorNode (start + byteLen (key.text ++ gap)) operator,
        .mk .value (range v.range.start v.range.stop) [v]] =
      propertyNode start key gap operator gap' value [v] := by
  rw [byteLen_append] at hfit
  have hkey : byteLen key.text ≤ byteLen (key.text ++ gap ++ operator ++ gap') := by
    simp only [byteLen_append]
    omega
  have hstart : (key.node start).range.start = start := range_start (by omega)
  have hstop : (key.node start).range.stop = start + byteLen key.text :=
    range_stop (Nat.le_add_right _ _) (by omega)
  rw [hstart, hstop, hv, range_start (by omega), range_stop (Nat.le_add_right _ _) (by omega)]
  unfold propertyNode spanning
  dsimp only
  rw [byteLen_append _ value, Nat.add_assoc]

theorem parseProperty_spec (hc : Computes source container read) (hlen : byteLen source ≤ u32Max)
    (place : Place) {key : Scalar} {gap : Str} {c : Char} {first : Nat} (hkey : key.text ≠ [])
    (hstarts : startsOperator c = true)
    (h : Stands source held pending ((key.text ++ gap) ++ c :: cs) p)
    (h₁ : Yields source held pending (c :: cs) (key.tokens p.position) (key.errors p.position)
      (key.node p.position) first p p₁)
    (hroom : p.tree.count + 3 * byteLen ((key.text ++ gap) ++ c :: cs) < u32Max)
    (hread : readProperty read key gap (c :: cs) = some (item, rest)) :
    ∃ node index gap' stop p', parseProperty none source container p.position first p₁ =
      some (index, p') ∧ Returns source held pending place item rest node index gap' stop p p' := by
  rcases hsplit : splitOperator (c :: cs) with ⟨operator, cs₁⟩
  have heq := splitOperator_eq hsplit
  have hposition₁ := h.position_eq h₁.adds.stands
  have hcount₁ : p₁.tree.count = p.tree.count + 1 := h₁.adds.count
  obtain ⟨op, p₂, h₂, hyields₂⟩ := operatorOrError_spec hstarts h₁.adds.stands hsplit
  have hcount₂ : p₂.tree.count = p₁.tree.count + 1 := hyields₂.adds.count
  obtain ⟨p₃, h₃, hadds₃⟩ := skipWhitespace_spec hyields₂.adds.stands
  have hcount₃ : p₃.tree.count = p₂.tree.count := hadds₃.count
  have hpos := byteLen_pos hkey
  have hpos' := byteLen_pos (splitOperator_ne hsplit)
  have hassoc : (key.text ++ gap) ++ c :: cs =
    (key.text ++ gap ++ operator ++ cs₁.takeWhile isSpace) ++
      cs₁.dropWhile isSpace := by
    rw [heq, List.append_assoc _ (cs₁.takeWhile isSpace), List.takeWhile_append_dropWhile,
      List.append_assoc (key.text ++ gap)]
  have h₀ : Stands source held pending (key.text ++ (gap ++ c :: cs)) p := by
    rw [← List.append_assoc]
    exact h
  rw [hassoc] at h hroom
  have hlength := h.length
  have hposition₃ := h.position_eq hadds₃.stands
  rw [byteLen_append] at hroom hlength
  have hfront : byteLen key.text + byteLen operator ≤
      byteLen (key.text ++ gap ++ operator ++ cs₁.takeWhile isSpace) := by
    simp only [byteLen_append]
    omega
  have hfirst := h₁.holds.mono (hyields₂.adds.grows.trans hadds₃.grows)
  have hop := hyields₂.holds.mono hadds₃.grows
  rw [hposition₁] at hop hyields₂
  have hadds := h₁.adds.trans (hyields₂.adds.trans hadds₃)
  have hu32 : u32Max < 2 ^ 32 := by decide
  unfold readProperty at hread
  rw [hsplit] at hread
  dsimp only at hread
  rw [parseProperty_eq, bind_of_eq_some h₂, bind_of_eq_some h₃]
  have hmissing (hno : NoValue (cs₁.dropWhile isSpace))
      (hread : some (Item.missing key gap operator (cs₁.takeWhile isSpace), cs₁.dropWhile isSpace) =
        some (item, rest)) :
      ∃ node index gap' stop p', (do
          let value ← valueOrError none source container first
          closeProperty source p.position first op value : ParseM σ Nat) p₃ = some (index, p') ∧
        Returns source held pending place item rest node index gap' stop p p' := by
    cases hread
    obtain ⟨value, p₄, h₄, hyields₄⟩ := valueOrError_missing container hlen h₀
      hadds₃.stands hfirst (by unfold SyntaxTreeBuilder.InU32; omega) hno
    have hcount₄ : p₄.tree.count = p₃.tree.count + 1 := hyields₄.adds.count
    obtain ⟨index, p₅, h₅, hadds₅, hholds₅⟩ := closeProperty_spec p.position
      hyields₄.adds.stands (hfirst.mono hyields₄.adds.grows) (hop.mono hyields₄.adds.grows)
      hyields₄.holds (by omega)
    rw [propertyNode_eq (cs₁.takeWhile isSpace) [] (by
        rw [List.append_nil]; omega) (by rw [hposition₃]; rfl), hposition₃] at hholds₅
    refine ⟨_, index, [], _, p₅, ?_, .of_yields _ _ (by rw [Item.nodes])
      ⟨(hadds.trans (hyields₄.adds.trans hadds₅)).of_eq ?_ ?_ ?_, hholds₅⟩⟩
    · rw [bind_of_eq_some h₄, h₅]
    · rw [Item.tokens]
      simp
    · rw [Item.errors, hposition₃]
      simp
    · simp only [propertyNode, operatorNode, Scalar.node, size_spanning, CstNode.sizes]
  split at hread
  · rename_i hnil
    exact hmissing (Or.inl hnil) hread
  · rename_i hhash
    exact hmissing (by rw [hhash]; exact Or.inr (Or.inl rfl)) hread
  · rename_i hbrace
    exact hmissing (by rw [hbrace]; exact Or.inr (Or.inr (Or.inl rfl))) hread
  · rename_i hbracket
    exact hmissing (by rw [hbracket]; exact Or.inr (Or.inr (Or.inr rfl))) hread
  · rename_i hnil hhash hbrace hbracket
    obtain ⟨⟨value, rest'⟩, hvalue, hread⟩ := Option.map_eq_some_iff.mp hread
    obtain ⟨rfl, rfl⟩ := Prod.mk.inj hread
    have hsome : ¬NoValue (cs₁.dropWhile isSpace) := by
      rintro (hno | hno | hno | hno)
      · exact hnil hno
      · obtain ⟨tail, htail⟩ := List.head?_eq_some_iff.mp hno
        exact hhash tail htail
      · obtain ⟨tail, htail⟩ := List.head?_eq_some_iff.mp hno
        exact hbrace tail htail
      · obtain ⟨tail, htail⟩ := List.head?_eq_some_iff.mp hno
        exact hbracket tail htail
    have hcut := readValue_eq hc.keeping hvalue
    obtain ⟨node, v, gap', stop, p₄, h₄, hreturns⟩ :=
      parseValue_spec hc hlen hadds₃.stands (by omega) hvalue
    have hyields₄ := hreturns.yields
    have hnodes := hreturns.nodes
    have hcount₄ := hyields₄.adds.count
    obtain ⟨node', hnode', hsize⟩ := readValue_small hc.sparing hvalue p₃.position
    rw [hnodes] at hnode'
    cases hnode'
    rw [hcut, byteLen_append value.text] at hroom hlength
    obtain ⟨index, p₅, h₅, hadds₅, hholds₅⟩ := closeProperty_spec p.position
      hyields₄.adds.stands (hfirst.mono hyields₄.adds.grows) (hop.mono hyields₄.adds.grows)
      hyields₄.holds (by omega)
    rw [hposition₃] at hnodes hyields₄
    rw [propertyNode_eq (cs₁.takeWhile isSpace) value.text
      (by rw [byteLen_append _ value.text]; omega) (range_of_nodes hnodes)] at hholds₅
    refine ⟨_, index, gap', stop, p₅, ?_, by rw [Item.nodes, hnodes], hreturns.rest,
      hreturns.spaces, (hadds.trans (hyields₄.adds.trans hadds₅)).of_eq ?_ ?_ ?_, hholds₅⟩
    · have hrun := valueOrError_value container hadds₃.stands hsome first
      rw [bind_of_eq_some (hrun.trans h₄), h₅]
    · rw [Item.tokens]
      simp
    · rw [Item.errors]
      simp
    · rw [size_propertyNode, sizes_singleton, Scalar.node, operatorNode, size_spanning,
        size_spanning, CstNode.sizes]
      omega

end

end ParadoxCode.Script
