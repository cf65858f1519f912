import ParadoxCode.Parser.ScriptInv
import ParadoxCode.Parser.ScriptItems

/-!
# The scanners on characters

Without a guard the parser never stops early. `Stands` says what is left of the source at the cursor
and which trees are queued, `Adds` what a run adds. Each primitive and each scanner of the parser
has a lemma that runs it and says which characters it takes.
-/

namespace ParadoxCode.Script

open ParadoxCode.Parser

/-! ## Bytes and characters -/

/-- A test of bytes that agrees with a test of characters on every byte of a character. -/
def Lifts (continues : UInt8 → Bool) (test : Char → Bool) : Prop :=
  ∀ c, ∀ byte ∈ String.utf8EncodeChar c, continues byte = test c

/-- A test is lifted when it agrees on ASCII and is constant beyond. -/
theorem lifts_of {continues : UInt8 → Bool} {test : Char → Bool} (value : Bool)
    (hascii : ∀ n < 0x80, continues (UInt8.ofNat n) = test (Char.ofNat n))
    (hbyte : ∀ byte : UInt8, 0x80 ≤ byte.toNat → continues byte = value)
    (hchar : ∀ c : Char, 0x80 ≤ c.toNat → test c = value) : Lifts continues test := by
  intro c byte hmem
  rcases Nat.lt_or_ge c.toNat 0x80 with hlt | hge
  · rw [Utf8.encodeChar_ascii hlt, List.mem_singleton] at hmem
    rw [hmem, hascii c.toNat hlt, Char.ofNat_toNat]
  · obtain ⟨b, tl, henc, -, htl, -, hlead⟩ := Utf8.encodeChar_cons c
    rw [hchar c hge]
    apply hbyte
    rw [henc, List.mem_cons] at hmem
    rcases hmem with rfl | hmem
    · have := (hlead hge).1
      omega
    · have := Utf8.isContinuation_iff.mp (htl byte hmem)
      omega

theorem isSpace_lt {c : Char} (h : isSpace c = true) : c.toNat < 0x80 := by
  simp only [isSpace, Bool.or_eq_true, beq_iff_eq] at h
  rcases h with (((rfl | rfl) | rfl) | rfl) | rfl <;> decide

theorem isDelimiterChar_lt {c : Char} (h : isDelimiterChar c = true) : c.toNat < 0x80 := by
  simp only [isDelimiterChar, Bool.or_eq_true, beq_iff_eq] at h
  rcases h with
    (((((((((rfl | rfl) | rfl) | rfl) | rfl) | rfl) | rfl) | rfl) | rfl) | rfl) | rfl <;>
    decide

theorem lifts_space : Lifts isAsciiWhitespace isSpace := by
  refine lifts_of false (by decide) (fun byte hge => ?_) fun c hge => ?_ <;>
    rw [← Bool.not_eq_true]
  · intro h
    have := isAsciiWhitespace_lt h
    omega
  · intro h
    have := isSpace_lt h
    omega

theorem lifts_bare : Lifts (fun byte => !(isAsciiWhitespace byte || isDelimiter byte)) isBare := by
  refine lifts_of true (by decide) (fun byte hge => ?_) fun c hge => ?_
  · rw [Bool.not_eq_true', ← Bool.not_eq_true, Bool.or_eq_true]
    rintro (h | h)
    · have := isAsciiWhitespace_lt h
      omega
    · have := isDelimiter_lt h
      omega
  · rw [isBare, Bool.not_eq_true', ← Bool.not_eq_true, Bool.or_eq_true]
    rintro (h | h)
    · have := isSpace_lt h
      omega
    · have := isDelimiterChar_lt h
      omega

theorem lifts_line : Lifts (fun byte => !(byte == 0x0D || byte == 0x0A)) fun c => !isLineEnd c := by
  refine lifts_of true (by decide) (fun byte hge => ?_) fun c hge => ?_
  · rw [Bool.not_eq_true', ← Bool.not_eq_true, Bool.or_eq_true, beq_iff_eq, beq_iff_eq]
    rintro (rfl | rfl) <;> exact absurd hge (by decide)
  · rw [Bool.not_eq_true', ← Bool.not_eq_true, isLineEnd, Bool.or_eq_true, beq_iff_eq, beq_iff_eq]
    rintro (rfl | rfl) <;> exact absurd hge (by decide)

/-- The first byte is that of an ASCII character where the character comes first. -/
theorem head_encode (k : Char) {byte : UInt8} (hbyte : byte = UInt8.ofNat k.toNat)
    (hk : k.toNat < 0x80) (cs : Str) : (Utf8.encode cs).head? = some byte ↔ cs.head? = some k := by
  cases cs with
  | nil => simp
  | cons c cs =>
    rw [Utf8.encode_cons, List.head?_cons, Option.some_inj]
    rcases Nat.lt_or_ge c.toNat 0x80 with hlt | hge
    · rw [Utf8.encodeChar_ascii hlt, List.singleton_append, List.head?_cons, Option.some_inj, hbyte,
        ← UInt8.toNat_inj, Utf8.toNat_byte (by omega), Utf8.toNat_byte (by omega)]
      exact ⟨fun h => Char.ext (UInt32.toNat_inj.mp h), fun h => by rw [h]⟩
    · obtain ⟨b, tl, henc, -, -, -, hlead⟩ := Utf8.encodeChar_cons c
      rw [henc, List.cons_append, List.head?_cons, Option.some_inj, hbyte]
      constructor
      · rintro rfl
        have := (hlead hge).1
        rw [Utf8.toNat_byte (by omega)] at this
        omega
      · rintro rfl
        omega

/-! ## What a run adds -/

section

variable {σ : Type} (source : Str)

/-- The parser runs, its cursor stands before `cs` and the trees `pending` are queued. -/
structure Stands (held : Nat) (pending : List CstNode) (cs : Str) (p : Parser σ) : Prop where
  running : p.stopped = false
  cursor : ∃ before, source = before ++ cs ∧ byteLen before = p.position
  builds : p.tree.Builds held pending
  saturated : p.tree.saturated = true → u32Max ≤ p.tree.count

/-- A run that stops before `cs` emits `count` nodes, adds tokens and errors and leaves the trees
`pending` queued. -/
structure Adds (held : Nat) (pending : List CstNode) (cs : Str) (tokens : List SyntaxToken)
    (errors : List SyntaxError) (count : Nat) (p p' : Parser σ) : Prop where
  stands : Stands source held pending cs p'
  grows : p.tree.Extends p'.tree
  tokens : p'.tokens = p.tokens ++ tokens
  errors : p'.errors = p.errors ++ errors
  count : p'.tree.count = p.tree.count + count

end

section

variable {σ : Type} {source : Str} {held held' count count' : Nat} {pending pending' : List CstNode}
  {cs cs' front rest : Str} {tokens tokens' : List SyntaxToken} {errors errors' : List SyntaxError}
  {p p' p'' : Parser σ}

theorem Stands.length (h : Stands source held pending cs p) :
    p.position + byteLen cs = byteLen source := by
  obtain ⟨before, rfl, hlen⟩ := h.cursor
  rw [byteLen_append, hlen]

theorem Stands.bytes (h : Stands source held pending cs p) :
    bytesAt source p.position = Utf8.encode cs := by
  obtain ⟨before, rfl, hlen⟩ := h.cursor
  rw [bytesAt, ← hlen, Utf8.encode_append, byteLen, List.drop_left]

theorem Stands.boundary (h : Stands source held pending cs p) : Boundary source p.position := by
  obtain ⟨before, hsource, hlen⟩ := h.cursor
  exact ⟨before, cs, hsource, hlen⟩

theorem Stands.getText (h : Stands source held pending (front ++ rest) p) :
    getText source p.position (p.position + byteLen front) = some front := by
  obtain ⟨before, hsource, hlen⟩ := h.cursor
  exact getText_eq_some_iff.mpr ⟨before, rest, by rw [hsource, List.append_assoc], hlen, rfl⟩

/-- The cursor moves over some characters. -/
theorem Stands.move (h : Stands source held pending (front ++ rest) p) {position : Nat}
    (hposition : position = p.position + byteLen front) (work : Nat) :
    Stands source held pending rest { p with position, work } where
  running := h.running
  cursor := by
    obtain ⟨before, hsource, hlen⟩ := h.cursor
    exact ⟨before ++ front, by rw [hsource, List.append_assoc],
      by rw [byteLen_append, hlen, hposition]⟩
  builds := h.builds
  saturated := h.saturated

/-- The cursor has moved over what is gone from the text. -/
theorem Stands.position_eq (h : Stands source held pending (front ++ rest) p)
    (h' : Stands source held' pending' rest p') : p'.position = p.position + byteLen front := by
  have := h.length
  have := h'.length
  rw [byteLen_append] at *
  omega

theorem Stands.position_same (h : Stands source held pending cs p)
    (h' : Stands source held' pending' cs p') : p'.position = p.position := by
  have := h.length
  have := h'.length
  omega

theorem Adds.trans (h : Adds source held pending cs tokens errors count p p')
    (h' : Adds source held' pending' cs' tokens' errors' count' p' p'') :
    Adds source held' pending' cs' (tokens ++ tokens') (errors ++ errors')
      (count + count') p p'' where
  stands := h'.stands
  grows := h.grows.trans h'.grows
  tokens := by rw [h'.tokens, h.tokens, List.append_assoc]
  errors := by rw [h'.errors, h.errors, List.append_assoc]
  count := by rw [h'.count, h.count, Nat.add_assoc]

theorem Adds.of_eq (h : Adds source held pending cs tokens errors count p p')
    (htokens : tokens = tokens') (herrors : errors = errors') (hcount : count = count') :
    Adds source held pending cs tokens' errors' count' p p' := by
  rw [← htokens, ← herrors, ← hcount]
  exact h

/-- A run in front of another that adds nothing. -/
theorem Adds.after (h : Adds source held pending cs [] [] 0 p p')
    (h' : Adds source held' pending' cs' tokens' errors' count' p' p'') :
    Adds source held' pending' cs' tokens' errors' count' p p'' :=
  (h.trans h').of_eq rfl rfl (Nat.zero_add _)

theorem Adds.refl (h : Stands source held pending cs p) : Adds source held pending cs [] [] 0 p p :=
  ⟨h, .refl _, (List.append_nil _).symm, (List.append_nil _).symm, rfl⟩

theorem Adds.move (h : Stands source held pending (front ++ rest) p) {position : Nat}
    (hposition : position = p.position + byteLen front) (work : Nat) :
    Adds source held pending rest [] [] 0 p { p with position, work } :=
  ⟨h.move hposition work, .refl _, (List.append_nil _).symm, (List.append_nil _).symm, rfl⟩

/-! ## Primitives -/

theorem checkWork_eq (force : Bool) (hrun : p.stopped = false) :
    checkWork none source force p = some (true, { p with work := p.work + 1 }) := by
  unfold checkWork
  rw [hrun]
  rfl

theorem checkWork_adds (h : Stands source held pending cs p) (force : Bool) :
    ∃ p', checkWork none source force p = some (true, p') ∧
      Adds source held pending cs [] [] 0 p p' :=
  ⟨_, checkWork_eq force h.running,
    Adds.move (show Stands source held pending ([] ++ cs) p from h) rfl _⟩

theorem advance_adds (h : Stands source held pending (front ++ rest) p) {count : Nat}
    (hcount : count = byteLen front) :
    ∃ p', advance count p = some ((), p') ∧ Adds source held pending rest [] [] 0 p p' :=
  ⟨_, rfl, Adds.move h (by rw [hcount]) p.work⟩

theorem peek_eq (h : Stands source held pending cs p) :
    peek source p = some ((Utf8.encode cs).head?, p) := by
  rw [peek, Run.read_apply, h.bytes]

theorem pushToken_adds (h : Stands source held pending cs p) (kind : TokenKind) (start : Nat) :
    ∃ p', pushToken kind start p = some ((), p') ∧
      Adds source held pending cs [⟨kind, range start p.position⟩] [] 0 p p' :=
  ⟨_, rfl, ⟨h.running, h.cursor, h.builds, h.saturated⟩, .refl _, rfl,
    (List.append_nil _).symm, rfl⟩

theorem error_adds (h : Stands source held pending cs p) (kind : SyntaxErrorKind) (start stop : Nat)
    (message : String) :
    ∃ p', error kind start stop message p = some ((), p') ∧
      Adds source held pending cs [] [⟨kind, range start stop, message⟩] 0 p p' :=
  ⟨_, rfl, ⟨h.running, h.cursor, h.builds, h.saturated⟩, .refl _,
    (List.append_nil _).symm, rfl, rfl⟩

theorem push_adds {index : Nat} {tree : CstNode} (h : Stands source (held + 1) pending cs p)
    (hi : p.tree.Holds index tree) :
    ∃ p', push index p = some ((), p') ∧ Adds source held (pending ++ [tree]) cs [] [] 0 p p' :=
  ⟨_, rfl, ⟨h.running, h.cursor, h.builds.pushChild hi, h.saturated⟩, .refl _,
    (List.append_nil _).symm, (List.append_nil _).symm, rfl⟩

theorem saturated_of_node {b b' : SyntaxTreeBuilder} {kind : CstKind} {range : TextRange}
    {childCount index : Nat} (h : b.node kind range childCount = some (index, b'))
    (hs : b'.saturated = true) : u32Max ≤ b'.count := by
  unfold SyntaxTreeBuilder.node at h
  split_ifs at h
  cases h
  rw [decide_eq_true_eq] at hs
  unfold SyntaxTreeBuilder.count SyntaxTreeBuilder.cores
  rw [List.length_append]
  exact hs

theorem node_adds {below top : List CstNode} (h : Stands source held (below ++ top) cs p)
    (kind : CstKind) (start stop : Nat) :
    ∃ index p', node none source kind start stop top.length p = some (index, p') ∧
      Adds source (held + 1) below cs [] [] 1 p p' ∧
      p'.tree.Holds index (.mk kind (range start stop) top) := by
  obtain ⟨p₁, h₁, hadds₁⟩ := checkWork_adds h true
  obtain ⟨index, b', hb', hbuilds, hholds, hext, hcount, -⟩ :=
    hadds₁.stands.builds.node kind (range start stop)
  refine ⟨index, { p₁ with nodes := p₁.nodes + 1, tree := b' }, ?_, hadds₁.after ⟨⟨?_, ?_, hbuilds,
    saturated_of_node hb'⟩, hext, (List.append_nil _).symm, (List.append_nil _).symm, hcount⟩,
      hholds⟩
  · unfold node
    rw [Run.bind_of_eq_some h₁]
    unfold emit
    rw [hb']
    rfl
  · exact hadds₁.stands.running
  · exact hadds₁.stands.cursor

theorem index_of_node {kind : CstKind} {start stop childCount index : Nat}
    (hrun : p.stopped = false)
    (h : node none source kind start stop childCount p = some (index, p')) :
    index = asU32 p.tree.count := by
  unfold node at h
  rw [Run.bind_of_eq_some (checkWork_eq true hrun)] at h
  unfold emit at h
  obtain ⟨⟨index', b'⟩, hnode, heq⟩ := Option.map_eq_some_iff.mp h
  cases heq
  exact SyntaxTreeBuilder.node_index hnode

theorem leaf_adds (h : Stands source held pending cs p) (kind : CstKind) (start stop : Nat) :
    ∃ index p', node none source kind start stop 0 p = some (index, p') ∧
      Adds source (held + 1) pending cs [] [] 1 p p' ∧
      p'.tree.Holds index (.mk kind (range start stop) []) := by
  rw [← List.append_nil pending] at h
  exact node_adds h kind start stop

theorem childrenSince_eq_some {below top : List CstNode}
    (h : Stands source held (below ++ top) cs p) :
    childrenSince below.length p = some (top.length, p) := by
  have hlen := h.builds.length
  rw [List.length_append] at hlen
  unfold childrenSince SyntaxTreeBuilder.childrenSince
  rw [if_neg (by omega), hlen, Nat.add_sub_cancel_left]
  rfl

theorem childrenMark_eq (h : Stands source held pending cs p) :
    childrenMark p = some (pending.length, p) := by
  rw [childrenMark, Run.read_apply, h.builds.length]

/-- The range of an emitted node. -/
theorem nodeRange_eq_some {index : Nat} {tree : CstNode} (h : p.tree.Holds index tree)
    (hfit : p.tree.InU32) : nodeRange index p = some (tree.range, p) := by
  have hnode := (h.denotes hfit).nodeAt (Nat.lt_succ_self index)
  have hrange : p.tree.nodeRange index = some tree.range := by
    unfold SyntaxTree.nodeAt at hnode
    unfold SyntaxTreeBuilder.nodeRange
    split at hnode
    · rename_i core hkind hcore
      obtain ⟨children, -, rfl⟩ := Option.map_eq_some_iff.mp hnode
      rw [hcore]
      rfl
    · cases hnode
  unfold nodeRange
  rw [hrange]
  rfl

/-! ## Scanners -/

theorem skipLoop_append {continues : UInt8 → Bool} {front bytes : List UInt8}
    (hall : ∀ byte ∈ front, continues byte = true) (hrun : p.stopped = false) :
    ∃ work, skipLoop none source continues (front ++ bytes) p =
      skipLoop none source continues bytes
        { p with position := p.position + front.length, work } := by
  induction front generalizing p with
  | nil => exact ⟨p.work, rfl⟩
  | cons byte front ih =>
    rw [List.forall_mem_cons] at hall
    obtain ⟨work, hwork⟩ := @ih { p with position := p.position + 1, work := p.work + 1 } hall.2
      hrun
    refine ⟨work, ?_⟩
    rw [List.cons_append, skipLoop, if_pos hall.1, Run.bind_of_eq_some (checkWork_eq false hrun),
      if_pos rfl, advance, Run.modify_bind, hwork, List.length_cons, Nat.add_assoc, Nat.add_comm 1]

theorem bareLoop_append {front bytes : List UInt8}
    (hall : ∀ byte ∈ front, (isAsciiWhitespace byte || isDelimiter byte) = false)
    (hrun : p.stopped = false) :
    ∃ work, bareLoop none source (front ++ bytes) p =
      bareLoop none source bytes { p with position := p.position + front.length, work } := by
  induction front generalizing p with
  | nil => exact ⟨p.work, rfl⟩
  | cons byte front ih =>
    rw [List.forall_mem_cons] at hall
    obtain ⟨work, hwork⟩ := @ih { p with position := p.position + 1, work := p.work + 1 } hall.2
      hrun
    refine ⟨work, ?_⟩
    rw [List.cons_append, bareLoop, Run.bind_of_eq_some (checkWork_eq false hrun), if_pos rfl,
      if_neg (by rw [hall.1]; decide), advance, Run.modify_bind, hwork, List.length_cons,
      Nat.add_assoc, Nat.add_comm 1]

/-- What a test lets pass, and the byte behind it. -/
theorem encode_span {continues : UInt8 → Bool} {test : Char → Bool} (hl : Lifts continues test)
    (cs : Str) :
    Utf8.encode cs = Utf8.encode (cs.takeWhile test) ++ Utf8.encode (cs.dropWhile test) ∧
      (∀ byte ∈ Utf8.encode (cs.takeWhile test), continues byte = true) ∧
      ∀ byte ∈ (Utf8.encode (cs.dropWhile test)).head?, continues byte = false := by
  refine ⟨?_, fun byte hbyte => ?_, fun byte hbyte => ?_⟩
  · rw [← Utf8.encode_append, List.takeWhile_append_dropWhile]
  · obtain ⟨c, hc, hbyte⟩ := List.mem_flatMap.mp hbyte
    rw [hl c byte hbyte]
    exact List.all_eq_true.mp List.all_takeWhile c hc
  · have hbehind := List.head?_dropWhile_not test cs
    cases hdrop : cs.dropWhile test with
    | nil =>
      rw [hdrop] at hbyte
      cases hbyte
    | cons c rest =>
      rw [hdrop] at hbyte hbehind
      obtain ⟨b, tl, henc, -⟩ := Utf8.encodeChar_cons c
      rw [Utf8.encode_cons, henc] at hbyte
      cases hbyte
      rw [hl c byte (by rw [henc]; exact List.mem_cons_self)]
      exact hbehind

theorem skipLoop_spec {continues : UInt8 → Bool} {test : Char → Bool} (hl : Lifts continues test)
    (h : Stands source held pending cs p) :
    ∃ p', skipLoop none source continues (bytesAt source p.position) p = some ((), p') ∧
      Adds source held pending (cs.dropWhile test) [] [] 0 p p' := by
  obtain ⟨hsplit, hall, hbehind⟩ := encode_span hl cs
  obtain ⟨work, hwork⟩ := @skipLoop_append σ source p continues _ (Utf8.encode (cs.dropWhile test))
    hall h.running
  have hmove : Stands source held pending (cs.takeWhile test ++ cs.dropWhile test) p := by
    rw [List.takeWhile_append_dropWhile]
    exact h
  rw [h.bytes, hsplit, hwork]
  refine ⟨_, ?_, Adds.move hmove rfl work⟩
  cases hbytes : Utf8.encode (cs.dropWhile test) with
  | nil => rfl
  | cons byte bytes =>
    rw [hbytes] at hbehind
    rw [skipLoop, if_neg (by rw [hbehind byte rfl]; decide)]
    rfl

theorem skipWhitespace_spec (h : Stands source held pending cs p) :
    ∃ p', skipWhitespace none source p = some ((), p') ∧
      Adds source held pending (cs.dropWhile isSpace) [] [] 0 p p' := by
  obtain ⟨p', h', hadds⟩ := skipLoop_spec lifts_space h
  refine ⟨p', ?_, hadds⟩
  unfold skipWhitespace
  rw [rest, Run.read_bind, h']

theorem bareLoop_spec (h : Stands source held pending cs p) :
    ∃ p', bareLoop none source (bytesAt source p.position) p = some ((), p') ∧
      Adds source held pending (cs.dropWhile isBare) [] [] 0 p p' := by
  obtain ⟨hsplit, hall, hbehind⟩ := encode_span lifts_bare cs
  obtain ⟨work, hwork⟩ := @bareLoop_append σ source p _ (Utf8.encode (cs.dropWhile isBare))
    (fun byte hbyte => by simpa using hall byte hbyte) h.running
  rw [h.bytes, hsplit, hwork]
  have hmove : Adds source held pending (cs.dropWhile isBare) [] [] 0 p { p with
      position := p.position + (Utf8.encode (cs.takeWhile isBare)).length, work } :=
    Adds.move (by rw [List.takeWhile_append_dropWhile]; exact h) rfl work
  cases hbytes : Utf8.encode (cs.dropWhile isBare) with
  | nil => exact ⟨_, rfl, hmove⟩
  | cons byte bytes =>
    rw [hbytes] at hbehind
    have hstop := hbehind byte rfl
    rw [Bool.not_eq_false'] at hstop
    obtain ⟨p', h', hadds⟩ := checkWork_adds hmove.stands false
    refine ⟨p', ?_, hmove.after hadds⟩
    rw [bareLoop, Run.bind_of_eq_some h', if_pos rfl, if_pos hstop]
    rfl

end

end ParadoxCode.Script
