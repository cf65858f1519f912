import ParadoxCode.Parser.Denotes
import ParadoxCode.Parser.Localisation

/-!
# Lines of a localisation file

What the parser makes of one line: the trees, tokens and errors it adds, and where in the source
they stand. The relations `ValueAt`, `HeadAt`, `RestAt` and `LineAt` have a constructor for each
shape of a value, of what stands before it, of what stands behind that and of a line. Each function
of the parser has a lemma that runs it and finds the shape.
-/

namespace ParadoxCode.Localisation

open ParadoxCode.Parser
open Run (bind_of_eq_some read_bind)

/-! ## What a run adds -/

/-- A run emits `count` nodes, adds tokens and errors and leaves the trees `pending` queued. -/
structure Adds (held : Nat) (pending : List CstNode) (tokens : List SyntaxToken)
    (errors : List SyntaxError) (count : Nat) (p p' : Parser) : Prop where
  builds : p'.tree.Builds held pending
  grows : p.tree.Extends p'.tree
  tokens : p'.tokens = p.tokens ++ tokens
  errors : p'.errors = p.errors ++ errors
  count : p'.tree.count = p.tree.count + count

/-- A node without children. -/
abbrev leaf (kind : CstKind) (start stop : Nat) : CstNode := .mk kind (range start stop) []

section

variable {source : List Char} {held held' count count' : Nat} {pending pending' : List CstNode}
  {tokens tokens' : List SyntaxToken} {errors errors' : List SyntaxError} {p p' p'' : Parser}

theorem Adds.trans (h : Adds held pending tokens errors count p p')
    (h' : Adds held' pending' tokens' errors' count' p' p'') :
    Adds held' pending' (tokens ++ tokens') (errors ++ errors') (count + count') p p'' where
  builds := h'.builds
  grows := h.grows.trans h'.grows
  tokens := by rw [h'.tokens, h.tokens, List.append_assoc]
  errors := by rw [h'.errors, h.errors, List.append_assoc]
  count := by rw [h'.count, h.count, Nat.add_assoc]

theorem Adds.of_eq (h : Adds held pending tokens errors count p p') (htokens : tokens = tokens')
    (herrors : errors = errors') (hcount : count = count') :
    Adds held pending tokens' errors' count' p p' := by
  rw [← htokens, ← herrors, ← hcount]
  exact h

theorem Adds.refl (h : p.tree.Builds held pending) : Adds held pending [] [] 0 p p :=
  ⟨h, .refl _, (List.append_nil _).symm, (List.append_nil _).symm, rfl⟩

theorem pushToken_adds (h : p.tree.Builds held pending) (kind : TokenKind) (start stop : Nat) :
    ∃ p', pushToken kind start stop p = some ((), p') ∧
      Adds held pending [⟨kind, range start stop⟩] [] 0 p p' :=
  ⟨_, rfl, h, .refl _, rfl, (List.append_nil _).symm, rfl⟩

theorem error_adds (h : p.tree.Builds held pending) (kind : SyntaxErrorKind) (start stop : Nat)
    (message : String) :
    ∃ p', error kind start stop message p = some ((), p') ∧
      Adds held pending [] [⟨kind, range start stop, message⟩] 0 p p' :=
  ⟨_, rfl, h, .refl _, (List.append_nil _).symm, rfl, rfl⟩

theorem push_adds {index : Nat} {tree : CstNode} (h : p.tree.Builds (held + 1) pending)
    (hi : p.tree.Holds index tree) :
    ∃ p', push index p = some ((), p') ∧ Adds held (pending ++ [tree]) [] [] 0 p p' :=
  ⟨_, rfl, h.pushChild hi, .refl _, (List.append_nil _).symm, (List.append_nil _).symm, rfl⟩

theorem node_adds {below top : List CstNode} (h : p.tree.Builds held (below ++ top))
    (kind : CstKind) (start stop : Nat) :
    ∃ index p', node kind start stop top.length p = some (index, p') ∧
      Adds (held + 1) below [] [] 1 p p' ∧
      p'.tree.Holds index (.mk kind (range start stop) top) := by
  obtain ⟨index, b', hb', hbuilds, hholds, hext, hcount, -⟩ := h.node kind (range start stop)
  refine ⟨index, { p with tree := b' }, ?_, ⟨hbuilds, hext, (List.append_nil _).symm,
    (List.append_nil _).symm, hcount⟩, hholds⟩
  unfold node
  rw [hb']
  rfl

theorem leaf_adds (h : p.tree.Builds held pending) (kind : CstKind) (start stop : Nat) :
    ∃ index p', node kind start stop 0 p = some (index, p') ∧
      Adds (held + 1) pending [] [] 1 p p' ∧ p'.tree.Holds index (leaf kind start stop) := by
  rw [← List.append_nil pending] at h
  exact node_adds h kind start stop

theorem comment_adds (h : p.tree.Builds held pending) (start lineEnd : Nat) :
    ∃ index p', comment start lineEnd p = some (index, p') ∧
      Adds (held + 1) pending [⟨.comment, range start lineEnd⟩] [] 1 p p' ∧
      p'.tree.Holds index (leaf .comment start lineEnd) := by
  obtain ⟨p₁, h₁, hadds₁⟩ := pushToken_adds h .comment start lineEnd
  obtain ⟨index, p₂, h₂, hadds₂, hholds⟩ := leaf_adds hadds₁.builds .comment start lineEnd
  refine ⟨index, p₂, ?_, hadds₁.trans hadds₂, hholds⟩
  unfold comment
  rw [bind_of_eq_some h₁, h₂]

theorem childrenSince_adds {below top : List CstNode} (h : p.tree.Builds held (below ++ top)) :
    childrenSince below.length p = some (top.length, p) := by
  have hlen := h.length
  rw [List.length_append] at hlen
  unfold childrenSince SyntaxTreeBuilder.childrenSince
  rw [if_neg (by omega), hlen, Nat.add_sub_cancel_left]
  rfl

/-! ## Bytes of a line -/

variable {start stop : Nat}

theorem slice_eq (hle : start ≤ stop) (hstart : Boundary source start)
    (hstop : Boundary source stop) (p : Parser) :
    slice source start stop p = some (sliceBytes source start stop, p) := by
  unfold slice
  rw [if_pos ⟨hle, isCharBoundary_iff.mpr hstart, isCharBoundary_iff.mpr hstop⟩]
  rfl

theorem sliceBytes_length (hstop : stop ≤ byteLen source) :
    (sliceBytes source start stop).length = stop - start := by
  unfold sliceBytes
  rw [List.length_take, List.length_drop]
  change min _ (byteLen source - start) = _
  omega

theorem sliceBytes_getElem? {i : Nat} (hi : i < stop - start) :
    (sliceBytes source start stop)[i]? = (Utf8.encode source)[start + i]? := by
  unfold sliceBytes
  rw [List.getElem?_take_of_lt hi, List.getElem?_drop]

theorem sliceBytes_drop (start stop i : Nat) :
    (sliceBytes source start stop).drop i = sliceBytes source (start + i) stop := by
  unfold sliceBytes
  rw [List.drop_take, List.drop_drop, Nat.sub_sub]

theorem sliceBytes_take {i : Nat} (stop : Nat) (h : start + i ≤ stop) :
    (sliceBytes source start stop).take i = sliceBytes source start (start + i) := by
  unfold sliceBytes
  rw [List.take_take, Nat.add_sub_cancel_left, Nat.min_eq_left (by omega)]

/-- The bytes that `skip` passes over, and the byte it stops at. -/
theorem skip_spec {continues : UInt8 → Bool}
    (hascii : ∀ byte, continues byte = true → byte.toNat < 0x80) (position : Nat)
    (hstop : stop ≤ byteLen source) (hb : Boundary source (start + position))
    (hle : start + position ≤ stop) :
    let next := skip continues (sliceBytes source start stop) position
    position ≤ next ∧ start + next ≤ stop ∧ Boundary source (start + next) ∧
      (∀ byte ∈ sliceBytes source (start + position) (start + next), continues byte = true) ∧
      (sliceBytes source start stop)[next]?.any continues = false := by
  intro next
  let window := sliceBytes source (start + position) stop
  have hwindow : (sliceBytes source start stop).drop position = window := sliceBytes_drop _ _ _
  have hnext : next = position + (window.takeWhile continues).length := by
    change position + (((sliceBytes source start stop).drop position).takeWhile continues).length =
      _
    rw [hwindow]
  have hsplit := (List.takeWhile_append_dropWhile (p := continues) (l := window)).symm
  have hlen : window.length = stop - (start + position) := sliceBytes_length hstop
  have hall : ∀ byte ∈ window.takeWhile continues, continues byte = true :=
    List.all_eq_true.mp List.all_takeWhile
  have hbehind := List.head?_dropWhile_not continues window
  have hbytes : bytesAt source (start + position) = window.takeWhile continues ++
      (window.dropWhile continues ++
        (bytesAt source (start + position)).drop (stop - (start + position))) := by
    rw [← List.append_assoc, ← hsplit]
    exact (List.take_append_drop _ _).symm
  generalize window.takeWhile continues = front at hnext hsplit hall hbytes
  generalize window.dropWhile continues = back at hsplit hbytes hbehind
  have hfront : front.length ≤ window.length := by
    rw [hsplit, List.length_append]
    exact Nat.le_add_right _ _
  refine ⟨by omega, by omega, ?_, fun byte hbyte => ?_, ?_⟩
  · rw [hnext, ← Nat.add_assoc]
    exact boundary_append hb hbytes fun byte hbyte => hascii byte (hall byte hbyte)
  · have htake : sliceBytes source (start + position) (start + next) = front := by
      rw [hnext, ← Nat.add_assoc, ← sliceBytes_take stop (by omega)]
      change window.take front.length = front
      rw [hsplit, List.take_left]
    rw [htake] at hbyte
    exact hall byte hbyte
  · have hget : (sliceBytes source start stop)[next]? = back.head? := by
      rw [hnext, ← List.getElem?_drop, hwindow, hsplit,
        List.getElem?_append_right le_rfl, Nat.sub_self, List.head?_eq_getElem?]
    rw [hget]
    cases hhead : back.head? with
    | none => rfl
    | some byte =>
      rw [hhead] at hbehind
      exact hbehind

theorem spaces_of_skip {position : Nat} (hstop : stop ≤ byteLen source)
    (hb : Boundary source (start + position)) (hle : start + position ≤ stop) :
    Spaces source (start + position)
      (start + skip isAsciiWhitespace (sliceBytes source start stop) position) := by
  obtain ⟨hnext, -, hb', hall, -⟩ := skip_spec (fun _ => isAsciiWhitespace_lt) _ hstop hb hle
  exact spaces_of_bytes (Nat.add_le_add_left hnext _) hb hb' hall

/-- The next character ends inside the line. -/
theorem nextLength_spec {position lineEnd : Nat} (hb : Boundary source position)
    (hend : Boundary source lineEnd) (hlt : position < lineEnd) (p : Parser) :
    ∃ length, nextLength source position p = some (length, p) ∧ 0 < length ∧
      position + length ≤ lineEnd ∧ Boundary source (position + length) := by
  obtain ⟨window, hwindow⟩ := exists_getText (Nat.le_of_lt hlt) hb hend
  obtain ⟨before, after, hsource, hbefore, hstop⟩ := getText_eq_some_iff.mp hwindow
  cases window with
  | nil =>
    rw [byteLen_nil] at hstop
    omega
  | cons c window =>
    have hbytes : bytesAt source position =
        String.utf8EncodeChar c ++ Utf8.encode (window ++ after) := by
      rw [bytesAt, hsource, ← hbefore, List.append_assoc, Utf8.encode_append, byteLen,
        List.drop_left, List.cons_append, Utf8.encode_cons]
    rw [byteLen_cons] at hstop
    refine ⟨c.utf8Size, ?_, c.utf8Size_pos, by omega, hb.next hbytes⟩
    unfold nextLength
    rw [if_pos (isCharBoundary_iff.mpr hb), hbytes, Utf8.decodeFirst_encodeChar]
    rfl

/-- An ASCII byte in a line is a character of it. -/
theorem boundary_behind {position : Nat} {byte : UInt8} (hb : Boundary source position)
    (hbyte : (Utf8.encode source)[position]? = some byte) (hascii : byte.toNat < 0x80) :
    Boundary source (position + 1) := by
  rw [← Nat.add_zero position, ← List.getElem?_drop] at hbyte
  cases hbytes : (Utf8.encode source).drop position with
  | nil =>
    rw [hbytes] at hbyte
    cases hbyte
  | cons byte' bytes =>
    rw [hbytes] at hbyte
    cases hbyte
    exact boundary_succ hb hbytes hascii

theorem quotedLoop_spec {lineEnd : Nat} (hend : Boundary source lineEnd) (fuel : Nat)
    {position : Nat} (hfuel : lineEnd - position < fuel) (hb : Boundary source position)
    (hle : position ≤ lineEnd) (p : Parser) :
    ∃ stop closed, quotedLoop source lineEnd fuel position p = some ((stop, closed), p) ∧
      position ≤ stop ∧ stop ≤ lineEnd ∧ Boundary source stop ∧
      (closed = false → stop = lineEnd) := by
  induction fuel generalizing position with
  | zero => exact absurd hfuel (Nat.not_lt_zero _)
  | succ fuel ih =>
    unfold quotedLoop
    by_cases hlt : position < lineEnd
    · rw [if_pos hlt]
      have hget : position < (Utf8.encode source).length := Nat.lt_of_lt_of_le hlt hend.le
      rw [List.getElem?_eq_getElem hget]
      dsimp only
      have hbyte := List.getElem?_eq_getElem hget
      generalize (Utf8.encode source)[position] = byte at hbyte
      by_cases hquote : byte = 0x22
      · rw [if_pos hquote]
        exact ⟨position + 1, true, rfl, Nat.le_succ _, hlt,
          boundary_behind hb hbyte (by rw [hquote]; decide), by rintro ⟨⟩⟩
      · rw [if_neg hquote]
        by_cases hescape : byte = 0x5C
        · rw [if_pos hescape]
          have hb₁ := boundary_behind hb hbyte (by rw [hescape]; decide)
          by_cases hlt₁ : position + 1 < lineEnd
          · -- the backslash and the character behind it
            obtain ⟨length, hlength, hpos, hle₁, hb₂⟩ := nextLength_spec hb₁ hend hlt₁ p
            obtain ⟨stop, closed, h, hle₂, hrest⟩ := ih (by omega) hb₂ hle₁
            rw [if_pos hlt₁, bind_of_eq_some hlength]
            exact ⟨stop, closed, h, by omega, hrest⟩
          · obtain ⟨stop, closed, h, hle₂, hrest⟩ := ih (by omega) hb₁ hlt
            rw [if_neg hlt₁]
            exact ⟨stop, closed, h, by omega, hrest⟩
        · obtain ⟨length, hlength, hpos, hle₁, hb₁⟩ := nextLength_spec hb hend hlt p
          obtain ⟨stop, closed, h, hle₂, hrest⟩ := ih (by omega) hb₁ hle₁
          rw [if_neg hescape, bind_of_eq_some hlength]
          exact ⟨stop, closed, h, by omega, hrest⟩
    · rw [if_neg hlt]
      exact ⟨position, false, rfl, le_rfl, hle, hb, fun _ => by omega⟩

/-- The comment sign that is found in a part of a line. -/
theorem findHash_spec {lineEnd relative : Nat} (hend : lineEnd ≤ byteLen source)
    (h : (sliceBytes source start lineEnd).findIdx? (· == 0x23) = some relative) :
    start + relative < lineEnd ∧ Boundary source (start + relative) ∧
      (Utf8.encode source)[start + relative]? = some 0x23 := by
  obtain ⟨hlt, hbyte, -⟩ := List.findIdx?_eq_some_iff_getElem.mp h
  rw [beq_iff_eq] at hbyte
  rw [sliceBytes_length hend] at hlt
  have hget : (Utf8.encode source)[start + relative]? = some 0x23 := by
    rw [← sliceBytes_getElem? hlt, List.getElem?_eq_getElem (by rwa [sliceBytes_length hend]),
      hbyte]
  exact ⟨by omega, boundary_of_getElem? hget (by decide), hget⟩

theorem trimEnd_spec (hle : start ≤ stop) (hb : Boundary source stop) :
    start ≤ trimEnd source start stop ∧ trimEnd source start stop ≤ stop ∧
      Boundary source (trimEnd source start stop) ∧
      Spaces source (trimEnd source start stop) stop := by
  induction stop with
  | zero => exact ⟨hle, le_rfl, hb, .self hb⟩
  | succ stop ih =>
    rw [trimEnd]
    split_ifs with h
    · obtain ⟨byte, hbyte, hspace⟩ := (Option.any_eq_true _ _).mp h.2
      have hlt := isAsciiWhitespace_lt hspace
      have hb' : Boundary source stop := boundary_of_getElem? hbyte (isContinuation_of_lt hlt)
      obtain ⟨hstart, hstop, hb₁, hspaces⟩ := ih (by omega) hb'
      refine ⟨hstart, by omega, hb₁, hspaces.append ?_⟩
      refine spaces_of_bytes (Nat.le_succ stop) hb' hb fun other hother => ?_
      have hone : sliceBytes source stop (stop + 1) = [byte] := by
        unfold sliceBytes
        rw [Nat.add_sub_cancel_left, List.take_one, List.head?_drop, hbyte]
        rfl
      rw [hone, List.mem_singleton] at hother
      rw [hother, hspace]
    · exact ⟨hle, le_rfl, hb, .self hb⟩

end

/-! ## Values -/

/-- The shapes of a value with its comment, from `start` to the end of its line. -/
inductive ValueAt (source : List Char) (start lineEnd : Nat) :
    CstNode → Option CstNode → List SyntaxToken → List SyntaxError → Prop
  | quoted {stop : Nat} (hlt : start < stop) (hle : stop ≤ lineEnd) (hb : Boundary source stop) :
      ValueAt source start lineEnd (leaf .localisationString start stop) none
        [⟨.quoted, range start stop⟩] []
  | quotedComment {stop hash : Nat} (hlt : start < stop) (hle : stop ≤ hash)
      (hhash : hash < lineEnd) (hb : Boundary source stop) (hb' : Boundary source hash) :
      ValueAt source start lineEnd (leaf .localisationString start stop)
        (some (leaf .comment hash lineEnd))
        [⟨.quoted, range start stop⟩, ⟨.comment, range hash lineEnd⟩] []
  | unclosed (hlt : start < lineEnd) :
      ValueAt source start lineEnd (leaf .localisationString start lineEnd) none
        [⟨.quoted, range start lineEnd⟩]
        [⟨.unterminatedLocalisationString, range start lineEnd,
          "localisation string is missing `\""⟩]
  | unquoted {stop : Nat} (hlt : start < lineEnd) (hle : start ≤ stop) (hb : Boundary source stop)
      (hspaces : Spaces source stop lineEnd) :
      ValueAt source start lineEnd (leaf .unquotedValue start stop) none
        [⟨.bare, range start stop⟩] []
  | unquotedComment {stop hash : Nat} (hlt : start < hash) (hle : start ≤ stop)
      (hhash : hash < lineEnd) (hb : Boundary source stop) (hspaces : Spaces source stop hash)
      (hb' : Boundary source hash) : ValueAt source start lineEnd (leaf .unquotedValue start stop)
        (some (leaf .comment hash lineEnd))
        [⟨.comment, range hash lineEnd⟩, ⟨.bare, range start stop⟩] []

/-- The trees of a value and its comment. -/
def valueNodes (value : CstNode) (comment : Option CstNode) : List CstNode :=
  value :: comment.toList

section

variable {source : List Char} {held : Nat} {pending : List CstNode} {p : Parser}

/-- What a function leaves that returns the index of a value and perhaps of a comment. -/
def GivesValue (source : List Char) (held : Nat) (pending : List CstNode) (start lineEnd : Nat)
    (p : Parser) (result : Option ((Nat × Option Nat) × Parser)) : Prop :=
  ∃ value comment p' valueNode commentNode tokens errors, result = some ((value, comment), p') ∧
    ValueAt source start lineEnd valueNode commentNode tokens errors ∧
    Adds (held + comment.toList.length + 1) pending tokens errors (comment.toList.length + 1) p p' ∧
    p'.tree.Holds value valueNode ∧ List.Forall₂ p'.tree.Holds comment.toList commentNode.toList

theorem inlineComment_spec (h : p.tree.Builds held pending) {start lineEnd : Nat}
    (hle : start ≤ lineEnd) (hb : Boundary source start) (hend : Boundary source lineEnd) :
    ∃ comment p', inlineComment source start lineEnd p = some (comment, p') ∧
      ((comment = none ∧ p' = p) ∨
        ∃ index hash, comment = some index ∧ start ≤ hash ∧ hash < lineEnd ∧ Boundary source hash ∧
          Adds (held + 1) pending [⟨.comment, range hash lineEnd⟩] [] 1 p p' ∧
          p'.tree.Holds index (leaf .comment hash lineEnd)) := by
  unfold inlineComment
  rw [bind_of_eq_some (slice_eq hle hb hend p)]
  cases hfind : (sliceBytes source start lineEnd).findIdx? (· == 0x23) with
  | none => exact ⟨none, p, rfl, .inl ⟨rfl, rfl⟩⟩
  | some relative =>
    obtain ⟨hlt, hb', -⟩ := findHash_spec hend.le hfind
    obtain ⟨index, p', h', hadds, hholds⟩ := comment_adds h (start + relative) lineEnd
    dsimp only
    rw [bind_of_eq_some h']
    exact ⟨some index, p', rfl,
      .inr ⟨index, start + relative, rfl, Nat.le_add_right _ _, hlt, hb', hadds, hholds⟩⟩

theorem parseQuoted_spec (h : p.tree.Builds held pending) {start lineEnd : Nat}
    (hb : Boundary source start) (hend : Boundary source lineEnd)
    (hquote : (Utf8.encode source)[start]? = some 0x22) (hlt : start < lineEnd) :
    GivesValue source held pending start lineEnd p (parseQuoted source start lineEnd p) := by
  have hb₁ := boundary_behind hb hquote (by decide)
  obtain ⟨stop, closed, h₁, hle, hle', hb₂, hclosed⟩ :=
    quotedLoop_spec hend (lineEnd + 1) (by omega) hb₁ hlt p
  obtain ⟨p₂, h₂, hadds₂⟩ := pushToken_adds h .quoted start stop
  unfold parseQuoted
  rw [bind_of_eq_some h₁]
  dsimp only
  rw [bind_of_eq_some h₂]
  cases closed with
  | false =>
    obtain rfl := hclosed rfl
    obtain ⟨p₃, h₃, hadds₃⟩ := error_adds hadds₂.builds .unterminatedLocalisationString start stop
      "localisation string is missing `\""
    obtain ⟨value, p₄, h₄, hadds₄, hholds⟩ :=
      leaf_adds hadds₃.builds .localisationString start stop
    have h₃' : reportUnclosed false start stop p₂ = some ((), p₃) := h₃
    rw [bind_of_eq_some h₃', if_neg Bool.false_ne_true,
      bind_of_eq_some (Run.pure_apply none p₃), bind_of_eq_some h₄]
    exact ⟨value, none, p₄, _, none, _, _, rfl, .unclosed hlt, (hadds₂.trans hadds₃).trans hadds₄,
      hholds, .nil⟩
  | true =>
    have h₃ : reportUnclosed true start lineEnd p₂ = some ((), p₂) := rfl
    obtain ⟨comment, p₄, h₄, hcomment⟩ := inlineComment_spec hadds₂.builds hle' hb₂ hend
    rw [bind_of_eq_some h₃, if_pos rfl, bind_of_eq_some h₄]
    rcases hcomment with ⟨rfl, rfl⟩ | ⟨index, hash, rfl, hle₁, hlt₁, hb₃, hadds₄, hholds'⟩
    · obtain ⟨value, p₅, h₅, hadds₅, hholds⟩ :=
        leaf_adds hadds₂.builds .localisationString start stop
      rw [bind_of_eq_some h₅]
      exact ⟨value, none, p₅, _, none, _, _, rfl, .quoted hle hle' hb₂, hadds₂.trans hadds₅, hholds,
        .nil⟩
    · obtain ⟨value, p₅, h₅, hadds₅, hholds⟩ :=
        leaf_adds hadds₄.builds .localisationString start stop
      rw [bind_of_eq_some h₅]
      exact ⟨value, some index, p₅, _, some (leaf .comment hash lineEnd), _, _, rfl,
        .quotedComment hle hle₁ hlt₁ hb₂ hb₃, (hadds₂.trans hadds₄).trans hadds₅, hholds,
        .cons (hholds'.mono hadds₅.grows) .nil⟩

theorem parseUnquoted_spec (h : p.tree.Builds held pending) {start lineEnd : Nat}
    (hb : Boundary source start) (hend : Boundary source lineEnd)
    (hhash : (Utf8.encode source)[start]? ≠ some 0x23) (hlt : start < lineEnd) :
    GivesValue source held pending start lineEnd p (parseUnquoted source start lineEnd p) := by
  have hle := Nat.le_of_lt hlt
  unfold parseUnquoted
  rw [bind_of_eq_some (slice_eq hle hb hend p)]
  cases hfind : (sliceBytes source start lineEnd).findIdx? (· == 0x23) with
  | none =>
    dsimp only
    obtain ⟨hstart, -, hb₁, hspaces⟩ := trimEnd_spec hle hend
    generalize trimEnd source start lineEnd = stop at hstart hb₁ hspaces ⊢
    obtain ⟨p₁, h₁, hadds₁⟩ := pushToken_adds h .bare start stop
    obtain ⟨value, p₂, h₂, hadds₂, hholds⟩ := leaf_adds hadds₁.builds .unquotedValue start stop
    rw [bind_of_eq_some h₁, bind_of_eq_some h₂]
    exact ⟨value, none, p₂, _, none, _, _, rfl, .unquoted hlt hstart hb₁ hspaces,
      hadds₁.trans hadds₂, hholds, .nil⟩
  | some relative =>
    dsimp only
    obtain ⟨hlt₁, hb', hbyte⟩ := findHash_spec hend.le hfind
    have hne : relative ≠ 0 := fun h => hhash (by rw [h] at hbyte; exact hbyte)
    obtain ⟨hstart, -, hb₁, hspaces⟩ := trimEnd_spec (Nat.le_add_right start relative) hb'
    generalize trimEnd source start (start + relative) = stop at hstart hb₁ hspaces ⊢
    obtain ⟨hstart', -, hb₂, hspaces'⟩ := trimEnd_spec hstart hb₁
    generalize trimEnd source start stop = stop' at hstart' hb₂ hspaces' ⊢
    obtain ⟨index, p₁, h₁, hadds₁, hholds₁⟩ := comment_adds h (start + relative) lineEnd
    obtain ⟨p₂, h₂, hadds₂⟩ := pushToken_adds hadds₁.builds .bare start stop'
    obtain ⟨value, p₃, h₃, hadds₃, hholds₃⟩ := leaf_adds hadds₂.builds .unquotedValue start stop'
    rw [bind_of_eq_some h₁, bind_of_eq_some h₂, bind_of_eq_some h₃]
    exact ⟨value, some index, p₃, _, some (leaf .comment (start + relative) lineEnd), _, _, rfl,
      .unquotedComment (by omega) hstart' hlt₁ hb₂ (hspaces'.append hspaces) hb',
      (hadds₁.trans hadds₂).trans hadds₃, hholds₃,
      .cons (hholds₁.mono (hadds₂.trans hadds₃).grows) .nil⟩

end

/-! ## Lines -/

/-- The shapes of what stands before a value: the key, and behind it perhaps a colon with a version.
The last argument is where the value starts. -/
inductive HeadAt (source : List Char) (start : Nat) :
    List CstNode → List SyntaxToken → Nat → Prop
  | key {keyEnd position : Nat} (hkey : start < keyEnd) (hb : Boundary source keyEnd)
      (hspaces : Spaces source keyEnd position) :
      HeadAt source start [leaf .localisationKey start keyEnd]
        [⟨.bare, range start keyEnd⟩] position
  | colon {keyEnd colon position : Nat} (hkey : start < keyEnd) (hb : Boundary source keyEnd)
      (hspaces : Spaces source keyEnd colon)
      (hcolon : getText source colon (colon + 1) = some [':'])
      (hspaces' : Spaces source (colon + 1) position) :
      HeadAt source start [leaf .localisationKey start keyEnd]
        [⟨.bare, range start keyEnd⟩, ⟨.colon, range colon (colon + 1)⟩] position
  | version {keyEnd colon versionStart versionEnd position : Nat} (hkey : start < keyEnd)
      (hb : Boundary source keyEnd) (hspaces : Spaces source keyEnd colon)
      (hcolon : getText source colon (colon + 1) = some [':'])
      (hspaces' : Spaces source (colon + 1) versionStart) (hversion : versionStart < versionEnd)
      (hb' : Boundary source versionEnd) (hspaces'' : Spaces source versionEnd position) :
      HeadAt source start
        [leaf .localisationKey start keyEnd, leaf .version versionStart versionEnd]
        [⟨.bare, range start keyEnd⟩, ⟨.colon, range colon (colon + 1)⟩,
          ⟨.bare, range versionStart versionEnd⟩] position

/-- The report on an entry without a value. -/
abbrev missingValue (stop : Nat) : SyntaxError :=
  ⟨.invalidLocalisationEntry, range stop stop, "localisation entry is missing a value"⟩

/-- The shapes of what stands behind the head of an entry. -/
inductive RestAt (source : List Char) (position stop : Nat) :
    List CstNode → List SyntaxToken → List SyntaxError → Prop
  | missing (h : position = stop) :
      RestAt source position stop [leaf .error stop stop] [] [missingValue stop]
  | missingComment (h : position < stop) :
      RestAt source position stop [leaf .comment position stop, leaf .error stop stop]
        [⟨.comment, range position stop⟩] [missingValue stop]
  | value {value : CstNode} {comment : Option CstNode} {tokens : List SyntaxToken}
      {errors : List SyntaxError} (h : ValueAt source position stop value comment tokens errors) :
      RestAt source position stop (valueNodes value comment) tokens errors

/-- The shapes of a line. -/
inductive LineAt (source : List Char) (start stop : Nat) :
    CstNode → List SyntaxToken → List SyntaxError → Prop
  | missingKey :
      LineAt source start stop (leaf .error start stop) []
        [⟨.invalidLocalisationEntry, range start stop, "localisation line is missing a key"⟩]
  | header {keyEnd colon : Nat} (hkey : start < keyEnd) (hb : Boundary source keyEnd)
      (hspaces : Spaces source keyEnd colon)
      (hcolon : getText source colon (colon + 1) = some [':'])
      (hspaces' : Spaces source (colon + 1) stop) :
      LineAt source start stop
        (.mk .languageHeader (range start stop) [leaf .localisationKey start keyEnd])
        [⟨.bare, range start keyEnd⟩, ⟨.colon, range colon (colon + 1)⟩] []
  | entry {head rest : List CstNode} {headTokens restTokens : List SyntaxToken}
      {errors : List SyntaxError} {position : Nat}
        (hhead : HeadAt source start head headTokens position)
      (hrest : RestAt source position stop rest restTokens errors) :
      LineAt source start stop (.mk .localisationEntry (range start stop) (head ++ rest))
        (headTokens ++ restTokens) errors

section

variable {source : List Char} {held : Nat} {pending : List CstNode} {p : Parser}

theorem ValueAt.sizes {start lineEnd : Nat} {value : CstNode} {comment : Option CstNode}
    {tokens : List SyntaxToken} {errors : List SyntaxError}
    (h : ValueAt source start lineEnd value comment tokens errors) :
    CstNode.sizes (valueNodes value comment) = comment.toList.length + 1 := by
  cases h <;> rfl

variable {start position : Nat}

/-- The comment in the place of a value. -/
theorem missingComment_spec (h : p.tree.Builds held pending) {stop : Nat}
    (hstop : stop ≤ byteLen source) (hle : start + position ≤ stop)
    (hmissing : (sliceBytes source start stop).length ≤ position ∨
      (sliceBytes source start stop)[position]? = some 0x23) :
    ∃ p' comments tokens,
      missingComment start stop (sliceBytes source start stop) position p = some ((), p') ∧
      Adds held (pending ++ comments) tokens [] (CstNode.sizes comments) p p' ∧
      RestAt source (start + position) stop (comments ++ [leaf .error stop stop]) tokens
        [missingValue stop] := by
  have hlen : (sliceBytes source start stop).length = stop - start := sliceBytes_length hstop
  unfold missingComment
  by_cases hhash : (sliceBytes source start stop)[position]? = some 0x23
  · have hlt : position < stop - start := by
      rw [← hlen]
      exact (List.getElem?_eq_some_iff.mp hhash).1
    obtain ⟨comment, p₁, h₁, hadds₁, hholds⟩ := comment_adds h (start + position) stop
    obtain ⟨p₂, h₂, hadds₂⟩ := push_adds hadds₁.builds hholds
    rw [if_pos hhash, bind_of_eq_some h₁, h₂]
    exact ⟨p₂, [leaf .comment (start + position) stop], _, rfl, hadds₁.trans hadds₂,
      .missingComment (by omega)⟩
  · rw [if_neg hhash]
    have hend : start + position = stop := by
      have := hmissing.resolve_right hhash
      omega
    refine ⟨p, [], [], rfl, ?_, .missing hend⟩
    rw [List.append_nil]
    exact .refl h

/-- Queues a value and its comment. -/
theorem pushValue_spec {value : Nat} {comment : Option Nat} {valueNode : CstNode}
    {commentNode : Option CstNode} (h : p.tree.Builds (held + comment.toList.length + 1) pending)
    (hvalue : p.tree.Holds value valueNode)
    (hcomment : List.Forall₂ p.tree.Holds comment.toList commentNode.toList) :
    ∃ p₁ p₂, push value p = some ((), p₁) ∧ pushSome comment p₁ = some ((), p₂) ∧
      Adds held (pending ++ valueNodes valueNode commentNode) [] [] 0 p p₂ := by
  obtain ⟨p₁, h₁, hadds₁⟩ := push_adds h hvalue
  cases comment with
  | none =>
    cases commentNode with
    | none => exact ⟨p₁, p₁, h₁, rfl, hadds₁⟩
    | some commentNode => cases hcomment
  | some comment =>
    cases commentNode with
    | none => cases hcomment
    | some commentNode =>
      obtain ⟨p₂, h₂, hadds₂⟩ := push_adds hadds₁.builds
        ((List.forall₂_cons.mp hcomment).1.mono hadds₁.grows)
      refine ⟨p₁, p₂, h₁, h₂, ?_⟩
      have hadds := hadds₁.trans hadds₂
      rwa [List.append_assoc] at hadds

theorem parseEntry_spec {below head : List CstNode} (h : p.tree.Builds held (below ++ head))
    {stop : Nat} (hb : Boundary source (start + position))
    (hstop : Boundary source stop) (hle : start + position ≤ stop) :
    ∃ index p' rest tokens errors,
      parseEntry source below.length start stop (sliceBytes source start stop) position p =
        some (index, p') ∧
      RestAt source (start + position) stop rest tokens errors ∧
      Adds (held + 1) below tokens errors (CstNode.sizes rest + 1) p p' ∧
      p'.tree.Holds index (.mk .localisationEntry (range start stop) (head ++ rest)) := by
  have hlen : (sliceBytes source start stop).length = stop - start := sliceBytes_length hstop.le
  -- the entry around the trees that are queued by then
  have hclose {p₁ : Parser} {rest : List CstNode} {tokens : List SyntaxToken}
      {errors : List SyntaxError} {count : Nat}
      (h₁ : Adds held (below ++ head ++ rest) tokens errors count p p₁) :
      ∃ index p', (childrenSince below.length >>= fun children =>
          node .localisationEntry start stop children) p₁ = some (index, p') ∧
        Adds (held + 1) below tokens errors (count + 1) p p' ∧
        p'.tree.Holds index (.mk .localisationEntry (range start stop) (head ++ rest)) := by
    have hbuilds := h₁.builds
    rw [List.append_assoc] at hbuilds
    obtain ⟨index, p', h', hadds, hholds⟩ := node_adds hbuilds .localisationEntry start stop
    refine ⟨index, p', ?_, ?_, hholds⟩
    · rw [bind_of_eq_some (childrenSince_adds hbuilds), h']
    · simpa only [List.append_nil] using h₁.trans hadds
  unfold parseEntry
  by_cases hmissing : (sliceBytes source start stop).length ≤ position ∨
      (sliceBytes source start stop)[position]? = some 0x23
  · rw [if_pos hmissing]
    obtain ⟨p₁, h₁, hadds₁⟩ := error_adds h .invalidLocalisationEntry stop stop
      "localisation entry is missing a value"
    obtain ⟨p₂, comments, tokens, h₂, hadds₂, hrest⟩ :=
      missingComment_spec hadds₁.builds hstop.le hle hmissing
    obtain ⟨recovery, p₃, h₃, hadds₃, hholds₃⟩ := leaf_adds hadds₂.builds .error stop stop
    obtain ⟨p₄, h₄, hadds₄⟩ := push_adds hadds₃.builds hholds₃
    have hadds := ((hadds₁.trans hadds₂).trans hadds₃).trans hadds₄
    rw [List.append_assoc _ comments] at hadds
    obtain ⟨index, p₅, h₅, hadds₅, hholds₅⟩ := hclose hadds
    rw [bind_of_eq_some h₁, bind_of_eq_some h₂, bind_of_eq_some h₃,
      bind_of_eq_some h₄]
    refine ⟨index, p₅, _, _, _, h₅, hrest, ?_, hholds₅⟩
    have hone : CstNode.sizes [leaf .error stop stop] = 1 := rfl
    rw [CstNode.sizes_append, hone]
    simpa only [List.nil_append, List.append_nil, Nat.zero_add, Nat.add_zero] using hadds₅
  · rw [if_neg hmissing]
    rw [not_or, Nat.not_le] at hmissing
    obtain ⟨value, comment, p₁, valueNode, commentNode, tokens, errors, h₁, hvalueAt, hadds₁,
      hvalue, hcomment⟩ : GivesValue source held (below ++ head) (start + position) stop p
        ((if (sliceBytes source start stop)[position]? = some 0x22 then
          parseQuoted source (start + position) stop
          else parseUnquoted source (start + position) stop) p) := by
      split_ifs with hquote
      · rw [sliceBytes_getElem? (by omega)] at hquote
        exact parseQuoted_spec h hb hstop hquote (by omega)
      · have hhash := hmissing.2
        rw [sliceBytes_getElem? (by omega)] at hhash
        exact parseUnquoted_spec h hb hstop hhash (by omega)
    obtain ⟨p₂, p₃, h₂, h₃, hadds₃⟩ := pushValue_spec hadds₁.builds hvalue hcomment
    obtain ⟨index, p₄, h₄, hadds₄, hholds₄⟩ := hclose (hadds₁.trans hadds₃)
    have hqueued : (do
        push value
        pushSome comment
        let children ← childrenSince below.length
        node .localisationEntry start stop children) p₁ = some (index, p₄) := by
      rw [bind_of_eq_some h₂, bind_of_eq_some h₃, h₄]
    refine ⟨index, p₄, _, tokens, errors, ?_, .value hvalueAt, ?_, hholds₄⟩
    · split_ifs at h₁ ⊢ <;> exact (bind_of_eq_some h₁).trans hqueued
    · have hcount : comment.toList.length = commentNode.toList.length := hcomment.length_eq
      rw [hvalueAt.sizes, ← hcount]
      simpa only [List.append_nil, Nat.add_zero] using hadds₄

theorem isAsciiDigit_lt {byte : UInt8} (h : isAsciiDigit byte = true) : byte.toNat < 0x80 := by
  simp only [isAsciiDigit, Bool.and_eq_true, decide_eq_true_eq, UInt8.le_iff_toNat_le] at h
  have := h.2
  rw [show (0x39 : UInt8).toNat = 0x39 from rfl] at this
  omega

theorem isKeyByte_lt {byte : UInt8} (h : isKeyByte byte = true) : byte.toNat < 0x80 := by
  simp only [isKeyByte, Bool.or_eq_true, Bool.and_eq_true, decide_eq_true_eq, beq_iff_eq,
    UInt8.le_iff_toNat_le, ← UInt8.toNat_inj] at h
  simp only [show (0x41 : UInt8).toNat = 0x41 from rfl, show (0x5A : UInt8).toNat = 0x5A from rfl,
    show (0x61 : UInt8).toNat = 0x61 from rfl, show (0x7A : UInt8).toNat = 0x7A from rfl,
    show (0x30 : UInt8).toNat = 0x30 from rfl, show (0x39 : UInt8).toNat = 0x39 from rfl,
    show (0x5F : UInt8).toNat = 0x5F from rfl, show (0x24 : UInt8).toNat = 0x24 from rfl,
    show (0x2E : UInt8).toNat = 0x2E from rfl, show (0x2D : UInt8).toNat = 0x2D from rfl] at h
  omega

theorem parseVersion_spec (h : p.tree.Builds held pending) {stop : Nat}
    (hb : Boundary source (start + position)) (hstop : stop ≤ byteLen source)
    (hle : start + position ≤ stop) :
    ∃ next p' nodes tokens,
      parseVersion start (sliceBytes source start stop) position p = some (next, p') ∧
      Adds held (pending ++ nodes) tokens [] (CstNode.sizes nodes) p p' ∧
      Boundary source (start + next) ∧ start + next ≤ stop ∧
      ((nodes = [] ∧ tokens = [] ∧ next = position) ∨
        ∃ versionEnd, start + position < versionEnd ∧ Boundary source versionEnd ∧
          Spaces source versionEnd (start + next) ∧
          nodes = [leaf .version (start + position) versionEnd] ∧
          tokens = [⟨.bare, range (start + position) versionEnd⟩]) := by
  unfold parseVersion
  by_cases hdigit : (sliceBytes source start stop)[position]?.any isAsciiDigit = true
  · rw [if_pos hdigit]
    obtain ⟨hnext, hle₁, hb₁, -, hbehind⟩ := skip_spec (fun _ => isAsciiDigit_lt) _ hstop hb hle
    have hlt : position < skip isAsciiDigit (sliceBytes source start stop) position := by
      refine Nat.lt_of_le_of_ne hnext fun heq => ?_
      rw [← heq, hdigit] at hbehind
      cases hbehind
    generalize skip isAsciiDigit (sliceBytes source start stop) position =
      versionEnd at hlt hle₁ hb₁ ⊢
    obtain ⟨-, hle₂, hb₂, -, -⟩ := skip_spec (fun _ => isAsciiWhitespace_lt) _ hstop hb₁ hle₁
    have hspaces := spaces_of_skip hstop hb₁ hle₁
    obtain ⟨p₁, h₁, hadds₁⟩ := pushToken_adds h .bare (start + position) (start + versionEnd)
    obtain ⟨version, p₂, h₂, hadds₂, hholds⟩ :=
      leaf_adds hadds₁.builds .version (start + position) (start + versionEnd)
    obtain ⟨p₃, h₃, hadds₃⟩ := push_adds hadds₂.builds hholds
    rw [bind_of_eq_some h₁, bind_of_eq_some h₂, bind_of_eq_some h₃]
    exact ⟨_, p₃, _, _, rfl, (hadds₁.trans hadds₂).trans hadds₃, hb₂, hle₂,
      .inr ⟨start + versionEnd, by omega, hb₁, hspaces, rfl, rfl⟩⟩
  · rw [if_neg hdigit]
    refine ⟨position, p, [], [], rfl, ?_, hb, hle, .inl ⟨rfl, rfl, rfl⟩⟩
    rw [List.append_nil]
    exact .refl h

theorem isLanguageHeader_spec {stop keyLen : Nat} (hstart : Boundary source start)
    (hkey : Boundary source (start + keyLen)) (hb : Boundary source (start + position))
    (hstop : Boundary source stop) (hle : start + position ≤ stop) (p : Parser) :
    ∃ header, isLanguageHeader source start stop keyLen position p = some (header, p) ∧
      (header = true → Spaces source (start + position) stop) := by
  unfold isLanguageHeader
  rw [bind_of_eq_some (slice_eq (Nat.le_add_right _ _) hstart hkey p)]
  split_ifs
  · rw [bind_of_eq_some (slice_eq hle hb hstop p)]
    refine ⟨_, rfl, fun hall => spaces_of_bytes hle hb hstop fun byte hbyte => ?_⟩
    have := List.all_eq_true.mp hall byte hbyte
    unfold isBlank at this
    unfold isAsciiWhitespace
    rw [Bool.or_eq_true] at this
    rcases this with h | h <;> simp [h]
  · exact ⟨false, rfl, by rintro ⟨⟩⟩

theorem getText_colon (hb : Boundary source position)
    (hbyte : (Utf8.encode source)[position]? = some 0x3A) :
    getText source position (position + 1) = some [':'] := by
  obtain ⟨text, htext⟩ := exists_getText (Nat.le_add_right position 1) hb
    (boundary_behind hb hbyte (by decide))
  have hbytes : Utf8.encode text = Utf8.encode [':'] := by
    rw [encode_of_getText htext]
    unfold sliceBytes
    rw [Nat.add_sub_cancel_left, List.take_one, List.head?_drop, hbyte]
    decide
  rw [htext, Utf8.encode_injective hbytes]

/-- What a function leaves that returns the index of the node of a line. -/
def GivesLine (source : List Char) (held : Nat) (pending : List CstNode) (start stop : Nat)
    (p : Parser) (result : Option (Nat × Parser)) : Prop :=
  ∃ index p' line tokens errors, result = some (index, p') ∧
    LineAt source start stop line tokens errors ∧
    Adds (held + 1) pending tokens errors line.size p p' ∧ p'.tree.Holds index line

theorem parseLine_spec (h : p.tree.Builds held pending) {stop : Nat} (hle : start ≤ stop)
    (hstart : Boundary source start) (hstop : Boundary source stop) :
    GivesLine source held pending start stop p
      (parseLine source start stop (sliceBytes source start stop) p) := by
  have hmark : childrenMark p = some (pending.length, p) := by rw [← h.length]; rfl
  obtain ⟨-, hkeyLe, hkeyEnd, -, -⟩ :=
    skip_spec (fun _ => isKeyByte_lt) 0 hstop.le hstart hle
  have hkeyLen : skip isKeyByte (sliceBytes source start stop) 0 =
      ((sliceBytes source start stop).takeWhile isKeyByte).length := Nat.zero_add _
  unfold parseLine
  rw [bind_of_eq_some hmark]
  dsimp only
  rw [← hkeyLen]
  generalize skip isKeyByte (sliceBytes source start stop) 0 = keyLen at hkeyLe hkeyEnd ⊢
  by_cases hkey : keyLen = 0
  · obtain ⟨p₁, h₁, hadds₁⟩ := error_adds h .invalidLocalisationEntry start stop
      "localisation line is missing a key"
    obtain ⟨index, p₂, h₂, hadds₂, hholds₂⟩ := leaf_adds hadds₁.builds .error start stop
    rw [if_pos hkey, bind_of_eq_some h₁, h₂]
    exact ⟨index, p₂, _, _, _, rfl, .missingKey, hadds₁.trans hadds₂, hholds₂⟩
  · have hlt : start < start + keyLen := by omega
    obtain ⟨p₁, h₁, hadds₁⟩ := pushToken_adds h .bare start (start + keyLen)
    obtain ⟨key, p₂, h₂, hadds₂, hholds₂⟩ :=
      leaf_adds hadds₁.builds .localisationKey start (start + keyLen)
    obtain ⟨p₃, h₃, hadds₃⟩ := push_adds hadds₂.builds hholds₂
    have hadds := (hadds₁.trans hadds₂).trans hadds₃
    rw [if_neg hkey, bind_of_eq_some h₁, bind_of_eq_some h₂, bind_of_eq_some h₃]
    obtain ⟨-, hle₁, hb₁, -, -⟩ := skip_spec (fun _ => isAsciiWhitespace_lt) _ hstop.le
      hkeyEnd hkeyLe
    have hspaces := spaces_of_skip hstop.le hkeyEnd hkeyLe
    generalize skip isAsciiWhitespace (sliceBytes source start stop) keyLen = position
      at hle₁ hb₁ hspaces ⊢
    by_cases hcolon : (sliceBytes source start stop)[position]? = some 0x3A
    · have hlt₁ : position < stop - start := by
        rw [← sliceBytes_length hstop.le]
        exact (List.getElem?_eq_some_iff.mp hcolon).1
      rw [if_pos hcolon]
      rw [sliceBytes_getElem? hlt₁] at hcolon
      have hcolonText := getText_colon hb₁ hcolon
      have hb₂ := boundary_behind hb₁ hcolon (by decide)
      rw [Nat.add_assoc] at hb₂
      obtain ⟨header, h₄, hheader⟩ :=
        isLanguageHeader_spec hstart hkeyEnd hb₂ hstop (by omega) p₃
      obtain ⟨p₅, h₅, hadds₅⟩ :=
        pushToken_adds hadds.builds .colon (start + position) (start + position + 1)
      rw [bind_of_eq_some h₄, bind_of_eq_some h₅]
      cases header with
      | true =>
        obtain ⟨index, p₆, h₆, hadds₆, hholds₆⟩ :=
          node_adds hadds₅.builds .languageHeader start stop
        rw [if_pos rfl, bind_of_eq_some (childrenSince_adds hadds₅.builds), h₆]
        exact ⟨index, p₆, _, _, _, rfl, .header hlt hkeyEnd hspaces hcolonText (hheader rfl),
          (hadds.trans hadds₅).trans hadds₆, hholds₆⟩
      | false =>
        rw [if_neg Bool.false_ne_true]
        obtain ⟨-, hle₃, hb₃, -, -⟩ :=
          skip_spec (fun _ => isAsciiWhitespace_lt) _ hstop.le hb₂ (by omega)
        have hspaces' := spaces_of_skip hstop.le hb₂ (by omega)
        generalize skip isAsciiWhitespace (sliceBytes source start stop) (position + 1) = position'
          at hle₃ hb₃ hspaces' ⊢
        obtain ⟨next, p₆, nodes, tokens, h₆, hadds₆, hb₄, hle₄, hversion⟩ :=
          parseVersion_spec hadds₅.builds hb₃ hstop.le hle₃
        rw [List.append_assoc] at hadds₆
        obtain ⟨index, p₇, rest, tokens', errors, h₇, hrest, hadds₇, hholds₇⟩ :=
          parseEntry_spec hadds₆.builds hb₄ hstop hle₄
        rw [bind_of_eq_some h₆, h₇]
        have hall := ((hadds.trans hadds₅).trans hadds₆).trans hadds₇
        refine ⟨index, p₇, _, _, _, rfl, .entry ?_ hrest, hall.of_eq rfl rfl ?_, hholds₇⟩
        · rcases hversion with ⟨rfl, rfl, rfl⟩ | ⟨versionEnd, hlt', hb', hspaces'', rfl, rfl⟩
          · exact .colon hlt hkeyEnd hspaces hcolonText hspaces'
          · exact .version hlt hkeyEnd hspaces hcolonText hspaces' hlt' hb' hspaces''
        · simp only [CstNode.size, CstNode.sizes_append, CstNode.sizes]
          omega
    · obtain ⟨index, p₄, rest, tokens, errors, h₄, hrest, hadds₄, hholds₄⟩ :=
        parseEntry_spec hadds.builds hb₁ hstop hle₁
      rw [if_neg hcolon, h₄]
      refine ⟨index, p₄, _, _, _, rfl, .entry (.key hlt hkeyEnd hspaces) hrest,
        (hadds.trans hadds₄).of_eq rfl rfl ?_, hholds₄⟩
      simp only [CstNode.size, CstNode.sizes_append, CstNode.sizes]
      omega

end

end ParadoxCode.Localisation
