import ParadoxCode.Parser.File
import ParadoxCode.Parser.LocalisationLine

/-!
# Localisation files

The lines of a file one after the other: `LinesAt` says how the source from the start of a line on
is divided, and what the parser adds for it. The parser has a result for every source.
-/

namespace ParadoxCode.Localisation

open ParadoxCode.Parser

/-! ## The shape of a file -/

/-- The byte order mark of the first line. The last argument is where the rest of the line
starts. -/
inductive BomAt (source : List Char) (lineStart : Nat) :
    Bool → List CstNode → List SyntaxToken → Nat → Prop
  | absent (first : Bool) : BomAt source lineStart first [] [] lineStart
  | present (h : getText source lineStart (lineStart + 3) = some [Char.ofNat 0xFEFF]) :
      BomAt source lineStart true [leaf .bom lineStart (lineStart + 3)]
        [⟨.bom, range lineStart (lineStart + 3)⟩] (lineStart + 3)

/-- The content of a line without the blanks around it. -/
inductive ContentAt (source : List Char) (start stop : Nat) :
    List CstNode → List SyntaxToken → List SyntaxError → Prop
  | blank (h : start = stop) : ContentAt source start stop [] [] []
  | comment (h : start < stop) :
      ContentAt source start stop [leaf .comment start stop] [⟨.comment, range start stop⟩] []
  | line {line : CstNode} {tokens : List SyntaxToken} {errors : List SyntaxError}
      (hlt : start < stop) (h : LineAt source start stop line tokens errors) :
      ContentAt source start stop [line] tokens errors

/-- The lines from `lineStart` to the end of the source. -/
inductive LinesAt (source : List Char) :
    Bool → Nat → List CstNode → List SyntaxToken → List SyntaxError → Prop
  | last {first : Bool} {lineStart content start stop : Nat} {bom nodes : List CstNode}
      {bomTokens tokens : List SyntaxToken} {errors : List SyntaxError}
      (hbom : BomAt source lineStart first bom bomTokens content)
        (hblank : Spaces source content start)
      (hcontent : ContentAt source start stop nodes tokens errors)
      (hstop : Boundary source stop) (hend : Spaces source stop (byteLen source)) :
      LinesAt source first lineStart (bom ++ nodes) (bomTokens ++ tokens) errors
  | next {first : Bool} {lineStart content start stop next : Nat} {bom nodes rest : List CstNode}
      {bomTokens tokens restTokens : List SyntaxToken} {errors restErrors : List SyntaxError}
      (hbom : BomAt source lineStart first bom bomTokens content)
        (hblank : Spaces source content start)
      (hcontent : ContentAt source start stop nodes tokens errors)
      (hstop : Boundary source stop) (hlt : stop < next) (hend : Spaces source stop next)
      (hrest : LinesAt source false next rest restTokens restErrors) :
      LinesAt source first lineStart (bom ++ nodes ++ rest) (bomTokens ++ tokens ++ restTokens)
        (errors ++ restErrors)

/-! ## Running the parser -/

section

variable {source : List Char} {held : Nat} {pending : List CstNode} {p : Parser}

theorem parseBom_spec (h : p.tree.Builds held pending) (first : Bool) {lineStart stop : Nat}
    (hb : Boundary source lineStart) (hstop : stop ≤ byteLen source) (hle : lineStart ≤ stop) :
    let marked := first && (sliceBytes source lineStart stop).take 3 == bom
    ∃ p' nodes tokens, parseBom marked lineStart p = some ((), p') ∧
      Adds held (pending ++ nodes) tokens [] (CstNode.sizes nodes) p p' ∧
      BomAt source lineStart first nodes tokens (lineStart + if marked then 3 else 0) ∧
      Boundary source (lineStart + if marked then 3 else 0) ∧
      (lineStart + if marked then 3 else 0) ≤ stop := by
  intro marked
  unfold parseBom
  cases hmarked : marked with
  | false =>
    rw [if_neg Bool.false_ne_true, if_neg Bool.false_ne_true]
    refine ⟨p, [], [], rfl, ?_, .absent first, hb, hle⟩
    rw [List.append_nil]
    exact .refl h
  | true =>
    obtain ⟨hfirst, hbytes⟩ := Bool.and_eq_true_iff.mp hmarked
    rw [beq_iff_eq] at hbytes
    have hlt : lineStart + 3 ≤ stop := by
      have hlen := congrArg List.length hbytes
      rw [List.length_take, sliceBytes_length hstop] at hlen
      change min 3 (stop - lineStart) = 3 at hlen
      omega
    rw [sliceBytes_take _ hlt] at hbytes
    have hbomBytes : bom = String.utf8EncodeChar (Char.ofNat 0xFEFF) := by decide
    have hb' : Boundary source (lineStart + 3) := by
      refine @Boundary.next _ _ hb (Char.ofNat 0xFEFF) ((bytesAt source lineStart).drop 3) ?_
      rw [← hbomBytes, ← hbytes]
      unfold sliceBytes
      rw [Nat.add_sub_cancel_left]
      exact (List.take_append_drop 3 _).symm
    obtain ⟨text, htext⟩ := exists_getText (Nat.le_add_right lineStart 3) hb hb'
    have hchar : text = [Char.ofNat 0xFEFF] := by
      refine Utf8.encode_injective ?_
      rw [encode_of_getText htext, hbytes, hbomBytes]
      rfl
    rw [hchar] at htext
    obtain ⟨p₁, h₁, hadds₁⟩ := pushToken_adds h .bom lineStart (lineStart + 3)
    obtain ⟨index, p₂, h₂, hadds₂, hholds⟩ := leaf_adds hadds₁.builds .bom lineStart (lineStart + 3)
    obtain ⟨p₃, h₃, hadds₃⟩ := push_adds hadds₂.builds hholds
    rw [if_pos rfl, if_pos rfl, Run.bind_of_eq_some h₁, Run.bind_of_eq_some h₂, h₃, hfirst]
    exact ⟨p₃, _, _, rfl, (hadds₁.trans hadds₂).trans hadds₃, .present htext, hb', hlt⟩

theorem parseContent_spec (h : p.tree.Builds held pending) {start stop : Nat}
    (hstart : Boundary source start) (hstop : Boundary source stop) (hle : start ≤ stop) :
    ∃ p' nodes tokens errors,
      parseContent source start stop (sliceBytes source start stop) p = some ((), p') ∧
      Adds held (pending ++ nodes) tokens errors (CstNode.sizes nodes) p p' ∧
      ContentAt source start stop nodes tokens errors := by
  have hlen : (sliceBytes source start stop).length = stop - start := sliceBytes_length hstop.le
  unfold parseContent
  by_cases hempty : (sliceBytes source start stop).isEmpty = true
  · rw [if_pos hempty]
    rw [List.isEmpty_iff] at hempty
    rw [hempty] at hlen
    change 0 = _ at hlen
    refine ⟨p, [], [], [], rfl, ?_, .blank (by omega)⟩
    rw [List.append_nil]
    exact .refl h
  · rw [if_neg hempty]
    have hlt : start < stop := by
      by_contra hge
      rw [List.isEmpty_iff, ← List.length_eq_zero_iff] at hempty
      omega
    split_ifs
    · obtain ⟨index, p₁, h₁, hadds₁, hholds⟩ := comment_adds h start stop
      obtain ⟨p₂, h₂, hadds₂⟩ := push_adds hadds₁.builds hholds
      rw [Run.bind_of_eq_some h₁, h₂]
      exact ⟨p₂, _, _, _, rfl, hadds₁.trans hadds₂, .comment hlt⟩
    · obtain ⟨index, p₁, line, tokens, errors, h₁, hline, hadds₁, hholds⟩ :=
        parseLine_spec h hle hstart hstop
      obtain ⟨p₂, h₂, hadds₂⟩ := push_adds hadds₁.builds hholds
      rw [Run.bind_of_eq_some h₁, h₂]
      exact ⟨p₂, [line], tokens, errors, rfl,
        (hadds₁.trans hadds₂).of_eq (List.append_nil _) (List.append_nil _) rfl, .line hlt hline⟩

theorem findLineEnd_spec {lineStart : Nat} (hle : lineStart ≤ byteLen source) :
    lineStart ≤ findLineEnd source lineStart ∧ Boundary source (findLineEnd source lineStart) ∧
      (findLineEnd source lineStart ≠ byteLen source →
        (Utf8.encode source)[findLineEnd source lineStart]? = some 0x0A) := by
  unfold findLineEnd
  cases hfind : (bytesAt source lineStart).findIdx? (· == 0x0A) with
  | none => exact ⟨hle, Boundary.end source, fun h => absurd rfl h⟩
  | some offset =>
    obtain ⟨hlt, hbyte, -⟩ := List.findIdx?_eq_some_iff_getElem.mp hfind
    rw [beq_iff_eq] at hbyte
    have hget : (Utf8.encode source)[lineStart + offset]? = some 0x0A := by
      rw [← List.getElem?_drop]
      change (bytesAt source lineStart)[offset]? = _
      rw [List.getElem?_eq_getElem hlt, hbyte]
    exact ⟨Nat.le_add_right _ _, boundary_of_getElem? hget (by decide), fun _ => hget⟩

/-- One ASCII whitespace byte at a boundary. -/
theorem spaces_byte {position : Nat} {byte : UInt8} (hb : Boundary source position)
    (hbyte : (Utf8.encode source)[position]? = some byte)
    (hspace : isAsciiWhitespace byte = true) : Spaces source position (position + 1) := by
  refine spaces_of_bytes (Nat.le_add_right _ _) hb
    (boundary_behind hb hbyte (isAsciiWhitespace_lt hspace)) fun other hother => ?_
  unfold sliceBytes at hother
  rw [Nat.add_sub_cancel_left, List.take_one, List.head?_drop, hbyte] at hother
  rw [List.mem_singleton.mp hother, hspace]

theorem contentEnd_spec {lineStart lineEnd : Nat} (hle : lineStart ≤ lineEnd)
    (hb : Boundary source lineEnd) :
    lineStart ≤ contentEnd source lineStart lineEnd ∧
      Boundary source (contentEnd source lineStart lineEnd) ∧
      Spaces source (contentEnd source lineStart lineEnd) lineEnd := by
  unfold contentEnd
  split_ifs with h
  · obtain ⟨hlt, hbyte⟩ := h
    have hb' : Boundary source (lineEnd - 1) := boundary_of_getElem? hbyte (by decide)
    have hspaces := spaces_byte hb' hbyte (by decide)
    rw [Nat.sub_add_cancel (by omega)] at hspaces
    exact ⟨by omega, hb', hspaces⟩
  · exact ⟨hle, hb, .self hb⟩

theorem isBlank_space {byte : UInt8} (h : isBlank byte = true) : isAsciiWhitespace byte = true := by
  unfold isBlank at h
  unfold isAsciiWhitespace
  rw [Bool.or_eq_true] at h
  rcases h with h | h <;> simp [h]

/-- The blanks before the content of a line. -/
theorem leading_spec {start stop : Nat} (hstart : Boundary source start)
    (hstop : stop ≤ byteLen source) (hle : start ≤ stop) :
    let leading := ((sliceBytes source start stop).takeWhile isBlank).length
    Boundary source (start + leading) ∧ start + leading ≤ stop ∧
      Spaces source start (start + leading) := by
  intro leading
  obtain ⟨-, hle', hb, hall, -⟩ :=
    skip_spec (fun _ h => isAsciiWhitespace_lt (isBlank_space h)) 0 hstop hstart hle
  have hskip : skip isBlank (sliceBytes source start stop) 0 = leading := Nat.zero_add _
  rw [hskip] at hle' hb hall
  exact ⟨hb, hle', spaces_of_bytes (Nat.le_add_right _ _) hstart hb fun byte hbyte =>
    isBlank_space (hall byte hbyte)⟩

theorem parseLines_spec (h : p.tree.Builds held pending) (fuel : Nat) (first : Bool)
    {lineStart : Nat} (hfuel : byteLen source - lineStart < fuel) (hb : Boundary source lineStart) :
    ∃ p' nodes tokens errors, parseLines source fuel lineStart first p = some ((), p') ∧
      Adds held (pending ++ nodes) tokens errors (CstNode.sizes nodes) p p' ∧
      LinesAt source first lineStart nodes tokens errors := by
  induction fuel generalizing p pending first lineStart with
  | zero => exact absurd hfuel (Nat.not_lt_zero _)
  | succ fuel ih =>
    obtain ⟨hle, hlineEnd, hfeed⟩ := findLineEnd_spec hb.le
    unfold parseLines
    rw [if_pos hb.le]
    dsimp only
    generalize findLineEnd source lineStart = lineEnd at hle hlineEnd hfeed ⊢
    obtain ⟨hle₁, hcontentEnd, hspaces⟩ := contentEnd_spec hle hlineEnd
    generalize contentEnd source lineStart lineEnd = stop at hle₁ hcontentEnd hspaces ⊢
    obtain ⟨p₁, bomNodes, bomTokens, h₁, hadds₁, hbom, hb₁, hle₂⟩ :=
      parseBom_spec h first hb hcontentEnd.le hle₁
    rw [Run.bind_of_eq_some (slice_eq hle₁ hb hcontentEnd p), Run.bind_of_eq_some h₁]
    generalize (if (first && (sliceBytes source lineStart stop).take 3 == bom) = true then 3 else
      0) = offset at hbom hb₁ hle₂ ⊢
    rw [Run.bind_of_eq_some (slice_eq hle₂ hb₁ hcontentEnd p₁)]
    obtain ⟨hb₂, hle₃, hblank⟩ := leading_spec hb₁ hcontentEnd.le hle₂
    rw [sliceBytes_drop]
    generalize ((sliceBytes source (lineStart + offset) stop).takeWhile isBlank).length = leading
      at hb₂ hle₃ hblank ⊢
    obtain ⟨p₂, nodes, tokens, errors, h₂, hadds₂, hcontent⟩ :=
      parseContent_spec hadds₁.builds hb₂ hcontentEnd hle₃
    have hadds := hadds₁.trans hadds₂
    rw [List.append_assoc] at hadds
    rw [Run.bind_of_eq_some h₂]
    by_cases hlast : lineEnd = byteLen source
    · rw [if_pos hlast]
      rw [hlast] at hspaces
      exact ⟨p₂, _, _, _, rfl, hadds.of_eq rfl rfl (CstNode.sizes_append _ _).symm,
        .last hbom hblank hcontent hcontentEnd hspaces⟩
    · have hspaces' := hspaces.append (spaces_byte hlineEnd (hfeed hlast) (by decide))
      have hstop : stop < lineEnd + 1 := by
        obtain ⟨text, htext, -⟩ := hspaces
        exact Nat.lt_succ_of_le (getText_le htext)
      obtain ⟨p₃, rest, restTokens, restErrors, h₃, hadds₃, hrest⟩ :=
        @ih _ _ hadds.builds false (lineEnd + 1) (by have := hlineEnd.le; omega)
          (boundary_behind hlineEnd (hfeed hlast) (by decide))
      rw [if_neg hlast, h₃]
      refine ⟨p₃, _, _, _, rfl, ?_, .next hbom hblank hcontent hcontentEnd hstop hspaces' hrest⟩
      rw [← List.append_assoc]
      refine (hadds.trans hadds₃).of_eq rfl rfl ?_
      rw [CstNode.sizes_append, CstNode.sizes_append]

/-- The parser runs to the end of every source. -/
theorem parseDocument_spec (source : List Char) :
    ∃ index p' nodes tokens errors, parseDocument source Parser.new = some ((), p') ∧
      LinesAt source true 0 nodes tokens errors ∧
      Adds 1 [] tokens errors (CstNode.sizes nodes + 1) Parser.new p' ∧
      index = asU32 (CstNode.sizes nodes) ∧
      p'.tree.Holds index (.mk .localisationDocument (range 0 (byteLen source)) nodes) := by
  have hmark : childrenMark Parser.new = some (0, Parser.new) := rfl
  obtain ⟨p₁, nodes, tokens, errors, h₁, hadds₁, hlines⟩ :=
    @parseLines_spec source _ _ Parser.new .empty (byteLen source + 2) true 0 (by omega)
      (Boundary.zero source)
  have hbuilds : p₁.tree.Builds 0 ([] ++ nodes) := hadds₁.builds
  obtain ⟨index, p₂, h₂, hadds₂, hholds⟩ :=
    node_adds hbuilds .localisationDocument 0 (byteLen source)
  have hcount : p₁.tree.count = CstNode.sizes nodes := by rw [hadds₁.count]; exact Nat.zero_add _
  have hsince : childrenSince 0 p₁ = some (nodes.length, p₁) := childrenSince_adds hbuilds
  refine ⟨index, p₂, nodes, tokens, errors, ?_, hlines,
    (hadds₁.trans hadds₂).of_eq (List.append_nil _) (List.append_nil _) rfl, ?_, hholds⟩
  · unfold parseDocument
    rw [Run.bind_of_eq_some hmark, Run.bind_of_eq_some h₁,
      Run.bind_of_eq_some hsince, Run.bind_of_eq_some h₂]
    rfl
  · unfold node at h₂
    obtain ⟨⟨index', b'⟩, hnode, heq⟩ := Option.map_eq_some_iff.mp h₂
    cases heq
    rw [SyntaxTreeBuilder.node_index hnode, hcount]

end

/-! ## The parse of a source -/

/-- What the parse of a source is: its lines, and the tree around them. -/
structure Parsed (source : List Char) (parts : ParseParts) (nodes : List CstNode) : Prop where
  lines : LinesAt source true 0 nodes parts.tokens parts.errors
  count : parts.tree.cores.length = CstNode.sizes nodes + 1
  fits : CstNode.sizes nodes < 2 ^ 32 →
    parts.tree.nodeAt (parts.tree.cores.length + 1) parts.tree.root =
      some (.mk .localisationDocument (range 0 (byteLen source)) nodes)
  wraps : CstNode.sizes nodes = 2 ^ 32 → ∃ kind range,
    parts.tree.nodeAt (parts.tree.cores.length + 1) parts.tree.root = some (.mk kind range [])

theorem exists_parse (source : List Char) :
    ∃ parts nodes, Localisation.parse source = some parts ∧ Parsed source parts nodes := by
  obtain ⟨index, p', nodes, tokens, errors, hparse, hlines, hadds, hindex, hholds⟩ :=
    parseDocument_spec source
  have hcount : p'.tree.count = CstNode.sizes nodes + 1 := by
    rw [hadds.count]
    exact Nat.zero_add _
  have htree : p'.parts.tree = p'.tree.finish := by unfold Parser.parts; rfl
  refine ⟨p'.parts, nodes, ?_, ?_, ?_, fun hfit => ?_, fun hwrap => ?_⟩
  · unfold Localisation.parse
    rw [hparse]
    rfl
  · have htokens : p'.parts.tokens = tokens := hadds.tokens
    have herrors : p'.parts.errors = errors := hadds.errors
    rw [htokens, herrors]
    exact hlines
  · rw [htree, SyntaxTreeBuilder.finish_cores]
    exact hcount
  · rw [htree]
    refine hholds.root ?_ ?_
    · unfold SyntaxTreeBuilder.InU32
      omega
    · rw [hindex, asU32_eq hfit, hcount]
  · obtain ⟨kind, range, hfirst⟩ := hadds.builds.first (by omega)
    refine ⟨kind, range, ?_⟩
    have hroot : p'.parts.tree.root = 0 := by
      change (asU32 p'.tree.count + (2 ^ 32 - 1)) % 2 ^ 32 = 0
      rw [hcount, hwrap]
      decide
    rw [hroot, htree]
    exact hfirst _ (SyntaxTreeBuilder.extends_finish p'.tree) _ (Nat.succ_pos _)

/-! ## Counting nodes

Where no error is reported, a line has no more nodes than bytes, and one more for its entry.
-/

section

variable {source : List Char} {start position stop : Nat} {nodes : List CstNode}
  {tokens : List SyntaxToken} {errors : List SyntaxError}

theorem ValueAt.size_le {value : CstNode} {comment : Option CstNode}
    (h : ValueAt source position stop value comment tokens []) :
    position + CstNode.sizes (valueNodes value comment) ≤ stop := by
  have hsizes := h.sizes
  cases h <;> simp only [Option.toList_none, Option.toList_some, List.length_nil,
    List.length_singleton] at hsizes <;> omega

theorem HeadAt.size_le (h : HeadAt source start nodes tokens position) :
    start + CstNode.sizes nodes ≤ position := by
  cases h with
  | key hkey _ hspaces =>
    have := hspaces.le
    simp only [CstNode.sizes, CstNode.size]
    omega
  | colon hkey _ hspaces _ hspaces' =>
    have := hspaces.le
    have := hspaces'.le
    simp only [CstNode.sizes, CstNode.size]
    omega
  | version hkey _ hspaces _ hspaces' hversion _ hspaces'' =>
    have := hspaces.le
    have := hspaces'.le
    have := hspaces''.le
    simp only [CstNode.sizes, CstNode.size]
    omega

theorem LineAt.size_le {line : CstNode} (h : LineAt source start stop line tokens []) :
    start + line.size ≤ stop + 1 := by
  cases h with
  | header hkey _ hspaces _ hspaces' =>
    have := hspaces.le
    have := hspaces'.le
    simp only [CstNode.sizes, CstNode.size]
    omega
  | entry hhead hrest =>
    cases hrest with
    | value hvalue =>
      have := hhead.size_le
      have := hvalue.size_le
      simp only [CstNode.size, CstNode.sizes_append]
      omega

theorem ContentAt.size_le (h : ContentAt source start stop nodes tokens []) :
    start + CstNode.sizes nodes ≤ stop + 1 := by
  cases h with
  | blank => simp only [CstNode.sizes]; omega
  | comment => simp only [CstNode.sizes, CstNode.size]; omega
  | line _ hline =>
    have := hline.size_le
    simp only [CstNode.sizes]
    omega

theorem BomAt.size_le {lineStart content : Nat} {first : Bool}
    (h : BomAt source lineStart first nodes tokens content) :
    lineStart + CstNode.sizes nodes ≤ content := by
  cases h <;> simp only [CstNode.sizes, CstNode.size] <;> omega

theorem LinesAt.size_le {first : Bool} {lineStart : Nat}
    (h : LinesAt source first lineStart nodes tokens errors) (herrors : errors = []) :
    lineStart + CstNode.sizes nodes ≤ byteLen source + 1 := by
  induction h with
  | last hbom hblank hcontent _ hend =>
    obtain rfl := herrors
    have := hbom.size_le
    have := hblank.le
    have := hcontent.size_le
    have := hend.le
    rw [CstNode.sizes_append]
    omega
  | next hbom hblank hcontent _ hlt _ _ ih =>
    obtain ⟨rfl, rfl⟩ := List.append_eq_nil_iff.mp herrors
    have := hbom.size_le
    have := hblank.le
    have := hcontent.size_le
    have := ih rfl
    rw [CstNode.sizes_append, CstNode.sizes_append]
    omega

theorem HeadAt.lt (h : HeadAt source start nodes tokens position) : start < position := by
  have := h.size_le
  cases h <;> simp only [CstNode.sizes, CstNode.size] at this <;> omega

theorem RestAt.size_le_mul (h : RestAt source position stop nodes tokens errors) :
    3 * position + CstNode.sizes nodes ≤ 3 * stop + 1 := by
  cases h with
  | missing h => simp only [CstNode.sizes, CstNode.size]; omega
  | missingComment h => simp only [CstNode.sizes, CstNode.size]; omega
  | value hvalue =>
    have hsizes := hvalue.sizes
    cases hvalue <;> simp only [Option.toList_none, Option.toList_some, List.length_nil,
      List.length_singleton] at hsizes <;> omega

theorem LineAt.size_le_mul {line : CstNode} (h : LineAt source start stop line tokens errors)
    (hlt : start < stop) : 3 * start + line.size ≤ 3 * stop := by
  cases h with
  | missingKey => simp only [CstNode.sizes, CstNode.size]; omega
  | header hkey _ hspaces _ hspaces' =>
    have := hspaces.le
    have := hspaces'.le
    simp only [CstNode.sizes, CstNode.size]
    omega
  | entry hhead hrest =>
    have := hhead.lt
    have := hhead.size_le
    have := hrest.size_le_mul
    simp only [CstNode.size, CstNode.sizes_append]
    omega

theorem ContentAt.size_le_mul (h : ContentAt source start stop nodes tokens errors) :
    3 * start + CstNode.sizes nodes ≤ 3 * stop := by
  cases h with
  | blank => simp only [CstNode.sizes]; omega
  | comment => simp only [CstNode.sizes, CstNode.size]; omega
  | line hlt hline =>
    have := hline.size_le_mul hlt
    simp only [CstNode.sizes]
    omega

/-- A file has at most three nodes for each byte. -/
theorem LinesAt.size_le_mul {first : Bool} {lineStart : Nat}
    (h : LinesAt source first lineStart nodes tokens errors) :
    3 * lineStart + CstNode.sizes nodes ≤ 3 * byteLen source := by
  induction h with
  | last hbom hblank hcontent _ hend =>
    have := hbom.size_le
    have := hblank.le
    have := hcontent.size_le_mul
    have := hend.le
    rw [CstNode.sizes_append]
    omega
  | next hbom hblank hcontent _ hlt _ _ ih =>
    have := hbom.size_le
    have := hblank.le
    have := hcontent.size_le_mul
    rw [CstNode.sizes_append, CstNode.sizes_append]
    omega

theorem LineAt.tokens_ne {line : CstNode} (h : LineAt source start stop line tokens []) :
    tokens ≠ [] := by
  cases h with
  | header => exact List.cons_ne_nil _ _
  | entry hhead => cases hhead <;> exact List.cons_ne_nil _ _

/-- A file without tokens and errors has no nodes. -/
theorem LinesAt.nodes_nil {first : Bool} {lineStart : Nat}
    (h : LinesAt source first lineStart nodes tokens errors) (herrors : errors = [])
    (htokens : tokens = []) : nodes = [] := by
  have hbomNil {lineStart content : Nat} {first : Bool} {nodes : List CstNode}
      (h : BomAt source lineStart first nodes [] content) : nodes = [] := by
    cases h
    rfl
  have hcontentNil {start stop : Nat} {nodes : List CstNode}
      (h : ContentAt source start stop nodes [] []) : nodes = [] := by
    cases h with
    | blank => rfl
    | line _ hline => exact absurd rfl hline.tokens_ne
  induction h with
  | last hbom _ hcontent _ _ =>
    obtain rfl := herrors
    obtain ⟨rfl, rfl⟩ := List.append_eq_nil_iff.mp htokens
    rw [hbomNil hbom, hcontentNil hcontent]
    rfl
  | next hbom _ hcontent _ _ _ _ ih =>
    obtain ⟨rfl, rfl⟩ := List.append_eq_nil_iff.mp herrors
    obtain ⟨hfront, rfl⟩ := List.append_eq_nil_iff.mp htokens
    obtain ⟨rfl, rfl⟩ := List.append_eq_nil_iff.mp hfront
    rw [hbomNil hbom, hcontentNil hcontent, ih rfl rfl]
    rfl

end

end ParadoxCode.Localisation
