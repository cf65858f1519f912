import ParadoxCode.Format.Realise
import ParadoxCode.Parser.LocalisationFile

/-!
# What the localisation formatter keeps

The characters of a file that are not whitespace, before and after formatting. The formatter prints
the key, the version, the value and the comment of an entry. What stands between the value and the
comment belongs to none of them: the formatted text keeps every character if and only if nothing but
whitespace stands there.
-/

namespace ParadoxCode.Format

open ParadoxCode.Parser
open ParadoxCode.Localisation (leaf valueNodes BomAt ContentAt HeadAt LineAt LinesAt RestAt ValueAt)

/-- The characters that are not whitespace. -/
def visible (text : Str) : Str := text.filter fun c => !isWhitespace c

/-- The text behind the value of an entry, up to its comment or to the end of the entry. -/
def behindValue (doc : Document) (entry : CstNode) : Str :=
  match valueNode entry with
  | some value =>
    let stop := match childOfKind entry .comment with
      | some comment => comment.range.start
      | none => entry.range.stop
    (doc.text (rangeOr value.range.stop stop value.range.stop)).getD []
  | none => []

/-- Only whitespace stands behind the values of the entries. -/
def ValuesEndEntries (doc : Document) : Prop :=
  ∀ entry ∈ doc.root.children, visible (behindValue doc entry) = []

@[simp] theorem visible_nil : visible [] = [] := rfl

@[simp] theorem visible_append (front back : Str) :
    visible (front ++ back) = visible front ++ visible back := List.filter_append ..

theorem visible_spaces {text : Str} (h : ∀ c ∈ text, isWhitespace c = true) : visible text = [] :=
  List.filter_eq_nil_iff.mpr fun c hc => by rw [h c hc]; decide

variable {source : Str} {start stop : Nat}

theorem visible_of_spaces (h : Spaces source start stop) :
    ∃ text, getText source start stop = some text ∧ visible text = [] := by
  obtain ⟨text, htext, hall⟩ := h
  exact ⟨text, htext, visible_spaces hall⟩

theorem visible_space_cons (text : Str) : visible (' ' :: text) = visible text := rfl

theorem visible_colon_cons (text : Str) : visible (':' :: text) = ':' :: visible text := rfl

/-- The line breaks between lines are whitespace. -/
theorem visible_joinLines (lines : List Str) : visible (joinLines lines) =
    visible lines.flatten := by
  have hjoin (lines : List Str) : visible (join ['\n'] lines) = visible lines.flatten := by
    induction lines with
    | nil => rfl
    | cons line lines ih =>
      cases lines with
      | nil => simp [join]
      | cons next lines =>
        unfold join at ih ⊢
        have hbreak : visible ['\n'] = [] := rfl
        rw [List.intercalate_cons_cons, visible_append, visible_append, ih, hbreak, List.append_nil]
        exact (visible_append line _).symm
  unfold joinLines
  split_ifs with h
  · rw [List.isEmpty_iff.mp h]
    rfl
  · rw [visible_append, hjoin]
    exact List.append_nil _

theorem visible_insertBom (lines : List Str) :
    visible (insertBom lines).flatten = bomChar :: visible lines.flatten := by
  have hbom (text : Str) : visible (bomChar :: text) = bomChar :: visible text :=
    List.filter_cons_of_pos (by decide)
  cases lines with
  | nil => exact hbom []
  | cons first rest =>
    unfold insertBom
    rw [List.flatten_cons, List.cons_append, hbom]
    rfl

/-! ## What the lines keep -/

/-- The visible characters of some nodes in the source and in the formatted text: the formatter
drops what stands behind a value. -/
inductive Kept (doc : Document) : List CstNode → Str → Str → Prop
  | nil : Kept doc [] [] []
  | cons {node : CstNode} {nodes : List CstNode} {front back full kept : Str}
      (hnode : visible (localisationLines doc node).flatten = front ++ back)
      (h : Kept doc nodes full kept) :
      Kept doc (node :: nodes) (front ++ visible (behindValue doc node) ++ back ++ full)
        (front ++ back ++ kept)

variable {doc : Document}

variable {nodes : List CstNode}

theorem Kept.length_le {full kept : Str} (h : Kept doc nodes full kept) :
    kept.length ≤ full.length := by
  induction h with
  | nil => exact le_rfl
  | cons _ _ ih =>
    simp only [List.length_append]
    omega

/-- The visible characters are the same where nothing is dropped. -/
theorem Kept.eq_iff {full kept : Str} (h : Kept doc nodes full kept) :
    kept = full ↔ ∀ node ∈ nodes, visible (behindValue doc node) = [] := by
  induction h with
  | nil => simp
  | @cons node nodes front back full kept _ h ih =>
    rw [List.forall_mem_cons, ← ih]
    constructor
    · intro heq
      have hlen := congrArg List.length heq
      have hle := h.length_le
      simp only [List.length_append] at hlen
      have hnil : visible (behindValue doc node) = [] := List.length_eq_zero_iff.mp (by omega)
      rw [hnil, List.append_nil] at heq
      exact ⟨hnil, List.append_cancel_left heq⟩
    · rintro ⟨hnil, rfl⟩
      rw [hnil, List.append_nil]

theorem Kept.printed {full kept : Str} (h : Kept doc nodes full kept) :
    visible (nodes.flatMap (localisationLines doc)).flatten = kept := by
  induction h with
  | nil => rfl
  | cons hnode _ ih =>
    rw [List.flatMap_cons, List.flatten_append, visible_append, hnode, ih]

theorem Kept.append {nodes' : List CstNode} {full full' kept kept' : Str}
    (h : Kept doc nodes full kept) (h' : Kept doc nodes' full' kept') :
    Kept doc (nodes ++ nodes') (full ++ full') (kept ++ kept') := by
  induction h with
  | nil => exact h'
  | cons hnode _ ih =>
    simp only [List.append_assoc] at ih ⊢
    have := Kept.cons hnode ih
    simpa only [List.append_assoc, List.cons_append] using this

/-! ## The shapes of lines -/

/-- The text of a node is the text of its range. -/
theorem text_range (hlen : byteLen doc.file.source ≤ u32Max) {text : Str}
    (h : getText doc.file.source start stop = some text) :
    doc.text (range start stop) = some text := by
  have hstop : stop ≤ u32Max :=
    Nat.le_trans (getText_isSome_iff.mp (Option.isSome_of_eq_some h)).2.2.le hlen
  rw [range_eq (getText_le h) hstop]
  exact h

theorem text_rangeOr {otherwise : Nat} {text : Str}
    (h : getText doc.file.source start stop = some text) :
    doc.text (rangeOr start stop otherwise) = some text := by
  unfold rangeOr TextRange.new
  rw [dif_pos (getText_le h)]
  exact h

theorem getText_stop_le {text : Str}
    (h : getText source start stop = some text) : stop ≤ byteLen source :=
  (getText_isSome_iff.mp (Option.isSome_of_eq_some h)).2.2.le

section

variable {source : Str} {start position stop : Nat} {tokens : List SyntaxToken}

/-- The key, what stands between it and the value, and the version. -/
theorem head_text {head : List CstNode} (hhead : HeadAt source start head tokens position)
    (hstart : Boundary source start) :
    ∃ keyEnd versions key gap version, head = leaf .localisationKey start keyEnd :: versions ∧
      getText source start keyEnd = some key ∧ getText source keyEnd position = some gap ∧
      visible gap = (if gap.contains ':' then ':' :: visible version else []) ∧
      ((versions = [] ∧ version = []) ∨ ∃ versionStart versionEnd,
        versions = [leaf .version versionStart versionEnd] ∧
        getText source versionStart versionEnd = some version) := by
  cases hhead with
  | @key keyEnd _ hkey hb hspaces =>
    obtain ⟨key, hkeyText⟩ := exists_getText (Nat.le_of_lt hkey) hstart hb
    obtain ⟨gap, hgap, hall⟩ := hspaces
    have hcolon : gap.contains ':' = false := by
      rw [← Bool.not_eq_true, List.contains_iff_mem]
      intro hmem
      exact absurd (hall ':' hmem) (by decide)
    refine ⟨keyEnd, [], key, gap, [], rfl, hkeyText, hgap, ?_, .inl ⟨rfl, rfl⟩⟩
    rw [hcolon, visible_spaces hall]
    rfl
  | @colon keyEnd colon _ hkey hb hspaces hcolon hspaces' =>
    obtain ⟨key, hkeyText⟩ := exists_getText (Nat.le_of_lt hkey) hstart hb
    obtain ⟨gap, hgap, hall⟩ := visible_of_spaces hspaces
    obtain ⟨gap', hgap', hall'⟩ := visible_of_spaces hspaces'
    refine ⟨keyEnd, [], key, gap ++ [':'] ++ gap', [], rfl, hkeyText,
      getText_append (getText_append hgap hcolon) hgap', ?_, .inl ⟨rfl, rfl⟩⟩
    rw [if_pos (by simp), visible_append, visible_append, hall, hall']
    rfl
  | @version keyEnd colon versionStart versionEnd _ hkey hb hspaces hcolon hspaces' hversion hb'
      hspaces'' =>
    obtain ⟨key, hkeyText⟩ := exists_getText (Nat.le_of_lt hkey) hstart hb
    obtain ⟨gap, hgap, hall⟩ := visible_of_spaces hspaces
    obtain ⟨gap', hgap', hall'⟩ := visible_of_spaces hspaces'
    obtain ⟨gap'', hgap'', hall''⟩ := visible_of_spaces hspaces''
    obtain ⟨version, hversionText⟩ := exists_getText (Nat.le_of_lt hversion)
      (getText_isSome_iff.mp (Option.isSome_of_eq_some hgap')).2.2 hb'
    refine ⟨keyEnd, _, key, gap ++ [':'] ++ gap' ++ version ++ gap'', version, rfl, hkeyText,
      getText_append (getText_append (getText_append (getText_append hgap hcolon) hgap')
        hversionText) hgap'', ?_, .inr ⟨versionStart, versionEnd, rfl, hversionText⟩⟩
    rw [if_pos (by simp)]
    simp only [visible_append, hall, hall', hall'', List.nil_append, List.append_nil]
    rfl

/-- The value, what stands behind it, and the comment. -/
theorem value_text {value : CstNode} {comment : Option CstNode}
    (hvalue : ValueAt source position stop value comment tokens [])
    (hstart : Boundary source position) (hstop : Boundary source stop) :
    ∃ kind valueEnd commentStart valueText behind commentText,
      value = leaf kind position valueEnd ∧ (kind = .localisationString ∨ kind = .unquotedValue) ∧
      getText source position valueEnd = some valueText ∧
      getText source valueEnd commentStart = some behind ∧
      getText source commentStart stop = some commentText ∧
      ((comment = none ∧ commentStart = stop) ∨ comment =
        some (leaf .comment commentStart stop)) := by
  cases hvalue with
  | @quoted valueEnd hlt hle hb =>
    obtain ⟨text, htext⟩ := exists_getText (Nat.le_of_lt hlt) hstart hb
    obtain ⟨behind, hbehind⟩ := exists_getText hle hb hstop
    exact ⟨_, valueEnd, stop, text, behind, [], rfl, .inl rfl, htext, hbehind, getText_self hstop,
      .inl ⟨rfl, rfl⟩⟩
  | @quotedComment valueEnd hash hlt hle hhash hb hb' =>
    obtain ⟨text, htext⟩ := exists_getText (Nat.le_of_lt hlt) hstart hb
    obtain ⟨behind, hbehind⟩ := exists_getText hle hb hb'
    obtain ⟨comment, hcomment⟩ := exists_getText (Nat.le_of_lt hhash) hb' hstop
    exact ⟨_, valueEnd, hash, text, behind, comment, rfl, .inl rfl, htext, hbehind, hcomment,
      .inr rfl⟩
  | @unquoted valueEnd _ hle hb hspaces =>
    obtain ⟨text, htext⟩ := exists_getText hle hstart hb
    obtain ⟨behind, hbehind, -⟩ := hspaces
    exact ⟨_, valueEnd, stop, text, behind, [], rfl, .inr rfl, htext, hbehind, getText_self hstop,
      .inl ⟨rfl, rfl⟩⟩
  | @unquotedComment valueEnd hash _ hle hhash hb hspaces hb' =>
    obtain ⟨text, htext⟩ := exists_getText hle hstart hb
    obtain ⟨behind, hbehind, -⟩ := hspaces
    obtain ⟨comment, hcomment⟩ := exists_getText (Nat.le_of_lt hhash) hb' hstop
    exact ⟨_, valueEnd, hash, text, behind, comment, rfl, .inr rfl, htext, hbehind, hcomment,
      .inr rfl⟩

end

/-- What an entry shows in the source is printed, less what stands behind the value. -/
def Shows (doc : Document) (node : CstNode) (text : Str) : Prop :=
  ∃ front back, visible (localisationLines doc node).flatten = front ++ back ∧
    visible text = front ++ visible (behindValue doc node) ++ back

/-- Looking up the parts of an entry. -/
theorem entry_parts (range : TextRange) (start keyEnd position valueEnd : Nat)
    {versions : List CstNode} {comment : Option CstNode} {kind : CstKind}
    (hversions : versions = [] ∨ ∃ versionStart versionEnd,
      versions = [leaf .version versionStart versionEnd])
    (hkind : kind = .localisationString ∨ kind = .unquotedValue)
    (hcomment : comment = none ∨ ∃ commentStart stop, comment =
      some (leaf .comment commentStart stop)) :
    let entry : CstNode := .mk .localisationEntry range
      (leaf .localisationKey start keyEnd :: versions ++ valueNodes
        (leaf kind position valueEnd) comment)
    childOfKind entry .localisationKey = some (leaf .localisationKey start keyEnd) ∧
      childOfKind entry .version = versions.head? ∧
      valueNode entry = some (leaf kind position valueEnd) ∧
      childOfKind entry .comment = comment := by
  rcases hversions with rfl | ⟨versionStart, versionEnd, rfl⟩ <;> rcases hkind with rfl | rfl <;>
    rcases hcomment with rfl | ⟨commentStart, stop, rfl⟩ <;> exact ⟨rfl, rfl, rfl, rfl⟩

variable {tokens : List SyntaxToken}

theorem entry_shows (hlen : byteLen doc.file.source ≤ u32Max) {position : Nat}
    {head : List CstNode} {value : CstNode} {comment : Option CstNode}
    {tokens' : List SyntaxToken} (hhead : HeadAt doc.file.source start head tokens position)
    (hvalue : ValueAt doc.file.source position stop value comment tokens' [])
    (hstart : Boundary doc.file.source start) (hstop : Boundary doc.file.source stop) :
    ∃ text, getText doc.file.source start stop = some text ∧
      Shows doc (.mk .localisationEntry (range start stop) (head ++ valueNodes value comment))
        text := by
  obtain ⟨keyEnd, versions, key, gap, version, rfl, hkey, hgap, hvisible, hversion⟩ :=
    head_text hhead hstart
  have hposition := (getText_isSome_iff.mp (Option.isSome_of_eq_some hgap)).2.2
  obtain ⟨kind, valueEnd, commentStart, valueText, behind, commentText, rfl, hkind, hvalueText,
    hbehind, hcommentText, hcomment⟩ := value_text hvalue hposition hstop
  have hvalueEnd := (getText_isSome_iff.mp (Option.isSome_of_eq_some hbehind)).2.1
  obtain ⟨hkeyNode, hversionNode, hvalueNode, hcommentNode⟩ :=
    entry_parts (range start stop) start keyEnd position valueEnd
      (hversion.imp And.left fun ⟨versionStart, versionEnd, h, _⟩ => ⟨versionStart, versionEnd, h⟩)
      hkind (hcomment.imp And.left fun h => ⟨commentStart, stop, h⟩)
  generalize hentry : CstNode.mk .localisationEntry (range start stop) _ = entry at *
  have hentryKind : entry.kind = .localisationEntry := by rw [← hentry]; rfl
  have hentryRange : entry.range = range start stop := by rw [← hentry]; rfl
  refine ⟨_, getText_append (getText_append (getText_append (getText_append hkey hgap) hvalueText)
    hbehind) hcommentText, visible key ++ visible gap ++ visible valueText, visible commentText,
    ?_, ?_⟩
  · have hcolon : hasColon doc entry (leaf kind position valueEnd) = gap.contains ':' := by
      unfold hasColon
      rw [hkeyNode]
      change Option.any _
        (doc.text (rangeOr (range start keyEnd).stop (range position valueEnd).start
        (range position valueEnd).start)) = _
      rw [range_stop (getText_le hkey) (Nat.le_trans (getText_stop_le hkey) hlen),
        range_start (Nat.le_trans (getText_stop_le hgap) hlen), text_rangeOr hgap]
      rfl
    have hversionText : ((childOfKind entry .version).bind fun child => doc.text child.range).getD
      [] =
        version := by
      rw [hversionNode]
      rcases hversion with ⟨rfl, rfl⟩ | ⟨versionStart, versionEnd, rfl, htext⟩
      · rfl
      · exact congrArg (Option.getD · []) (text_range hlen htext)
    have hline : (localisationLines doc entry).flatten = formatLocalisationEntry doc entry := by
      unfold localisationLines
      rw [hentryKind]
      exact List.append_nil _
    have hkeyText : ((some (leaf .localisationKey start keyEnd)).bind fun child =>
        doc.text child.range).getD [] = key := congrArg (Option.getD · []) (text_range hlen hkey)
    have hvalueText' : ((some (leaf kind position valueEnd)).bind fun child =>
        doc.text child.range).getD [] = valueText :=
      congrArg (Option.getD · []) (text_range hlen hvalueText)
    have hany : (some (leaf kind position valueEnd)).any (fun value => hasColon doc entry value) =
        gap.contains ':' := hcolon
    rw [hline]
    unfold formatLocalisationEntry
    dsimp only
    rw [hversionText, hkeyNode, hvalueNode, hcommentNode, hkeyText, hvalueText', hany]
    have hfront : visible (if gap.contains ':' then key ++ ':' :: version ++ ' ' :: valueText
        else key ++ ' ' :: valueText) = visible key ++ visible gap ++ visible valueText := by
      rw [hvisible]
      split_ifs
      · rw [visible_append, visible_append, visible_colon_cons, visible_space_cons]
      · rw [visible_append, visible_space_cons, List.append_nil]
    rcases hcomment with ⟨rfl, rfl⟩ | rfl
    · rw [getText_self hstop] at hcommentText
      cases hcommentText
      dsimp only
      rw [hfront]
      exact (List.append_nil _).symm
    · dsimp only
      rw [visible_append, hfront, visible_space_cons, Document.nodeText]
      exact congrArg (fun text => _ ++ visible (Option.getD text [])) (text_range hlen hcommentText)
  · have hbehindValue : behindValue doc entry = behind := by
      unfold behindValue
      rw [hvalueNode, hcommentNode]
      dsimp only
      have hvalueStop : (leaf kind position valueEnd).range.stop = valueEnd :=
        range_stop (getText_le hvalueText) (Nat.le_trans (getText_stop_le hvalueText) hlen)
      rw [hvalueStop]
      rcases hcomment with ⟨rfl, rfl⟩ | rfl
      · dsimp only
        rw [hentryRange, range_stop (Nat.le_trans (getText_le hkey)
          (Nat.le_trans (getText_le hgap) (Nat.le_trans (getText_le hvalueText)
            (getText_le hbehind))))
          (Nat.le_trans (getText_stop_le hbehind) hlen), text_rangeOr hbehind]
        rfl
      · dsimp only
        have hcommentStart : (leaf .comment commentStart stop).range.start = commentStart :=
          range_start (Nat.le_trans (getText_stop_le hbehind) hlen)
        rw [hcommentStart, text_rangeOr hbehind]
        rfl
    rw [hbehindValue]
    simp only [visible_append]

theorem header_shows (hlen : byteLen doc.file.source ≤ u32Max) {keyEnd colon : Nat}
    (hkey : start < keyEnd) (hb : Boundary doc.file.source keyEnd)
    (hspaces : Spaces doc.file.source keyEnd colon)
    (hcolon : getText doc.file.source colon (colon + 1) = some [':'])
    (hspaces' : Spaces doc.file.source (colon + 1) stop) (hstart : Boundary doc.file.source start) :
    ∃ text, getText doc.file.source start stop = some text ∧
      Shows doc (.mk .languageHeader (range start stop) [leaf .localisationKey start keyEnd])
        text := by
  obtain ⟨key, hkeyText⟩ := exists_getText (Nat.le_of_lt hkey) hstart hb
  obtain ⟨gap, hgap, hall⟩ := visible_of_spaces hspaces
  obtain ⟨gap', hgap', hall'⟩ := visible_of_spaces hspaces'
  refine ⟨_, getText_append (getText_append (getText_append hkeyText hgap) hcolon) hgap',
    visible (key ++ [':']), [], ?_, ?_⟩
  · have hprinted : localisationLines doc
        (.mk .languageHeader (range start stop) [leaf .localisationKey start keyEnd]) =
          [key ++ [':']] := by
      have htext : ([leaf .localisationKey start keyEnd].head?.bind fun child =>
          doc.text child.range) = some key := text_range hlen hkeyText
      unfold localisationLines
      simp only [CstNode.kind, CstNode.children, htext]
    rw [hprinted, List.flatten_singleton, List.append_nil]
  · have hnone : behindValue doc
        (.mk .languageHeader (range start stop) [leaf .localisationKey start keyEnd]) = [] := rfl
    rw [hnone]
    simp only [visible_append, hall, hall', visible_nil, List.append_nil]

theorem comment_shows (hlen : byteLen doc.file.source ≤ u32Max) {text : Str}
    (htext : getText doc.file.source start stop = some text) :
    Shows doc (leaf .comment start stop) text := by
  refine ⟨visible text, [], ?_, ?_⟩
  · have hprinted : localisationLines doc (leaf .comment start stop) = [text] :=
      congrArg (fun text => [Option.getD text []]) (text_range hlen htext)
    rw [hprinted, List.flatten_singleton, List.append_nil]
  · have hnone : behindValue doc (leaf .comment start stop) = [] := rfl
    rw [hnone, visible_nil, List.append_nil, List.append_nil]

theorem line_shows (hlen : byteLen doc.file.source ≤ u32Max) {line : CstNode}
    (hline : LineAt doc.file.source start stop line tokens [])
    (hstart : Boundary doc.file.source start) (hstop : Boundary doc.file.source stop) :
    line.kind ≠ .bom ∧ ∃ text, getText doc.file.source start stop = some text ∧
    Shows doc line text := by
  cases hline with
  | header hkey hb hspaces hcolon hspaces' =>
    exact ⟨CstKind.noConfusion, header_shows hlen hkey hb hspaces hcolon hspaces' hstart⟩
  | entry hhead hrest =>
    cases hrest with
    | value hvalue => exact ⟨CstKind.noConfusion, entry_shows hlen hhead hvalue hstart hstop⟩

/-! ## Whole files -/

/-- The content of a line, where the parser reports no error. -/
theorem content_kept (hlen : byteLen doc.file.source ≤ u32Max)
    (hcontent : ContentAt doc.file.source start stop nodes tokens [])
    (hstart : Boundary doc.file.source start) (hstop : Boundary doc.file.source stop) :
    (∀ node ∈ nodes, node.kind ≠ .bom) ∧ ∃ text kept,
      getText doc.file.source start stop = some text ∧ Kept doc nodes (visible text) kept := by
  have hone {node : CstNode} {text : Str} (htext : Shows doc node text) :
      ∃ kept, Kept doc [node] (visible text) kept := by
    obtain ⟨front, back, hprinted, hvisible⟩ := htext
    rw [hvisible, ← List.append_nil (front ++ _ ++ back)]
    exact ⟨_, .cons hprinted .nil⟩
  cases hcontent with
  | blank heq =>
    obtain rfl := heq
    exact ⟨by rintro _ ⟨⟩, [], [], getText_self hstop, .nil⟩
  | comment hlt =>
    obtain ⟨text, htext⟩ := exists_getText (Nat.le_of_lt hlt) hstart hstop
    obtain ⟨kept, hkept⟩ := hone (comment_shows hlen htext)
    refine ⟨fun node hnode => ?_, text, kept, htext, hkept⟩
    rw [List.mem_singleton.mp hnode]
    exact CstKind.noConfusion
  | line hlt hline =>
    obtain ⟨hkind, text, htext, hshows⟩ := line_shows hlen hline hstart hstop
    obtain ⟨kept, hkept⟩ := hone hshows
    refine ⟨fun node hnode => ?_, text, kept, htext, hkept⟩
    rw [List.mem_singleton.mp hnode]
    exact hkind

/-- The lines behind the byte order mark. -/
theorem lines_kept (hlen : byteLen doc.file.source ≤ u32Max) {first : Bool} {lineStart : Nat}
    {errors : List SyntaxError}
    (h : LinesAt doc.file.source first lineStart nodes tokens errors) (herrors : errors = []) :
    ∃ bom bomTokens content rest text kept, BomAt doc.file.source lineStart first bom
      bomTokens content ∧ nodes = bom ++ rest ∧ (∀ node ∈ rest, node.kind ≠ .bom) ∧
      getText doc.file.source content (byteLen doc.file.source) = some text ∧
      Kept doc rest (visible text) kept := by
  induction h with
  | @last first lineStart content start stop bom nodes bomTokens tokens errors hbom hblank hcontent
      hstop hend =>
    obtain rfl := herrors
    obtain ⟨blank, hblank, hnone⟩ := visible_of_spaces hblank
    obtain ⟨rear, hrear, hnone'⟩ := visible_of_spaces hend
    have hstart := (getText_isSome_iff.mp (Option.isSome_of_eq_some hblank)).2.2
    obtain ⟨hkinds, text, kept, htext, hkept⟩ := content_kept hlen hcontent hstart hstop
    refine ⟨bom, bomTokens, content, nodes, _, kept, hbom, rfl, hkinds,
      getText_append (getText_append hblank htext) hrear, ?_⟩
    simpa only [visible_append, hnone, hnone', List.nil_append, List.append_nil] using hkept
  | @next first lineStart content start stop next bom nodes rest bomTokens tokens restTokens errors
      restErrors hbom hblank hcontent hstop hlt hend _ ih =>
    obtain ⟨rfl, rfl⟩ := List.append_eq_nil_iff.mp herrors
    obtain ⟨blank, hblank, hnone⟩ := visible_of_spaces hblank
    obtain ⟨rear, hrear, hnone'⟩ := visible_of_spaces hend
    have hstart := (getText_isSome_iff.mp (Option.isSome_of_eq_some hblank)).2.2
    obtain ⟨hkinds, text, kept, htext, hkept⟩ := content_kept hlen hcontent hstart hstop
    obtain ⟨bom', _, content', rest', text', kept', hbom', rfl, hkinds', htext', hkept'⟩ := ih rfl
    cases hbom' with
    | absent =>
      refine ⟨bom, bomTokens, content, nodes ++ rest', _, kept ++ kept', hbom, ?_,
        List.forall_mem_append.mpr ⟨hkinds, hkinds'⟩,
        getText_append (getText_append (getText_append hblank htext) hrear) htext', ?_⟩
      · rw [List.nil_append, List.append_assoc]
      · simpa only [visible_append, hnone, hnone', List.nil_append, List.append_nil] using
          hkept.append hkept'

/-- The parse of a source as a document: its lines, and the nodes of its lines below the root,
unless there are too many nodes for their indices. -/
theorem parseDocument_lines (hparse : parseDocument .localisation source = some doc) :
    ∃ nodes, LinesAt source true 0 nodes doc.file.tokens doc.file.errors ∧
      (CstNode.sizes nodes < 2 ^ 32 → doc.root.children = nodes) ∧
      (CstNode.sizes nodes = 2 ^ 32 → doc.root.children = []) := by
  obtain ⟨parts, nodes, hparts, hparsed⟩ := Localisation.exists_parse source
  unfold parseDocument parse parseWithRevision at hparse
  dsimp only at hparse
  rw [hparts] at hparse
  obtain ⟨root, hroot, rfl⟩ := Option.map_eq_some_iff.mp hparse
  refine ⟨nodes, hparsed.lines, fun hfit => ?_, fun hwrap => ?_⟩
  · cases hroot.symm.trans (hparsed.fits hfit)
    rfl
  · obtain ⟨kind, range, hleaf⟩ := hparsed.wraps hwrap
    cases hroot.symm.trans hleaf
    rfl

/-- A document with too many nodes for their indices is skipped. -/
theorem formatDocument_wraps (width : Char → Option Nat)
    {edits : List TextEdit} (hparse : parseDocument .localisation source = some doc)
    (hlines : LinesAt source true 0 nodes doc.file.tokens doc.file.errors)
    (hnodes : nodes ≠ []) (hchildren : doc.root.children = []) :
    formatDocument width doc ≠ some ⟨edits, none⟩ := by
  intro h
  obtain ⟨hformat, hsource⟩ := parseDocument_file hparse
  have hcanonical : canonicalText width doc = [] := by
    unfold canonicalText
    rw [hformat]
    change formatLocalisation doc = []
    unfold formatLocalisation
    rw [hchildren]
    rfl
  obtain ⟨herrors, hcases⟩ := formatDocument_eq_some h
  have htokens : doc.file.tokens ≠ [] := fun h => hnodes (hlines.nodes_nil herrors h)
  rw [hcanonical, hformat, hsource] at hcases
  have hempty : parseDocument .localisation [] = some
      ⟨ParsedFile.fromParts .localisation []
        ⟨⟨[.localisationDocument], [⟨range 0 0, 0, 0⟩], [], 0⟩, [], []⟩ 0,
        .mk .localisationDocument (range 0 0) []⟩ := rfl
  rcases hcases with ⟨-, rfl⟩ | ⟨reparsed, hreparsed, -, -, -, hedits⟩
  · rw [hempty] at hparse
    cases hparse
    exact htokens rfl
  · rw [hempty] at hreparsed
    cases hreparsed
    unfold minimalEdits at hedits
    rw [if_pos] at hedits
    · cases hedits
    · exact fun hlen => htokens (List.length_eq_zero_iff.mp hlen)

/-- Formatting keeps the visible characters exactly where only whitespace stands behind the
values. -/
theorem visible_canonicalText (width : Char → Option Nat) {edits : List TextEdit}
    (hlen : byteLen source ≤ u32Max) (hparse : parseDocument .localisation source = some doc)
    (h : formatDocument width doc = some ⟨edits, none⟩) :
    visible (canonicalText width doc) = visible source ↔ ValuesEndEntries doc := by
  obtain ⟨nodes, hlines, hfits, hwraps⟩ := parseDocument_lines hparse
  obtain ⟨hformat, hsource⟩ := parseDocument_file hparse
  obtain ⟨herrors, -⟩ := formatDocument_eq_some h
  have hsize := hlines.size_le herrors
  have hchildren : doc.root.children = nodes := by
    rcases Nat.lt_or_ge (CstNode.sizes nodes) (2 ^ 32) with hlt | hge
    · exact hfits hlt
    · have hmax : u32Max = 2 ^ 32 - 1 := rfl
      have heq : CstNode.sizes nodes = 2 ^ 32 := by omega
      refine absurd h (formatDocument_wraps width hparse hlines ?_ (hwraps heq))
      rintro rfl
      exact absurd heq (by decide)
  rw [← hsource] at hlen hlines
  obtain ⟨bom, bomTokens, content, rest, text, kept, hbom, rfl, hkinds, htext, hkept⟩ :=
    lines_kept hlen hlines herrors
  have hprinted : canonicalText width doc = formatLocalisation doc := by
    unfold canonicalText
    rw [hformat]
  have hrest : rest.any (fun node => node.kind == .bom) = false := by
    rw [List.any_eq_false]
    exact fun node hnode => by simpa using hkinds node hnode
  unfold ValuesEndEntries
  rw [hprinted, formatLocalisation, hchildren, ← hsource, visible_joinLines]
  cases hbom with
  | absent =>
    rw [List.nil_append, hrest, if_neg Bool.false_ne_true, hkept.printed]
    rw [getText_full] at htext
    rw [Option.some.inj htext]
    exact hkept.eq_iff
  | present hmark =>
    have hbomNode : ∀ node ∈ [leaf .bom 0 (0 + 3)], localisationLines doc node = [] ∧
        visible (behindValue doc node) = [] := by
      rintro node hnode
      rw [List.mem_singleton.mp hnode]
      exact ⟨rfl, rfl⟩
    have hall := getText_append hmark htext
    rw [getText_full] at hall
    have hany : ([leaf .bom 0 (0 + 3)] ++ rest).any (fun node => node.kind == .bom) = true := rfl
    have hlinesRest : ([leaf .bom 0 (0 + 3)] ++ rest).flatMap (localisationLines doc) =
        rest.flatMap (localisationLines doc) := rfl
    rw [hany, if_pos rfl, hlinesRest, visible_insertBom, hkept.printed, Option.some.inj hall,
      visible_append, List.forall_mem_append, ← hkept.eq_iff]
    have hmarkVisible : visible [Char.ofNat 0xFEFF] = [bomChar] := by decide
    rw [hmarkVisible]
    constructor
    · intro heq
      exact ⟨fun node hnode => (hbomNode node hnode).2, (List.cons.inj heq).2⟩
    · rintro ⟨-, rfl⟩
      rfl

/-- Formatting a localisation file keeps every visible character if and only if only whitespace
stands behind the values of its entries. -/
theorem visible_iff (width : Char → Option Nat) (source : Str) (edits : List TextEdit)
    (hlen : byteLen source ≤ u32Max)
    (h : formatSource width .localisation source = some ⟨edits, none⟩) :
    visible (applyFormatEdits source edits) = visible source ↔
      ∃ doc, parseDocument .localisation source = some doc ∧ ValuesEndEntries doc := by
  obtain ⟨-, -, ⟨doc, hparse, happly⟩, -⟩ := formatSource_realises h
  unfold formatSource at h
  rw [hparse] at h
  rw [happly, visible_canonicalText width hlen hparse h]
  constructor
  · exact fun hends => ⟨doc, hparse, hends⟩
  · rintro ⟨doc', hparse', hends⟩
    obtain rfl := Option.some.inj (hparse.symm.trans hparse')
    exact hends

/-- An entry with a comment right behind its value. -/
theorem visible_iff_comment :
    visible (applyFormatEdits "a: \"x\"#c".toList
        [⟨⟨6, 6, by decide⟩, [' ']⟩, ⟨⟨8, 8, by decide⟩, ['\n']⟩]) = visible "a: \"x\"#c".toList ↔
      ∃ doc, parseDocument .localisation "a: \"x\"#c".toList = some doc ∧ ValuesEndEntries doc :=
  visible_iff (fun _ => some 1) _ _ (by decide +kernel) (by decide +kernel)

/-- A word between a value and its comment is dropped. -/
theorem not_visible :
    formatSource (fun _ => some 1) .localisation "a: \"x\" y # c".toList =
        some ⟨[⟨⟨6, 9, by decide⟩, [' ']⟩, ⟨⟨12, 12, by decide⟩, ['\n']⟩], none⟩ ∧
      visible (applyFormatEdits "a: \"x\" y # c".toList
        [⟨⟨6, 9, by decide⟩, [' ']⟩, ⟨⟨12, 12, by decide⟩, ['\n']⟩]) ≠
        visible "a: \"x\" y # c".toList := by
  decide +kernel

end ParadoxCode.Format
