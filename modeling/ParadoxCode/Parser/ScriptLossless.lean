import ParadoxCode.Parser.ScriptItems

/-!
# Reading a script loses nothing

The texts of the items that are read are the text that was read, an item has few nodes for its
length, and every text is read.
-/

namespace ParadoxCode.Script

open ParadoxCode.Parser

/-! ## No character is lost -/

theorem splitQuoted_eq (cs : Str) :
    cs = (splitQuoted cs).1 ++ (closing '"' (splitQuoted cs).2.1 ++ (splitQuoted cs).2.2) := by
  fun_induction splitQuoted cs with
  | case1 => rfl
  | case2 => rfl
  | case3 => rfl
  | case4 d rest body closed rest' heq _ ih => rw [heq] at ih; exact congrArg (_ :: d :: ·) ih
  | case5 c rest _ _ body closed rest' heq ih => rw [heq] at ih; exact congrArg (c :: ·) ih

theorem readQuoted_eq {cs rest : Str} {scalar : Scalar} (h : readQuoted cs = (scalar, rest)) :
    '"' :: cs = scalar.text ++ rest := by
  have hsplit := splitQuoted_eq cs
  cases h
  simp only [Scalar.text, List.cons_append, List.append_assoc]
  rw [← hsplit]

theorem splitOperator_eq {cs operator rest : Str} (h : splitOperator cs = (operator, rest)) :
    cs = operator ++ rest := by
  unfold splitOperator at h
  split at h <;> cases h <;> rfl

theorem splitClosing_eq {delimiter : Char} {cs rest : Str} {closed : Bool}
    (h : splitClosing delimiter cs = (closed, rest)) : cs = closing delimiter closed ++ rest := by
  unfold splitClosing at h
  split_ifs at h with hhead
  · cases h
    cases cs with
    | nil => cases hhead
    | cons c cs =>
      cases hhead
      rfl
  · cases h
    rfl

theorem readCondition_eq {cs rest : Str} {condition : Condition}
    (h : readCondition cs = (condition, rest)) : cs = condition.text ++ rest := by
  rcases hnegated : splitClosing '!' cs with ⟨negated, cs'⟩
  rcases hclosed : splitClosing ']' ((cs'.dropWhile isBare).dropWhile isSpace) with ⟨closed, rest'⟩
  unfold readCondition at h
  rw [hnegated] at h
  dsimp only at h
  rw [hclosed] at h
  cases h
  rw [splitClosing_eq hnegated, Condition.text, Condition.head]
  dsimp only
  rw [List.append_assoc, List.append_assoc, List.append_assoc, ← splitClosing_eq hclosed,
    List.takeWhile_append_dropWhile, List.takeWhile_append_dropWhile]

/-- A reader of containers that loses nothing. -/
def Keeping (container : Option Char → Str → Option (List Item × Str)) : Prop :=
  ∀ terminator cs items rest, container terminator cs = some (items, rest) →
    cs = Item.texts items ++ rest

section

variable {container : Option Char → Str → Option (List Item × Str)} {cs rest : Str} {item : Item}

theorem readBlock_eq (hc : Keeping container) (h : readBlock container cs = some (item, rest)) :
    '\x7B' :: cs = item.text ++ rest := by
  obtain ⟨⟨items, rest'⟩, hitems, h⟩ := Option.map_eq_some_iff.mp h
  rcases hclosing : splitClosing '\x7D' rest' with ⟨closed, rest''⟩
  dsimp only at h
  rw [hclosing] at h
  cases h
  rw [hc _ _ _ _ hitems, splitClosing_eq hclosing]
  simp [Item.text]

theorem readParameter_eq (hc : Keeping container)
    (h : readParameter container cs = some (item, rest)) :
    '[' :: '[' :: cs = item.text ++ rest := by
  rcases hcondition : readCondition cs with ⟨condition, cs'⟩
  unfold readParameter at h
  rw [hcondition] at h
  obtain ⟨⟨items, rest'⟩, hitems, h⟩ := Option.map_eq_some_iff.mp h
  rcases hclosing : splitClosing ']' rest' with ⟨closed, rest''⟩
  dsimp only at h
  rw [hclosing] at h
  cases h
  rw [readCondition_eq hcondition, hc _ _ _ _ hitems, splitClosing_eq hclosing]
  simp [Item.text]

theorem readHeader_eq (hc : Keeping container) {scalar : Scalar}
    (h : readHeader container scalar cs = some (item, rest)) :
    scalar.text ++ cs = item.text ++ rest := by
  have hsplit := (List.takeWhile_append_dropWhile (p := isSpace) (l := cs)).symm
  unfold readHeader at h
  split at h
  · rename_i rest' hrest
    obtain ⟨⟨block, rest''⟩, hblock, h⟩ := Option.map_eq_some_iff.mp h
    cases h
    rw [Item.text, List.append_assoc, ← readBlock_eq hc hblock, ← hrest,
      List.append_assoc, ← hsplit]
  · cases h
    rfl

theorem readValue_eq (hc : Keeping container) (h : readValue container cs = some (item, rest)) :
    cs = item.text ++ rest := by
  unfold readValue at h
  split at h
  · rename_i cs
    rcases hquoted : readQuoted cs with ⟨scalar, rest'⟩
    rw [hquoted] at h
    cases h
    exact readQuoted_eq hquoted
  · exact readBlock_eq hc h
  · exact readParameter_eq hc h
  · split_ifs at h
    · have := readHeader_eq hc h
      rwa [Scalar.text, List.takeWhile_append_dropWhile] at this
    · cases h
      rfl
  · cases h

theorem readProperty_eq (hc : Keeping container) {key : Scalar} {gap : Str}
    (h : readProperty container key gap cs = some (item, rest)) :
    key.text ++ gap ++ cs = item.text ++ rest := by
  rcases hoperator : splitOperator cs with ⟨operator, cs'⟩
  unfold readProperty at h
  rw [hoperator] at h
  dsimp only at h
  have hsplit := (List.takeWhile_append_dropWhile (p := isSpace) (l := cs')).symm
  have hmissing : some (Item.missing key gap operator (cs'.takeWhile isSpace),
    cs'.dropWhile isSpace) =
      some (item, rest) → key.text ++ gap ++ cs = item.text ++ rest := by
    intro h
    cases h
    rw [splitOperator_eq hoperator, Item.text, List.append_assoc _ (cs'.takeWhile isSpace),
      ← hsplit, List.append_assoc (key.text ++ gap)]
  split at h
  · exact hmissing h
  · exact hmissing h
  · exact hmissing h
  · exact hmissing h
  · obtain ⟨⟨value, rest'⟩, hvalue, h⟩ := Option.map_eq_some_iff.mp h
    cases h
    rw [splitOperator_eq hoperator, Item.text, List.append_assoc _ value.text,
      ← readValue_eq hc hvalue, List.append_assoc _ (cs'.takeWhile isSpace), ← hsplit,
      List.append_assoc (key.text ++ gap)]

theorem readScalar_eq (hc : Keeping container) {scalar : Scalar}
    (h : readScalar container scalar cs = some (item, rest)) :
    scalar.text ++ cs = item.text ++ rest := by
  have hsplit := (List.takeWhile_append_dropWhile (p := isSpace) (l := cs)).symm
  unfold readScalar at h
  split at h
  · rename_i c cs' hcs
    split_ifs at h
    · rw [← readProperty_eq hc h, ← hcs, List.append_assoc, ← hsplit]
    · exact readHeader_eq hc h
  · cases h
    rfl

theorem readItem_eq (hc : Keeping container) (h : readItem container cs = some (item, rest)) :
    cs = item.text ++ rest := by
  unfold readItem at h
  split at h
  · cases h
    exact congrArg ('#' :: ·) List.takeWhile_append_dropWhile.symm
  · cases h
    rfl
  · cases h
    rfl
  · exact readBlock_eq hc h
  · rename_i cs
    rcases hquoted : readQuoted cs with ⟨scalar, rest'⟩
    rw [hquoted] at h
    rw [readQuoted_eq hquoted]
    exact readScalar_eq hc h
  · exact readParameter_eq hc h
  · split_ifs at h
    · have := readScalar_eq hc h
      rwa [Scalar.text, List.takeWhile_append_dropWhile] at this
    · cases h
      rfl
  · cases h

end

theorem Item.texts_append (items items' : List Item) :
    Item.texts (items ++ items') = Item.texts items ++ Item.texts items' := by
  induction items with
  | nil => rfl
  | cons item items ih => rw [List.cons_append, Item.texts, Item.texts, ih, List.append_assoc]

theorem Item.texts_space (gap : Str) : Item.texts (gap.map Item.space) = gap := by
  induction gap with
  | nil => rfl
  | cons c gap ih =>
    rw [List.map_cons, Item.texts, ih]
    rfl

theorem readItems_keeping (fuel : Nat) : Keeping (readItems fuel) := by
  induction fuel with
  | zero => rintro _ _ _ _ ⟨⟩
  | succ fuel ih =>
    intro terminator cs items rest h
    have hsplit := (List.takeWhile_append_dropWhile (p := isSpace) (l := cs)).symm
    unfold readItems at h
    dsimp only at h
    split_ifs at h
    · cases h
      rw [Item.texts_space, ← hsplit]
    · obtain ⟨⟨item, rest'⟩, hitem, h⟩ := Option.bind_eq_some_iff.mp h
      obtain ⟨⟨items', rest''⟩, hitems, h⟩ := Option.map_eq_some_iff.mp h
      cases h
      rw [Item.texts_append, Item.texts_space, Item.texts, List.append_assoc, List.append_assoc,
        ← ih _ _ _ _ hitems, ← readItem_eq ih hitem, ← hsplit]

/-! ## An item is one small node -/

/-- An item with one node, and with at most three nodes for a byte. -/
def Item.Small (item : Item) : Prop :=
  ∀ start, ∃ node, item.nodes start = [node] ∧ node.size ≤ 3 * byteLen item.text

/-- A reader of containers whose items have few nodes. -/
def Sparing (container : Option Char → Str → Option (List Item × Str)) : Prop :=
  ∀ terminator cs items rest, container terminator cs = some (items, rest) →
    ∀ start, CstNode.sizes (Item.nodesAll start items) ≤ 3 * byteLen (Item.texts items)

theorem byteLen_pos {text : Str} (h : text ≠ []) : 0 < byteLen text :=
  Nat.pos_of_ne_zero fun hzero => h (byteLen_eq_zero_iff.mp hzero)

theorem size_spanning (kind : CstKind) (start : Nat) (text : Str) (children : List CstNode) :
    (spanning kind start text children).size = CstNode.sizes children + 1 := by
  unfold spanning CstNode.size
  rfl

theorem sizes_singleton (node : CstNode) : CstNode.sizes [node] = node.size := by
  simp [CstNode.sizes]

theorem size_propertyNode (start : Nat) (key : Scalar) (gap operator gap' value : Str)
    (children : List CstNode) :
    (propertyNode start key gap operator gap' value children).size =
      CstNode.sizes children + 5 := by
  simp only [propertyNode, operatorNode, Scalar.node, size_spanning, CstNode.sizes]
  omega

section

variable {container : Option Char → Str → Option (List Item × Str)} {cs rest : Str} {item : Item}

theorem readBlock_small (hc : Sparing container)
    (h : readBlock container cs = some (item, rest)) : item.Small := by
  obtain ⟨⟨items, rest'⟩, hitems, h⟩ := Option.map_eq_some_iff.mp h
  cases h
  intro start
  refine ⟨_, by rw [Item.nodes], ?_⟩
  have := hc _ _ _ _ hitems (start + 1)
  rw [size_spanning, Item.text, byteLen_append, byteLen_cons]
  have := Char.utf8Size_pos '\x7B'
  omega

theorem readParameter_small (hc : Sparing container)
    (h : readParameter container cs = some (item, rest)) : item.Small := by
  rcases hcondition : readCondition cs with ⟨condition, cs'⟩
  unfold readParameter at h
  rw [hcondition] at h
  obtain ⟨⟨items, rest'⟩, hitems, h⟩ := Option.map_eq_some_iff.mp h
  cases h
  intro start
  refine ⟨_, by rw [Item.nodes], ?_⟩
  have := hc _ _ _ _ hitems (start + 2 + byteLen condition.text)
  have hname : (condition.nameNode (start + 2)).size = 1 := by
    unfold Condition.nameNode
    split_ifs <;> rw [size_spanning] <;> rfl
  rw [size_spanning, Item.text, CstNode.sizes, Condition.node, size_spanning,
    sizes_singleton, hname]
  simp only [byteLen_append, byteLen_cons]
  have := Char.utf8Size_pos '['
  omega

theorem readHeader_small (hc : Sparing container) {scalar : Scalar} (hs : scalar.text ≠ [])
    (h : readHeader container scalar cs = some (item, rest)) : item.Small := by
  have hpos := byteLen_pos hs
  unfold readHeader at h
  split at h
  · obtain ⟨⟨block, rest''⟩, hblock, h⟩ := Option.map_eq_some_iff.mp h
    cases h
    intro start
    obtain ⟨node, hnode, hsize⟩ :=
      readBlock_small hc hblock (start + byteLen (scalar.text ++ cs.takeWhile isSpace))
    refine ⟨_, by rw [Item.nodes], ?_⟩
    rw [size_spanning, hnode, CstNode.sizes, sizes_singleton, Scalar.node, size_spanning, Item.text,
      byteLen_append, byteLen_append, CstNode.sizes]
    omega
  · cases h
    intro start
    refine ⟨_, by rw [Item.nodes], ?_⟩
    rw [Scalar.node, size_spanning, Item.text, CstNode.sizes]
    omega

theorem bare_ne_nil {c : Char} (h : isBare c = true) (cs : Str) :
    (Scalar.bare ((c :: cs).takeWhile isBare)).text ≠ [] := by
  rw [Scalar.text, List.takeWhile_cons_of_pos h]
  exact List.cons_ne_nil _ _

theorem quoted_ne_nil (cs : Str) : (readQuoted cs).1.text ≠ [] := List.cons_ne_nil _ _

theorem readValue_small (hc : Sparing container)
    (h : readValue container cs = some (item, rest)) : item.Small := by
  unfold readValue at h
  split at h
  · rename_i cs
    have hpos := byteLen_pos (quoted_ne_nil cs)
    rcases hquoted : readQuoted cs with ⟨scalar, rest'⟩
    rw [hquoted] at h hpos
    dsimp only at hpos
    cases h
    intro start
    refine ⟨_, by rw [Item.nodes], ?_⟩
    rw [Scalar.node, size_spanning, Item.text, CstNode.sizes]
    omega
  · exact readBlock_small hc h
  · exact readParameter_small hc h
  · split_ifs at h with hbare
    · exact readHeader_small hc (bare_ne_nil hbare _) h
    · rename_i c _ _ _ _
      cases h
      intro start
      refine ⟨_, by rw [Item.nodes], ?_⟩
      rw [size_spanning, Item.text, byteLen_cons, CstNode.sizes]
      have := c.utf8Size_pos
      omega
  · cases h

theorem readProperty_small (hc : Sparing container) {key : Scalar} (hkey : key.text ≠ [])
    {gap : Str} {c : Char} (h : readProperty container key gap (c :: cs) = some (item, rest)) :
    item.Small := by
  rcases hoperator : splitOperator (c :: cs) with ⟨operator, cs'⟩
  have hpos := byteLen_pos hkey
  have hpos' := byteLen_pos (splitOperator_ne hoperator)
  unfold readProperty at h
  rw [hoperator] at h
  dsimp only at h
  have hmissing : some (Item.missing key gap operator (cs'.takeWhile isSpace),
    cs'.dropWhile isSpace) =
      some (item, rest) → item.Small := by
    intro h
    cases h
    intro start
    refine ⟨_, by rw [Item.nodes], ?_⟩
    rw [size_propertyNode, sizes_singleton, size_spanning, Item.text, CstNode.sizes]
    simp only [byteLen_append]
    omega
  split at h
  · exact hmissing h
  · exact hmissing h
  · exact hmissing h
  · exact hmissing h
  · obtain ⟨⟨value, rest'⟩, hvalue, h⟩ := Option.map_eq_some_iff.mp h
    cases h
    intro start
    obtain ⟨node, hnode, hsize⟩ := readValue_small hc hvalue
      (start + byteLen (key.text ++ gap ++ operator ++ cs'.takeWhile isSpace))
    refine ⟨_, by rw [Item.nodes], ?_⟩
    rw [size_propertyNode, hnode, sizes_singleton, Item.text]
    simp only [byteLen_append]
    omega

theorem readScalar_small (hc : Sparing container) {scalar : Scalar} (hs : scalar.text ≠ [])
    (h : readScalar container scalar cs = some (item, rest)) : item.Small := by
  unfold readScalar at h
  split at h
  · split_ifs at h
    · exact readProperty_small hc hs h
    · exact readHeader_small hc hs h
  · cases h
    intro start
    refine ⟨_, by rw [Item.nodes], ?_⟩
    have := byteLen_pos hs
    rw [Scalar.node, size_spanning, Item.text, CstNode.sizes]
    omega

theorem readItem_small (hc : Sparing container) (h : readItem container cs = some (item, rest)) :
    item.Small := by
  have hleaf (kind : CstKind) (start : Nat) (c : Char) (text : Str) :
      (spanning kind start (c :: text) []).size ≤ 3 * byteLen (c :: text) := by
    have := byteLen_pos (List.cons_ne_nil c text)
    rw [size_spanning, CstNode.sizes]
    omega
  unfold readItem at h
  split at h
  · cases h
    exact fun start => ⟨_, by rw [Item.nodes], by rw [Item.text]; exact hleaf _ _ _ _⟩
  · cases h
    exact fun start => ⟨_, by rw [Item.nodes], by rw [Item.text]; exact hleaf _ _ _ _⟩
  · cases h
    exact fun start => ⟨_, by rw [Item.nodes], by rw [Item.text]; exact hleaf _ _ _ _⟩
  · exact readBlock_small hc h
  · exact readScalar_small hc (quoted_ne_nil _) h
  · exact readParameter_small hc h
  · split_ifs at h with hbare
    · exact readScalar_small hc (bare_ne_nil hbare _) h
    · cases h
      exact fun start => ⟨_, by rw [Item.nodes], by rw [Item.text]; exact hleaf _ _ _ _⟩
  · cases h

end

theorem Item.nodesAll_append (start : Nat) (items items' : List Item) :
    Item.nodesAll start (items ++ items') =
      Item.nodesAll start items ++ Item.nodesAll (start + byteLen (Item.texts items)) items' := by
  induction items generalizing start with
  | nil => rfl
  | cons item items ih =>
    rw [List.cons_append, Item.nodesAll, Item.nodesAll, ih, Item.texts, byteLen_append,
      List.append_assoc, Nat.add_assoc]

theorem Item.nodesAll_space (start : Nat) (gap : Str) :
    Item.nodesAll start (gap.map Item.space) = [] := by
  induction gap generalizing start with
  | nil => rfl
  | cons c gap ih =>
    rw [List.map_cons, Item.nodesAll, ih]
    rfl

theorem Item.tokensAll_append (start : Nat) (items items' : List Item) :
    Item.tokensAll start (items ++ items') =
      Item.tokensAll start items ++ Item.tokensAll (start + byteLen (Item.texts items)) items' := by
  induction items generalizing start with
  | nil => rfl
  | cons item items ih =>
    rw [List.cons_append, Item.tokensAll, Item.tokensAll, ih, Item.texts, byteLen_append,
      List.append_assoc, Nat.add_assoc]

theorem Item.tokensAll_space (start : Nat) (gap : Str) :
    Item.tokensAll start (gap.map Item.space) = [] := by
  induction gap generalizing start with
  | nil => rfl
  | cons c gap ih =>
    rw [List.map_cons, Item.tokensAll, ih]
    rfl

theorem Item.errorsAll_append (stop : Nat) (place : Place) (start : Nat)
    (items items' : List Item) :
    Item.errorsAll stop place start (items ++ items') = Item.errorsAll stop place start items ++
      Item.errorsAll stop place (start + byteLen (Item.texts items)) items' := by
  induction items generalizing start with
  | nil => rfl
  | cons item items ih =>
    rw [List.cons_append, Item.errorsAll, Item.errorsAll, ih, Item.texts, byteLen_append,
      List.append_assoc, Nat.add_assoc]

theorem Item.errorsAll_space (stop : Nat) (place : Place) (start : Nat) (gap : Str) :
    Item.errorsAll stop place start (gap.map Item.space) = [] := by
  induction gap generalizing start with
  | nil => rfl
  | cons c gap ih =>
    rw [List.map_cons, Item.errorsAll, ih]
    rfl

theorem readItems_sparing (fuel : Nat) : Sparing (readItems fuel) := by
  induction fuel with
  | zero => rintro _ _ _ _ ⟨⟩
  | succ fuel ih =>
    intro terminator cs items rest h start
    unfold readItems at h
    dsimp only at h
    split_ifs at h
    · cases h
      rw [Item.nodesAll_space]
      exact Nat.zero_le _
    · obtain ⟨⟨item, rest'⟩, hitem, h⟩ := Option.bind_eq_some_iff.mp h
      obtain ⟨⟨items', rest''⟩, hitems, h⟩ := Option.map_eq_some_iff.mp h
      cases h
      rw [Item.nodesAll_append, Item.nodesAll_space, Item.texts_append, List.nil_append,
        Item.nodesAll, Item.texts, byteLen_append, byteLen_append]
      dsimp only
      generalize start + byteLen (Item.texts _) = start'
      obtain ⟨node, hnode, hsize⟩ := readItem_small ih hitem start'
      have := ih _ _ _ _ hitems (start' + byteLen item.text)
      rw [hnode, CstNode.sizes_append, sizes_singleton]
      omega

/-! ## Every text is read -/

/-- A reader of containers that reads every text of fewer than `bound` characters. -/
def Reaches (bound : Nat) (container : Option Char → Str → Option (List Item × Str)) : Prop :=
  ∀ terminator cs, cs.length < bound → ∃ items rest, container terminator cs = some (items, rest)

section

variable {container : Option Char → Str → Option (List Item × Str)} {bound : Nat} {cs : Str}

theorem exists_readBlock (hc : Reaches bound container) (h : cs.length < bound) :
    ∃ item rest, readBlock container cs = some (item, rest) := by
  obtain ⟨items, rest, hitems⟩ := hc (some '\x7D') cs h
  unfold readBlock
  rw [hitems]
  exact ⟨_, _, rfl⟩

theorem exists_readParameter (hc : Reaches bound container) (h : cs.length < bound) :
    ∃ item rest, readParameter container cs = some (item, rest) := by
  rcases hcondition : readCondition cs with ⟨condition, cs'⟩
  have hlen := congrArg List.length (readCondition_eq hcondition)
  rw [List.length_append] at hlen
  obtain ⟨items, rest, hitems⟩ := hc (some ']') cs' (by omega)
  unfold readParameter
  rw [hcondition]
  dsimp only
  rw [hitems]
  exact ⟨_, _, rfl⟩

theorem exists_readHeader (hc : Reaches bound container) (h : cs.length ≤ bound) (scalar : Scalar) :
    ∃ item rest, readHeader container scalar cs = some (item, rest) := by
  have hlen := (List.dropWhile_suffix isSpace (l := cs)).length_le
  unfold readHeader
  split
  · rename_i rest hrest
    rw [hrest, List.length_cons] at hlen
    obtain ⟨item, rest', hblock⟩ := exists_readBlock hc (show rest.length < bound by omega)
    rw [hblock]
    exact ⟨_, _, rfl⟩
  · exact ⟨_, _, rfl⟩

theorem exists_readValue (hc : Reaches bound container) (hcs : cs ≠ []) (h : cs.length ≤ bound) :
    ∃ item rest, readValue container cs = some (item, rest) := by
  unfold readValue
  split
  · exact ⟨_, _, rfl⟩
  · rw [List.length_cons] at h
    exact exists_readBlock hc (by omega)
  · rw [List.length_cons, List.length_cons] at h
    exact exists_readParameter hc (by omega)
  · rename_i c rest _ _ _
    have hlen := (List.dropWhile_suffix isBare (l := c :: rest)).length_le
    split_ifs
    · exact exists_readHeader hc (by omega) _
    · exact ⟨_, _, rfl⟩
  · exact absurd rfl hcs

theorem exists_readProperty (hc : Reaches bound container) (h : cs.length ≤ bound) (key : Scalar)
    (gap : Str) : ∃ item rest, readProperty container key gap cs = some (item, rest) := by
  rcases hoperator : splitOperator cs with ⟨operator, cs'⟩
  have hlen := congrArg List.length (splitOperator_eq hoperator)
  have hlen' := (List.dropWhile_suffix isSpace (l := cs')).length_le
  rw [List.length_append] at hlen
  unfold readProperty
  rw [hoperator]
  dsimp only
  split
  · exact ⟨_, _, rfl⟩
  · exact ⟨_, _, rfl⟩
  · exact ⟨_, _, rfl⟩
  · exact ⟨_, _, rfl⟩
  · rename_i hne _ _ _
    obtain ⟨item, rest, hvalue⟩ := exists_readValue hc hne (by omega)
    rw [hvalue]
    exact ⟨_, _, rfl⟩

theorem exists_readScalar (hc : Reaches bound container) (h : cs.length ≤ bound) (scalar : Scalar) :
    ∃ item rest, readScalar container scalar cs = some (item, rest) := by
  have hlen := (List.dropWhile_suffix isSpace (l := cs)).length_le
  unfold readScalar
  split
  · rename_i c rest hrest
    rw [hrest] at hlen
    split_ifs
    · exact exists_readProperty hc (by omega) _ _
    · exact exists_readHeader hc h _
  · exact ⟨_, _, rfl⟩

theorem exists_readItem (hc : Reaches bound container) (hcs : cs ≠ []) (h : cs.length ≤ bound) :
    ∃ item rest, readItem container cs = some (item, rest) := by
  unfold readItem
  split
  · exact ⟨_, _, rfl⟩
  · exact ⟨_, _, rfl⟩
  · exact ⟨_, _, rfl⟩
  · rw [List.length_cons] at h
    exact exists_readBlock hc (by omega)
  · rename_i cs
    rcases hquoted : readQuoted cs with ⟨scalar, rest⟩
    have hlen := congrArg List.length (readQuoted_eq hquoted)
    rw [List.length_append] at hlen
    exact exists_readScalar hc (by omega) _
  · rw [List.length_cons, List.length_cons] at h
    exact exists_readParameter hc (by omega)
  · rename_i c rest _ _ _ _ _ _
    have hlen := (List.dropWhile_suffix isBare (l := c :: rest)).length_le
    split_ifs
    · exact exists_readScalar hc (by omega) _
    · exact ⟨_, _, rfl⟩
  · exact absurd rfl hcs

end

/-- Every text is read. -/
theorem exists_readItems (fuel : Nat) : Reaches fuel (readItems fuel) := by
  induction fuel with
  | zero =>
    intro terminator cs h
    exact absurd h (Nat.not_lt_zero _)
  | succ fuel ih =>
    intro terminator cs h
    have hlen := (List.dropWhile_suffix isSpace (l := cs)).length_le
    unfold readItems
    dsimp only
    split_ifs with hstop
    · exact ⟨_, _, rfl⟩
    · obtain ⟨item, rest, hitem⟩ := exists_readItem ih
        (show cs.dropWhile isSpace ≠ [] from fun hnil => hstop (Or.inl hnil)) (by omega)
      have hshorter : rest.length < (cs.dropWhile isSpace).length := by
        have heq := congrArg List.length (readItem_eq (readItems_keeping fuel) hitem)
        obtain ⟨node, -, hsize⟩ := readItem_small (readItems_sparing fuel) hitem 0
        have hne : item.text ≠ [] := by
          intro hnil
          obtain ⟨kind, range, children⟩ := node
          rw [hnil, byteLen_nil, CstNode.size] at hsize
          omega
        have := List.length_pos_iff.mpr hne
        rw [List.length_append] at heq
        omega
      obtain ⟨items, rest', hitems⟩ := ih terminator rest (by omega)
      rw [hitem]
      dsimp only [Option.bind_some]
      rw [hitems]
      exact ⟨_, _, rfl⟩

/-- The items of a container end at its terminator or at the end of the text. -/
theorem readItems_stop {fuel : Nat} {terminator : Option Char} {cs rest : Str} {items : List Item}
    (h : readItems fuel terminator cs = some (items, rest)) :
    rest = [] ∨ terminator ≠ none ∧ rest.head? = terminator := by
  induction fuel generalizing cs items with
  | zero => cases h
  | succ fuel ih =>
    unfold readItems at h
    dsimp only at h
    split_ifs at h with hstop
    · cases h
      exact hstop
    · obtain ⟨⟨item, rest'⟩, -, h⟩ := Option.bind_eq_some_iff.mp h
      obtain ⟨⟨items', rest''⟩, hitems, h⟩ := Option.map_eq_some_iff.mp h
      cases h
      exact ih hitems

end ParadoxCode.Script
