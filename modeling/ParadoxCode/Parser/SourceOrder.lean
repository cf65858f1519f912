import ParadoxCode.Lib.Spans
import ParadoxCode.Parser.ScriptParse

/-!
# Source order

A node lies inside its parent and behind the sibling before it, and a token behind the token before
it. What the items of a text give is in this order wherever the text starts, so the parse of every
source below 1 GiB is. The conditions of its parameter blocks follow one another, too.
-/

namespace ParadoxCode.Parser

open Spans (Follow)

mutual

/-- The children of the node, and theirs, follow one another inside it. -/
def CstNode.InOrder : CstNode → Prop
  | .mk _ range children => CstNode.AllInOrder children range.start range.stop

/-- The nodes follow one another between two offsets. -/
def CstNode.AllInOrder : List CstNode → Nat → Nat → Prop
  | [], start, stop => start ≤ stop
  | node :: nodes, start, stop =>
    start ≤ node.range.start ∧ node.InOrder ∧ CstNode.AllInOrder nodes node.range.stop stop

end

theorem CstNode.inOrder_mk {kind : CstKind} {range : TextRange} {children : List CstNode} :
    (CstNode.mk kind range children).InOrder ↔ CstNode.AllInOrder children range.start
      range.stop := by
  rw [CstNode.InOrder]

theorem CstNode.AllInOrder.le {nodes : List CstNode} {start stop : Nat}
    (h : CstNode.AllInOrder nodes start stop) : start ≤ stop := by
  induction nodes generalizing start with
  | nil => rwa [CstNode.AllInOrder] at h
  | cons node nodes ih =>
    rw [CstNode.AllInOrder] at h
    exact h.1.trans (node.range.le.trans (ih h.2.2))

theorem CstNode.AllInOrder.widen {nodes : List CstNode} {start stop start' stop' : Nat}
    (h : CstNode.AllInOrder nodes start stop) (hstart : start' ≤ start) (hstop : stop ≤ stop') :
    CstNode.AllInOrder nodes start' stop' := by
  induction nodes generalizing start start' with
  | nil =>
    rw [CstNode.AllInOrder] at h ⊢
    omega
  | cons node nodes ih =>
    rw [CstNode.AllInOrder] at h ⊢
    exact ⟨hstart.trans h.1, h.2.1, ih h.2.2 le_rfl⟩

theorem CstNode.AllInOrder.append {nodes nodes' : List CstNode} {start middle stop : Nat}
    (h : CstNode.AllInOrder nodes start middle) (h' : CstNode.AllInOrder nodes' middle stop) :
    CstNode.AllInOrder (nodes ++ nodes') start stop := by
  induction nodes generalizing start with
  | nil =>
    rw [CstNode.AllInOrder] at h
    exact h'.widen h le_rfl
  | cons node nodes ih =>
    rw [CstNode.AllInOrder] at h
    rw [List.cons_append, CstNode.AllInOrder]
    exact ⟨h.1, h.2.1, ih h.2.2⟩

mutual

/-- The parameter blocks of a tree, each in front of those inside it. -/
def CstNode.parameterBlocks : CstNode → List CstNode
  | .mk kind range children =>
    (if kind = .parameterBlock then [.mk kind range children] else []) ++
      CstNode.allParameterBlocks children

def CstNode.allParameterBlocks : List CstNode → List CstNode
  | [] => []
  | node :: nodes => node.parameterBlocks ++ CstNode.allParameterBlocks nodes

end

theorem CstNode.allParameterBlocks_append (nodes nodes' : List CstNode) :
    CstNode.allParameterBlocks (nodes ++ nodes') =
      CstNode.allParameterBlocks nodes ++ CstNode.allParameterBlocks nodes' := by
  induction nodes with
  | nil =>
    rw [CstNode.allParameterBlocks]
    rfl
  | cons node nodes ih =>
    rw [List.cons_append, CstNode.allParameterBlocks, CstNode.allParameterBlocks, ih,
      List.append_assoc]

/-- The range of the condition of a parameter block. -/
def CstNode.conditionRange (block : CstNode) : TextRange :=
  ((childOfKind block .parameterCondition).getD block).range

/-- Tokens, nodes and the conditions of the parameter blocks in them each follow one another. -/
structure InPlace (tokens : List SyntaxToken) (nodes : List CstNode) (lo hi : Nat) : Prop where
  follow : Follow (·.range.start) (·.range.stop) tokens lo hi
  inOrder : CstNode.AllInOrder nodes lo hi
  conditions : Follow (·.conditionRange.start) (·.conditionRange.stop)
    (CstNode.allParameterBlocks nodes) lo hi

section

variable {tokens tokens' : List SyntaxToken} {nodes nodes' : List CstNode} {lo middle hi : Nat}

theorem inPlace_nil (h : lo ≤ hi) : InPlace [] [] lo hi := by
  refine ⟨h, ?_, ?_⟩
  · rwa [CstNode.AllInOrder]
  · rwa [CstNode.allParameterBlocks]

theorem InPlace.widen {lo' hi' : Nat} (h : InPlace tokens nodes lo hi) (hlo : lo' ≤ lo)
    (hhi : hi ≤ hi') : InPlace tokens nodes lo' hi' :=
  ⟨h.follow.widen hlo hhi, h.inOrder.widen hlo hhi, h.conditions.widen hlo hhi⟩

theorem InPlace.append (h : InPlace tokens nodes lo middle)
    (h' : InPlace tokens' nodes' middle hi) :
    InPlace (tokens ++ tokens') (nodes ++ nodes') lo hi := by
  refine ⟨h.follow.append h'.follow, h.inOrder.append h'.inOrder, ?_⟩
  rw [CstNode.allParameterBlocks_append]
  exact h.conditions.append h'.conditions

/-- Tokens without a node of their own. -/
theorem InPlace.close (h : InPlace tokens nodes lo middle) (h' : InPlace tokens' [] middle hi) :
    InPlace (tokens ++ tokens') nodes lo hi := by
  have happend := h.append h'
  rwa [List.append_nil] at happend

end

end ParadoxCode.Parser

namespace ParadoxCode.Script

open ParadoxCode.Parser
open Spans (Follow)

/-! ## Parts of an item -/

section

variable {tokens : List SyntaxToken} {nodes : List CstNode} {start lo hi : Nat} {text : Str}

/-- A node around a text that fits into `u32`. -/
theorem spanning_eq {kind : CstKind} (hfits : start + byteLen text ≤ u32Max) :
    spanning kind start text nodes =
      .mk kind ⟨start, start + byteLen text, Nat.le_add_right _ _⟩ nodes := by
  unfold spanning
  rw [range_eq (Nat.le_add_right _ _) hfits]

theorem allInOrder_spanning {kind : CstKind}
    (h : CstNode.AllInOrder nodes start (start + byteLen text))
    (hfits : start + byteLen text ≤ u32Max) :
    CstNode.AllInOrder [spanning kind start text nodes] start (start + byteLen text) := by
  rw [spanning_eq hfits, CstNode.AllInOrder, CstNode.AllInOrder, CstNode.inOrder_mk]
  exact ⟨le_rfl, h, le_rfl⟩

theorem allParameterBlocks_spanning {kind : CstKind} (hkind : kind ≠ .parameterBlock) :
    CstNode.allParameterBlocks [spanning kind start text nodes] =
      CstNode.allParameterBlocks nodes := by
  rw [spanning, CstNode.allParameterBlocks, CstNode.parameterBlocks, if_neg hkind,
    CstNode.allParameterBlocks, List.append_nil]
  rfl

/-- A node around what is in place. -/
theorem around {kind : CstKind} (h : InPlace tokens nodes start (start + byteLen text))
    (hkind : kind ≠ .parameterBlock) (hfits : start + byteLen text ≤ u32Max) :
    InPlace tokens [spanning kind start text nodes] start (start + byteLen text) := by
  refine ⟨h.follow, allInOrder_spanning h.inOrder hfits, ?_⟩
  rw [allParameterBlocks_spanning hkind]
  exact h.conditions

theorem inPlace_token {kind : TokenKind} (hfits : start + byteLen text ≤ u32Max) :
    InPlace [token kind start text] [] start (start + byteLen text) := by
  have hnil := inPlace_nil (Nat.le_add_right start (byteLen text))
  refine ⟨?_, hnil.inOrder, hnil.conditions⟩
  rw [token, range_eq (Nat.le_add_right _ _) hfits]
  exact ⟨le_rfl, Nat.le_add_right _ _, le_rfl⟩

theorem inPlace_tokenOf {kind : TokenKind} (hfits : start + byteLen text ≤ u32Max) :
    InPlace (tokenOf kind start text) [] start (start + byteLen text) := by
  unfold tokenOf
  split_ifs
  · exact inPlace_nil (Nat.le_add_right _ _)
  · exact inPlace_token hfits

theorem Scalar.inPlace {scalar : Scalar} (hfits : start + byteLen scalar.text ≤ u32Max) :
    InPlace (scalar.tokens start) [scalar.node start] start (start + byteLen scalar.text) :=
  around (inPlace_token hfits) (by cases scalar <;> exact CstKind.noConfusion) hfits

theorem Condition.inPlace {condition : Condition}
    (hfits : start + byteLen condition.text ≤ u32Max) :
    InPlace (condition.tokens start) [condition.node start] start
      (start + byteLen condition.text) := by
  have htext : byteLen condition.text = byteLen condition.head + byteLen condition.gap +
      byteLen (closing ']' condition.closed) := by
    rw [Condition.text, byteLen_append, byteLen_append]
  have hhead : byteLen condition.head =
      byteLen (closing '!' condition.negated) + byteLen condition.name := byteLen_append _ _
  have hname : InPlace (tokenOf .bare (start + byteLen (closing '!' condition.negated))
    condition.name)
      [condition.nameNode start] start (start + byteLen condition.head) := by
    unfold tokenOf Condition.nameNode
    split_ifs
    · exact around (inPlace_nil (Nat.le_add_right _ _)) CstKind.noConfusion (by omega)
    · exact (around (inPlace_token (by omega)) CstKind.noConfusion (by omega)).widen
        (Nat.le_add_right _ _) (by omega)
  refine ((around hname CstKind.noConfusion (by omega)).widen le_rfl
    (Nat.le_add_right _ (byteLen condition.gap))).close ?_
  rw [Nat.add_assoc, ← byteLen_append, htext, ← byteLen_append, ← Nat.add_assoc]
  exact inPlace_tokenOf (by rw [byteLen_append]; omega)

/-- The parts of a property stand behind one another. -/
theorem property_inPlace {key : Scalar} {gap operator gap' value : Str}
    (hfits : start + byteLen (key.text ++ gap ++ operator ++ gap' ++ value) ≤ u32Max)
    (h : InPlace tokens nodes (start + byteLen (key.text ++ gap ++ operator ++ gap'))
      (start + byteLen (key.text ++ gap ++ operator ++ gap') + byteLen value)) :
    InPlace (key.tokens start ++ operatorTokens (start + byteLen (key.text ++ gap))
      operator ++ tokens)
      [propertyNode start key gap operator gap' value nodes] start
      (start + byteLen (key.text ++ gap ++ operator ++ gap' ++ value)) := by
  have hgap : byteLen (key.text ++ gap) = byteLen key.text + byteLen gap := byteLen_append _ _
  have hfront : byteLen (key.text ++ gap ++ operator ++ gap') =
      byteLen (key.text ++ gap) + byteLen operator + byteLen gap' := by
    rw [byteLen_append, byteLen_append]
  rw [byteLen_append] at hfits
  have hkey : InPlace (key.tokens start) [spanning .key start key.text [key.node start]] start
      (start + byteLen key.text) :=
    around (Scalar.inPlace (by omega)) CstKind.noConfusion (by omega)
  have hoperator : InPlace (operatorTokens (start + byteLen (key.text ++ gap)) operator)
      [operatorNode (start + byteLen (key.text ++ gap)) operator]
      (start + byteLen (key.text ++ gap)) (start + byteLen (key.text ++ gap) + byteLen
        operator) := by
    unfold operatorTokens operatorNode
    split_ifs
    · exact around (inPlace_token (by omega)) CstKind.noConfusion (by omega)
    · exact around (inPlace_nil (Nat.le_add_right _ _)) CstKind.noConfusion (by omega)
  have hvalue := @around _ _ _ _ .value h CstKind.noConfusion (by omega)
  have hparts := ((hkey.widen le_rfl (by omega)).append
    (hoperator.widen le_rfl (by omega))).append hvalue
  rw [Nat.add_assoc, ← byteLen_append] at hparts
  exact around hparts CstKind.noConfusion (by rw [byteLen_append]; omega)

/-- A parameter block stands in front of those inside it. -/
theorem conditions_parameter {condition : Condition} {at' : Nat}
    (hfits : at' + byteLen condition.text ≤ u32Max) (hlo : lo ≤ at')
    (h : InPlace tokens nodes (at' + byteLen condition.text) hi) :
    Follow (·.conditionRange.start) (·.conditionRange.stop)
      (CstNode.allParameterBlocks
        [spanning .parameterBlock start text (condition.node at' :: nodes)]) lo hi := by
  have hcondition : CstNode.allParameterBlocks [condition.node at'] = [] := by
    unfold Condition.node Condition.nameNode
    rw [allParameterBlocks_spanning CstKind.noConfusion]
    split_ifs <;>
      rw [allParameterBlocks_spanning CstKind.noConfusion, CstNode.allParameterBlocks]
  have hblocks : CstNode.allParameterBlocks
      [spanning .parameterBlock start text (condition.node at' :: nodes)] =
        spanning .parameterBlock start text (condition.node at' :: nodes) ::
          CstNode.allParameterBlocks nodes := by
    rw [spanning, CstNode.allParameterBlocks, CstNode.parameterBlocks, if_pos rfl,
      CstNode.allParameterBlocks, List.append_nil, ← List.singleton_append,
      ← List.singleton_append (l := nodes), CstNode.allParameterBlocks_append, hcondition]
    rfl
  have hhead : byteLen condition.head ≤ byteLen condition.text := by
    rw [Condition.text, List.append_assoc, byteLen_append]
    exact Nat.le_add_right _ _
  have hrange : CstNode.conditionRange
      (spanning .parameterBlock start text (condition.node at' :: nodes)) =
        ⟨at', at' + byteLen condition.head, Nat.le_add_right _ _⟩ :=
    range_eq (Nat.le_add_right _ _) (by omega)
  rw [hblocks]
  refine ⟨hlo.trans_eq (congrArg TextRange.start hrange).symm, TextRange.le _, ?_⟩
  exact h.conditions.widen ((congrArg TextRange.stop hrange).trans_le (Nat.add_le_add_left hhead _))
    le_rfl

end

/-! ## Items -/

mutual

theorem Item.inPlace (start : Nat) (item : Item) (hfits : start + byteLen item.text ≤ u32Max) :
    InPlace (item.tokens start) (item.nodes start) start (start + byteLen item.text) := by
  match item with
  | .space c =>
    rw [Item.tokens, Item.nodes]
    exact inPlace_nil (Nat.le_add_right _ _)
  | .comment body =>
    rw [Item.tokens, Item.nodes]
    rw [Item.text] at hfits ⊢
    exact around (inPlace_token hfits) CstKind.noConfusion hfits
  | .stray c _ =>
    rw [Item.tokens, Item.nodes]
    rw [Item.text] at hfits ⊢
    exact around (inPlace_nil (Nat.le_add_right _ _)) CstKind.noConfusion hfits
  | .scalar s =>
    rw [Item.tokens, Item.nodes]
    rw [Item.text] at hfits ⊢
    exact Scalar.inPlace hfits
  | .block items closed =>
    rw [Item.tokens, Item.nodes]
    have hlen : byteLen (Item.text (.block items closed)) =
        1 + byteLen (Item.texts items) + byteLen (closing '\x7D' closed) := by
      rw [Item.text, byteLen_append, byteLen_cons]
      rfl
    refine around ?_ CstKind.noConfusion hfits
    have hopen : InPlace [token .openDelimiter start ['\x7B']] [] start (start + 1) :=
      inPlace_token (by change start + 1 ≤ _; omega)
    have hclose := @inPlace_tokenOf (start + 1 + byteLen (Item.texts items))
      (closing '\x7D' closed) .closeDelimiter (by omega)
    exact ((hopen.append (Item.inPlaceAll _ items (by omega))).close hclose).widen le_rfl
      (by omega)
  | .parameter condition items closed =>
    rw [Item.tokens, Item.nodes]
    have hlen : byteLen (Item.text (.parameter condition items closed)) =
        2 + byteLen condition.text + byteLen (Item.texts items) +
          byteLen (closing ']' closed) := by
      rw [Item.text]
      simp only [List.cons_append, byteLen_cons, byteLen_append]
      have hbracket : Char.utf8Size '[' = 1 := rfl
      omega
    have hopen : InPlace [token .openDelimiter start ['[']] [] start (start + 1) :=
      inPlace_token (by change start + 1 ≤ _; omega)
    have hopen' : InPlace [token .openDelimiter (start + 1) ['[']] [] (start + 1) (start + 2) :=
      inPlace_token (by change start + 2 ≤ _; omega)
    have hcondition := @Condition.inPlace (start + 2) condition (by omega)
    have hitems := Item.inPlaceAll (start + 2 + byteLen condition.text) items (by omega)
    have hclose := @inPlace_tokenOf (start + 2 + byteLen condition.text + byteLen
      (Item.texts items)) (closing ']' closed) .closeDelimiter (by omega)
    have hparts := ((((hopen.append hopen').append hcondition).append hitems).close hclose).widen
      le_rfl (show _ ≤ start + byteLen (Item.text (.parameter condition items closed)) by omega)
    refine ⟨hparts.follow, allInOrder_spanning hparts.inOrder hfits, ?_⟩
    have hbody := hitems.widen le_rfl
      (show _ ≤ start + byteLen (Item.text (.parameter condition items closed)) by omega)
    exact conditions_parameter (by omega) (Nat.le_add_right _ _) hbody
  | .header name gap body =>
    rw [Item.tokens, Item.nodes]
    refine around ?_ CstKind.noConfusion hfits
    have hlen : byteLen (Item.text (.header name gap body)) =
        byteLen (name.text ++ gap) + byteLen body.text := by
      rw [Item.text, byteLen_append]
    have hgap : byteLen (name.text ++ gap) = byteLen name.text + byteLen gap := byteLen_append _ _
    have hname := @Scalar.inPlace start name (by omega)
    have hbody := Item.inPlace (start + byteLen (name.text ++ gap)) body (by omega)
    exact ((hname.widen le_rfl (by omega)).append hbody).widen le_rfl (by omega)
  | .property key gap operator gap' value =>
    rw [Item.tokens, Item.nodes]
    rw [Item.text] at hfits ⊢
    refine property_inPlace hfits (Item.inPlace _ value ?_)
    rwa [byteLen_append _ value.text, ← Nat.add_assoc] at hfits
  | .missing key gap operator gap' =>
    rw [Item.tokens, Item.nodes]
    rw [Item.text] at hfits ⊢
    have herror := @around [] [] (start + byteLen (key.text ++ gap ++ operator ++ gap')) [] .error
      (inPlace_nil le_rfl) CstKind.noConfusion hfits
    have hproperty := property_inPlace (by rwa [List.append_nil]) herror
    rwa [List.append_nil, List.append_nil] at hproperty

theorem Item.inPlaceAll (start : Nat) (items : List Item)
    (hfits : start + byteLen (Item.texts items) ≤ u32Max) :
    InPlace (Item.tokensAll start items) (Item.nodesAll start items) start
      (start + byteLen (Item.texts items)) := by
  match items with
  | [] =>
    rw [Item.tokensAll, Item.nodesAll]
    exact inPlace_nil (Nat.le_add_right _ _)
  | item :: items =>
    rw [Item.tokensAll, Item.nodesAll]
    rw [Item.texts, byteLen_append, ← Nat.add_assoc] at hfits ⊢
    exact (Item.inPlace start item (by omega)).append (Item.inPlaceAll _ items hfits)

end

/-! ## The parse of a source -/

/-- The tree of a source below 1 GiB can be walked, and its nodes and tokens are in source order. -/
theorem exists_root {source : Str} (hlen : byteLen source < 2 ^ 30) :
    ∃ file root, Parser.parse .script source = some file ∧ file.root = some root ∧ root.InOrder ∧
      InPlace file.tokens [root] 0 (byteLen source) := by
  obtain ⟨parts, items, hparse, hparsed⟩ := exists_parse hlen
  have htexts := readItems_keeping _ _ _ _ _ hparsed.reads
  rw [List.append_nil] at htexts
  have hfits : 0 + byteLen source ≤ u32Max := by
    have : 2 ^ 30 ≤ u32Max := by decide
    omega
  have hitems := Item.inPlaceAll 0 items (by rwa [← htexts])
  rw [← htexts, ← hparsed.tokens] at hitems
  have hroot := @around _ _ _ _ .document hitems CstKind.noConfusion hfits
  unfold spanning at hroot
  rw [Nat.zero_add] at hroot
  have horder := hroot.inOrder
  rw [CstNode.AllInOrder] at horder
  refine ⟨ParsedFile.fromParts .script source parts 0, _, ?_, hparsed.root, horder.2.1, hroot⟩
  unfold Parser.parse parseWithRevision
  dsimp only
  rw [hparse]
  rfl

end ParadoxCode.Script
