import Mathlib.Data.List.Forall2
import ParadoxCode.Parser.Arena
import ParadoxCode.Parser.Node

/-!
# What the arena stands for

An emitted node stands for the tree that is read at its index, now and in every arena that extends
this one. A builder that has queued trees emits a node around the last of them, as long as the arena
stays within `u32`.
-/

namespace ParadoxCode.Parser

open SyntaxTreeBuilder (count cores)

/-- Tables are only appended to. -/
structure SyntaxTree.Extends (tree tree' : SyntaxTree) : Prop where
  kinds : tree.kinds <+: tree'.kinds
  cores : tree.cores <+: tree'.cores
  edges : tree.edges <+: tree'.edges

/-- The node `index` of the arena stands for `node`. -/
def SyntaxTree.Denotes (tree : SyntaxTree) (index : Nat) (node : CstNode) : Prop :=
  ∀ tree', tree.Extends tree' → ∀ fuel, index < fuel → tree'.nodeAt fuel index = some node

mutual

/-- The number of nodes of a tree. -/
def CstNode.size : CstNode → Nat
  | .mk _ _ children => CstNode.sizes children + 1

def CstNode.sizes : List CstNode → Nat
  | [] => 0
  | node :: nodes => node.size + CstNode.sizes nodes

end

theorem CstNode.sizes_append (nodes nodes' : List CstNode) :
    CstNode.sizes (nodes ++ nodes') = CstNode.sizes nodes + CstNode.sizes nodes' := by
  induction nodes with
  | nil => simp [CstNode.sizes]
  | cons node nodes ih => simp only [List.cons_append, CstNode.sizes, ih, Nat.add_assoc]

theorem getElem?_of_front {α : Type} {xs ys : List α} (h : xs <+: ys) {i : Nat} {x : α}
    (hx : xs[i]? = some x) : ys[i]? = some x := by
  obtain ⟨more, rfl⟩ := h
  rw [List.getElem?_append_left (List.getElem?_eq_some_iff.mp hx).1, hx]

namespace SyntaxTree

variable {tree tree' tree'' : SyntaxTree} {index : Nat} {node : CstNode}

theorem Extends.refl (tree : SyntaxTree) : tree.Extends tree :=
  ⟨List.prefix_rfl, List.prefix_rfl, List.prefix_rfl⟩

theorem Extends.trans (h : tree.Extends tree') (h' : tree'.Extends tree'') : tree.Extends tree'' :=
  ⟨h.kinds.trans h'.kinds, h.cores.trans h'.cores, h.edges.trans h'.edges⟩

theorem Denotes.mono (h : tree.Denotes index node) (hext : tree.Extends tree') :
    tree'.Denotes index node :=
  fun tree'' hext' fuel hfuel => h tree'' (hext.trans hext') fuel hfuel

theorem Denotes.nodeAt (h : tree.Denotes index node) {fuel : Nat} (hfuel : index < fuel) :
    tree.nodeAt fuel index = some node :=
  h tree (Extends.refl tree) fuel hfuel

theorem mapM_nodeAt {fuel : Nat} {children : List Nat} {nodes : List CstNode}
    (h : List.Forall₂ tree.Denotes children nodes) (hext : tree.Extends tree')
    (hfuel : ∀ child ∈ children, child < fuel) :
    children.mapM (tree'.nodeAt fuel) = some nodes := by
  induction h with
  | nil => rfl
  | @cons child node children nodes hnode _ ih =>
    rw [List.forall_mem_cons] at hfuel
    rw [List.mapM_cons, hnode tree' hext fuel hfuel.1, ih hfuel.2]
    rfl

/-- A node whose children stand for trees. -/
theorem Denotes.mk {kind : CstKind} {core : NodeCore} {children : List Nat}
    {nodes : List CstNode} (hkind : tree.kinds[index]? = some kind)
    (hcore : tree.cores[index]? = some core)
    (hedges : (tree.edges.drop core.firstEdge).take core.edgeCount = children)
    (hbound : core.firstEdge + core.edgeCount ≤ tree.edges.length)
    (hchildren : List.Forall₂ tree.Denotes children nodes)
    (hlt : ∀ child ∈ children, child < index) : tree.Denotes index (.mk kind core.range nodes) := by
  intro tree' hext fuel hfuel
  obtain ⟨more, hmore⟩ := hext.edges
  cases fuel with
  | zero => exact absurd hfuel (Nat.not_lt_zero _)
  | succ fuel =>
    have hwindow : tree'.children core = children := by
      unfold SyntaxTree.children
      rw [← hmore, if_pos (by rw [List.length_append]; omega),
        List.drop_append_of_le_length (by omega),
        List.take_append_of_le_length (by rw [List.length_drop]; omega), hedges]
    rw [SyntaxTree.nodeAt, getElem?_of_front hext.kinds hkind, getElem?_of_front hext.cores hcore]
    dsimp only
    rw [hwindow, mapM_nodeAt hchildren hext fun child hchild => by have := hlt child hchild; omega]
    rfl

end SyntaxTree

namespace SyntaxTreeBuilder

/-- Every `u32` index of the arena is exact. -/
def InU32 (b : SyntaxTreeBuilder) : Prop := b.count ≤ 2 ^ 32

/-- The node `index` is emitted and stands for `node`. -/
structure Holds (b : SyntaxTreeBuilder) (index : Nat) (node : CstNode) : Prop where
  lt : index < b.count
  denotes : b.InU32 → b.tree.Denotes index node

/-- The pending children stand for `pending`. As in `Arena`, `held` counts the nodes that are
emitted, not pending and not a child yet. The first node has no children. -/
structure Builds (held : Nat) (pending : List CstNode) (b : SyntaxTreeBuilder) : Prop where
  kinds : b.tree.kinds.length = b.count
  slack : b.tree.edges.length + b.children.length + held ≤ b.count
  pending : List.Forall₂ b.Holds b.children pending
  first : 0 < b.count → ∃ kind range, b.tree.Denotes 0 (.mk kind range [])

/-- Nodes are only added to the arena. -/
def Extends (b b' : SyntaxTreeBuilder) : Prop := b.tree.Extends b'.tree

variable {b b' b'' : SyntaxTreeBuilder} {held index : Nat} {pending : List CstNode} {tree : CstNode}

theorem Extends.refl (b : SyntaxTreeBuilder) : b.Extends b := SyntaxTree.Extends.refl b.tree

theorem Extends.trans (h : b.Extends b') (h' : b'.Extends b'') : b.Extends b'' :=
  SyntaxTree.Extends.trans h h'

theorem Extends.count_le (h : b.Extends b') : b.count ≤ b'.count := h.cores.length_le

theorem Holds.mono (h : b.Holds index tree) (hext : b.Extends b') : b'.Holds index tree :=
  ⟨Nat.lt_of_lt_of_le h.lt hext.count_le,
    fun hfit => (h.denotes (Nat.le_trans hext.count_le hfit)).mono hext⟩

theorem lt_of_holds {indices : List Nat} {nodes : List CstNode}
    (h : List.Forall₂ b.Holds indices nodes) : ∀ child ∈ indices, child < b.count := by
  induction h with
  | nil => rintro _ ⟨⟩
  | cons hnode _ ih => exact List.forall_mem_cons.mpr ⟨hnode.lt, ih⟩

theorem Builds.empty : Builds 0 [] SyntaxTreeBuilder.empty :=
  ⟨rfl, le_rfl, .nil, fun h => absurd h (Nat.lt_irrefl 0)⟩

theorem Builds.length (h : b.Builds held pending) : b.children.length = pending.length :=
  List.Forall₂.length_eq h.pending

/-- Queues an emitted node. -/
theorem Builds.pushChild (h : b.Builds (held + 1) pending) (hi : b.Holds index tree) :
    (b.pushChild index).Builds held (pending ++ [tree]) where
  kinds := h.kinds
  slack := by
    have := h.slack
    change b.tree.edges.length + (b.children ++ [index]).length + held ≤ b.count
    rw [List.length_append, List.length_singleton]
    omega
  pending := by
    have h₁ : List.Forall₂ (b.pushChild index).Holds b.children pending :=
      h.pending.imp fun _ _ hnode => hnode.mono (.refl _)
    exact List.rel_append h₁ (.cons (hi.mono (.refl _)) .nil)
  first := h.first

/-- Emits a node around the last of the queued trees. -/
theorem Builds.node {below top : List CstNode} (h : b.Builds held (below ++ top)) (kind : CstKind)
    (range : TextRange) :
    ∃ index b', b.node kind range top.length = some (index, b') ∧ b'.Builds (held + 1) below ∧
      b'.Holds index (.mk kind range top) ∧ b.Extends b' ∧ b'.count = b.count + 1 ∧
      b'.tree.kinds = b.tree.kinds ++ [kind] := by
  have hslack := h.slack
  have hbelow := List.forall₂_take_append b.children below top h.pending
  have htop := List.forall₂_drop_append b.children below top h.pending
  have hsplit := (List.take_append_drop below.length b.children).symm
  generalize b.children.take below.length = belowIndices at hbelow hsplit
  generalize b.children.drop below.length = topIndices at htop hsplit
  have hlen : topIndices.length = top.length := htop.length_eq
  rw [hsplit, List.length_append] at hslack
  rw [← hlen, SyntaxTreeBuilder.node_eq hsplit]
  refine ⟨_, _, rfl, ?_⟩
  generalize hb' : SyntaxTreeBuilder.mk _ belowIndices _ = b'
  let core : NodeCore := ⟨range, asU32 b.tree.edges.length, asU32 topIndices.length⟩
  have hcores : b'.cores = b.cores ++ [core] := by rw [← hb']
  have hkinds : b'.tree.kinds = b.tree.kinds ++ [kind] := by rw [← hb']
  have hedges : b'.tree.edges = b.tree.edges ++ topIndices := by rw [← hb']
  have hchildren : b'.children = belowIndices := by rw [← hb']
  have hcount : b'.count = b.count + 1 := by rw [count, hcores, List.length_append]; rfl
  have hext : b.Extends b' := ⟨⟨_, hkinds.symm⟩, ⟨_, hcores.symm⟩, ⟨_, hedges.symm⟩⟩
  have hholds : b'.Holds (asU32 b.count) (.mk kind range top) := by
    refine ⟨by have := asU32_le b.count; omega, fun hfit => ?_⟩
    unfold InU32 at hfit
    have hindex : asU32 b.count = b.count := asU32_eq (by omega)
    have hfirst : asU32 b.tree.edges.length = b.tree.edges.length := asU32_eq (by omega)
    have hedgeCount : asU32 topIndices.length = topIndices.length := asU32_eq (by omega)
    rw [hindex]
    refine @SyntaxTree.Denotes.mk _ _ _ core topIndices _ ?_ ?_ ?_ ?_ ?_ ?_
    · rw [hkinds, List.getElem?_append_right (Nat.le_of_eq h.kinds), h.kinds, Nat.sub_self]
      rfl
    · rw [show b'.tree.cores = b.tree.cores ++ [core] from hcores,
        List.getElem?_append_right le_rfl, Nat.sub_self]
      rfl
    · change (b'.tree.edges.drop (asU32 _)).take (asU32 _) = _
      rw [hfirst, hedgeCount, hedges, List.drop_left, List.take_length]
    · change asU32 _ + asU32 _ ≤ _
      rw [hfirst, hedgeCount, hedges, List.length_append]
    · exact htop.imp fun _ _ hnode => (hnode.mono hext).denotes hfit
    · exact lt_of_holds htop
  refine ⟨⟨?_, ?_, ?_, fun _ => ?_⟩, hholds, hext, hcount, hkinds⟩
  · rw [hkinds, hcount, List.length_append, h.kinds]
    rfl
  · rw [hedges, hchildren, hcount, List.length_append]
    omega
  · rw [hchildren]
    exact hbelow.imp fun _ _ hnode => hnode.mono hext
  · rcases Nat.eq_zero_or_pos b.count with hzero | hpos
    · -- the first node: nothing was queued before it
      obtain rfl : top = [] := List.length_eq_zero_iff.mp (by omega)
      refine ⟨kind, range, ?_⟩
      have hfirst := hholds.denotes (by unfold InU32; omega)
      rwa [hzero] at hfirst
    · obtain ⟨kind', range', hdenotes⟩ := h.first hpos
      exact ⟨kind', range', hdenotes.mono hext⟩

theorem node_index {kind : CstKind} {range : TextRange} {childCount : Nat}
    (h : b.node kind range childCount = some (index, b')) : index = asU32 b.count := by
  unfold SyntaxTreeBuilder.node at h
  split_ifs at h
  cases h
  rfl

theorem extends_finish (b : SyntaxTreeBuilder) : b.tree.Extends b.finish := by
  unfold finish
  exact ⟨List.prefix_rfl, List.prefix_rfl, List.prefix_rfl⟩

theorem finish_cores (b : SyntaxTreeBuilder) : b.finish.cores = b.tree.cores := by
  unfold finish
  rfl

/-- The root of a finished tree is its last node. -/
theorem Holds.root {index : Nat} (h : b.Holds index tree) (hfit : b.InU32)
    (hindex : index + 1 = b.count) :
    b.finish.nodeAt (b.finish.cores.length + 1) b.finish.root = some tree := by
  rw [finish_root (by omega) hfit, ← hindex, Nat.add_sub_cancel, finish_cores]
  exact h.denotes hfit b.finish (extends_finish b) _ (Nat.lt_succ_of_lt h.lt)

end SyntaxTreeBuilder

end ParadoxCode.Parser
