import Mathlib.Data.List.GetD
import Mathlib.Data.List.MinMax
import Mathlib.Data.Prod.Lex
import Mathlib.Tactic.Ring

/-!
# Trees of maxima

A complete binary tree in a list: the root is node 1, the children of `node` are `2 * node` and
`2 * node + 1`, and the leaves are the last half. Every inner node holds the larger one of its
children, so that no leaf below a node is larger than the node (`leaf_le`).
-/

namespace MaxTree

variable {base node height start place : Nat} {tree : List Nat}

/-- The larger one of the children goes to a node. -/
def pull (tree : List Nat) (node : Nat) : List Nat :=
  tree.set node (max (tree.getD (node * 2) 0) (tree.getD (node * 2 + 1) 0))

/-- The inner nodes from `node` down to the root, which is node 1. -/
def pullAll (tree : List Nat) : Nat → List Nat
  | 0 => tree
  | node + 1 => pullAll (pull tree (node + 1)) node

/-- The values are the first leaves, the other leaves are zero. -/
def build (base : Nat) (values : List Nat) : List Nat :=
  pullAll (List.replicate base 0 ++ values ++ List.replicate (base - values.length) 0) (base - 1)

@[simp] theorem length_pull (tree : List Nat) (node : Nat) :
    (pull tree node).length = tree.length :=
  List.length_set

theorem getD_pull_of_ne {other : Nat} (h : node ≠ other) :
    (pull tree node).getD other 0 = tree.getD other 0 := by
  unfold pull
  rw [List.getD_eq_getElem?_getD, List.getElem?_set_ne h, List.getD_eq_getElem?_getD]

theorem getD_pull_self (h : node < tree.length) :
    (pull tree node).getD node 0 = max (tree.getD (node * 2) 0) (tree.getD (node * 2 + 1) 0) := by
  unfold pull
  rw [List.getD_eq_getElem?_getD, List.getElem?_set_self h, Option.getD_some]

theorem getD_pullAll {count : Nat} (h : count < place) : (pullAll tree count).getD place 0 =
    tree.getD place 0 := by
  induction count generalizing tree with
  | zero => rfl
  | succ count ih =>
    show (pullAll (pull tree (count + 1)) count).getD place 0 = _
    rw [ih (by omega), getD_pull_of_ne (by omega)]

/-- Every inner node holds the larger one of its children. -/
def Heaped (base : Nat) (tree : List Nat) : Prop :=
  ∀ node, 0 < node → node < base → tree.getD node 0 = max (tree.getD (node * 2) 0)
    (tree.getD (node * 2 + 1) 0)

theorem heaped_pullAll {count : Nat} (hlength : base ≤ tree.length)
    (h : ∀ node, count < node → node < base →
      tree.getD node 0 = max (tree.getD (node * 2) 0) (tree.getD (node * 2 + 1) 0))
        (hcount : count < base) :
    Heaped base (pullAll tree count) := by
  induction count generalizing tree with
  | zero => exact fun node hpos hlt => h node hpos hlt
  | succ count ih =>
    apply ih
    · rwa [length_pull]
    · intro node hlow hhigh
      -- the children of a node stand behind it
      rw [getD_pull_of_ne (show count + 1 ≠ node * 2 by omega),
        getD_pull_of_ne (show count + 1 ≠ node * 2 + 1 by omega)]
      by_cases hnode : count + 1 = node
      · subst hnode
        exact getD_pull_self (by omega)
      · rw [getD_pull_of_ne hnode]
        exact h node (by omega) hhigh
    · omega

theorem heaped_build (values : List Nat) (hbase : 0 < base) : Heaped base (build base values) := by
  apply heaped_pullAll
  · simp only [List.length_append, List.length_replicate]
    omega
  · intro node hlow hhigh
    omega
  · omega

/-- A leaf holds its value. -/
theorem getD_build {values : List Nat} (hbase : 0 < base) (hplace : place < values.length) :
    (build base values).getD (base + place) 0 = values.getD place 0 := by
  unfold build
  rw [getD_pullAll (by omega), List.append_assoc, List.getD_append_right _ _ _ _ (by simp),
    List.length_replicate, Nat.add_sub_cancel_left, List.getD_append _ _ _ _ hplace]

/-- No leaf below a node is larger than the node. The induction is on the height of the node. -/
theorem leaf_le (h : Heaped base tree) (hnode : 0 < node)
    (hleaves : node * 2 ^ height = base + start)
    (hbelow : start + 2 ^ height ≤ base) (hstart : start ≤ place)
    (hstop : place < start + 2 ^ height) : tree.getD (base + place) 0 ≤ tree.getD node 0 := by
  induction height generalizing node start with
  | zero =>
    rw [pow_zero] at hleaves hstop
    obtain rfl : base + place = node := by omega
    exact le_rfl
  | succ height ih =>
    have hinner : node < base := by
      by_contra hle
      have hdouble : node * 2 ≤ node * 2 ^ (height + 1) :=
        Nat.mul_le_mul_left node (by rw [pow_succ]; have := Nat.one_le_two_pow (n := height); omega)
      have hpos := Nat.one_le_two_pow (n := height + 1)
      omega
    rw [h node hnode hinner]
    rw [pow_succ] at hleaves hbelow hstop
    by_cases hleft : place < start + 2 ^ height
    · apply le_max_of_le_left
      apply @ih _ start (by omega)
      · rw [← hleaves]
        ring
      · omega
      · exact hstart
      · exact hleft
    · apply le_max_of_le_right
      apply @ih _ (start + 2 ^ height) (by omega)
      · rw [← Nat.add_assoc, ← hleaves]
        ring
      · omega
      · omega
      · omega

end MaxTree
