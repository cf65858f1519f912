import Mathlib.Data.List.Nodup
import ParadoxCode.Engine.DependencyGraph
import ParadoxCode.Lib.FinishOrder

/-!
# The search for cycles is sound and complete

1. The graph that declarations resolve to: the last declaration of a name counts, unknown names are
dropped.
2. The path holds no node twice, so the other names of a reported cycle are distinct.
3. While nothing is reported, the nodes that the search has left are in an order of finishing.
4. The search reports nothing exactly where the resolved graph is acyclic.
-/

namespace ParadoxCode.Engine.DependencyGraph

/-! ## The resolved graph -/

/-- The dependencies of a name: the last declaration counts. -/
def lastDeclaration (nodes : List (Str × List Str)) (name : Str) : Option (List Str) :=
  (nodes.reverse.find? fun node => node.1 == name).map Prod.snd

/-- A declared name depends on another declared name. -/
def Depends (nodes : List (Str × List Str)) (name target : Str) : Prop :=
  ∃ dependencies, lastDeclaration nodes name = some dependencies ∧ target ∈ dependencies ∧
    target ∈ nodes.map Prod.fst

theorem lastDeclaration_concat (nodes : List (Str × List Str)) (node : Str × List Str)
    (name : Str) :
    lastDeclaration (nodes ++ [node]) name =
      if node.1 = name then some node.2 else lastDeclaration nodes name := by
  unfold lastDeclaration
  rw [List.reverse_append, List.reverse_singleton, List.singleton_append, List.find?_cons]
  by_cases h : node.1 = name
  · rw [if_pos h, h, beq_self_eq_true]
    rfl
  · rw [if_neg h, beq_eq_false_iff_ne.mpr h]

variable {nodes : List (Str × List Str)} {name : Str}

theorem mem_map_fst_of_lastDeclaration {dependencies : List Str}
    (h : lastDeclaration nodes name = some dependencies) : name ∈ nodes.map Prod.fst := by
  obtain ⟨node, hfind, -⟩ := Option.map_eq_some_iff.mp h
  have hname : node.1 = name := by simpa using List.find?_some hfind
  have hmem := List.mem_reverse.mp (List.mem_of_find?_eq_some hfind)
  exact List.mem_map.mpr ⟨node, hmem, hname⟩

/-- The declared names, from some names on. -/
theorem foldl_declare (nodes : List (Str × List Str)) (names : List Str) (hnodup : names.Nodup) :
    let declared := nodes.foldl (fun names node => if node.1 ∈ names then names else
      names ++ [node.1]) names
    declared.Nodup ∧ ∀ name, name ∈ declared ↔ name ∈ names ∨ name ∈ nodes.map Prod.fst := by
  induction nodes generalizing names with
  | nil => exact ⟨hnodup, fun name => by simp⟩
  | cons node nodes ih =>
    rw [List.foldl_cons]
    by_cases h : node.1 ∈ names
    · rw [if_pos h]
      obtain ⟨hnodup', hmem⟩ := ih names hnodup
      refine ⟨hnodup', fun name => (hmem name).trans ?_⟩
      rw [List.map_cons, List.mem_cons]
      constructor
      · exact Or.imp id .inr
      · rintro (hname | rfl | hname)
        · exact .inl hname
        · exact .inl h
        · exact .inr hname
    · rw [if_neg h]
      obtain ⟨hnodup', hmem⟩ := ih (names ++ [node.1])
        (hnodup.append (List.nodup_singleton _) (by simpa using h))
      refine ⟨hnodup', fun name => (hmem name).trans ?_⟩
      rw [List.map_cons, List.mem_cons, List.mem_append, List.mem_singleton, or_assoc]

theorem nodup_declaredNames (nodes : List (Str × List Str)) : (declaredNames nodes).Nodup :=
  (foldl_declare nodes [] .nil).1

theorem mem_declaredNames_iff : name ∈ declaredNames nodes ↔ name ∈ nodes.map Prod.fst := by
  exact ((foldl_declare nodes [] .nil).2 name).trans (or_iff_right List.not_mem_nil)

theorem idOf_eq_some_iff {names : List Str} (hnodup : names.Nodup) {id : Nat} :
    idOf names name = some id ↔ names[id]? = some name := by
  refine ⟨getElem?_of_idOf, fun h => ?_⟩
  obtain ⟨hlt, hname⟩ := List.getElem?_eq_some_iff.mp h
  refine List.findIdx?_eq_some_iff_getElem.mpr ⟨hlt, beq_iff_eq.mpr hname, fun other hother => ?_⟩
  rw [Bool.not_eq_true, beq_eq_false_iff_ne, ← hname]
  intro heq
  have hsame := (List.Nodup.getElem_inj_iff hnodup).mp heq
  omega

/-- The edges of a node are those of its last declaration. -/
theorem getElem?_foldl_declareEdges {names : List Str} (hnodup : names.Nodup)
    (nodes : List (Str × List Str)) {id : Nat} (hname : names[id]? = some name) :
    (nodes.foldl (declareEdges names) (List.replicate names.length []))[id]? =
      some (((lastDeclaration nodes name).getD []).filterMap (idOf names)) := by
  have hlt := (List.getElem?_eq_some_iff.mp hname).1
  induction nodes using List.reverseRecOn with
  | nil =>
    rw [List.foldl_nil, List.getElem?_replicate, if_pos hlt]
    rfl
  | append_singleton nodes node ih =>
    rw [List.foldl_append, List.foldl_cons, List.foldl_nil, lastDeclaration_concat, declareEdges]
    cases hid : idOf names node.1 with
    | none =>
      have hne : node.1 ≠ name := by
        rintro rfl
        rw [(idOf_eq_some_iff hnodup).mpr hname] at hid
        cases hid
      rw [if_neg hne]
      exact ih
    | some declared =>
      have hdeclared := (idOf_eq_some_iff hnodup).mp hid
      dsimp only
      by_cases hsame : declared = id
      · subst hsame
        have hnode : node.1 = name := Option.some.inj (hdeclared.symm.trans hname)
        rw [if_pos hnode, List.getElem?_set_self (List.getElem?_eq_some_iff.mp ih).1]
        rfl
      · have hne : node.1 ≠ name := by
          intro heq
          rw [heq, (idOf_eq_some_iff hnodup).mpr hname] at hid
          exact hsame (Option.some.inj hid).symm
        rw [if_neg hne, List.getElem?_set_ne hsame]
        exact ih

/-- The edges between the nodes are the dependencies between their names. -/
theorem edge_new_iff {id target : Nat} : (new nodes).Edge id target ↔
    ∃ name other, (declaredNames nodes)[id]? = some name ∧
      (declaredNames nodes)[target]? = some other ∧ Depends nodes name other := by
  have hnodup := nodup_declaredNames nodes
  have htargets {name : Str} (hname : (declaredNames nodes)[id]? = some name) :
      (new nodes).targets id = ((lastDeclaration nodes name).getD []).filterMap
        (idOf (declaredNames nodes)) := by
    unfold targets
    rw [show (new nodes).edges[id]? = _ from getElem?_foldl_declareEdges hnodup nodes hname]
    rfl
  unfold Edge
  constructor
  · intro h
    have hlt : id < (declaredNames nodes).length := by
      by_contra hge
      have hnone : (new nodes).edges[id]? = none := by
        rw [List.getElem?_eq_none_iff, (new nodes).sized]
        exact Nat.not_lt.mp hge
      unfold targets at h
      rw [hnone] at h
      cases h
    have hname := List.getElem?_eq_getElem hlt
    rw [htargets hname] at h
    obtain ⟨other, hother, hid⟩ := List.mem_filterMap.mp h
    have hdeclared := getElem?_of_idOf hid
    refine ⟨_, other, hname, hdeclared, ?_⟩
    cases hlast : lastDeclaration nodes (declaredNames nodes)[id] with
    | none =>
      rw [hlast] at hother
      cases hother
    | some dependencies =>
      rw [hlast] at hother
      exact ⟨dependencies, hlast, hother, mem_declaredNames_iff.mp (List.mem_of_getElem? hdeclared)⟩
  · rintro ⟨name, other, hname, hother, dependencies, hlast, hmem, -⟩
    rw [htargets hname, hlast]
    exact List.mem_filterMap.mpr ⟨other, hmem, (idOf_eq_some_iff hnodup).mpr hother⟩

theorem name_new {id : Nat}
    (h : (declaredNames nodes)[id]? = some name) : (new nodes).name id = name := by
  unfold DependencyGraph.name
  rw [show (new nodes).names[id]? = some name from h]
  rfl

theorem depends_of_edge {id target : Nat} (h : (new nodes).Edge id target) :
    Depends nodes ((new nodes).name id) ((new nodes).name target) := by
  obtain ⟨name, other, hname, hother, hdepends⟩ := edge_new_iff.mp h
  rw [name_new hname, name_new hother]
  exact hdepends

/-- A cycle of names is a cycle of nodes. -/
theorem transGen_edge {other : Str} (h : Relation.TransGen (Depends nodes) name other) :
    ∃ id target, (declaredNames nodes)[id]? = some name ∧
      (declaredNames nodes)[target]? = some other ∧
      Relation.TransGen (new nodes).Edge id target := by
  have hid {name : Str} (hmem : name ∈ nodes.map Prod.fst) : ∃ id,
    (declaredNames nodes)[id]? = some name :=
    List.mem_iff_getElem?.mp (mem_declaredNames_iff.mpr hmem)
  induction h with
  | single hdepends =>
    have ⟨_, hlast, _, htarget⟩ := hdepends
    obtain ⟨id, hname⟩ := hid (mem_map_fst_of_lastDeclaration hlast)
    obtain ⟨target, hother⟩ := hid htarget
    exact ⟨id, target, hname, hother, .single (edge_new_iff.mpr ⟨_, _, hname, hother, hdepends⟩)⟩
  | tail _ hdepends ih =>
    obtain ⟨id, middle, hname, hmiddle, hpath⟩ := ih
    have ⟨_, _, _, htarget⟩ := hdepends
    obtain ⟨target, hother⟩ := hid htarget
    exact ⟨id, target, hname, hother,
      hpath.tail (edge_new_iff.mpr ⟨_, _, hmiddle, hother, hdepends⟩)⟩

/-! ## The path holds no node twice -/

variable {graph : DependencyGraph} {search next : Search}

/-- A closed walk along edges that passes no node twice. -/
def SimpleWalk (graph : DependencyGraph) (node : Nat) (between : List Nat) : Prop :=
  (node :: between ++ [node]).IsChain graph.Edge ∧ (node :: between).Nodup ∧
    ∀ passed ∈ node :: between, passed < graph.names.length

/-- The nodes on the path are distinct and being visited, and every reported cycle passes no node
twice. -/
structure Search.Simple (graph : DependencyGraph) (search : Search) : Prop where
  nodup : search.path.Nodup
  visited : ∀ node ∈ search.path, search.marks[node]? = some .visiting
  cycles : ∀ cycle ∈ search.cycles, ∃ node between, graph.SimpleWalk node between ∧
    cycle = (node :: between ++ [node]).map graph.name

theorem Search.Simple.enter (h : search.Simple graph) {node : Nat}
    (hmark : search.marks[node]? = some .unseen) : (search.enter node).Simple graph := by
  have hlt := (List.getElem?_eq_some_iff.mp hmark).1
  have hfresh : node ∉ search.path := by
    intro hmem
    rw [h.visited node hmem] at hmark
    cases hmark
  unfold Search.enter
  refine ⟨h.nodup.append (List.nodup_singleton _) (by simpa using hfresh),
    fun passed hpassed => ?_, h.cycles⟩
  dsimp only at hpassed ⊢
  rcases List.mem_append.mp hpassed with hpassed | hpassed
  · have hne : node ≠ passed := by
      rintro rfl
      exact hfresh hpassed
    rw [List.getElem?_set_ne hne]
    exact h.visited passed hpassed
  · rw [List.mem_singleton.mp hpassed, List.getElem?_set_self hlt]

/-- The walk that an edge back to a node on the path closes. -/
theorem Search.Simple.simpleWalk (h : search.Simple graph) (hsound : search.Sound graph)
    {node edge target : Nat}
    {stack : List (Nat × Nat)} (hstack : search.stack = (node, edge) :: stack)
    (hedge : (graph.targets node)[edge]? = some target) (hmem : target ∈ search.path) :
    ∃ between, graph.SimpleWalk target between ∧
      graph.closedCycle search.path target = (target :: between ++ [target]).map graph.name := by
  obtain ⟨_, _, -, hchain⟩ := hsound.closedWalk hstack hedge hmem
  have hnodup := h.nodup.sublist (List.drop_sublist (search.path.findIdx fun node => node == target)
    search.path)
  have hin : ∀ passed ∈ search.path.drop (search.path.findIdx fun node => node == target),
      passed < graph.names.length := by
    intro passed hpassed
    have hvisited := h.visited passed (List.mem_of_mem_drop hpassed)
    rw [← graph.sized, hsound.marks]
    exact (List.getElem?_eq_some_iff.mp hvisited).1
  unfold closedCycle
  rw [drop_findIdx_of_mem hmem] at hchain hnodup hin ⊢
  exact ⟨_, ⟨hchain, hnodup, hin⟩, rfl⟩

/-- One round keeps the path simple. -/
theorem Search.Simple.step (h : search.Simple graph) (hsound : search.Sound graph)
    (hstep : Step graph search next) : next.Simple graph := by
  cases hstep with
  | @leave node edge stack hstack _ =>
    have hpath := hsound.path_eq hstack
    have hdrop : search.path.dropLast = (stack.map Prod.fst).reverse := by rw [hpath,
      List.dropLast_concat]
    have hnodup := h.nodup
    rw [hpath] at hnodup
    have hapart := List.nodup_append.mp hnodup
    refine ⟨?_, fun passed hpassed => ?_, h.cycles⟩
    · dsimp only
      rw [hdrop]
      exact hapart.1
    · dsimp only at hpassed ⊢
      rw [hdrop] at hpassed
      have hne : node ≠ passed := fun heq => hapart.2.2 passed hpassed node
        (List.mem_singleton_self _) heq.symm
      rw [List.getElem?_set_ne hne]
      exact h.visited passed (by rw [hpath]; exact List.mem_append_left _ hpassed)
  | @enter node edge target stack hstack hedge hmark =>
    exact @Search.Simple.enter _ { search with stack := (node, edge + 1) :: stack }
      ⟨h.nodup, h.visited, h.cycles⟩ target hmark
  | @close node edge target stack hstack hedge hmark =>
    refine ⟨h.nodup, h.visited, fun cycle hcycle => ?_⟩
    rcases List.mem_append.mp hcycle with hcycle | hcycle
    · exact h.cycles cycle hcycle
    · obtain ⟨between, hwalk, heq⟩ := h.simpleWalk hsound hstack hedge
        (hsound.visiting target hmark)
      rw [List.mem_singleton.mp hcycle]
      exact ⟨target, between, hwalk, heq⟩
  | pass hstack hedge _ _ => exact ⟨h.nodup, h.visited, h.cycles⟩

/-! ## What the search has left is finished -/

/-- The edges that were gone through lead to nodes that are done, or to the node above on the
stack. -/
def Explored (graph : DependencyGraph) (done : Nat → Prop) : Option Nat → List (Nat × Nat) → Prop
  | _, [] => True
  | above, (node, edge) :: stack =>
    (∀ index < edge, ∀ target, (graph.targets node)[index]? = some target → done target ∨
      above = some target) ∧ Explored graph done (some node) stack

theorem Explored.mono {done done' : Nat → Prop} (hdone : ∀ node, done node → done' node) :
    ∀ {above : Option Nat} {stack : List (Nat × Nat)}, Explored graph done above stack →
      Explored graph done' above stack
  | _, [], _ => trivial
  | _, (_, _) :: _, h => ⟨fun index hindex target htarget =>
      (h.1 index hindex target htarget).imp (hdone target) id, h.2.mono hdone⟩

/-- What was above on the stack may be done instead. -/
theorem Explored.finish {done : Nat → Prop} {node : Nat} {stack : List (Nat × Nat)}
    (hdone : done node)
    (h : Explored graph done (some node) stack) : Explored graph done none stack := by
  cases stack with
  | nil => trivial
  | cons top stack =>
    refine ⟨fun index hindex target htarget => .inl ?_, h.2⟩
    rcases h.1 index hindex target htarget with htarget | habove
    · exact htarget
    · cases habove
      exact hdone

def Search.Done (search : Search) (node : Nat) : Prop := search.marks[node]? = some .done

/-- While nothing is reported, the nodes that are done stand in an order of finishing, and the edges
of the others are explored as far as the stack says. -/
def Search.Finishing (graph : DependencyGraph) (search : Search) : Prop :=
  search.cycles = [] →
    (∃ order, FinishOrder graph.Edge order ∧ ∀ node, search.Done node → node ∈ order) ∧
      Explored graph search.Done none search.stack

/-- Nodes that were seen stay seen. -/
def Search.Seen (search : Search) (node : Nat) : Prop := search.marks[node]? ≠ some .unseen

theorem seen_set {marks : List Mark} {mark : Mark} (hmark : mark ≠ .unseen) (at' : Nat) {node : Nat}
    (h : marks[node]? ≠ some .unseen) : (marks.set at' mark)[node]? ≠ some .unseen := by
  rw [List.getElem?_set]
  split_ifs with hsame hlt
  · exact fun heq => hmark (Option.some.inj heq)
  · exact fun heq => (nomatch heq)
  · exact h

theorem Search.Seen.step {node : Nat} (h : search.Seen node) (hstep : Step graph search next) :
    next.Seen node := by
  cases hstep with
  | leave hstack _ => exact seen_set (by decide) _ h
  | enter hstack hedge hmark => exact seen_set (by decide) _ h
  | close hstack hedge hmark => exact h
  | pass hstack hedge _ _ => exact h

/-- Entering an unseen node changes nothing about what is done. -/
theorem done_enter {node other : Nat} (hmark : search.marks[node]? = some .unseen) :
    (search.enter node).Done other ↔ search.Done other := by
  unfold Search.Done Search.enter
  dsimp only
  by_cases hsame : node = other
  · subst hsame
    rw [List.getElem?_set_self (List.getElem?_eq_some_iff.mp hmark).1, hmark]
    simp
  · rw [List.getElem?_set_ne hsame]

/-- One round keeps the order of finishing. -/
theorem Search.Finishing.step (h : search.Finishing graph) (hsound : search.Sound graph)
    (hsimple : search.Simple graph)
    (hedges : ∀ node target, graph.Edge node target → target < graph.edges.length)
    (hstep : Step graph search next) : next.Finishing graph := by
  cases hstep with
  | @leave node edge stack hstack hedge =>
    intro hcycles
    obtain ⟨⟨order, horder, hdone⟩, hexplored⟩ := h hcycles
    rw [hstack] at hexplored
    have hmono (other : Nat) (hother : search.Done other) :
        Search.Done
          { search with
            marks := search.marks.set node .done, path := search.path.dropLast, stack } other := by
      unfold Search.Done at hother ⊢
      dsimp only
      by_cases hsame : node = other
      · subst hsame
        rw [List.getElem?_set_self (List.getElem?_eq_some_iff.mp hother).1]
      · rw [List.getElem?_set_ne hsame]
        exact hother
    -- Every edge of the node was gone through.
    have hbehind : ∀ target, graph.Edge node target → target ∈ order := by
      intro target htarget
      obtain ⟨index, hindex⟩ := List.mem_iff_getElem?.mp htarget
      have hlt : index < edge :=
        Nat.lt_of_lt_of_le (List.getElem?_eq_some_iff.mp hindex).1
          (List.getElem?_eq_none_iff.mp hedge)
      rcases hexplored.1 index hlt target hindex with hother | habove
      · exact hdone target hother
      · cases habove
    refine ⟨⟨node :: order, .cons hbehind horder, fun other hother => ?_⟩, ?_⟩
    · unfold Search.Done at hother
      dsimp only at hother
      by_cases hsame : node = other
      · exact hsame ▸ List.mem_cons_self
      · rw [List.getElem?_set_ne hsame] at hother
        exact List.mem_cons_of_mem _ (hdone other hother)
    · have hvisited := hsimple.visited node (by rw [hsound.path_eq hstack]; simp)
      exact (hexplored.2.mono hmono).finish
        (List.getElem?_set_self (List.getElem?_eq_some_iff.mp hvisited).1)
  | @enter node edge target stack hstack hedge hmark =>
    intro hcycles
    obtain ⟨⟨order, horder, hdone⟩, hexplored⟩ := h hcycles
    rw [hstack] at hexplored
    have hiff (other : Nat) :=
      @done_enter { search with stack := (node, edge + 1) :: stack } _ other hmark
    refine ⟨⟨order, horder, fun other hother => hdone other ((hiff other).mp hother)⟩, ?_⟩
    refine Explored.mono (fun other hother => (hiff other).mpr hother)
      ⟨fun _ hlt => absurd hlt (Nat.not_lt_zero _), ?_⟩
    refine ⟨fun index hindex other hother => ?_, hexplored.2⟩
    rcases Nat.lt_succ_iff_lt_or_eq.mp hindex with hlt | rfl
    · rcases hexplored.1 index hlt other hother with hdone | habove
      · exact .inl hdone
      · cases habove
    · rw [hedge] at hother
      exact .inr hother
  | close hstack hedge hmark =>
    intro hcycles
    exact absurd hcycles (by simp)
  | @pass node edge target stack hstack hedge hunseen hvisiting =>
    intro hcycles
    obtain ⟨hfinished, hexplored⟩ := h hcycles
    rw [hstack] at hexplored
    refine ⟨hfinished, fun index hindex other hother => ?_, hexplored.2⟩
    rcases Nat.lt_succ_iff_lt_or_eq.mp hindex with hlt | rfl
    · rcases hexplored.1 index hlt other hother with hdone | habove
      · exact .inl hdone
      · cases habove
    · rw [hedge] at hother
      cases hother
      have hlt := hedges node target (List.mem_of_getElem? hedge)
      rw [hsound.marks] at hlt
      refine .inl ?_
      show search.marks[target]? = some .done
      rw [List.getElem?_eq_getElem hlt] at hunseen hvisiting ⊢
      cases hmark : search.marks[target] with
      | unseen => exact absurd (congrArg some hmark) hunseen
      | visiting => exact absurd (congrArg some hmark) hvisiting
      | done => rfl

/-! ## The whole search -/

/-- What holds between two roots, and in every round between them. -/
structure Search.Good (graph : DependencyGraph) (search : Search) : Prop where
  sound : search.Sound graph
  simple : search.Simple graph
  finishing : search.Finishing graph

section

variable (hedges : ∀ node target, graph.Edge node target → target < graph.edges.length)

include hedges

theorem Search.Good.step (h : search.Good graph) (hstep : Step graph search next) :
    next.Good graph :=
  ⟨h.sound.step hstep, h.simple.step h.sound hstep, h.finishing.step h.sound h.simple hedges hstep⟩

theorem Search.Good.explore {fuel : Nat} (h : search.Good graph)
    (hexplore : graph.explore fuel search = some next) :
    next.Good graph ∧ ∀ node, search.Seen node → next.Seen node := by
  induction fuel generalizing search with
  | zero => cases hexplore
  | succ fuel ih =>
    unfold DependencyGraph.explore at hexplore
    cases hstep : graph.step search with
    | none =>
      rw [hstep] at hexplore
      cases hexplore
      exact ⟨h, fun _ hseen => hseen⟩
    | some after =>
      rw [hstep] at hexplore
      have hcases := step_cases hstep
      obtain ⟨hgood, hseen⟩ := ih (h.step hedges hcases) hexplore
      exact ⟨hgood, fun node hnode => hseen node (hnode.step hcases)⟩

/-- From an idle search, a root is explored to the end and seen from then on. -/
theorem Search.Good.exploreRoot (h : search.Good graph) (hidle : search.stack = []) (root : Nat) :
    ∃ final, graph.exploreRoot search root = some final ∧ final.Good graph ∧ final.stack = [] ∧
      final.Seen root ∧ ∀ node, search.Seen node → final.Seen node := by
  obtain ⟨final, hfinal, hsound, hempty⟩ := h.sound.exploreRoot hidle root
  refine ⟨final, hfinal, ?_⟩
  unfold DependencyGraph.exploreRoot at hfinal
  split_ifs at hfinal with hmark
  · have hlt := (List.getElem?_eq_some_iff.mp hmark).1
    have hpath : search.path = [] := by
      rw [h.sound.path, hidle]
      rfl
    have hentered : (search.enter root).Sound graph := by
      refine ⟨h.sound.marks.trans List.length_set.symm, ?_, ?_, fun node hnode => ?_,
        h.sound.cycles⟩
      · unfold Search.enter
        rw [hpath, hidle]
        rfl
      · unfold Search.enter
        rw [hpath]
        exact List.isChain_singleton root
      · unfold Search.enter at hnode ⊢
        rw [List.getElem?_set] at hnode
        split_ifs at hnode with hsame
        · rw [hsame]
          exact List.mem_append_right _ (List.mem_singleton_self _)
        · exact List.mem_append_left _ (h.sound.visiting node hnode)
    have hfinishing : (search.enter root).Finishing graph := by
      intro hcycles
      obtain ⟨⟨order, horder, hdone⟩, -⟩ := h.finishing hcycles
      refine ⟨⟨order, horder, fun other hother => hdone other ((done_enter hmark).mp hother)⟩, ?_⟩
      unfold Search.enter
      rw [hidle]
      exact ⟨fun _ hindex => absurd hindex (Nat.not_lt_zero _), trivial⟩
    obtain ⟨hgood, hseen⟩ := Search.Good.explore hedges ⟨hentered, h.simple.enter hmark,
      hfinishing⟩ hfinal
    refine ⟨hgood, hempty, hseen root ?_, fun node hnode =>
      hseen node (seen_set (by decide) _ hnode)⟩
    show (search.marks.set root .visiting)[root]? ≠ some .unseen
    rw [List.getElem?_set_self hlt]
    exact fun heq => (nomatch heq)
  · cases hfinal
    exact ⟨h, hidle, hmark, fun _ hnode => hnode⟩

theorem Search.Good.foldlM_exploreRoot (h : search.Good graph) (hidle : search.stack = [])
    (roots : List Nat) :
    ∃ final, roots.foldlM graph.exploreRoot search = some final ∧ final.Good graph ∧
      final.stack = [] ∧
      (∀ root ∈ roots, final.Seen root) ∧ ∀ node, search.Seen node → final.Seen node := by
  induction roots generalizing search with
  | nil => exact ⟨search, rfl, h, hidle, by simp, fun _ hnode => hnode⟩
  | cons root roots ih =>
    obtain ⟨after, hafter, hgood, hempty, hroot, hkept⟩ := h.exploreRoot hedges hidle root
    obtain ⟨final, hfinal, hgood', hempty', hroots, hkept'⟩ := ih hgood hempty
    refine ⟨final, ?_, hgood', hempty', ?_, fun node hnode => hkept' node (hkept node hnode)⟩
    · rw [List.foldlM_cons, hafter]
      exact hfinal
    · exact List.forall_mem_cons.mpr ⟨hkept' root hroot, hroots⟩

/-- The search returns. It reports nothing only if no node leads to itself, and what it reports
passes no node twice. -/
theorem exists_cycles_simple : ∃ cycles, graph.cycles = some cycles ∧
    (cycles = [] → ∀ node, ¬Relation.TransGen graph.Edge node node) ∧
    ∀ cycle ∈ cycles, ∃ node between, graph.SimpleWalk node between ∧
      cycle = (node :: between ++ [node]).map graph.name := by
  have hfresh (node : Nat) (mark : Mark) (hmark : (graph.names.map fun _ => Mark.unseen)[node]? =
    some mark) :
      mark = .unseen := by
    rw [List.getElem?_map] at hmark
    obtain ⟨name, -, heq⟩ := Option.map_eq_some_iff.mp hmark
    exact heq.symm
  have hstart : Search.Good graph ⟨graph.names.map fun _ => .unseen, [], [], []⟩ := by
    refine ⟨⟨?_, rfl, List.isChain_nil, fun node hnode => ?_, by simp⟩,
      ⟨.nil, by simp, by simp⟩, fun _ => ?_⟩
    · rw [graph.sized]
      exact (List.length_map _).symm
    · cases hfresh node _ hnode
    · exact ⟨⟨[], .nil, fun node hnode => by cases hfresh node _ hnode⟩, trivial⟩
  obtain ⟨final, hfinal, hgood, hempty, hseen, -⟩ :=
    Search.Good.foldlM_exploreRoot hedges hstart rfl (List.range graph.names.length)
  refine ⟨final.cycles, ?_, fun hcycles node hcycle => ?_, hgood.simple.cycles⟩
  · unfold DependencyGraph.cycles
    rw [hfinal]
    rfl
  · obtain ⟨⟨order, horder, hdone⟩, -⟩ := hgood.finishing hcycles
    have hlt : node < graph.edges.length := by
      obtain ⟨middle, -, hedge⟩ := Relation.TransGen.tail'_iff.mp hcycle
      exact hedges middle node hedge
    have hmarked := hseen node (List.mem_range.mpr (by rw [← graph.sized]; exact hlt))
    refine horder.not_transGen (hdone node ?_) hcycle
    rw [hgood.sound.marks] at hlt
    unfold Search.Seen at hmarked
    unfold Search.Done
    rw [List.getElem?_eq_getElem hlt] at hmarked ⊢
    cases hmark : final.marks[node] with
    | unseen => exact absurd (congrArg some hmark) hmarked
    | visiting =>
      have hpath := hgood.sound.visiting node (by rw [List.getElem?_eq_getElem hlt, hmark])
      rw [hgood.sound.path, hempty] at hpath
      cases hpath
    | done => rfl

end

/-- **The search for cycles is sound and complete**: it returns, it reports nothing exactly where
the resolved graph is acyclic, and every list it reports is a closed walk along dependencies whose
other names are distinct. -/
theorem cycles_new (nodes : List (Str × List Str)) : ∃ cycles, (new nodes).cycles = some cycles ∧
    (cycles = [] ↔ ∀ name, ¬Relation.TransGen (Depends nodes) name name) ∧
    ∀ cycle ∈ cycles, ∃ name between, cycle = name :: between ++ [name] ∧ (name :: between).Nodup ∧
      cycle.IsChain (Depends nodes) := by
  have hedges (node target : Nat) (hedge : (new nodes).Edge node target) :
    target < (new nodes).edges.length := by
    obtain ⟨_, _, -, htarget, -⟩ := edge_new_iff.mp hedge
    rw [(new nodes).sized]
    exact (List.getElem?_eq_some_iff.mp htarget).1
  obtain ⟨cycles, hcycles, hcomplete, hsimple⟩ := exists_cycles_simple hedges
  have hwalks : ∀ cycle ∈ cycles, ∃ name between, cycle = name :: between ++ [name] ∧
    (name :: between).Nodup ∧
      cycle.IsChain (Depends nodes) := by
    intro cycle hcycle
    obtain ⟨node, between, ⟨hchain, hnodup, hlt⟩, rfl⟩ := hsimple cycle hcycle
    refine ⟨(new nodes).name node, between.map (new nodes).name, ?_, ?_, ?_⟩
    · rw [List.map_append, List.map_cons, List.map_singleton]
    · refine List.Nodup.map_on (f := (new nodes).name) (fun id hid other hother heq => ?_) hnodup
      have hname {id : Nat} (hmem : id ∈ node :: between) :
        (declaredNames nodes)[id]? = some ((new nodes).name id) := by
        have hget := List.getElem?_eq_getElem (hlt id hmem)
        rw [name_new hget]
        exact hget
      have hsame := (idOf_eq_some_iff (nodup_declaredNames nodes)).mpr (hname hid)
      rw [heq, (idOf_eq_some_iff (nodup_declaredNames nodes)).mpr (hname hother)] at hsame
      exact (Option.some.inj hsame).symm
    · exact List.isChain_map_of_isChain _ (fun id other hedge => depends_of_edge hedge) hchain
  refine ⟨cycles, hcycles, ⟨fun hnil name hcycle => ?_, fun hacyclic => ?_⟩, hwalks⟩
  · obtain ⟨id, target, hid, htarget, hpath⟩ := transGen_edge hcycle
    have hsame := (idOf_eq_some_iff (nodup_declaredNames nodes)).mpr hid
    rw [(idOf_eq_some_iff (nodup_declaredNames nodes)).mpr htarget] at hsame
    cases hsame
    exact hcomplete hnil id hpath
  · cases cycles with
    | nil => rfl
    | cons cycle rest =>
      obtain ⟨name, between, rfl, -, hchain⟩ := hwalks cycle List.mem_cons_self
      exact absurd (transGen_of_isChain hchain) (hacyclic name)

/-- Two names that depend on each other, declared around a duplicate, and a name that depends on
itself. -/
example :
    (new [("z".toList, ["b".toList]), ("b".toList, []),
    ("b".toList, ["z".toList, "external".toList]),
    ("a".toList, ["a".toList])]).cycles =
      some [["z".toList, "b".toList, "z".toList], ["a".toList, "a".toList]] := by decide

end ParadoxCode.Engine.DependencyGraph
