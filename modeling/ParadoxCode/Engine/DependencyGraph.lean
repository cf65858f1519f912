import Mathlib.Data.List.Chain
import ParadoxCode.Text

/-!
# Dependency graphs

`structure.rs` of the engine: a graph of named nodes and the depth-first search for its cycles, with
an explicit stack. Every step of the search uses up an edge or a node, so it ends, and every cycle
it reports is a closed walk along edges of the graph.
-/

namespace ParadoxCode.Engine

/-- Name-resolved dependency graph. A node is the index of its name. -/
structure DependencyGraph where
  names : List Str
  edges : List (List Nat)
  sized : edges.length = names.length
  deriving DecidableEq

/-- The position of a name among the nodes. -/
def idOf (names : List Str) (name : Str) : Option Nat := names.findIdx? fun known => known == name

/-- The names in the order of their first declarations. -/
def declaredNames (nodes : List (Str × List Str)) : List Str :=
  nodes.foldl (fun names node => if node.1 ∈ names then names else names ++ [node.1]) []

/-- The edges of a declaration replace those of an earlier one. -/
def declareEdges (names : List Str) (edges : List (List Nat)) (node : Str × List Str) :
    List (List Nat) :=
  match idOf names node.1 with
  | some id => edges.set id (node.2.filterMap (idOf names))
  | none => edges

theorem length_declareEdges (names : List Str) (edges : List (List Nat)) (node : Str × List Str) :
    (declareEdges names edges node).length = edges.length := by
  unfold declareEdges
  split
  · exact List.length_set
  · rfl

namespace DependencyGraph

/-- `DependencyGraph::new`. -/
def new (nodes : List (Str × List Str)) : DependencyGraph where
  names := declaredNames nodes
  edges := nodes.foldl (declareEdges (declaredNames nodes))
    (List.replicate (declaredNames nodes).length [])
  sized := by
    refine List.foldlRecOn (motive := fun (edges : List (List Nat)) => edges.length =
      (declaredNames nodes).length) _ _ List.length_replicate fun edges h node _ => ?_
    rw [length_declareEdges, h]

/-- The nodes that a node depends on. -/
def targets (graph : DependencyGraph) (node : Nat) : List Nat := graph.edges[node]?.getD []

def name (graph : DependencyGraph) (node : Nat) : Str := graph.names[node]?.getD []

/-- There is an edge from one node to another. -/
def Edge (graph : DependencyGraph) (node next : Nat) : Prop := next ∈ graph.targets node

/-! ## The search -/

/-- `0`, `1` and `2` in the source. -/
inductive Mark where
  | unseen
  | visiting
  | done
  deriving DecidableEq

/-- The state of the search. The last element of the stack of the source comes first. -/
structure Search where
  marks : List Mark
  path : List Nat
  stack : List (Nat × Nat)
  cycles : List (List Str)
  deriving DecidableEq

/-- The cycle that an edge back to a node on the path closes. -/
def closedCycle (graph : DependencyGraph) (path : List Nat) (next : Nat) : List Str :=
  (path.drop (path.findIdx fun node => node == next) ++ [next]).map graph.name

/-- Enters a node. -/
def Search.enter (search : Search) (node : Nat) : Search :=
  { search with
    marks := search.marks.set node .visiting
    path := search.path ++ [node]
    stack := (node, 0) :: search.stack }

/-- One round of the inner loop. -/
def step (graph : DependencyGraph) (search : Search) : Option Search :=
  match search.stack with
  | [] => none
  | (node, edge) :: stack =>
    match (graph.targets node)[edge]? with
    | none => some { search with
        marks := search.marks.set node .done
        path := search.path.dropLast
        stack }
    | some next =>
      let search : Search := { search with stack := (node, edge + 1) :: stack }
      match search.marks[next]? with
      | some .unseen => some (search.enter next)
      | some .visiting =>
        some { search with cycles := search.cycles ++ [graph.closedCycle search.path next] }
      | _ => some search

/-- The inner loop: it ends when the stack is empty. -/
def explore (graph : DependencyGraph) : Nat → Search → Option Search
  | 0, _ => none
  | fuel + 1, search =>
    match graph.step search with
    | none => some search
    | some next => graph.explore fuel next

/-- The rounds that a search can take: one for every edge and one for every node. -/
def rounds (graph : DependencyGraph) : Nat :=
  (graph.edges.map fun targets => targets.length + 1).sum

/-- The search from one root. -/
def exploreRoot (graph : DependencyGraph) (search : Search) (root : Nat) : Option Search :=
  if search.marks[root]? = some .unseen then graph.explore (graph.rounds + 1) (search.enter root)
  else some search

/-- `DependencyGraph::cycles`. -/
def cycles (graph : DependencyGraph) : Option (List (List Str)) :=
  ((List.range graph.names.length).foldlM graph.exploreRoot
    ⟨graph.names.map fun _ => .unseen, [], [], []⟩).map Search.cycles

/-! ## The search ends -/

variable {graph : DependencyGraph} {search next : Search}

/-- What a round does: it leaves the node on top, enters a node, closes a cycle or passes an edge
by. -/
inductive Step (graph : DependencyGraph) (search : Search) : Search → Prop
  | leave {node edge : Nat} {stack : List (Nat × Nat)}
      (hstack : search.stack = (node, edge) :: stack)
    (hedge : (graph.targets node)[edge]? = none) :
    Step graph search { search with
      marks := search.marks.set node .done
      path := search.path.dropLast
      stack }
  | enter {node edge target : Nat} {stack : List (Nat × Nat)}
    (hstack : search.stack = (node, edge) :: stack)
      (hedge : (graph.targets node)[edge]? = some target)
    (hmark : search.marks[target]? = some .unseen) :
    Step graph search (Search.enter { search with stack := (node, edge + 1) :: stack } target)
  | close {node edge target : Nat} {stack : List (Nat × Nat)}
    (hstack : search.stack = (node, edge) :: stack)
      (hedge : (graph.targets node)[edge]? = some target)
    (hmark : search.marks[target]? = some .visiting) :
    Step graph search { search with
      stack := (node, edge + 1) :: stack
      cycles := search.cycles ++ [graph.closedCycle search.path target] }
  | pass {node edge target : Nat} {stack : List (Nat × Nat)}
    (hstack : search.stack = (node, edge) :: stack)
    (hedge : (graph.targets node)[edge]? = some target)
      (hunseen : search.marks[target]? ≠ some .unseen)
    (hvisiting : search.marks[target]? ≠ some .visiting) :
    Step graph search { search with stack := (node, edge + 1) :: stack }

theorem step_cases (h : graph.step search = some next) : Step graph search next := by
  unfold step at h
  split at h
  · cases h
  · rename_i node edge stack hstack
    split at h
    · rename_i hedge
      cases h
      exact .leave hstack hedge
    · rename_i target hedge
      dsimp only at h
      split at h
      · rename_i hmark
        cases h
        exact .enter hstack hedge hmark
      · rename_i hmark
        cases h
        exact .close hstack hedge hmark
      · rename_i hunseen hvisiting
        cases h
        exact .pass hstack hedge hunseen hvisiting

/-- The rounds that the unseen nodes still take. -/
def unseenRounds (marks : List Mark) (edges : List (List Nat)) : Nat :=
  ((marks.zip edges).map fun (mark, targets) => if mark = .unseen then
    targets.length + 1 else 0).sum

/-- The rounds that the entered nodes still take. -/
def stackRounds (graph : DependencyGraph) (stack : List (Nat × Nat)) : Nat :=
  (stack.map fun (node, edge) => (graph.targets node).length - edge + 1).sum

/-- The rounds that are left. -/
def Search.rounds (graph : DependencyGraph) (search : Search) : Nat :=
  unseenRounds search.marks graph.edges + graph.stackRounds search.stack

theorem unseenRounds_set_le {mark : Mark} (hmark : mark ≠ .unseen) (marks : List Mark)
    (edges : List (List Nat)) (node : Nat) :
    unseenRounds (marks.set node mark) edges ≤ unseenRounds marks edges := by
  induction marks generalizing edges node with
  | nil => exact le_rfl
  | cons first marks ih =>
    cases edges with
    | nil => simp [unseenRounds]
    | cons targets edges =>
      cases node with
      | zero => simp [unseenRounds, hmark]
      | succ node =>
        have := ih edges node
        simp only [unseenRounds, List.set_cons_succ, List.zip_cons_cons, List.map_cons,
          List.sum_cons] at *
        omega

theorem unseenRounds_enter {marks : List Mark} {edges : List (List Nat)} {node : Nat}
    (hmark : marks[node]? = some .unseen) (hlen : edges.length = marks.length) :
    unseenRounds (marks.set node .visiting) edges + ((edges[node]?.getD []).length + 1) =
      unseenRounds marks edges := by
  induction marks generalizing edges node with
  | nil => cases hmark
  | cons first marks ih =>
    cases edges with
    | nil => cases hlen
    | cons targets edges =>
      cases node with
      | zero =>
        cases hmark
        simp [unseenRounds, Nat.add_comm]
      | succ node =>
        have := ih hmark (Nat.succ.inj hlen)
        simp only [unseenRounds, List.set_cons_succ, List.zip_cons_cons, List.map_cons,
          List.sum_cons, List.getElem?_cons_succ] at *
        omega

theorem unseenRounds_le (marks : List Mark) (edges : List (List Nat)) :
    unseenRounds marks edges ≤ (edges.map fun targets => targets.length + 1).sum := by
  induction edges generalizing marks with
  | nil => simp [unseenRounds]
  | cons targets edges ih =>
    cases marks with
    | nil => simp [unseenRounds]
    | cons mark marks =>
      have := ih marks
      simp only [unseenRounds, List.zip_cons_cons, List.map_cons, List.sum_cons] at *
      split_ifs <;> omega

/-- Every round uses up one of the rounds that are left. -/
theorem rounds_step (hmarks : graph.edges.length = search.marks.length)
    (h : Step graph search next) : next.rounds graph + 1 ≤ search.rounds graph := by
  have hpass {node edge target : Nat} {stack : List (Nat × Nat)}
      (hstack : search.stack = (node, edge) :: stack)
      (hedge : (graph.targets node)[edge]? = some target) :
      graph.stackRounds ((node, edge + 1) :: stack) + 1 = graph.stackRounds search.stack := by
    have hlt := (List.getElem?_eq_some_iff.mp hedge).1
    rw [hstack]
    simp only [stackRounds, List.map_cons, List.sum_cons]
    omega
  unfold Search.rounds
  cases h with
  | @leave node edge stack hstack _ =>
    have hdone : Mark.done ≠ .unseen := by decide
    have hle := unseenRounds_set_le hdone search.marks graph.edges node
    rw [hstack]
    simp only [stackRounds, List.map_cons, List.sum_cons]
    omega
  | @enter node edge target stack hstack hedge hmark =>
    have hset := unseenRounds_enter hmark hmarks
    have hrest := hpass hstack hedge
    simp only [Search.enter, stackRounds, targets, List.map_cons, List.sum_cons, Nat.sub_zero] at *
    omega
  | close hstack hedge hmark =>
    have := hpass hstack hedge
    dsimp only
    omega
  | pass hstack hedge _ _ =>
    have := hpass hstack hedge
    dsimp only
    omega

theorem length_marks_step (h : Step graph search next) :
    next.marks.length = search.marks.length := by
  cases h <;> simp [Search.enter]

theorem exists_explore {fuel : Nat} (hmarks : graph.edges.length = search.marks.length)
    (hfuel : search.rounds graph < fuel) : ∃ final, graph.explore fuel search = some final := by
  induction fuel generalizing search with
  | zero => exact absurd hfuel (Nat.not_lt_zero _)
  | succ fuel ih =>
    unfold explore
    cases hstep : graph.step search with
    | none => exact ⟨search, rfl⟩
    | some next =>
      have hcases := step_cases hstep
      have hrounds := rounds_step hmarks hcases
      exact ih (by rw [hmarks, length_marks_step hcases]) (by omega)

/-! ## Reported cycles -/

/-- A walk along edges that ends where it starts. -/
def ClosedWalk (graph : DependencyGraph) (walk : List Nat) : Prop :=
  ∃ node between, walk = node :: between ++ [node] ∧ walk.IsChain graph.Edge

/-- The path leads along edges to the node on top, holds every node that is being visited, and all
reported cycles are closed walks. -/
structure Search.Sound (graph : DependencyGraph) (search : Search) : Prop where
  marks : graph.edges.length = search.marks.length
  path : search.path = (search.stack.map Prod.fst).reverse
  chain : search.path.IsChain graph.Edge
  visiting : ∀ node, search.marks[node]? = some .visiting → node ∈ search.path
  cycles : ∀ cycle ∈ search.cycles, ∃ walk, graph.ClosedWalk walk ∧ cycle = walk.map graph.name

theorem transGen_of_isChain {α : Type} {r : α → α → Prop} {a b : α} {between : List α}
    (h : (a :: between ++ [b]).IsChain r) : Relation.TransGen r a b := by
  induction between generalizing a with
  | nil => exact .single (List.isChain_cons_cons.mp h).1
  | cons c between ih =>
    obtain ⟨hac, hrest⟩ := List.isChain_cons_cons.mp h
    exact .head hac (ih hrest)

theorem ClosedWalk.transGen {walk : List Nat} (h : graph.ClosedWalk walk) :
    ∃ node, Relation.TransGen graph.Edge node node := by
  obtain ⟨node, between, rfl, hchain⟩ := h
  exact ⟨node, transGen_of_isChain hchain⟩

variable {stack : List (Nat × Nat)}

/-- The path ends in the node on top of the stack. -/
theorem Search.Sound.path_eq (h : search.Sound graph) {node edge : Nat}
    (hstack : search.stack = (node, edge) :: stack) :
    search.path = (stack.map Prod.fst).reverse ++ [node] := by
  rw [h.path, hstack, List.map_cons, List.reverse_cons]

/-- Moving on to the next edge of the node on top leaves the path as it is. -/
theorem Search.Sound.path_advance (h : search.Sound graph) {node edge : Nat}
    (hstack : search.stack = (node, edge) :: stack) :
    search.path = (((node, edge + 1) :: stack).map Prod.fst).reverse := by
  rw [h.path_eq hstack, List.map_cons, List.reverse_cons]

/-- A path extended by an edge is a path. -/
theorem Search.Sound.chain_append (h : search.Sound graph) {node edge target : Nat}
    (hstack : search.stack = (node, edge) :: stack)
    (hedge : (graph.targets node)[edge]? = some target) :
    (search.path ++ [target]).IsChain graph.Edge := by
  refine List.isChain_append.mpr ⟨h.chain, List.isChain_singleton _, ?_⟩
  rw [h.path_eq hstack, List.getLast?_concat]
  rintro last hlast first hfirst
  cases hlast
  cases hfirst
  exact List.mem_of_getElem? hedge

/-- The path from a node on it. -/
theorem drop_findIdx_of_mem {path : List Nat} {target : Nat} (hmem : target ∈ path) :
    path.drop (path.findIdx fun node => node == target) =
      target :: path.drop ((path.findIdx fun node => node == target) + 1) := by
  have hlt : (path.findIdx fun node => node == target) < path.length :=
    List.findIdx_lt_length_of_exists ⟨target, hmem, beq_self_eq_true target⟩
  rw [List.drop_eq_getElem_cons hlt, eq_of_beq (List.findIdx_getElem (w := hlt))]

theorem Search.Sound.closedWalk (h : search.Sound graph) {node edge target : Nat}
    (hstack : search.stack = (node, edge) :: stack)
    (hedge : (graph.targets node)[edge]? = some target) (hmem : target ∈ search.path) :
    graph.ClosedWalk (search.path.drop (search.path.findIdx fun node => node == target) ++
      [target]) := by
  refine ⟨target, search.path.drop ((search.path.findIdx fun node => node == target) + 1), ?_, ?_⟩
  · rw [drop_findIdx_of_mem hmem]
  · have hchain := h.chain_append hstack hedge
    rw [← List.take_append_drop (search.path.findIdx fun node => node == target) search.path,
      List.append_assoc] at hchain
    exact (List.isChain_append.mp hchain).2.1

/-- One round keeps the search sound. -/
theorem Search.Sound.step (h : search.Sound graph) (hstep : Step graph search next) :
    next.Sound graph := by
  have hmarks := h.marks.trans (length_marks_step hstep).symm
  cases hstep with
  | @leave node edge stack hstack _ =>
    have hpath := h.path_eq hstack
    refine ⟨hmarks, ?_, ?_, fun visited hvisited => ?_, h.cycles⟩
    · dsimp only
      rw [hpath, List.dropLast_concat]
    · exact h.chain.prefix (List.dropLast_prefix _)
    · rw [List.getElem?_set] at hvisited
      split_ifs at hvisited with hsame hlt
      · cases hvisited
      · have hmem := h.visiting visited hvisited
        rw [hpath, List.mem_append, List.mem_singleton] at hmem
        dsimp only
        rw [hpath, List.dropLast_concat]
        exact hmem.resolve_right fun heq => hsame heq.symm
  | @enter node edge target stack hstack hedge hmark =>
    refine ⟨hmarks, ?_, h.chain_append hstack hedge, fun visited hvisited => ?_, h.cycles⟩
    · unfold Search.enter
      rw [List.map_cons, List.reverse_cons, ← h.path_advance hstack]
    · unfold Search.enter at hvisited ⊢
      rw [List.mem_append, List.mem_singleton]
      rw [List.getElem?_set] at hvisited
      split_ifs at hvisited with hsame hlt
      · exact Or.inr hsame.symm
      · exact Or.inl (h.visiting visited hvisited)
  | @close node edge target stack hstack hedge hmark =>
    refine ⟨hmarks, h.path_advance hstack, h.chain, h.visiting, fun cycle hcycle => ?_⟩
    rw [List.mem_append, List.mem_singleton] at hcycle
    rcases hcycle with hcycle | rfl
    · exact h.cycles cycle hcycle
    · exact ⟨_, h.closedWalk hstack hedge (h.visiting target hmark), rfl⟩
  | pass hstack hedge _ _ =>
    exact ⟨hmarks, h.path_advance hstack, h.chain, h.visiting, h.cycles⟩

theorem Search.Sound.explore {fuel : Nat} (h : search.Sound graph)
    (hexplore : graph.explore fuel search = some next) : next.Sound graph ∧ next.stack = [] := by
  induction fuel generalizing search with
  | zero => cases hexplore
  | succ fuel ih =>
    unfold DependencyGraph.explore at hexplore
    cases hstep : graph.step search with
    | none =>
      rw [hstep] at hexplore
      cases hexplore
      refine ⟨h, ?_⟩
      unfold DependencyGraph.step at hstep
      split at hstep
      · assumption
      · split at hstep
        · cases hstep
        · dsimp only at hstep
          split at hstep <;> cases hstep
    | some after =>
      rw [hstep] at hexplore
      exact ih (h.step (step_cases hstep)) hexplore

/-- From an idle search, a root is explored to the end. -/
theorem Search.Sound.exploreRoot (h : search.Sound graph) (hidle : search.stack = []) (root : Nat) :
    ∃ final, graph.exploreRoot search root = some final ∧ final.Sound graph ∧ final.stack = [] := by
  unfold DependencyGraph.exploreRoot
  split_ifs with hmark
  · have hpath : search.path = [] := by rw [h.path, hidle]; rfl
    have hlen : graph.edges.length = (search.enter root).marks.length := by
      rw [h.marks]
      exact List.length_set.symm
    have hentered : (search.enter root).Sound graph := by
      refine ⟨hlen, ?_, ?_, fun node hnode => ?_, h.cycles⟩
      · unfold Search.enter
        rw [hpath, hidle]
        rfl
      · unfold Search.enter
        rw [hpath]
        exact List.isChain_singleton root
      · unfold Search.enter at hnode ⊢
        rw [List.getElem?_set] at hnode
        split_ifs at hnode with hsame hlt
        · rw [hsame]
          exact List.mem_append_right _ (List.mem_singleton_self _)
        · exact List.mem_append_left _ (h.visiting node hnode)
    have hrounds : (search.enter root).rounds graph ≤ graph.rounds := by
      have hset := unseenRounds_enter hmark h.marks
      have hall := unseenRounds_le search.marks graph.edges
      unfold Search.rounds Search.enter DependencyGraph.rounds
      simp only [stackRounds, hidle, targets, List.map_cons, List.map_nil, List.sum_cons,
        List.sum_nil] at *
      omega
    obtain ⟨final, hfinal⟩ := exists_explore hlen (Nat.lt_succ_of_le hrounds)
    exact ⟨final, hfinal, hentered.explore hfinal⟩
  · exact ⟨search, rfl, h, hidle⟩

theorem exists_foldlM_exploreRoot (h : search.Sound graph) (hidle : search.stack = [])
    (roots : List Nat) :
    ∃ final, roots.foldlM graph.exploreRoot search = some final ∧ final.Sound graph := by
  induction roots generalizing search with
  | nil => exact ⟨search, rfl, h⟩
  | cons root roots ih =>
    obtain ⟨after, hafter, hsound, hempty⟩ := h.exploreRoot hidle root
    obtain ⟨final, hfinal, hsound'⟩ := ih hsound hempty
    refine ⟨final, ?_, hsound'⟩
    rw [List.foldlM_cons, hafter]
    exact hfinal

/-- The search returns, and every cycle that it reports is a closed walk along edges. -/
theorem exists_cycles (graph : DependencyGraph) :
    ∃ cycles, graph.cycles = some cycles ∧
      ∀ cycle ∈ cycles, ∃ walk, graph.ClosedWalk walk ∧ cycle = walk.map graph.name := by
  have hstart : Search.Sound graph ⟨graph.names.map fun _ => .unseen, [], [], []⟩ := by
    refine ⟨?_, rfl, List.isChain_nil, fun node hnode => ?_, fun _ hcycle => ?_⟩
    · rw [graph.sized]
      exact (List.length_map _).symm
    · rw [List.getElem?_map] at hnode
      obtain ⟨name, -, hmark⟩ := Option.map_eq_some_iff.mp hnode
      cases hmark
    · cases hcycle
  obtain ⟨final, hfinal, hsound⟩ := exists_foldlM_exploreRoot hstart rfl
    (List.range graph.names.length)
  refine ⟨final.cycles, ?_, hsound.cycles⟩
  unfold DependencyGraph.cycles
  rw [hfinal]
  rfl

/-! ## The edges of declarations -/

theorem getElem?_of_idOf {names : List Str} {name : Str} {id : Nat}
    (h : idOf names name = some id) : names[id]? = some name := by
  obtain ⟨hlt, hname, -⟩ := List.findIdx?_eq_some_iff_getElem.mp h
  rw [List.getElem?_eq_getElem hlt, eq_of_beq hname]

theorem mem_declaredNames {nodes : List (Str × List Str)} {name : Str}
    (h : name ∈ declaredNames nodes) : name ∈ nodes.map Prod.fst := by
  revert h
  refine List.foldlRecOn (motive := fun (names : List Str) =>
    name ∈ names → name ∈ nodes.map Prod.fst) _ _ (fun hnil => by cases hnil)
    fun names ih node hnode h => ?_
  split_ifs at h
  · exact ih h
  · rcases List.mem_append.mp h with h | h
    · exact ih h
    · rw [List.mem_singleton.mp h]
      exact List.mem_map_of_mem hnode

/-- An edge comes from the declaration of its node, and leads to a declared name. -/
def Declares (nodes : List (Str × List Str)) (id target : Nat) : Prop :=
  ∃ node ∈ nodes, (new nodes).name id = node.1 ∧ (new nodes).name target ∈ node.2 ∧
    (new nodes).name target ∈ nodes.map Prod.fst

theorem declares_of_edge {nodes : List (Str × List Str)} {id target : Nat}
    (h : (new nodes).Edge id target) : Declares nodes id target := by
  have hdeclared : ∀ id targets, (new nodes).edges[id]? = some targets → ∀ target ∈ targets,
      Declares nodes id target := by
    refine List.foldlRecOn (motive := fun (edges : List (List Nat)) => ∀ id targets,
      edges[id]? = some targets → ∀ target ∈ targets, Declares nodes id target) _ _ ?_ ?_
    · intro id targets htargets target htarget
      rw [(List.mem_replicate.mp (List.mem_of_getElem? htargets)).2] at htarget
      cases htarget
    · intro edges ih node hnode id targets htargets target htarget
      unfold declareEdges at htargets
      split at htargets
      · rename_i declared hdeclared
        rw [List.getElem?_set] at htargets
        split_ifs at htargets with hsame hlt
        · cases htargets
          subst hsame
          obtain ⟨dependency, hdependency, hid⟩ := List.mem_filterMap.mp htarget
          have hname : (new nodes).name declared = node.1 := by
            unfold name
            rw [show (new nodes).names[declared]? = some node.1 from getElem?_of_idOf hdeclared]
            rfl
          have hfound : (new nodes).names[target]? = some dependency := getElem?_of_idOf hid
          have htargetName : (new nodes).name target = dependency := by
            unfold name
            rw [hfound]
            rfl
          refine ⟨node, hnode, hname, ?_, ?_⟩
          · rw [htargetName]
            exact hdependency
          · rw [htargetName]
            exact mem_declaredNames (List.mem_of_getElem? hfound)
        · exact ih id targets htargets target htarget
      · exact ih id targets htargets target htarget
  unfold Edge targets at h
  cases htargets : (new nodes).edges[id]? with
  | none =>
    rw [htargets] at h
    cases h
  | some targets =>
    rw [htargets] at h
    exact hdeclared id targets htargets target h

end DependencyGraph

end ParadoxCode.Engine
