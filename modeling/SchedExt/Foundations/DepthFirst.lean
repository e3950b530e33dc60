import Mathlib.Data.List.Nodup
import Mathlib.Logic.Relation

/-!
# Depth-first search with a stack

The search takes a node from the end of a stack, passes over it when it has
been visited, and otherwise visits it and stacks its successors.  It ends since
every visit uses up a node of a finite graph or shortens the stack, and visits
exactly what can be reached, each node once.
-/

namespace SchedExt.Foundations

universe u

/-- A graph in which only the listed nodes have successors. -/
structure FiniteGraph (Node : Type u) where
  nodes : List Node
  successors : Node → List Node
  outside : ∀ p, p ∉ nodes → successors p = []

namespace FiniteGraph

variable {Node : Type u} (graph : FiniteGraph Node)

def Edge (p q : Node) : Prop := q ∈ graph.successors p

/-- Reachable by any number of edges. -/
abbrev Reaches : Node → Node → Prop := Relation.ReflTransGen graph.Edge

variable [DecidableEq Node]

/-- The listed nodes that have not been visited. -/
def unvisited (visited : List Node) : List Node :=
  graph.nodes.filter fun p => p ∉ visited

theorem length_unvisited_lt {visited : List Node} {p : Node} (listed : p ∈ graph.nodes)
    (fresh : p ∉ visited) :
    (graph.unvisited (visited ++ [p])).length < (graph.unvisited visited).length := by
  have split : graph.unvisited (visited ++ [p]) = (graph.unvisited visited).filter (· ≠ p) := by
    unfold unvisited
    rw [List.filter_filter]
    apply List.filter_congr
    intro q _
    simp [List.mem_append, and_comm]
  rw [split]
  apply List.length_filter_lt_length_iff_exists.mpr
  refine ⟨p, List.mem_filter.mpr ⟨listed, ?_⟩, ?_⟩
  · exact decide_eq_true fresh
  · simp

theorem unvisited_of_not_mem {visited : List Node} {p : Node} (unlisted : p ∉ graph.nodes) :
    graph.unvisited (visited ++ [p]) = graph.unvisited visited := by
  unfold unvisited
  apply List.filter_congr
  intro q listed
  have apart : q ≠ p := fun same => unlisted (same ▸ listed)
  simp [List.mem_append, apart]

/-- The nodes visited when the stack has been emptied, in the order of their visits. -/
def walk (visited stack : List Node) : List Node :=
  if empty : stack = [] then visited
  else
    let p := stack.getLast empty
    if p ∈ visited then walk visited stack.dropLast
    else walk (visited ++ [p]) (stack.dropLast ++ graph.successors p)
termination_by ((graph.unvisited visited).length, stack.length)
decreasing_by
  · apply Prod.Lex.right
    rw [List.length_dropLast]
    exact Nat.sub_one_lt (mt List.eq_nil_of_length_eq_zero empty)
  · rename_i fresh
    by_cases listed : stack.getLast empty ∈ graph.nodes
    · exact Prod.Lex.left _ _ (graph.length_unvisited_lt listed fresh)
    · rw [graph.outside _ listed, graph.unvisited_of_not_mem listed, List.append_nil]
      apply Prod.Lex.right
      rw [List.length_dropLast]
      exact Nat.sub_one_lt (mt List.eq_nil_of_length_eq_zero empty)

/-! ## One turn of the loop -/

variable {graph} {visited stack : List Node} {p q : Node}

theorem walk_nil (visited : List Node) : graph.walk visited [] = visited := by
  rw [walk, dif_pos rfl]

theorem walk_concat_of_mem (known : p ∈ visited) (stack : List Node) :
    graph.walk visited (stack ++ [p]) = graph.walk visited stack := by
  have filled : stack ++ [p] ≠ [] := List.append_ne_nil_of_right_ne_nil _ (List.cons_ne_nil _ _)
  rw [walk, dif_neg filled]
  dsimp only
  rw [List.getLast_concat, if_pos known, List.dropLast_concat]

theorem walk_concat_of_not_mem (fresh : p ∉ visited) (stack : List Node) :
    graph.walk visited (stack ++ [p]) =
      graph.walk (visited ++ [p]) (stack ++ graph.successors p) := by
  have filled : stack ++ [p] ≠ [] := List.append_ne_nil_of_right_ne_nil _ (List.cons_ne_nil _ _)
  rw [walk, dif_neg filled]
  dsimp only
  rw [List.getLast_concat, if_neg fresh, List.dropLast_concat]

/-- What holds when the loop ends and passes back over each of its turns holds of every search. -/
@[elab_as_elim]
theorem walk_rule {motive : List Node → List Node → Prop}
    (done : ∀ visited, motive visited [])
    (skip : ∀ visited stack p, p ∈ visited → motive visited stack →
      motive visited (stack ++ [p]))
    (visit : ∀ visited stack p, p ∉ visited →
      motive (visited ++ [p]) (stack ++ graph.successors p) → motive visited (stack ++ [p]))
    (visited stack : List Node) : motive visited stack := by
  induction visited, stack using walk.induct graph with
  | case1 visited => exact done visited
  | case2 visited stack filled p known ih =>
      rw [← List.dropLast_concat_getLast filled]
      exact skip visited stack.dropLast _ known ih
  | case3 visited stack filled p fresh ih =>
      rw [← List.dropLast_concat_getLast filled]
      exact visit visited stack.dropLast _ fresh ih

/-- One turn of the loop, as a step from the visited nodes and the stack to the next ones. -/
inductive Turn (graph : FiniteGraph Node) : List Node × List Node → List Node × List Node → Prop
  | skip {visited stack : List Node} {p : Node} (known : p ∈ visited) :
      Turn graph (visited, stack ++ [p]) (visited, stack)
  | visit {visited stack : List Node} {p : Node} (fresh : p ∉ visited) :
      Turn graph (visited, stack ++ [p]) (visited ++ [p], stack ++ graph.successors p)

/-- Turn by turn the loop comes to an empty stack. -/
theorem turns_walk (graph : FiniteGraph Node) (visited stack : List Node) :
    Relation.ReflTransGen graph.Turn (visited, stack) (graph.walk visited stack, []) := by
  induction visited, stack using graph.walk_rule with
  | done visited =>
      rw [walk_nil]
  | skip visited stack p known ih =>
      rw [walk_concat_of_mem known]
      exact .head (.skip known) ih
  | visit visited stack p fresh ih =>
      rw [walk_concat_of_not_mem fresh]
      exact .head (.visit fresh) ih

/-! ## What is visited -/

/-- Nodes visited already stay in front. -/
theorem exists_walk_eq_append (graph : FiniteGraph Node) (visited stack : List Node) :
    ∃ later, graph.walk visited stack = visited ++ later := by
  induction visited, stack using graph.walk_rule with
  | done visited => exact ⟨[], by rw [walk_nil, List.append_nil]⟩
  | skip visited stack p known ih =>
      rw [walk_concat_of_mem known]
      exact ih
  | visit visited stack p fresh ih =>
      rw [walk_concat_of_not_mem fresh]
      obtain ⟨later, whole⟩ := ih
      exact ⟨p :: later, by rw [whole, List.append_assoc, List.singleton_append]⟩

theorem mem_walk_of_visited (known : p ∈ visited) (stack : List Node) :
    p ∈ graph.walk visited stack := by
  obtain ⟨later, whole⟩ := graph.exists_walk_eq_append visited stack
  rw [whole]
  exact List.mem_append_left later known

/-- No node is visited twice. -/
theorem nodup_walk (distinct : visited.Nodup) (stack : List Node) :
    (graph.walk visited stack).Nodup := by
  induction visited, stack using graph.walk_rule with
  | done visited =>
      rw [walk_nil]
      exact distinct
  | skip visited stack p known ih =>
      rw [walk_concat_of_mem known]
      exact ih distinct
  | visit visited stack p fresh ih =>
      rw [walk_concat_of_not_mem fresh]
      exact ih (List.concat_eq_append ▸ distinct.concat fresh)

/-- Whatever is visited has been visited before or can be reached from the stack. -/
theorem reaches_of_mem_walk (member : q ∈ graph.walk visited stack) :
    q ∈ visited ∨ ∃ p ∈ stack, graph.Reaches p q := by
  induction visited, stack using graph.walk_rule with
  | done visited =>
      rw [walk_nil] at member
      exact .inl member
  | skip visited stack p known ih =>
      rw [walk_concat_of_mem known] at member
      refine (ih member).imp_right ?_
      rintro ⟨origin, stacked, path⟩
      exact ⟨origin, List.mem_append_left _ stacked, path⟩
  | visit visited stack p fresh ih =>
      rw [walk_concat_of_not_mem fresh] at member
      have top : p ∈ stack ++ [p] := List.mem_append_right _ (List.mem_singleton_self p)
      rcases ih member with before | ⟨origin, stacked, path⟩
      · rcases List.mem_append.mp before with known | atEnd
        · exact .inl known
        · exact .inr ⟨p, top, List.mem_singleton.mp atEnd ▸ .refl⟩
      · rcases List.mem_append.mp stacked with below | successor
        · exact .inr ⟨origin, List.mem_append_left _ below, path⟩
        · exact .inr ⟨p, top, .head successor path⟩

/-- Every node on the stack is visited. -/
theorem mem_walk_of_stacked (stacked : p ∈ stack) : p ∈ graph.walk visited stack := by
  induction visited, stack using graph.walk_rule with
  | done visited => cases stacked
  | skip visited stack top known ih =>
      rw [walk_concat_of_mem known]
      rcases List.mem_append.mp stacked with below | atEnd
      · exact ih below
      · rw [List.mem_singleton.mp atEnd]
        exact mem_walk_of_visited known stack
  | visit visited stack top fresh ih =>
      rw [walk_concat_of_not_mem fresh]
      rcases List.mem_append.mp stacked with below | atEnd
      · exact ih (List.mem_append_left _ below)
      · rw [List.mem_singleton.mp atEnd]
        exact mem_walk_of_visited (List.mem_append_right _ (List.mem_singleton_self top)) _

/-- The search is closed when every successor of a visited node is visited or on the stack. -/
theorem closed_walk
    (pending : ∀ p ∈ visited, ∀ q, graph.Edge p q → q ∈ visited ∨ q ∈ stack) :
    ∀ p ∈ graph.walk visited stack, ∀ q, graph.Edge p q → q ∈ graph.walk visited stack := by
  induction visited, stack using graph.walk_rule with
  | done visited =>
      rw [walk_nil]
      intro p known q edge
      exact (pending p known q edge).resolve_right List.not_mem_nil
  | skip visited stack top known ih =>
      rw [walk_concat_of_mem known]
      apply ih
      intro p before q edge
      rcases pending p before q edge with seen | stacked
      · exact .inl seen
      · rcases List.mem_append.mp stacked with below | atEnd
        · exact .inr below
        · rw [List.mem_singleton.mp atEnd]
          exact .inl known
  | visit visited stack top fresh ih =>
      rw [walk_concat_of_not_mem fresh]
      apply ih
      intro p before q edge
      rcases List.mem_append.mp before with known | atEnd
      · rcases pending p known q edge with seen | stacked
        · exact .inl (List.mem_append_left _ seen)
        · rcases List.mem_append.mp stacked with below | isTop
          · exact .inr (List.mem_append_left _ below)
          · exact .inl (List.mem_append_right _ isTop)
      · rw [List.mem_singleton.mp atEnd] at edge
        exact .inr (List.mem_append_right _ edge)

/-- A search from one node visits exactly what can be reached from it. -/
theorem mem_walk_iff (start : Node) : q ∈ graph.walk [] [start] ↔ graph.Reaches start q := by
  constructor
  · intro member
    rcases reaches_of_mem_walk member with impossible | ⟨origin, stacked, path⟩
    · cases impossible
    · rw [List.mem_singleton.mp stacked] at path
      exact path
  · intro path
    induction path with
    | refl => exact mem_walk_of_stacked (List.mem_singleton_self start)
    | tail _ edge ih => exact closed_walk (List.forall_mem_nil _) _ ih _ edge

/-- A search from one node visits it first. -/
theorem head?_walk (graph : FiniteGraph Node) (start : Node) :
    (graph.walk [] [start]).head? = some start := by
  have first : graph.walk [] [start] = graph.walk [start] (graph.successors start) :=
    walk_concat_of_not_mem List.not_mem_nil []
  obtain ⟨later, whole⟩ := graph.exists_walk_eq_append [start] (graph.successors start)
  rw [first, whole]
  rfl

end FiniteGraph

end SchedExt.Foundations
