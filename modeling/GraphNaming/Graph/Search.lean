import GraphNaming.Graph.Basic

/-!
# The order of a model's nodes by a search

The nodes of a model can be put in order without recursion. The search goes along the values that
nodes take, and keeps the way to where it is on a stack. A node counts as met from the moment it is
put on the stack, and comes into the order when it is taken off.

* `Graph.drain?`: goes on with the search until the stack is empty.
* `Graph.searchOrder?`: the parameters of a model, and then what a search from each result finds.
-/

namespace GraphNaming

/-- A node that is not done, with those of the values it takes that were not followed yet. -/
structure Frame where
  id : NodeId
  inputs : List Value
  deriving DecidableEq

namespace Graph

/-- How many nodes of the graph are not in `met`. -/
def unmet (graph : Graph) (met : List NodeId) : Nat :=
  ((List.range graph.nodes.size).filter fun n => ⟨n⟩ ∉ met).length

theorem unmet_cons_lt {graph : Graph} {met : List NodeId} {id : NodeId} {node : Node}
    (hn : graph.node? id = some node) (hid : id ∉ met) :
    graph.unmet (id :: met) < graph.unmet met := by
  have hfilter : (List.range graph.nodes.size).filter (fun n => ⟨n⟩ ∉ id :: met) =
      ((List.range graph.nodes.size).filter fun n => ⟨n⟩ ∉ met).filter fun n => ⟨n⟩ ≠ id := by
    rw [List.filter_filter]
    refine List.filter_congr fun n _ => ?_
    simp [not_or]
  have hlt : id.number < graph.nodes.size := (Array.getElem?_eq_some_iff.1 hn).1
  rw [unmet, hfilter]
  refine List.length_filter_lt_length_iff_exists.2 ⟨id.number, ?_, by simp⟩
  exact List.mem_filter.2 ⟨List.mem_range.2 hlt, by simpa using hid⟩

/-- The steps that the stack takes if no more nodes are met. -/
def pending : List Frame → Nat
  | [] => 0
  | frame :: stack => frame.inputs.length + 1 + pending stack

/-- Follows the values that are left on the stack, the top first. The nodes `met` are not met
again, and a node that is done comes to the end of `order`. -/
def drain? (graph : Graph) (met order : List NodeId) :
    List Frame → Option (List NodeId × List NodeId)
  | [] => some (met, order)
  | ⟨id, []⟩ :: stack => graph.drain? met (order ++ [id]) stack
  | ⟨id, value :: inputs⟩ :: stack =>
    if _hmet : value.node ∈ met then graph.drain? met order (⟨id, inputs⟩ :: stack)
    else match _hn : graph.node? value.node with
      | none => none
      | some node => graph.drain? (value.node :: met) order
          (⟨value.node, node.inputs⟩ :: ⟨id, inputs⟩ :: stack)
termination_by stack => (graph.unmet met, pending stack)
decreasing_by
  · exact Prod.Lex.right _ (by simp [pending])
  · exact Prod.Lex.right _ (by simp [pending])
  · exact Prod.Lex.left _ _ (unmet_cons_lt _hn _hmet)

/-- The search from a result, unless it was met. -/
def searchFrom? (graph : Graph) (state : List NodeId × List NodeId) (result : NodeId) :
    Option (List NodeId × List NodeId) :=
  let (met, order) := state
  if result ∈ met then some (met, order)
  else do
    let node ← graph.node? result
    graph.drain? (result :: met) order [⟨result, node.inputs⟩]

/-- The nodes of a model in the order in which the search is done with them. -/
def searchOrder? (graph : Graph) (id : ModelId) : Option (List NodeId) := do
  let model ← graph.model? id
  let parameters := model.parameters.eraseDups
  let (_, order) ← model.results.foldlM graph.searchFrom? (parameters, parameters)
  some order

end Graph

end GraphNaming
