import GraphNaming.Graph.Basic

/-!
# The order of a model's nodes

The nodes of a model that matter are its parameters and those that its results depend on.
`Graph.order?` lists them: the parameters first, and then, result by result, every node after the
nodes whose values it takes.
-/

namespace GraphNaming.Graph

/-- Adds the node `id` to the end of `order`, after all that it depends on, unless it is there
already. Dependencies are followed at most `fuel` nodes deep. -/
def orderWithin? (graph : Graph) : Nat → List NodeId → NodeId → Option (List NodeId)
  | 0, _, _ => none
  | fuel + 1, order, id =>
    if id ∈ order then some order
    else do
      let node ← graph.node? id
      let before ← node.inputs.foldlM (fun order input => graph.orderWithin? fuel order input.node)
        order
      some (before ++ [id])

/-- The nodes of a model in the order of their dependencies. A node takes values of earlier nodes
only, so there are no more nodes below it than earlier ones. -/
def order? (graph : Graph) (id : ModelId) : Option (List NodeId) := do
  let model ← graph.model? id
  model.results.foldlM (fun order result => graph.orderWithin? (result.number + 1) order result)
    model.parameters

end GraphNaming.Graph
