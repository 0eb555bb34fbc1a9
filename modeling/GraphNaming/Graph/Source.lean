import GraphNaming.Graph.Basic

/-!
# Where a value comes from

A result has no aliases of its own: its output goes by those of the value it takes, and so on back
to a node that is not a result. That output is the *source* of the value, and all reading and
writing of aliases goes to it.

* `Graph.source`: the source of a value.
* `Graph.aliases?`: the names that a value goes by.
-/

namespace GraphNaming.Graph

/-- The value that a result passes on. -/
def passedOn? (graph : Graph) (id : NodeId) : Option Value := do
  let node ← graph.node? id
  if node.isResult then node.inputs.head? else none

/-- Follows at most `fuel` results back from `value`. -/
def sourceWithin (graph : Graph) : Nat → Value → Value
  | 0, value => value
  | fuel + 1, value =>
    match graph.passedOn? value.node with
    | some input => graph.sourceWithin fuel input
    | none => value

/-- The output that owns the names of `value`. A node takes values of earlier nodes only, so no
more results lie on the way than there are earlier nodes. -/
def source (graph : Graph) (value : Value) : Value :=
  graph.sourceWithin (value.node.number + 1) value

/-- The source of a value of an existing node. The output's number is not looked at. -/
def source? (graph : Graph) (value : Value) : Option Value :=
  (graph.node? value.node).map fun _ => graph.source value

/-- The names that `value` goes by. -/
def aliases? (graph : Graph) (value : Value) : Option AliasSet :=
  (graph.output? (graph.source value)).map (·.aliases)

end GraphNaming.Graph
