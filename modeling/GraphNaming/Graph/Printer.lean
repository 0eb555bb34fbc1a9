import GraphNaming.Graph.Order

/-!
# The written form of a graph

A model is written as a line with its name, and below it, indented, a line for each node in order.
The regions of a node stand below it, indented once more.

* `Node.line`: number, type, name, whether the user chose it, and the aliases of each output.
* `Graph.text?`: the whole graph.
-/

namespace GraphNaming

/-- The aliases of an output, nothing if it has none. -/
def Output.text (output : Output) : String :=
  if output.aliases.isEmpty then ""
  else " [" ++ output.index.repr ++ ": " ++ ", ".intercalate output.aliases.toList ++ "]"

namespace Node

/-- The aliases of all outputs. A result shows none, as its output goes by those of another. -/
def aliasText (node : Node) : String :=
  if node.isResult then "" else String.join (node.outputs.map (·.text))

def line (node : Node) : String :=
  node.id.text ++ " " ++ node.type ++ " '" ++ node.name.text ++ "'" ++
    (if node.isUserNamed then " (user)" else "") ++ node.aliasText

end Node

def Model.line (model : Model) : String := "model '" ++ model.name ++ "'"

/-- A line moved to the right by two blanks for each level of `depth`, with its line end. -/
def indented (depth : Nat) (line : String) : String :=
  String.ofList (List.replicate (2 * depth) ' ') ++ line ++ "\n"

namespace Graph

/-- The line of the node `id` at `depth`, and those of its regions, as `modelLines` has them. -/
def nodeLines? (graph : Graph) (modelLines : Nat → ModelId → Option (List String)) (depth : Nat)
    (id : NodeId) : Option (List String) := do
  let node ← graph.node? id
  let inner ← node.regions.mapM fun region => modelLines (depth + 1) region.model
  some (indented depth node.line :: inner.flatten)

/-- The lines of the model `id` at `depth`, with regions nested at most `fuel` deep. -/
def linesWithin? (graph : Graph) : Nat → Nat → ModelId → Option (List String)
  | 0, _, _ => none
  | fuel + 1, depth, id => do
    let model ← graph.model? id
    let order ← graph.order? id
    let lines ← order.mapM (graph.nodeLines? (graph.linesWithin? fuel) (depth + 1))
    some (indented depth model.line :: lines.flatten)

/-- The written form of the graph, from its root model down. -/
def text? (graph : Graph) : Option String :=
  (graph.linesWithin? graph.models.size 0 .root).map String.join

end Graph

end GraphNaming
