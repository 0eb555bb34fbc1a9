import GraphNaming.Diagnostic
import GraphNaming.Graph.Source
import GraphNaming.Linking.Partition

/-!
# Names shared across regions

The two sides of a shared binding are one name. Joining them over all bindings gives the classes
of names that are changed together.

* `Graph.friendlyLinks?`: classes of nodes. Two sides that carry different friendly names are not
  joined but reported.
* `Graph.aliasLinks?`: classes of values.
-/

namespace GraphNaming.Graph

/-- The shared input bindings of the `visited` nodes, in order. -/
def sharedInputs? (graph : Graph) (visited : List NodeId) : Option (List InputBinding) := do
  let nodes ← visited.mapM graph.node?
  some (nodes.flatMap fun node => node.regions.flatMap Region.sharedInputs)

/-- The nodes on both sides of a binding, the outer one first. -/
def ends? (graph : Graph) (binding : InputBinding) : Option (Node × Node) := do
  some (← graph.node? (graph.source binding.outer).node, ← graph.node? binding.inner)

/-- The finding that the two sides of a shared binding carry different names. -/
def divergence (outer inner : Node) : Diagnostic :=
  let message := "mirrored binding links '" ++ outer.name.text ++ "' to '" ++ inner.name.text ++
    "'; names differ, resolving separately"
  ({ level := .warning, message } : Diagnostic).withCode .divergingNames |>.about
    [outer.id, inner.id]

/-- Joins the nodes on both sides of the shared input bindings of the `visited` nodes where their
friendly names agree, and reports the others. -/
def friendlyLinks? (graph : Graph) (visited : List NodeId) :
    Option (Partition NodeId × List Diagnostic) := do
  let bindings ← graph.sharedInputs? visited
  let ends ← bindings.mapM graph.ends?
  let agree : Node × Node → Bool := fun (outer, inner) => outer.name.text == inner.name.text
  let pairs := (ends.filter agree).map fun (outer, inner) => (outer.id, inner.id)
  let diverging := ends.filter fun sides => !agree sides
  some (Partition.empty.joinAll pairs, diverging.map fun (outer, inner) => divergence outer inner)

/-- The values on both sides of the shared bindings of a region of `owner`: the bindings of inputs
first, the owner's side first in each pair. -/
def sharedValues (graph : Graph) (owner : NodeId) (region : Region) : List (Value × Value) :=
  region.sharedInputs.map (fun binding => (graph.source binding.outer, binding.inner.output 0)) ++
    region.sharedOutputs.map fun binding =>
      (owner.output binding.outer, graph.source (binding.inner.output 0))

/-- Joins the values on both sides of all shared bindings of the `visited` nodes. -/
def aliasLinks? (graph : Graph) (visited : List NodeId) : Option (Partition Value) := do
  let nodes ← visited.mapM graph.node?
  some (Partition.empty.joinAll
    (nodes.flatMap fun node => node.regions.flatMap (graph.sharedValues node.id)))

end GraphNaming.Graph
