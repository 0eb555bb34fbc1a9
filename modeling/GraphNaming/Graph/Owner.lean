import GraphNaming.Graph.Build

/-!
# Nodes that own regions

A model becomes a region when a node is made that owns it. It stays the only region with that
model, and regions never come to lie inside themselves: the models form a forest.

* `Graph.enclosing`: a model and all that it lies in.
* `Graph.addOwner`: adds a node that owns the given regions.
-/

namespace GraphNaming.Graph

open Request (check)

/-- The model of the node that owns `id`. -/
def parent? (graph : Graph) (id : ModelId) : Option ModelId := do
  let model ← graph.model? id
  let owner ← graph.node? (← model.owner)
  some owner.model

/-- The model `id` and those that it lies in, `fuel` of them at most. -/
def enclosingWithin (graph : Graph) : Nat → ModelId → List ModelId
  | 0, _ => []
  | fuel + 1, id =>
    match graph.parent? id with
    | some parent => id :: graph.enclosingWithin fuel parent
    | none => [id]

/-- The model `id` and those that it lies in, the innermost first. No model lies in itself, so
there are no more of them than models. -/
def enclosing (graph : Graph) (id : ModelId) : List ModelId :=
  graph.enclosingWithin graph.models.size id

/-! ## Checks -/

/-- The binding goes from a value of `model` to a parameter of `inner`. -/
def requireInput (graph : Graph) (model : ModelId) (inner : Model) (binding : InputBinding) :
    Except BuildError Unit := do
  graph.requireLocal model binding.outer
  if binding.inner ∈ inner.parameters then .ok ()
  else .error (.notParameter binding.inner inner.id)

/-- The binding goes from a result of `inner` to one of `outputs` outputs. -/
def requireOutput (inner : Model) (outputs : Nat) (binding : OutputBinding) :
    Except BuildError Unit :=
  if binding.inner ∉ inner.results then .error (.notResult binding.inner inner.id)
  else if binding.outer < outputs then .ok ()
  else .error (.bindingOutOfRange binding.outer outputs)

/-- A new node of `model` with `outputs` outputs can own `region`. It cannot own the models in
`barred`: it would lie inside them, or they are already among its regions. -/
def requireRegion (graph : Graph) (model : ModelId) (outputs : Nat) (barred : List ModelId)
    (region : Region) : Except BuildError Unit := do
  let inner ← graph.requireModel region.model
  if region.model ∈ barred then .error (.recursiveRegion region.model) else
  match inner.owner with
  | some owner => .error (.modelAlreadyOwned region.model owner)
  | none => do
    region.inputs.forM (graph.requireInput model inner)
    region.outputs.forM (requireOutput inner outputs)

/-- The regions can be owned by one new node. -/
def requireRegions (graph : Graph) (model : ModelId) (outputs : Nat) :
    List ModelId → List Region → Except BuildError Unit
  | _, [] => .ok ()
  | barred, region :: rest => do
    graph.requireRegion model outputs barred region
    graph.requireRegions model outputs (region.model :: barred) rest

/-! ## The node -/

/-- The values given, and after them those bound to regions that are not yet there. -/
def withBoundValues (values : List Value) (regions : List Region) : List Value :=
  (regions.flatMap fun region => region.inputs.map (·.outer)).foldl
    (fun known value => if value ∈ known then known else known ++ [value]) values

/-- Makes `owner` the owner of the models of `regions`. -/
def setOwner (graph : Graph) (owner : NodeId) (regions : List Region) : Graph :=
  regions.foldl (fun graph region => graph.modifyModel region.model
    fun model => { model with owner := some owner }) graph

/-- Adds a node that owns `regions`. It takes the given inputs and the values bound to its
regions. -/
def addOwner (model : ModelId) (type : String) (inputs : List Value) (regions : List Region)
    (exclusive : Bool) (outputs : Nat) : Request NodeId := do
  check fun graph => inputs.forM (graph.requireLocal model)
  let _ ← check (·.requireModel model)
  check fun graph =>
    graph.requireRegions model outputs (.root :: graph.enclosing model) regions
  let id ← addNode model type (.owner regions exclusive) (withBoundValues inputs regions) outputs
  modify (·.setOwner id regions)
  return id

end GraphNaming.Graph
