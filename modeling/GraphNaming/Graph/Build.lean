import GraphNaming.Graph.Request
import GraphNaming.Graph.Source

/-!
# Building a graph

Models and nodes are added one at a time, each after all that it refers to.

* `Graph.addModel`, `addParameter`, `addSharedParameter`, `addOperation`, `addResult`: growing.
* `Graph.setFriendlyName`, `setAliases`, `addAliases`: naming.
-/

namespace GraphNaming.Graph

open Request (check)

/-! ## Checks -/

def requireModel (graph : Graph) (id : ModelId) : Except BuildError Model :=
  match graph.model? id with
  | some model => .ok model
  | none => .error (.unknownModel id)

def requireNode (graph : Graph) (id : NodeId) : Except BuildError Node :=
  match graph.node? id with
  | some node => .ok node
  | none => .error (.unknownNode id)

/-- The node of which `value` is an output. -/
def requireProducer (graph : Graph) (value : Value) : Except BuildError Node := do
  let node ← graph.requireNode value.node
  if value.index < node.outputs.length then .ok node
  else .error (.outputOutOfRange value node.outputs.length)

/-- The value is an output of a node of `model`. -/
def requireLocal (graph : Graph) (model : ModelId) (value : Value) : Except BuildError Unit := do
  let node ← graph.requireProducer value
  if node.model = model then .ok () else .error (.foreignValue value model node.model)

/-- The names that `value` lends to another node: the friendly name of its own, and its aliases. -/
def requireNames (graph : Graph) (value : Value) : Except BuildError (FriendlyName × AliasSet) := do
  let producer ← graph.requireProducer value
  .ok (producer.name, (graph.aliases? value).getD ∅)

/-! ## Models and nodes -/

/-- Adds a model that no node owns yet. -/
def addModel (graph : Graph) (name : String) : ModelId × Graph :=
  let (model, graph) := graph.pushModel fun id => { id, name }
  (model.id, graph)

/-- Adds a node of the given kind to an existing model. -/
def addNode (model : ModelId) (type : String) (kind : NodeKind) (inputs : List Value)
    (outputs : Nat) : Request NodeId := do
  let _ ← check (·.requireModel model)
  let node ← modifyGet (·.pushNode fun id => {
    id, model, type, kind, inputs
    outputs := (List.range outputs).map fun index => { index }
    name := .default type id })
  modify (·.modifyModel model (·.enter node))
  return node.id

def addParameter (model : ModelId) : Request NodeId := addNode model "Parameter" .parameter [] 1

/-- Adds a parameter that goes by the names of `outer`. -/
def addSharedParameter (model : ModelId) (outer : Value) : Request NodeId := do
  let names ← check (·.requireNames outer)
  let id ← addParameter model
  modify (·.modifyNode id fun node => { node with name := names.1 })
  modify (·.modifyOutput (id.output 0) fun output => { output with aliases := names.2 })
  return id

def addOperation (model : ModelId) (type : String) (inputs : List Value) (outputs : Nat) :
    Request NodeId := do
  check fun graph => inputs.forM (graph.requireLocal model)
  addNode model type .operation inputs outputs

def addResult (model : ModelId) (source : Value) : Request NodeId := do
  check (·.requireLocal model source)
  addNode model "Result" .result [source] 1

/-! ## Names -/

/-- Gives a node a name of the user's choice. -/
def setFriendlyName (id : NodeId) (name : String) : Request Unit := do
  let _ ← check (·.requireNode id)
  modify (·.modifyNode id fun node => { node with name := ⟨name, .user⟩ })

/-- Changes the aliases of the source of `value`. -/
def modifyAliases (value : Value) (change : AliasSet → AliasSet) : Request Unit := do
  let _ ← check (·.requireProducer value)
  modify fun graph => graph.modifyOutput (graph.source value) fun output =>
    { output with aliases := change output.aliases }

/-- Gives `value` the aliases `names` and no others. -/
def setAliases (value : Value) (names : List String) : Request Unit :=
  modifyAliases value fun _ => .ofList names

/-- Adds `names` to the aliases of `value`. -/
def addAliases (value : Value) (names : List String) : Request Unit :=
  modifyAliases value (·.insertMany names)

end GraphNaming.Graph
