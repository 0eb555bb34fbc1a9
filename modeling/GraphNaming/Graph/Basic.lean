import GraphNaming.Identifier
import GraphNaming.Name.AliasSet

/-!
# Graphs

A graph holds models, and a model holds nodes: parameters, by which values come in, results, by
which they leave, and operations. A node may own regions. A region is a model of its own, joined
to the node by bindings: values of the node's model are bound to parameters of the region, and
results of the region to outputs of the node.

Every node has a friendly name, and every output a set of aliases.

* `Graph.node?`, `Graph.model?`, `Graph.output?`: reading, `none` for what does not exist.
* `Graph.pushNode`, `Graph.pushModel`: a new item, under the next number.
* `Graph.modifyNode`, `Graph.modifyModel`, `Graph.modifyOutput`: changing one item.
* `Graph.node?_modifyNode`, `model?_modifyModel`, `output?_modifyOutput`: no other item changes.
-/

namespace GraphNaming

/-! ## Names -/

/-- Who chose a friendly name. -/
inductive NameOrigin where
  | generated
  | user
  deriving DecidableEq

structure FriendlyName where
  text : String
  origin : NameOrigin
  deriving DecidableEq

/-- The name of a node until the user gives it another: its type and its number. -/
def FriendlyName.default (type : String) (id : NodeId) : FriendlyName :=
  ⟨type ++ "_" ++ id.number.repr, .generated⟩

/-- How the names on the two sides of a binding are related. -/
inductive NameLink where
  /-- They are two names. -/
  | independent
  /-- They are one name, which both sides share. -/
  | shared
  deriving DecidableEq

/-! ## Nodes -/

/-- An output of a node, by its position, with the names it goes by. -/
structure Output where
  index : Nat
  aliases : AliasSet := ∅
  deriving DecidableEq

/-- Binds a value of the owner's model to a parameter of a region. -/
structure InputBinding where
  outer : Value
  inner : NodeId
  link : NameLink := .independent
  deriving DecidableEq

/-- Binds a result of a region to an output of the owner. -/
structure OutputBinding where
  inner : NodeId
  outer : Nat
  link : NameLink := .independent
  deriving DecidableEq

/-- A model nested in a node. -/
structure Region where
  model : ModelId
  inputs : List InputBinding := []
  outputs : List OutputBinding := []
  deriving DecidableEq

namespace Region

/-- The input bindings whose two sides share a name. -/
def sharedInputs (region : Region) : List InputBinding := region.inputs.filter (·.link = .shared)

/-- The output bindings whose two sides share a name. -/
def sharedOutputs (region : Region) : List OutputBinding :=
  region.outputs.filter (·.link = .shared)

end Region

inductive NodeKind where
  /-- A value comes in. -/
  | parameter
  /-- A value leaves: the node's one input, whose aliases the node's one output goes by. -/
  | result
  | operation
  /-- The node owns `regions`. If it is `exclusive`, at most one of them is run. -/
  | owner (regions : List Region) (exclusive : Bool)
  deriving DecidableEq

structure Node where
  id : NodeId
  model : ModelId
  type : String
  kind : NodeKind
  inputs : List Value
  outputs : List Output
  name : FriendlyName
  deriving DecidableEq

namespace Node

def isParameter (node : Node) : Bool := node.kind == .parameter

def isResult (node : Node) : Bool := node.kind == .result

/-- The regions of an owner, none for any other node. -/
def regions (node : Node) : List Region :=
  match node.kind with
  | .owner regions _ => regions
  | _ => []

/-- The node owns regions of which at most one is run. -/
def isExclusive (node : Node) : Bool :=
  match node.kind with
  | .owner _ exclusive => exclusive
  | _ => false

/-- The user chose the node's friendly name. -/
def isUserNamed (node : Node) : Bool := node.name.origin == .user

end Node

/-! ## Models -/

structure Model where
  id : ModelId
  name : String
  /-- The node that owns the model as a region. -/
  owner : Option NodeId := none
  parameters : List NodeId := []
  results : List NodeId := []
  /-- All nodes of the model, in the order in which they were made. -/
  nodes : List NodeId := []
  deriving DecidableEq

/-- The model with `node` entered in its lists. -/
def Model.enter (model : Model) (node : Node) : Model :=
  { model with
    parameters := if node.isParameter then model.parameters ++ [node.id] else model.parameters
    results := if node.isResult then model.results ++ [node.id] else model.results
    nodes := model.nodes ++ [node.id] }

/-! ## Graphs -/

/-- Nodes and models by number. -/
structure Graph where
  nodes : Array Node
  models : Array Model
  /-- The numbers that are not yet in use. -/
  ids : IdSupply
  /-- Every number that is in use is that of an item. -/
  ids_eq : ids = ⟨nodes.size, models.size⟩
  deriving DecidableEq

namespace Graph

/-! ## New items -/

/-- Puts in the node that `make` gives for the next number. -/
def pushNode (graph : Graph) (make : NodeId → Node) : Node × Graph :=
  let node := make graph.ids.takeNode.1
  (node, { graph with
    nodes := graph.nodes.push node
    ids := graph.ids.takeNode.2
    ids_eq := by simp [IdSupply.takeNode, graph.ids_eq] })

/-- Puts in the model that `make` gives for the next number. -/
def pushModel (graph : Graph) (make : ModelId → Model) : Model × Graph :=
  let model := make graph.ids.takeModel.1
  (model, { graph with
    models := graph.models.push model
    ids := graph.ids.takeModel.2
    ids_eq := by simp [IdSupply.takeModel, graph.ids_eq] })

/-- Nothing at all. -/
def blank : Graph := ⟨#[], #[], {}, rfl⟩

/-- A graph whose root model is empty. -/
def new (name : String) : Graph := (blank.pushModel fun id => { id, name }).2

/-! ## Reading and changing items -/

def node? (graph : Graph) (id : NodeId) : Option Node := graph.nodes[id.number]?

def model? (graph : Graph) (id : ModelId) : Option Model := graph.models[id.number]?

/-- The output that `value` names. -/
def output? (graph : Graph) (value : Value) : Option Output := do
  (← graph.node? value.node).outputs[value.index]?

def modifyNode (graph : Graph) (id : NodeId) (change : Node → Node) : Graph :=
  { graph with
    nodes := graph.nodes.modify id.number change
    ids_eq := by simp [graph.ids_eq] }

def modifyModel (graph : Graph) (id : ModelId) (change : Model → Model) : Graph :=
  { graph with
    models := graph.models.modify id.number change
    ids_eq := by simp [graph.ids_eq] }

def modifyOutput (graph : Graph) (value : Value) (change : Output → Output) : Graph :=
  graph.modifyNode value.node fun node =>
    { node with outputs := node.outputs.modify value.index change }

/-! ## What a change leaves -/

theorem node?_modifyNode (graph : Graph) (id other : NodeId) (change : Node → Node) :
    (graph.modifyNode id change).node? other =
      if id = other then (graph.node? other).map change else graph.node? other := by
  obtain ⟨i⟩ := id
  obtain ⟨j⟩ := other
  simp [node?, modifyNode, Array.getElem?_modify]

@[simp] theorem model?_modifyNode (graph : Graph) (id : NodeId) (other : ModelId)
    (change : Node → Node) : (graph.modifyNode id change).model? other = graph.model? other := rfl

theorem model?_modifyModel (graph : Graph) (id other : ModelId) (change : Model → Model) :
    (graph.modifyModel id change).model? other =
      if id = other then (graph.model? other).map change else graph.model? other := by
  obtain ⟨i⟩ := id
  obtain ⟨j⟩ := other
  simp [model?, modifyModel, Array.getElem?_modify]

@[simp] theorem node?_modifyModel (graph : Graph) (id : ModelId) (other : NodeId)
    (change : Model → Model) : (graph.modifyModel id change).node? other = graph.node? other := rfl

theorem output?_modifyOutput (graph : Graph) (value other : Value) (change : Output → Output) :
    (graph.modifyOutput value change).output? other =
      if value = other then (graph.output? other).map change else graph.output? other := by
  obtain ⟨i, k⟩ := value
  obtain ⟨j, l⟩ := other
  simp only [output?, modifyOutput, node?_modifyNode, Value.mk.injEq]
  by_cases hij : i = j
  · cases graph.node? j with
    | none => simp [hij]
    | some node => by_cases hkl : k = l <;> simp [hij, hkl]
  · simp [hij]

end Graph

end GraphNaming
