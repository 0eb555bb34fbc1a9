import GraphNaming.Graph.Walk
import GraphNaming.Proofs.Refusals
import GraphNaming.Resolution.Aliases
import GraphNaming.Resolution.FriendlyNames

/-!
# The shape of a graph

The *shape* of a graph is what is left of it without its names. Orders, walks, sources and the
links of aliases are read off the shape alone, and a change of names keeps it.

* `Graph.shape`: the graph with all friendly names blank and all aliases gone.
* `walk?_shape`, `source_shape`, `aliasLinks?_shape`: what depends on the shape alone.
* `shape_renameAll`, `shape_setFriendlyName`, `shape_modifyAliases`: the changes that keep it.
-/

namespace GraphNaming

/-- The output without its aliases. -/
def Output.shape (output : Output) : Output := { output with aliases := ∅ }

/-- The node without its names. -/
def Node.shape (node : Node) : Node :=
  { node with name := ⟨"", .generated⟩, outputs := node.outputs.map Output.shape }

namespace Node

variable (node : Node)

@[simp] theorem shape_id : node.shape.id = node.id := rfl

@[simp] theorem shape_model : node.shape.model = node.model := rfl

@[simp] theorem shape_regions : node.shape.regions = node.regions := rfl

@[simp] theorem shape_isParameter : node.shape.isParameter = node.isParameter := rfl

@[simp] theorem shape_isResult : node.shape.isResult = node.isResult := rfl

@[simp] theorem shape_indices : node.shape.outputs.map (·.index) = node.outputs.map (·.index) := by
  simp [shape, Output.shape, Function.comp_def]

@[simp] theorem shape_outputs_length : node.shape.outputs.length = node.outputs.length := by
  simp [shape]

end Node

namespace Graph

/-- The graph without its names. -/
def shape (graph : Graph) : Graph :=
  { graph with
    nodes := graph.nodes.map Node.shape
    ids_eq := by simp [graph.ids_eq] }

variable (graph : Graph)

@[simp] theorem shape_models : graph.shape.models = graph.models := rfl

@[simp] theorem model?_shape (id : ModelId) : graph.shape.model? id = graph.model? id := rfl

@[simp] theorem node?_shape (id : NodeId) :
    graph.shape.node? id = (graph.node? id).map Node.shape := by
  simp [node?, shape]

theorem output?_shape (value : Value) :
    graph.shape.output? value = (graph.output? value).map Output.shape := by
  rw [output?, node?_shape, output?]
  cases graph.node? value.node with
  | none => rfl
  | some node => exact List.getElem?_map

/-- Graphs of one shape have nodes of one shape. -/
theorem node?_of_shape {graph other : Graph} (h : graph.shape = other.shape) {id : NodeId}
    {node : Node} (hn : graph.node? id = some node) :
    ∃ node', other.node? id = some node' ∧ node'.shape = node.shape := by
  have := congrArg (·.node? id) h
  simpa [hn, eq_comm] using this

theorem model?_of_shape {graph other : Graph} (h : graph.shape = other.shape) (id : ModelId) :
    graph.model? id = other.model? id := by
  rw [← model?_shape graph, h, model?_shape]

/-! ## What depends on the shape alone -/

theorem passedOn?_shape (id : NodeId) : graph.shape.passedOn? id = graph.passedOn? id := by
  unfold passedOn?
  rw [node?_shape]
  cases graph.node? id <;> rfl

theorem source_shape (value : Value) : graph.shape.source value = graph.source value := by
  have within (fuel : Nat) (value : Value) :
      graph.shape.sourceWithin fuel value = graph.sourceWithin fuel value := by
    induction fuel generalizing value with
    | zero => rfl
    | succ fuel ih => simp only [sourceWithin, passedOn?_shape, ih]
  exact within _ _

theorem parent?_shape (id : ModelId) : graph.shape.parent? id = graph.parent? id := by
  unfold parent?
  rw [model?_shape]
  cases graph.model? id with
  | none => rfl
  | some model =>
    cases howner : model.owner with
    | none => simp [howner]
    | some owner => cases hnode : graph.node? owner <;> simp [howner, hnode]

theorem orderWithin?_shape (fuel : Nat) (order : List NodeId) (id : NodeId) :
    graph.shape.orderWithin? fuel order id = graph.orderWithin? fuel order id := by
  induction fuel generalizing order id with
  | zero => rfl
  | succ fuel ih =>
    simp only [orderWithin?, node?_shape, ih]
    cases graph.node? id <;> rfl

theorem order?_shape (id : ModelId) : graph.shape.order? id = graph.order? id := by
  simp only [order?, orderWithin?_shape, model?_shape]

theorem walkWithin?_shape (scoping : Scoping) (fuel : Nat) :
    graph.shape.walkWithin? scoping fuel = graph.walkWithin? scoping fuel := by
  induction fuel with
  | zero => rfl
  | succ fuel ih =>
    have visit (walkModel : ModelId → ScopeId → ScopeTree → Option (List Visit × ScopeTree)) :
        graph.shape.walkNode? scoping walkModel = graph.walkNode? scoping walkModel := by
      funext scope id tree
      simp only [walkNode?, node?_shape]
      cases graph.node? id <;> rfl
    funext id scope tree
    simp only [walkWithin?, order?_shape, visit, ih]

theorem walk?_shape (scoping : Scoping) : graph.shape.walk? scoping = graph.walk? scoping := by
  simp only [walk?, walkWithin?_shape, shape_models]

theorem sharedValues_shape : graph.shape.sharedValues = graph.sharedValues := by
  funext owner region
  simp only [sharedValues, source_shape]

private theorem mapM_node?_shape (ids : List NodeId) :
    ids.mapM graph.shape.node? = (ids.mapM graph.node?).map (·.map Node.shape) := by
  induction ids with
  | nil => rfl
  | cons id ids ih =>
    simp only [List.mapM_cons, node?_shape, ih]
    cases graph.node? id with
    | none => rfl
    | some node => cases ids.mapM graph.node? <;> rfl

theorem aliasLinks?_shape (visited : List NodeId) :
    graph.shape.aliasLinks? visited = graph.aliasLinks? visited := by
  simp only [aliasLinks?, mapM_node?_shape]
  cases visited.mapM graph.node? with
  | none => rfl
  | some nodes => simp [List.flatMap_map, sharedValues_shape]

/-! ## What keeps the shape -/

variable {graph}

theorem shape_modifyNode {id : NodeId} {change : Node → Node}
    (h : ∀ node, (change node).shape = node.shape) :
    (graph.modifyNode id change).shape = graph.shape := by
  simp only [shape, modifyNode, Graph.mk.injEq, and_true]
  refine Array.ext_getElem? fun i => ?_
  simp only [Array.getElem?_map, Array.getElem?_modify]
  split
  · cases graph.nodes[i]? <;> simp [h]
  · rfl

theorem shape_modifyOutput {value : Value} {change : Output → Output}
    (h : ∀ output, (change output).shape = output.shape) :
    (graph.modifyOutput value change).shape = graph.shape := by
  refine shape_modifyNode fun node => ?_
  simp only [Node.shape, Node.mk.injEq, true_and, and_true]
  refine List.ext_getElem? fun i => ?_
  simp only [List.getElem?_map, List.getElem?_modify]
  cases node.outputs[i]? with
  | none => rfl
  | some output => by_cases hi : value.index = i <;> simp [hi, h]

theorem shape_rename (rename : Rename) : (graph.rename rename).shape = graph.shape := by
  unfold Graph.rename
  split
  · exact shape_modifyNode fun _ => rfl
  · exact shape_modifyOutput fun _ => rfl

theorem shape_renameAll (renames : List Rename) :
    (graph.renameAll renames).shape = graph.shape := by
  induction renames generalizing graph with
  | nil => rfl
  | cons rename renames ih => rw [renameAll, List.foldl_cons, ← renameAll, ih, shape_rename]

theorem shape_setFriendlyName {after : Graph} {id : NodeId} {name : String}
    (h : (setFriendlyName id name).run graph = .ok () after) : after.shape = graph.shape := by
  obtain ⟨node, -, h⟩ := Request.check_bind_eq_ok.1 h
  cases h
  exact shape_modifyNode fun _ => rfl

theorem shape_modifyAliases {after : Graph} {value : Value} {change : AliasSet → AliasSet}
    (h : (modifyAliases value change).run graph = .ok () after) : after.shape = graph.shape := by
  obtain ⟨node, -, h⟩ := Request.check_bind_eq_ok.1 h
  cases h
  exact shape_modifyOutput fun _ => rfl

end Graph

end GraphNaming
