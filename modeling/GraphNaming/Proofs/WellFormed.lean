import GraphNaming.Proofs.Shape
import Mathlib.Data.List.Nodup

/-!
# Well-formed graphs

What every graph has that was built by the operations of the library, said of its shape.

* `Graph.LaidOut`: nodes and models sit at their numbers, every reference goes to something that
  exists, and the values that a node takes are of earlier nodes of its own model.
* `Graph.Forest`: every model is a region of one node at most, the root of none, and no model lies
  in itself.
* `WellFormed.of_shape`: a graph stays well formed when only names change.
-/

namespace GraphNaming.Graph

variable {graph after : Graph}

/-! ## References -/

/-- `id` is a node of `model`. -/
def InModel (graph : Graph) (id : NodeId) (model : ModelId) : Prop :=
  ∃ node, graph.node? id = some node ∧ node.model = model

/-- `value` is an output of a node of `model`. -/
def Produces (graph : Graph) (model : ModelId) (value : Value) : Prop :=
  ∃ node, graph.node? value.node = some node ∧ node.model = model ∧
    value.index < node.outputs.length

/-- `id` is a parameter of `model`. -/
def HasParameter (graph : Graph) (model : ModelId) (id : NodeId) : Prop :=
  ∃ node, graph.node? id = some node ∧ node.model = model ∧ node.isParameter = true

/-- `id` is a result of `model`. -/
def HasResult (graph : Graph) (model : ModelId) (id : NodeId) : Prop :=
  ∃ node, graph.node? id = some node ∧ node.model = model ∧ node.isResult = true

/-- `owner` has a region with the model `id`. -/
def Owns (graph : Graph) (owner : NodeId) (id : ModelId) : Prop :=
  ∃ node, graph.node? owner = some node ∧ id ∈ node.regions.map (·.model)

/-- The nodes of a model that satisfy `p`, in the order of their numbers. -/
def nodesOf (graph : Graph) (id : ModelId) (p : Node → Bool) : List NodeId :=
  (graph.nodes.toList.filter fun node => node.model = id && p node).map (·.id)

/-- The models of all regions of all nodes. -/
def regionModels (graph : Graph) : List ModelId :=
  graph.nodes.toList.flatMap fun node => node.regions.map (·.model)

/-! ## Nodes and models in place -/

/-- The bindings of `region` join values that `node` takes to parameters, and results to outputs
of `node`. -/
structure Joins (graph : Graph) (node : Node) (region : Region) : Prop where
  model : ∃ model, graph.model? region.model = some model
  input : ∀ binding ∈ region.inputs,
    binding.outer ∈ node.inputs ∧ graph.HasParameter region.model binding.inner
  output : ∀ binding ∈ region.outputs,
    binding.outer < node.outputs.length ∧ graph.HasResult region.model binding.inner

/-- `node` can stand at the number `id`. -/
structure Fits (graph : Graph) (id : NodeId) (node : Node) : Prop where
  id_eq : node.id = id
  model : ∃ model, graph.model? node.model = some model
  /-- A node takes values of earlier nodes of its own model. -/
  input : ∀ value ∈ node.inputs,
    value.node.number < id.number ∧ graph.Produces node.model value
  indices : node.outputs.map (·.index) = List.range node.outputs.length
  parameter : node.isParameter = true → node.inputs = [] ∧ node.outputs.length = 1
  result : node.isResult = true → (∃ value, node.inputs = [value]) ∧ node.outputs.length = 1
  region : ∀ region ∈ node.regions, graph.Joins node region

/-- `model` stands at the number `id` and lists its nodes. -/
structure Lists (graph : Graph) (id : ModelId) (model : Model) : Prop where
  id_eq : model.id = id
  nodes : model.nodes = graph.nodesOf id fun _ => true
  parameters : model.parameters = graph.nodesOf id (·.isParameter)
  results : model.results = graph.nodesOf id (·.isResult)

structure LaidOut (graph : Graph) : Prop where
  node : ∀ {id node}, graph.node? id = some node → graph.Fits id node
  model : ∀ {id model}, graph.model? id = some model → graph.Lists id model
  hasRoot : ∃ model, graph.model? .root = some model

namespace LaidOut

variable (hg : graph.LaidOut)
include hg

theorem mem_nodesOf {model : ModelId} {p : Node → Bool} {id : NodeId} :
    id ∈ graph.nodesOf model p ↔
      ∃ node, graph.node? id = some node ∧ node.model = model ∧ p node = true := by
  simp only [nodesOf, List.mem_map, List.mem_filter, Bool.and_eq_true, decide_eq_true_eq,
    Array.mem_toList_iff, Array.mem_iff_getElem?]
  constructor
  · rintro ⟨node, ⟨⟨i, hn⟩, hm, hp⟩, rfl⟩
    have hn' : graph.node? ⟨i⟩ = some node := hn
    exact ⟨node, (hg.node hn').id_eq ▸ hn', hm, hp⟩
  · rintro ⟨node, hn, hm, hp⟩
    exact ⟨node, ⟨⟨id.number, hn⟩, hm, hp⟩, (hg.node hn).id_eq⟩

theorem mem_parameters {id : ModelId} {model : Model} (hm : graph.model? id = some model)
    {node : NodeId} : node ∈ model.parameters ↔ graph.HasParameter id node := by
  rw [(hg.model hm).parameters, hg.mem_nodesOf, HasParameter]

theorem mem_results {id : ModelId} {model : Model} (hm : graph.model? id = some model)
    {node : NodeId} : node ∈ model.results ↔ graph.HasResult id node := by
  rw [(hg.model hm).results, hg.mem_nodesOf, HasResult]

/-- The nodes stand at their numbers. -/
theorem map_id_nodes :
    graph.nodes.toList.map (·.id) = (List.range graph.nodes.size).map NodeId.mk := by
  refine List.ext_getElem (by simp) fun i hi _ => ?_
  rw [List.length_map, Array.length_toList] at hi
  have hn : graph.node? ⟨i⟩ = some graph.nodes[i] := Array.getElem?_eq_getElem hi
  simpa using (hg.node hn).id_eq

theorem nodup_nodesOf (model : ModelId) (p : Node → Bool) : (graph.nodesOf model p).Nodup := by
  have hnodup : (graph.nodes.toList.map (·.id)).Nodup := by
    rw [hg.map_id_nodes]
    exact List.nodup_range.map fun i j hij => by cases hij; rfl
  exact hnodup.sublist (List.filter_sublist.map _)

end LaidOut

/-! ## The forest of models -/

/-- From the model `id` outwards there are finitely many models. -/
def Grounded (graph : Graph) (id : ModelId) : Prop :=
  Acc (fun outer inner => graph.parent? inner = some outer) id

structure Forest (graph : Graph) : Prop where
  root_free : ∀ {model}, graph.model? .root = some model → model.owner = none
  owner_iff : ∀ {id model}, graph.model? id = some model →
    ∀ owner, model.owner = some owner ↔ graph.Owns owner id
  once : graph.regionModels.Nodup
  grounded : ∀ {id model}, graph.model? id = some model → graph.Grounded id

structure WellFormed (graph : Graph) : Prop extends graph.LaidOut, graph.Forest

/-! ## Larger graphs -/

/-- `after` has all that `graph` has, up to names. -/
structure Extends (after graph : Graph) : Prop where
  node : ∀ {id node}, graph.node? id = some node →
    ∃ node', after.node? id = some node' ∧ node'.shape = node.shape
  model : ∀ {id model}, graph.model? id = some model → ∃ model', after.model? id = some model'

theorem Extends.of_shape (h : graph.shape = after.shape) : after.Extends graph where
  node hn := node?_of_shape h hn
  model hm := ⟨_, model?_of_shape h _ ▸ hm⟩

section Shapes

variable {node node' : Node} (h : node'.shape = node.shape)
include h

theorem id_of_shape : node'.id = node.id := congrArg (·.id) h

theorem model_of_shape : node'.model = node.model := congrArg (·.model) h

theorem inputs_of_shape : node'.inputs = node.inputs := congrArg (·.inputs) h

theorem regions_of_shape : node'.regions = node.regions := congrArg (·.regions) h

theorem isParameter_of_shape : node'.isParameter = node.isParameter :=
  congrArg (·.isParameter) h

theorem isResult_of_shape : node'.isResult = node.isResult := congrArg (·.isResult) h

theorem isExclusive_of_shape : node'.isExclusive = node.isExclusive :=
  congrArg (·.isExclusive) h

theorem indices_of_shape : node'.outputs.map (·.index) = node.outputs.map (·.index) := by
  simpa using congrArg (·.outputs.map (·.index)) h

theorem outputs_length_of_shape : node'.outputs.length = node.outputs.length := by
  simpa using congrArg (·.outputs.length) h

end Shapes

namespace Extends

variable (h : after.Extends graph)
include h

theorem produces {model : ModelId} {value : Value} (hp : graph.Produces model value) :
    after.Produces model value := by
  obtain ⟨node, hn, hm, hi⟩ := hp
  obtain ⟨node', hn', hs⟩ := h.node hn
  exact ⟨node', hn', (model_of_shape hs).trans hm, (outputs_length_of_shape hs).symm ▸ hi⟩

theorem hasParameter {model : ModelId} {id : NodeId} (hp : graph.HasParameter model id) :
    after.HasParameter model id := by
  obtain ⟨node, hn, hm, hk⟩ := hp
  obtain ⟨node', hn', hs⟩ := h.node hn
  exact ⟨node', hn', (model_of_shape hs).trans hm, (isParameter_of_shape hs).trans hk⟩

theorem hasResult {model : ModelId} {id : NodeId} (hp : graph.HasResult model id) :
    after.HasResult model id := by
  obtain ⟨node, hn, hm, hk⟩ := hp
  obtain ⟨node', hn', hs⟩ := h.node hn
  exact ⟨node', hn', (model_of_shape hs).trans hm, (isResult_of_shape hs).trans hk⟩

theorem owns {owner : NodeId} {id : ModelId} (hp : graph.Owns owner id) :
    after.Owns owner id := by
  obtain ⟨node, hn, hr⟩ := hp
  obtain ⟨node', hn', hs⟩ := h.node hn
  exact ⟨node', hn', (regions_of_shape hs).symm ▸ hr⟩

theorem joins {node node' : Node} {region : Region} (hs : node'.shape = node.shape)
    (hp : graph.Joins node region) : after.Joins node' region where
  model := let ⟨_, hm⟩ := hp.model; h.model hm
  input binding hb := by
    obtain ⟨ho, hi⟩ := hp.input binding hb
    exact ⟨(inputs_of_shape hs).symm ▸ ho, h.hasParameter hi⟩
  output binding hb := by
    obtain ⟨ho, hi⟩ := hp.output binding hb
    exact ⟨(outputs_length_of_shape hs).symm ▸ ho, h.hasResult hi⟩

theorem fits {id : NodeId} {node node' : Node} (hs : node'.shape = node.shape)
    (hp : graph.Fits id node) : after.Fits id node' where
  id_eq := (id_of_shape hs).trans hp.id_eq
  model := by
    obtain ⟨model, hm⟩ := hp.model
    rw [model_of_shape hs]
    exact h.model hm
  input value hv := by
    rw [inputs_of_shape hs] at hv
    obtain ⟨hlt, hv⟩ := hp.input value hv
    exact ⟨hlt, (model_of_shape hs).symm ▸ h.produces hv⟩
  indices := by rw [indices_of_shape hs, outputs_length_of_shape hs, hp.indices]
  parameter hk := by
    rw [inputs_of_shape hs, outputs_length_of_shape hs]
    exact hp.parameter ((isParameter_of_shape hs).symm.trans hk)
  result hk := by
    rw [inputs_of_shape hs, outputs_length_of_shape hs]
    exact hp.result ((isResult_of_shape hs).symm.trans hk)
  region region hr := h.joins hs (hp.region region (regions_of_shape hs ▸ hr))

end Extends

/-! ## Changes of names -/

theorem nodesOf_of_shape (h : graph.shape = after.shape) (id : ModelId) {p : Node → Bool}
    (hp : ∀ node : Node, p node.shape = p node) : after.nodesOf id p = graph.nodesOf id p := by
  have shape (graph : Graph) : graph.shape.nodesOf id p = graph.nodesOf id p := by
    simp only [nodesOf, Graph.shape, Array.toList_map, List.filter_map, List.map_map,
      Function.comp_def, Node.shape_model, Node.shape_id, hp]
    rfl
  rw [← shape graph, h, shape]

theorem regionModels_of_shape (h : graph.shape = after.shape) :
    after.regionModels = graph.regionModels := by
  have shape (graph : Graph) : graph.shape.regionModels = graph.regionModels := by
    simp only [regionModels, Graph.shape, Array.toList_map, List.flatMap_map, Node.shape_regions]
  rw [← shape graph, h, shape]

theorem parent?_of_shape (h : graph.shape = after.shape) (id : ModelId) :
    after.parent? id = graph.parent? id := by
  rw [← parent?_shape graph, h, parent?_shape]

theorem LaidOut.of_shape (h : graph.shape = after.shape) (hg : graph.LaidOut) :
    after.LaidOut where
  node {id node} hn := by
    obtain ⟨node', hn', hs⟩ := node?_of_shape h.symm hn
    exact (Extends.of_shape h).fits hs.symm (hg.node hn')
  model {id model} hm := by
    have hl := hg.model ((model?_of_shape h id).trans hm)
    exact {
      id_eq := hl.id_eq
      nodes := by rw [hl.nodes, nodesOf_of_shape h id fun _ => rfl]
      parameters := by rw [hl.parameters, nodesOf_of_shape h id Node.shape_isParameter]
      results := by rw [hl.results, nodesOf_of_shape h id Node.shape_isResult] }
  hasRoot := let ⟨_, hm⟩ := hg.hasRoot; (Extends.of_shape h).model hm

theorem Forest.of_shape (h : graph.shape = after.shape) (hg : graph.Forest) : after.Forest where
  root_free hm := hg.root_free ((model?_of_shape h _).trans hm)
  owner_iff hm owner := by
    rw [hg.owner_iff ((model?_of_shape h _).trans hm)]
    exact ⟨(Extends.of_shape h).owns, (Extends.of_shape h.symm).owns⟩
  once := regionModels_of_shape h ▸ hg.once
  grounded {id _} hm := by
    have hgr := hg.grounded ((model?_of_shape h id).trans hm)
    unfold Grounded at hgr ⊢
    simpa only [parent?_of_shape h] using hgr

theorem WellFormed.of_shape (h : graph.shape = after.shape) (hg : graph.WellFormed) :
    after.WellFormed where
  toLaidOut := hg.toLaidOut.of_shape h
  toForest := hg.toForest.of_shape h

end GraphNaming.Graph
