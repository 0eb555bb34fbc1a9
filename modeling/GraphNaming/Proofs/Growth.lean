import GraphNaming.Proofs.Nesting
import GraphNaming.Proofs.Requests

/-!
# Growing a well-formed graph

Every operation that adds to a graph leaves it well formed. A new node is entered in the lists of
its model, and if it owns regions their models get an owner: `Graph.grow` and `Graph.attach` are
these two steps, and `addNode_ok`, `addOwner_ok` say when a request comes down to them.

* `WellFormed.attach`: a node that fits, with regions that were free, keeps a graph well formed.
* `WellFormed.addModel`, `addParameter`, `addSharedParameter`, `addOperation`, `addResult`,
  `addOwner`: so does every request that succeeds.
-/

namespace GraphNaming.Graph

variable {graph after : Graph}

/-! ## The two steps -/

/-- The node that `addNode` makes. -/
def freshNode (graph : Graph) (model : ModelId) (type : String) (kind : NodeKind)
    (inputs : List Value) (outputs : Nat) : Node where
  id := ⟨graph.nodes.size⟩
  model := model
  type := type
  kind := kind
  inputs := inputs
  outputs := (List.range outputs).map fun index => { index }
  name := .default type ⟨graph.nodes.size⟩

/-- The graph with `node` at its end, entered in its model. -/
def grow (graph : Graph) (node : Node) : Graph :=
  (graph.pushNode fun _ => node).2.modifyModel node.model (·.enter node)

/-- The graph with `node` at its end, which owns its regions. -/
def attach (graph : Graph) (node : Node) : Graph := (graph.grow node).setOwner node.id node.regions

/-- The next node gets the number after those in use. -/
theorem takeNode_ids : graph.ids.takeNode.1 = ⟨graph.nodes.size⟩ := by
  rw [graph.ids_eq]
  rfl

theorem takeModel_ids : graph.ids.takeModel.1 = ⟨graph.models.size⟩ := by
  rw [graph.ids_eq]
  rfl

theorem node?_lt {id : NodeId} {node : Node} (h : graph.node? id = some node) :
    id.number < graph.nodes.size := (Array.getElem?_eq_some_iff.1 h).1

/-- The next node is none of those that there are. -/
theorem next_ne {id : NodeId} {node : Node} (hn : graph.node? id = some node) :
    (⟨graph.nodes.size⟩ : NodeId) ≠ id := by
  rintro rfl
  exact absurd (node?_lt hn) (Nat.lt_irrefl _)

theorem model?_lt {id : ModelId} {model : Model} (h : graph.model? id = some model) :
    id.number < graph.models.size := (Array.getElem?_eq_some_iff.1 h).1

theorem node?_grow (node : Node) (id : NodeId) :
    (graph.grow node).node? id = if id = ⟨graph.nodes.size⟩ then some node else graph.node? id := by
  obtain ⟨i⟩ := id
  rw [grow, node?_modifyModel]
  simp only [node?, pushNode, Array.getElem?_push, NodeId.mk.injEq]

theorem model?_grow (node : Node) (id : ModelId) :
    (graph.grow node).model? id =
      if node.model = id then (graph.model? id).map (·.enter node) else graph.model? id := by
  rw [grow, model?_modifyModel]
  rfl

theorem nodes_setOwner (owner : NodeId) (regions : List Region) :
    (graph.setOwner owner regions).nodes = graph.nodes := by
  unfold setOwner
  induction regions generalizing graph with
  | nil => rfl
  | cons region regions ih => rw [List.foldl_cons, ih]; rfl

theorem node?_setOwner (owner : NodeId) (regions : List Region) (id : NodeId) :
    (graph.setOwner owner regions).node? id = graph.node? id := by
  rw [node?, node?, nodes_setOwner]

theorem model?_setOwner (owner : NodeId) (regions : List Region) (id : ModelId) :
    (graph.setOwner owner regions).model? id =
      if id ∈ regions.map (·.model) then
        (graph.model? id).map fun model => { model with owner := some owner }
      else graph.model? id := by
  unfold setOwner
  induction regions generalizing graph with
  | nil => rfl
  | cons region regions ih =>
    rw [List.foldl_cons, ih, model?_modifyModel]
    by_cases he : region.model = id
    · cases graph.model? id <;> simp [he]
    · simp [he, Ne.symm he]

theorem node?_attach (node : Node) (id : NodeId) :
    (graph.attach node).node? id =
      if id = ⟨graph.nodes.size⟩ then some node else graph.node? id := by
  rw [attach, node?_setOwner, node?_grow]

/-- What becomes of an old model: its lists grow if the node is its own, and it gets an owner if
it is one of the node's regions. -/
theorem model?_attach (node : Node) (id : ModelId) :
    (graph.attach node).model? id = (graph.model? id).map fun model =>
      let model := if node.model = id then model.enter node else model
      if id ∈ node.regions.map (·.model) then { model with owner := some node.id } else model := by
  rw [attach, model?_setOwner, model?_grow]
  cases graph.model? id with
  | none => simp
  | some model =>
    by_cases hm : node.model = id <;> by_cases hr : id ∈ node.regions.map (·.model) <;>
      simp only [hm, hr, ↓reduceIte, Option.map_some]

theorem node?_attach_of_some {node old : Node} {id : NodeId} (h : graph.node? id = some old) :
    (graph.attach node).node? id = some old := by
  rw [node?_attach, if_neg, h]
  rintro rfl
  exact absurd (node?_lt h) (Nat.lt_irrefl _)

theorem node?_attach_self (node : Node) :
    (graph.attach node).node? ⟨graph.nodes.size⟩ = some node := by simp [node?_attach]

theorem extends_attach (node : Node) : (graph.attach node).Extends graph where
  node hn := ⟨_, node?_attach_of_some hn, rfl⟩
  model hm := ⟨_, by rw [model?_attach, hm]; rfl⟩

/-! ## Lists -/

theorem nodesOf_attach (node : Node) (id : ModelId) (p : Node → Bool) :
    (graph.attach node).nodesOf id p =
      graph.nodesOf id p ++ if node.model = id ∧ p node then [node.id] else [] := by
  rw [nodesOf, attach, nodes_setOwner]
  by_cases h : node.model = id ∧ p node = true
  · simp [nodesOf, grow, pushNode, modifyModel, List.filter_append, h]
  · simp [nodesOf, grow, pushNode, modifyModel, List.filter_append, h]

theorem Lists.attach {id : ModelId} {model : Model} (node : Node) (hl : graph.Lists id model) :
    (graph.attach node).Lists id (if node.model = id then model.enter node else model) := by
  by_cases he : node.model = id
  · rw [if_pos he]
    refine ⟨hl.id_eq, ?_, ?_, ?_⟩
    · simp [nodesOf_attach, he, ← hl.nodes, Model.enter]
    · cases hk : node.isParameter <;> simp [nodesOf_attach, he, ← hl.parameters, Model.enter, hk]
    · cases hk : node.isResult <;> simp [nodesOf_attach, he, ← hl.results, Model.enter, hk]
  · rw [if_neg he]
    refine ⟨hl.id_eq, ?_, ?_, ?_⟩
    · simp [nodesOf_attach, he, ← hl.nodes]
    · simp [nodesOf_attach, he, ← hl.parameters]
    · simp [nodesOf_attach, he, ← hl.results]

/-- The lists of a model do not show its owner. -/
theorem Lists.withOwner {id : ModelId} {model : Model} (hl : graph.Lists id model)
    (owner : Option NodeId) : graph.Lists id { model with owner } :=
  ⟨hl.id_eq, hl.nodes, hl.parameters, hl.results⟩

theorem LaidOut.attach {node : Node} (hg : graph.LaidOut) (hid : node.id = ⟨graph.nodes.size⟩)
    (hf : (graph.attach node).Fits node.id node) : (graph.attach node).LaidOut where
  node {id other} hn := by
    rw [node?_attach] at hn
    split at hn
    · next he =>
      cases hn
      rwa [he, ← hid]
    · exact (extends_attach node).fits rfl (hg.node hn)
  model {id other} hm := by
    rw [model?_attach] at hm
    obtain ⟨model, hmodel, rfl⟩ := Option.map_eq_some_iff.1 hm
    have hl := (hg.model hmodel).attach node
    dsimp only
    split
    · exact hl.withOwner _
    · exact hl
  hasRoot := let ⟨_, hm⟩ := hg.hasRoot; (extends_attach node).model hm

/-! ## Owners -/

theorem mem_regionModels {id : ModelId} :
    id ∈ graph.regionModels ↔ ∃ owner, graph.Owns owner id := by
  simp only [regionModels, List.mem_flatMap, Array.mem_toList_iff, Array.mem_iff_getElem?]
  constructor
  · rintro ⟨node, ⟨i, hn⟩, hr⟩
    exact ⟨⟨i⟩, node, hn, hr⟩
  · rintro ⟨owner, node, hn, hr⟩
    exact ⟨node, ⟨owner.number, hn⟩, hr⟩

/-- The model `id` can become a region of a new node of `model`. -/
structure Available (graph : Graph) (model id : ModelId) : Prop where
  ne_root : id ≠ .root
  outside : ¬ graph.Within model id
  free : ∃ inner, graph.model? id = some inner ∧ inner.owner = none

theorem regionModels_attach (node : Node) :
    (graph.attach node).regionModels = graph.regionModels ++ node.regions.map (·.model) := by
  simp [regionModels, attach, nodes_setOwner, grow, pushNode, modifyModel]

/-- A model that can become a region is none yet. -/
theorem Available.not_owns (hg : graph.WellFormed) {model id : ModelId}
    (h : graph.Available model id) {owner : NodeId} : ¬ graph.Owns owner id := by
  obtain ⟨inner, hm, ho⟩ := h.free
  intro hown
  rw [(hg.owner_iff hm owner).2 hown] at ho
  cases ho

section Attach

variable {node : Node} (hid : node.id = ⟨graph.nodes.size⟩)
include hid

theorem owns_attach {owner : NodeId} {id : ModelId} :
    (graph.attach node).Owns owner id ↔
      graph.Owns owner id ∨ owner = node.id ∧ id ∈ node.regions.map (·.model) := by
  constructor
  · rintro ⟨other, hn, hr⟩
    rw [node?_attach] at hn
    split at hn
    · next he =>
      cases hn
      exact .inr ⟨he.trans hid.symm, hr⟩
    · exact .inl ⟨other, hn, hr⟩
  · rintro (⟨other, hn, hr⟩ | ⟨rfl, hr⟩)
    · exact ⟨other, node?_attach_of_some hn, hr⟩
    · exact ⟨node, hid ▸ node?_attach_self node, hr⟩

variable (hg : graph.WellFormed)
include hg

/-- The new regions lie in the model of the new node, and all else lies where it did. -/
theorem parent?_attach {id : ModelId} {model : Model} (hm : graph.model? id = some model) :
    (graph.attach node).parent? id =
      if id ∈ node.regions.map (·.model) then some node.model else graph.parent? id := by
  unfold parent?
  rw [model?_attach, hm]
  simp only [Option.map_some, Option.bind_eq_bind, Option.bind_some]
  split
  · simp [hid, node?_attach_self]
  · have howner : (if node.model = id then model.enter node else model).owner = model.owner := by
      split <;> rfl
    rw [howner]
    cases ho : model.owner with
    | none => rfl
    | some owner =>
      obtain ⟨other, hn, -⟩ := (hg.owner_iff hm owner).1 ho
      simp [node?_attach_of_some hn, hn]

variable (ha : ∀ id ∈ node.regions.map (·.model), graph.Available node.model id)
include ha

theorem owner_attach {id : ModelId} {model : Model} (hm : graph.model? id = some model)
    (owner : NodeId) :
    (if id ∈ node.regions.map (·.model) then some node.id else model.owner) = some owner ↔
      (graph.attach node).Owns owner id := by
  rw [owns_attach hid]
  split
  · next hr =>
    simp only [Option.some.injEq, hr, and_true, (ha id hr).not_owns hg, false_or]
    exact eq_comm
  · next hr => simp only [hr, and_false, or_false, ← hg.owner_iff hm]

theorem grounded_attach (hmodel : ∃ model, graph.model? node.model = some model) {id : ModelId}
    {model : Model} (hm : graph.model? id = some model) : (graph.attach node).Grounded id := by
  have outside : ∀ {id model}, graph.model? id = some model → graph.Within node.model id →
      (graph.attach node).Grounded id := by
    intro id model hm hw
    induction hg.grounded hm generalizing model with
    | intro id _ ih =>
      refine ⟨_, fun outer ho => ?_⟩
      rw [parent?_attach hid hg hm, if_neg fun hr => (ha id hr).outside hw] at ho
      obtain ⟨-, model', hm'⟩ := hg.model_exists_of_parent? ho
      exact ih outer ho hm' (hw.trans (.of_parent? ho))
  -- Any other model keeps its parents too, until the way out meets a new region: from there it goes
  -- on in the model of the new node.
  induction hg.grounded hm generalizing model with
  | intro id _ ih =>
    refine ⟨_, fun outer ho => ?_⟩
    rw [parent?_attach hid hg hm] at ho
    split at ho
    · cases ho
      obtain ⟨model', hm'⟩ := hmodel
      exact outside hm' (.refl _)
    · obtain ⟨-, model', hm'⟩ := hg.model_exists_of_parent? ho
      exact ih outer ho hm'

end Attach

theorem Forest.attach {node : Node} (hid : node.id = ⟨graph.nodes.size⟩) (hg : graph.WellFormed)
    (hmodel : ∃ model, graph.model? node.model = some model)
    (ha : ∀ id ∈ node.regions.map (·.model), graph.Available node.model id)
    (hnodup : (node.regions.map (·.model)).Nodup) : (graph.attach node).Forest where
  root_free {model} hm := by
    rw [model?_attach] at hm
    obtain ⟨root, hroot, rfl⟩ := Option.map_eq_some_iff.1 hm
    dsimp only
    rw [if_neg fun hr => (ha _ hr).ne_root rfl]
    have howner := hg.root_free hroot
    split <;> exact howner
  owner_iff {id model} hm owner := by
    rw [model?_attach] at hm
    obtain ⟨old, hold, rfl⟩ := Option.map_eq_some_iff.1 hm
    rw [← owner_attach hid hg ha hold]
    dsimp only
    split
    · rfl
    · split <;> rfl
  once := by
    rw [regionModels_attach]
    refine List.nodup_append'.2 ⟨hg.once, hnodup, fun id hold hnew => ?_⟩
    obtain ⟨owner, ho⟩ := mem_regionModels.1 hold
    exact (ha id hnew).not_owns hg ho
  grounded {id model} hm := by
    rw [model?_attach] at hm
    obtain ⟨old, hold, -⟩ := Option.map_eq_some_iff.1 hm
    exact grounded_attach hid hg ha hmodel hold

/-- A new node that fits, with regions that could become regions, keeps a graph well formed. -/
theorem WellFormed.attach {node : Node} (hg : graph.WellFormed)
    (hf : graph.Fits ⟨graph.nodes.size⟩ node)
    (ha : ∀ id ∈ node.regions.map (·.model), graph.Available node.model id)
    (hnodup : (node.regions.map (·.model)).Nodup) : (graph.attach node).WellFormed where
  toLaidOut := hg.toLaidOut.attach hf.id_eq
    (hf.id_eq ▸ (extends_attach node).fits rfl hf)
  toForest := Forest.attach hf.id_eq hg hf.model ha hnodup

/-! ## Requests -/

theorem addNode_eq_ok {model : ModelId} {type : String} {kind : NodeKind} {inputs : List Value}
    {outputs : Nat} {id : NodeId} :
    (addNode model type kind inputs outputs).run graph = .ok id after ↔
      (∃ m, graph.model? model = some m) ∧ id = ⟨graph.nodes.size⟩ ∧
        after = graph.grow (graph.freshNode model type kind inputs outputs) := by
  rw [addNode, Request.check_bind_eq_ok, ← takeNode_ids]
  simp only [requireModel_eq_ok, freshNode, ← takeNode_ids]
  constructor
  · rintro ⟨m, hm, h⟩
    cases h
    exact ⟨⟨m, hm⟩, rfl, rfl⟩
  · rintro ⟨⟨m, hm⟩, rfl, rfl⟩
    exact ⟨m, hm, rfl⟩

/-- A parameter that shares the names of `outer` is an ordinary one that is then given them. -/
theorem addSharedParameter_eq_ok {model : ModelId} {outer : Value} {id : NodeId} :
    (addSharedParameter model outer).run graph = .ok id after ↔
      ∃ producer grown, graph.requireProducer outer = .ok producer ∧
        (addParameter model).run graph = .ok id grown ∧
        after = (grown.modifyNode id fun node => { node with name := producer.name }).modifyOutput
          (id.output 0) fun output => { output with aliases := (graph.aliases? outer).getD ∅ } := by
  rw [addSharedParameter, Request.check_bind_eq_ok]
  constructor
  · rintro ⟨names, hnames, h⟩
    obtain ⟨producer, hproducer, hnames⟩ := bind_eq_ok.1 hnames
    obtain ⟨id', grown, hgrown, h⟩ := Request.bind_eq_ok.1 h
    cases hnames
    cases h
    exact ⟨producer, grown, hproducer, hgrown, rfl⟩
  · rintro ⟨producer, grown, hproducer, hgrown, rfl⟩
    exact ⟨_, bind_eq_ok.2 ⟨producer, hproducer, rfl⟩,
      Request.bind_eq_ok.2 ⟨id, grown, hgrown, rfl⟩⟩

/-- An owner is a node whose regions are then made its own. -/
theorem addOwner_of_ok {model : ModelId} {type : String} {inputs : List Value}
    {regions : List Region} {exclusive : Bool} {outputs : Nat} {id : NodeId}
    (h : (addOwner model type inputs regions exclusive outputs).run graph = .ok id after) :
    ∃ grown, (addNode model type (.owner regions exclusive) (withBoundValues inputs regions)
        outputs).run graph = .ok id grown ∧ after = grown.setOwner id regions := by
  obtain ⟨_, -, h⟩ := Request.check_bind_eq_ok.1 h
  obtain ⟨_, -, h⟩ := Request.check_bind_eq_ok.1 h
  obtain ⟨_, -, h⟩ := Request.check_bind_eq_ok.1 h
  obtain ⟨id', grown, hgrown, h⟩ := Request.bind_eq_ok.1 h
  cases h
  exact ⟨grown, hgrown, rfl⟩

theorem attach_of_no_regions {node : Node} (h : node.regions = []) :
    graph.attach node = graph.grow node := by
  rw [attach, h]
  rfl

theorem fits_freshNode {model : ModelId} {type : String} {kind : NodeKind} {inputs : List Value}
    {outputs : Nat} (hm : ∃ m, graph.model? model = some m)
    (hinput : ∀ value ∈ inputs, graph.Produces model value)
    (hparameter : kind = .parameter → inputs = [] ∧ outputs = 1)
    (hresult : kind = .result → (∃ value, inputs = [value]) ∧ outputs = 1)
    (hregion : ∀ region ∈ (graph.freshNode model type kind inputs outputs).regions,
      graph.Joins (graph.freshNode model type kind inputs outputs) region) :
    graph.Fits ⟨graph.nodes.size⟩ (graph.freshNode model type kind inputs outputs) where
  id_eq := rfl
  model := hm
  input value hv := by
    obtain ⟨node, hn, hrest⟩ := hinput value hv
    exact ⟨node?_lt hn, node, hn, hrest⟩
  indices := by simp [freshNode, Function.comp_def]
  parameter hk := by
    obtain ⟨hi, ho⟩ := hparameter (by simpa [freshNode, Node.isParameter] using hk)
    exact ⟨hi, by simp [freshNode, ho]⟩
  result hk := by
    obtain ⟨hi, ho⟩ := hresult (by simpa [freshNode, Node.isResult] using hk)
    exact ⟨hi, by simp [freshNode, ho]⟩
  region := hregion

namespace WellFormed

variable (hg : graph.WellFormed)
include hg

/-- A node without regions can be added wherever the values that it takes are. -/
theorem addNode {model : ModelId} {type : String} {kind : NodeKind} {inputs : List Value}
    {outputs : Nat} {id : NodeId}
    (h : (Graph.addNode model type kind inputs outputs).run graph = .ok id after)
    (hinput : ∀ value ∈ inputs, graph.Produces model value)
    (hparameter : kind = .parameter → inputs = [] ∧ outputs = 1)
    (hresult : kind = .result → (∃ value, inputs = [value]) ∧ outputs = 1)
    (hregion : (graph.freshNode model type kind inputs outputs).regions = []) :
    after.WellFormed := by
  obtain ⟨hm, -, rfl⟩ := addNode_eq_ok.1 h
  rw [← attach_of_no_regions hregion]
  refine hg.attach (fits_freshNode hm hinput hparameter hresult ?_) ?_ ?_
  · simp [hregion]
  · simp [hregion]
  · simp [hregion]

theorem addParameter {model : ModelId} {id : NodeId}
    (h : (Graph.addParameter model).run graph = .ok id after) : after.WellFormed :=
  hg.addNode h nofun (fun _ => ⟨rfl, rfl⟩) nofun rfl

theorem addOperation {model : ModelId} {type : String} {inputs : List Value} {outputs : Nat}
    {id : NodeId} (h : (Graph.addOperation model type inputs outputs).run graph = .ok id after) :
    after.WellFormed := by
  obtain ⟨_, hinputs, h⟩ := Request.check_bind_eq_ok.1 h
  exact hg.addNode h (fun value hv => requireLocal_eq_ok.1 (forM_eq_ok.1 hinputs value hv)) nofun
    nofun rfl

theorem addResult {model : ModelId} {source : Value} {id : NodeId}
    (h : (Graph.addResult model source).run graph = .ok id after) : after.WellFormed := by
  obtain ⟨_, hsource, h⟩ := Request.check_bind_eq_ok.1 h
  refine hg.addNode h (fun value hv => ?_) nofun (fun _ => ⟨⟨source, rfl⟩, rfl⟩) rfl
  rw [List.mem_singleton.1 hv]
  exact requireLocal_eq_ok.1 hsource

theorem addSharedParameter {model : ModelId} {outer : Value} {id : NodeId}
    (h : (Graph.addSharedParameter model outer).run graph = .ok id after) : after.WellFormed := by
  obtain ⟨producer, grown, -, hgrown, rfl⟩ := addSharedParameter_eq_ok.1 h
  refine (hg.addParameter hgrown).of_shape (Eq.symm ?_)
  rw [shape_modifyOutput, shape_modifyNode]
  · exact fun _ => rfl
  · exact fun _ => rfl

/-- The region is joined to the node that owns it. -/
theorem joins_freshNode {model : ModelId} {type : String} {inputs : List Value}
    {regions : List Region} {exclusive : Bool} {outputs : Nat} {region : Region} {inner : Model}
    (hr : region ∈ regions) (ha : graph.Acceptable model outputs region inner) :
    graph.Joins (graph.freshNode model type (.owner regions exclusive)
      (withBoundValues inputs regions) outputs) region where
  model := ⟨inner, ha.found⟩
  input binding hb :=
    ⟨mem_withBoundValues.2 (.inr ⟨region, hr, binding, hb, rfl⟩),
      (hg.mem_parameters ha.found).1 (ha.input binding hb).2⟩
  output binding hb := by
    obtain ⟨hi, ho⟩ := ha.output binding hb
    exact ⟨by simpa [freshNode] using ho, (hg.mem_results ha.found).1 hi⟩

theorem addOwner {model : ModelId} {type : String} {inputs : List Value} {regions : List Region}
    {exclusive : Bool} {outputs : Nat} {id : NodeId}
    (h : (Graph.addOwner model type inputs regions exclusive outputs).run graph = .ok id after) :
    after.WellFormed := by
  obtain ⟨_, hinputs, h⟩ := Request.check_bind_eq_ok.1 h
  obtain ⟨m, hm, h⟩ := Request.check_bind_eq_ok.1 h
  obtain ⟨_, hregions, h⟩ := Request.check_bind_eq_ok.1 h
  obtain ⟨id', grown, hgrown, h⟩ := Request.bind_eq_ok.1 h
  cases h
  obtain ⟨hm, rfl, rfl⟩ := addNode_eq_ok.1 hgrown
  obtain ⟨hregions, hnodup⟩ := requireRegions_eq_ok.1 hregions
  -- What was checked of each region gives in turn: the values that the owner takes are there, each
  -- region is joined to it, and no region encloses the model of the owner.
  refine hg.attach (fits_freshNode hm ?_ nofun nofun fun region hr => ?_) ?_ hnodup
  · intro value hv
    rcases mem_withBoundValues.1 hv with hv | ⟨region, hr, binding, hb, rfl⟩
    · exact requireLocal_eq_ok.1 (forM_eq_ok.1 hinputs value hv)
    · obtain ⟨-, inner, ha⟩ := hregions region hr
      exact (ha.input binding hb).1
  · obtain ⟨-, inner, ha⟩ := hregions region hr
    exact hg.joins_freshNode hr ha
  · intro id hid
    obtain ⟨region, hr, rfl⟩ := List.mem_map.1 hid
    obtain ⟨hbarred, inner, ha⟩ := hregions region hr
    rw [List.mem_cons, not_or, hg.mem_enclosing hm] at hbarred
    exact ⟨hbarred.1, hbarred.2, inner, ha.found, ha.free⟩

end WellFormed

/-! ## New models -/

theorem model?_addModel (name : String) (id : ModelId) :
    (graph.addModel name).2.model? id =
      if id = ⟨graph.models.size⟩ then some { id, name } else graph.model? id := by
  obtain ⟨i⟩ := id
  simp only [addModel, pushModel, takeModel_ids, model?, Array.getElem?_push, ModelId.mk.injEq]
  split
  · next h => subst h; rfl
  · rfl

theorem extends_addModel (name : String) : (graph.addModel name).2.Extends graph where
  node hn := ⟨_, hn, rfl⟩
  model {id model} hm := by
    refine ⟨model, ?_⟩
    rw [model?_addModel, if_neg, hm]
    rintro rfl
    exact absurd (model?_lt hm) (Nat.lt_irrefl _)

theorem node?_new (name : String) (id : NodeId) : (new name).node? id = none := by
  simp [new, pushModel, blank, node?]

theorem parent?_addModel (name : String) (id : ModelId) :
    (graph.addModel name).2.parent? id = graph.parent? id := by
  unfold parent?
  rw [model?_addModel]
  split
  · next h =>
    have hnone : graph.model? id = none := by simp [h, model?]
    simp [hnone]
  · rfl

namespace WellFormed

theorem addModel (hg : graph.WellFormed) (name : String) : (graph.addModel name).2.WellFormed where
  node {id node} hn := (extends_addModel name).fits rfl (hg.node hn)
  model {id model} hm := by
    rw [model?_addModel] at hm
    split at hm
    · next he =>
      cases hm
      -- A node of the new model would have been put there before the model was.
      have empty (p : Node → Bool) : graph.nodesOf id p = [] := by
        refine List.eq_nil_iff_forall_not_mem.2 fun n hn => ?_
        obtain ⟨node, hn, hid, -⟩ := hg.mem_nodesOf.1 hn
        obtain ⟨model, hm⟩ := (hg.node hn).model
        rw [hid, he] at hm
        exact Nat.lt_irrefl _ (model?_lt hm)
      exact ⟨rfl, (empty _).symm, (empty _).symm, (empty _).symm⟩
    · have hl := hg.model hm
      exact ⟨hl.id_eq, hl.nodes, hl.parameters, hl.results⟩
  hasRoot := let ⟨_, hm⟩ := hg.hasRoot; (extends_addModel name).model hm
  root_free {model} hm := by
    rw [model?_addModel] at hm
    split at hm
    · cases hm
      rfl
    · exact hg.root_free hm
  owner_iff {id model} hm owner := by
    rw [model?_addModel] at hm
    split at hm
    · next he =>
      cases hm
      refine ⟨nofun, fun ho => ?_⟩
      obtain ⟨model, hm⟩ := hg.model_exists_of_owns ho
      rw [he] at hm
      exact absurd (model?_lt hm) (Nat.lt_irrefl _)
    · exact hg.owner_iff hm owner
  once := hg.once
  grounded {id model} hm := by
    unfold Grounded
    simp only [parent?_addModel]
    rw [model?_addModel] at hm
    split at hm
    · next he =>
      refine ⟨_, fun outer ho => ?_⟩
      obtain ⟨⟨model, hm⟩, -⟩ := hg.model_exists_of_parent? ho
      rw [he] at hm
      exact absurd (model?_lt hm) (Nat.lt_irrefl _)
    · exact hg.grounded hm

theorem eq_root_of_new {name : String} {id : ModelId} {model : Model}
    (hm : (new name).model? id = some model) : id = .root ∧ model = { id := .root, name } := by
  obtain ⟨i⟩ := id
  have hlt : i < 1 := model?_lt hm
  obtain rfl : i = 0 := by omega
  cases hm
  exact ⟨rfl, rfl⟩

theorem new (name : String) : (new name).WellFormed where
  node hn := by simp [node?_new] at hn
  model hm := by
    obtain ⟨rfl, rfl⟩ := eq_root_of_new hm
    exact ⟨rfl, rfl, rfl, rfl⟩
  hasRoot := ⟨_, rfl⟩
  root_free hm := by
    obtain ⟨-, rfl⟩ := eq_root_of_new hm
    rfl
  owner_iff hm owner := by
    obtain ⟨-, rfl⟩ := eq_root_of_new hm
    constructor
    · intro ho
      cases ho
    · rintro ⟨node, hn, -⟩
      simp [node?_new] at hn
  once := List.nodup_nil
  grounded hm := by
    obtain ⟨rfl, -⟩ := eq_root_of_new hm
    exact ⟨_, fun outer ho => by cases ho⟩

end WellFormed

end GraphNaming.Graph
