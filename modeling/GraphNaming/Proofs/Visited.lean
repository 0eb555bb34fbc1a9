import GraphNaming.Proofs.Order

/-!
# The visited nodes

The nodes that a walk visits, and the order in which it does, do not hang on scopes: they are read
off the orders of the models alone.

* `Graph.visited`: the visited nodes.
* `Graph.Covers`: what the visits of one model with all that lies in it are like. No node comes
  twice, every node comes after those whose values it takes and after the owner of its model, and
  the models of visited regions are visited as well.
* `WellFormed.covers_visited`: the visited nodes cover the root.
-/

namespace GraphNaming.Graph

variable {graph : Graph}

/-- The model of the node `id`. -/
def modelOf (graph : Graph) (id : NodeId) : ModelId :=
  ((graph.node? id).map Node.model).getD .root

/-- The regions of the node `id`. -/
def regionsOf (graph : Graph) (id : NodeId) : List Region :=
  ((graph.node? id).map Node.regions).getD []

/-- The nodes of the model `id`, each followed by those of its regions, which are nested at most
`fuel` deep. -/
def nodesWithin (graph : Graph) : Nat → ModelId → List NodeId
  | 0, _ => []
  | fuel + 1, id => ((graph.order? id).getD []).flatMap fun node =>
    node :: (graph.regionsOf node).flatMap fun region => graph.nodesWithin fuel region.model

/-- The visited nodes, in the order of their visits. -/
def visited (graph : Graph) : List NodeId := graph.nodesWithin graph.models.size .root

theorem modelOf_eq {id : NodeId} {node : Node} (hn : graph.node? id = some node) :
    graph.modelOf id = node.model := by rw [modelOf, hn]; rfl

theorem regionsOf_eq {id : NodeId} {node : Node} (hn : graph.node? id = some node) :
    graph.regionsOf id = node.regions := by rw [regionsOf, hn]; rfl

theorem owns_iff {owner : NodeId} {id : ModelId} :
    graph.Owns owner id ↔ ∃ region ∈ graph.regionsOf owner, region.model = id := by
  unfold Owns regionsOf
  cases graph.node? owner <;> simp

/-- `id` is a parameter or a result of `model`. -/
def AtBoundary (graph : Graph) (model : ModelId) (id : NodeId) : Prop :=
  graph.HasParameter model id ∨ graph.HasResult model id

/-- `nodes` are the visits of the model `id` with all that lies in it. -/
structure Covers (graph : Graph) (id : ModelId) (nodes : List NodeId) : Prop where
  within : ∀ n ∈ nodes, ∃ node, graph.node? n = some node ∧ graph.Within node.model id
  nodup : nodes.Nodup
  input : ∀ {n node}, n ∈ nodes → graph.node? n = some node →
    ∀ value ∈ node.inputs, Before nodes value.node n
  owner : ∀ {n node}, n ∈ nodes → graph.node? n = some node → node.model ≠ id →
    ∃ owner, graph.Owns owner node.model ∧ Before nodes owner n
  boundary : ∀ {n}, graph.AtBoundary id n → n ∈ nodes
  region : ∀ {owner model n}, owner ∈ nodes → graph.Owns owner model →
    graph.AtBoundary model n → n ∈ nodes

/-! ## One model -/

section Blocks

variable {id : ModelId} {order : List NodeId} {walk : Region → List NodeId}

/-- A node, followed by the visits of its regions. -/
def block (graph : Graph) (walk : Region → List NodeId) (id : NodeId) : List NodeId :=
  id :: (graph.regionsOf id).flatMap walk

theorem mem_block {n id : NodeId} :
    n ∈ graph.block walk id ↔ n = id ∨ ∃ region ∈ graph.regionsOf id, n ∈ walk region := by
  rw [block, List.mem_cons, List.mem_flatMap]

theorem block_sublist {id : NodeId} (h : id ∈ order) :
    (graph.block walk id).Sublist (order.flatMap (graph.block walk)) := (infix_flatMap _ h).sublist

theorem walk_sublist {id : NodeId} {region : Region} (h : id ∈ order)
    (hr : region ∈ graph.regionsOf id) :
    (walk region).Sublist (order.flatMap (graph.block walk)) :=
  ((infix_flatMap walk hr).sublist.trans (List.sublist_cons_self _ _)).trans (block_sublist h)

theorem order_sublist : order.Sublist (order.flatMap (graph.block walk)) := by
  induction order with
  | nil => exact .slnil
  | cons first order ih =>
    rw [List.flatMap_cons]
    exact List.Sublist.append (List.singleton_sublist.2 (mem_block.2 (.inl rfl))) ih

/-- The regions of the nodes of a model lie in the model. -/
theorem parent?_of_mem (hg : graph.WellFormed) (ho : graph.OrderedIn id order) {n : NodeId}
    (hn : n ∈ order) {region : Region} (hr : region ∈ graph.regionsOf n) :
    graph.parent? region.model = some id := by
  obtain ⟨node, hnode, rfl, -⟩ := ho.mem n hn
  exact hg.parent?_of_region hnode (regionsOf_eq hnode ▸ hr)

variable (hg : graph.WellFormed) (ho : graph.OrderedIn id order)
  (hw : ∀ n ∈ order, ∀ region ∈ graph.regionsOf n, graph.Covers region.model (walk region))
include hg ho hw

/-- What two walks share lies in one region of one node. -/
private theorem region_unique {n n' : NodeId} (hn : n ∈ order) (hn' : n' ∈ order)
    {region region' : Region} (hr : region ∈ graph.regionsOf n)
    (hr' : region' ∈ graph.regionsOf n') {x : NodeId} (hx : x ∈ walk region)
    (hx' : x ∈ walk region') : n = n' ∧ region.model = region'.model := by
  obtain ⟨node, hnode, hwithin⟩ := (hw n hn region hr).within x hx
  obtain ⟨node', hnode', hwithin'⟩ := (hw n' hn' region' hr').within x hx'
  rw [hnode] at hnode'
  cases hnode'
  have hmodel := hg.sibling_unique (parent?_of_mem hg ho hn hr) (parent?_of_mem hg ho hn' hr')
    hwithin hwithin'
  exact ⟨hg.owner_unique (owns_iff.2 ⟨region, hr, rfl⟩) (owns_iff.2 ⟨region', hr', hmodel.symm⟩),
    hmodel⟩

/-- No node of the model is in the walk of a region. -/
private theorem not_mem_walk {n n' : NodeId} (hn : n ∈ order) (hn' : n' ∈ order) {region : Region}
    (hr : region ∈ graph.regionsOf n') : n ∉ walk region := by
  intro hx
  obtain ⟨node, hnode, rfl, -⟩ := ho.mem n hn
  obtain ⟨node', hnode', hwithin⟩ := (hw n' hn' region hr).within n hx
  rw [hnode] at hnode'
  cases hnode'
  exact hg.not_within_of_parent? (parent?_of_mem hg ho hn' hr) hwithin

private theorem nodup_block {n : NodeId} (hn : n ∈ order) : (graph.block walk n).Nodup := by
  obtain ⟨node, hnode, -⟩ := ho.mem n hn
  have hmodels : (graph.regionsOf n).Pairwise fun a b => a.model ≠ b.model := by
    rw [regionsOf_eq hnode, ← List.pairwise_map]
    exact hg.nodup_regions hnode
  refine List.nodup_cons.2 ⟨fun h => ?_, List.nodup_flatMap.2
    ⟨fun region hr => (hw n hn region hr).nodup, hmodels.imp_of_mem ?_⟩⟩
  · obtain ⟨region, hr, hx⟩ := List.mem_flatMap.1 h
    exact not_mem_walk hg ho hw hn hn hr hx
  · intro a b ha hb hne x hxa hxb
    exact hne (region_unique hg ho hw hn hn ha hb hxa hxb).2

private theorem disjoint_blocks {n n' : NodeId} (hn : n ∈ order) (hn' : n' ∈ order)
    (hne : n ≠ n') : (graph.block walk n).Disjoint (graph.block walk n') := by
  intro x hx hx'
  rcases mem_block.1 hx with rfl | ⟨region, hr, hx⟩
  · rcases mem_block.1 hx' with rfl | ⟨region', hr', hx'⟩
    · exact hne rfl
    · exact not_mem_walk hg ho hw hn hn' hr' hx'
  · rcases mem_block.1 hx' with rfl | ⟨region', hr', hx'⟩
    · exact not_mem_walk hg ho hw hn' hn hr hx
    · exact hne (region_unique hg ho hw hn hn' hr hr' hx hx').1

/-- The blocks of the nodes of a model cover it, if its order has its parameters and results. -/
theorem covers_blocks (hb : ∀ {n}, graph.AtBoundary id n → n ∈ order) :
    graph.Covers id (order.flatMap (graph.block walk)) where
  within n hn := by
    obtain ⟨m, hm, hn⟩ := List.mem_flatMap.1 hn
    rcases mem_block.1 hn with rfl | ⟨region, hr, hn⟩
    · obtain ⟨node, hnode, rfl, -⟩ := ho.mem n hm
      exact ⟨node, hnode, .refl _⟩
    · obtain ⟨node, hnode, hwithin⟩ := (hw m hm region hr).within n hn
      exact ⟨node, hnode, hwithin.trans (.of_parent? (parent?_of_mem hg ho hm hr))⟩
  nodup := List.nodup_flatMap.2 ⟨fun _ hn => nodup_block hg ho hw hn,
    ho.nodup.imp_of_mem fun hn hn' hne => disjoint_blocks hg ho hw hn hn' hne⟩
  input {n node} hn hnode value hv := by
    obtain ⟨m, hm, hn⟩ := List.mem_flatMap.1 hn
    rcases mem_block.1 hn with rfl | ⟨region, hr, hn⟩
    · obtain ⟨node', hnode', -, hinput⟩ := ho.mem n hm
      rw [hnode] at hnode'
      cases hnode'
      exact (hinput value hv).mono order_sublist
    · exact ((hw m hm region hr).input hn hnode value hv).mono (walk_sublist hm hr)
  owner {n node} hn hnode hne := by
    obtain ⟨m, hm, hn⟩ := List.mem_flatMap.1 hn
    rcases mem_block.1 hn with rfl | ⟨region, hr, hn⟩
    · obtain ⟨node', hnode', hmodel, -⟩ := ho.mem n hm
      rw [hnode] at hnode'
      cases hnode'
      exact absurd hmodel hne
    · by_cases he : node.model = region.model
      · refine ⟨m, owns_iff.2 ⟨region, hr, he.symm⟩, Before.mono ?_ (block_sublist hm)⟩
        exact Before.cons_iff.2 (.inl ⟨rfl, List.mem_flatMap.2 ⟨region, hr, hn⟩⟩)
      · obtain ⟨owner, ho', hbefore⟩ := (hw m hm region hr).owner hn hnode he
        exact ⟨owner, ho', hbefore.mono (walk_sublist hm hr)⟩
  boundary hn := order_sublist.subset (hb hn)
  region {owner model n} hn ho' hn' := by
    obtain ⟨m, hm, hn⟩ := List.mem_flatMap.1 hn
    rcases mem_block.1 hn with rfl | ⟨region, hr, hn⟩
    · obtain ⟨region, hr, rfl⟩ := owns_iff.1 ho'
      exact (walk_sublist hm hr).subset ((hw owner hm region hr).boundary hn')
    · exact (walk_sublist hm hr).subset ((hw m hm region hr).region hn ho' hn')

end Blocks

namespace WellFormed

variable (hg : graph.WellFormed)
include hg

/-- A region lies one model deeper than its owner, so as many models as lie around it are never
reached by the fuel. -/
theorem covers_nodesWithin {fuel : Nat} {id : ModelId} (hid : ∃ model, graph.model? id = some model)
    (hf : graph.models.size < fuel + (graph.enclosing id).length) :
    graph.Covers id (graph.nodesWithin fuel id) := by
  induction fuel generalizing id with
  -- Without fuel there would be more models around this one than there are in the graph.
  | zero =>
    have hle := hg.length_enclosing_le hid
    omega
  | succ fuel ih =>
    obtain ⟨model, hm⟩ := hid
    obtain ⟨order, horder, ho, hpre, hresults⟩ := hg.exists_order hm
    rw [nodesWithin, horder, Option.getD_some]
    refine covers_blocks hg ho (fun n hn region hr => ?_) ?_
    · have hp := parent?_of_mem hg ho hn hr
      exact ih (hg.model_exists_of_parent? hp).1 (hg.fuel_of_parent? hp hf)
    · rintro n (hn | hn)
      · exact hpre.subset ((hg.mem_parameters hm).2 hn)
      · exact hresults n ((hg.mem_results hm).2 hn)

theorem covers_visited : graph.Covers .root graph.visited :=
  hg.covers_nodesWithin hg.hasRoot hg.fuel_root

end WellFormed

/-! ## Changes of names -/

section Shape

variable {after : Graph} (h : graph.shape = after.shape)
include h

theorem order?_of_shape (id : ModelId) : after.order? id = graph.order? id := by
  rw [← order?_shape graph, h, order?_shape]

theorem source_of_shape (value : Value) : after.source value = graph.source value := by
  rw [← source_shape graph, h, source_shape]

theorem modelOf_of_shape (id : NodeId) : after.modelOf id = graph.modelOf id := by
  have shape (graph : Graph) : graph.shape.modelOf id = graph.modelOf id := by
    rw [modelOf, modelOf, node?_shape]
    cases graph.node? id <;> rfl
  rw [← shape graph, h, shape]

theorem regionsOf_of_shape (id : NodeId) : after.regionsOf id = graph.regionsOf id := by
  have shape (graph : Graph) : graph.shape.regionsOf id = graph.regionsOf id := by
    rw [regionsOf, regionsOf, node?_shape]
    cases graph.node? id <;> rfl
  rw [← shape graph, h, shape]

/-- Which nodes are visited does not hang on names. -/
theorem visited_of_shape : after.visited = graph.visited := by
  have hsize : after.models.size = graph.models.size := congrArg (·.models.size) h.symm
  have hnodes (fuel : Nat) : ∀ id, after.nodesWithin fuel id = graph.nodesWithin fuel id := by
    induction fuel with
    | zero => exact fun _ => rfl
    | succ fuel ih =>
      intro id
      simp only [nodesWithin, order?_of_shape h, regionsOf_of_shape h, ih]
  rw [visited, visited, hsize, hnodes]

end Shape

end GraphNaming.Graph
