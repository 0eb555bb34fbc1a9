import GraphNaming.Proofs.ScopePaths
import GraphNaming.Proofs.Visited

/-!
# What a walk yields

A walk of a well-formed graph never fails, and all that it yields can be told from the visited
nodes: the scopes are numbered as their models come up, and each path leads through the models that
the scope's own model lies in.

* `Graph.scopeOf`, `Graph.route`, `Graph.pathTo`: a model's scope, and the way to it.
* `Graph.treeAfter`, `Graph.Opened`: the scopes opened once some nodes are visited.
* `WellFormed.walk?_eq`: what the walk yields.
-/

namespace GraphNaming

namespace Graph

/-! ## Scopes -/

/-- The models that have a scope once `nodes` are visited, in the order of their scopes. -/
def scopeModels (graph : Graph) (nodes : List NodeId) : List ModelId :=
  .root :: nodes.flatMap fun id => (graph.regionsOf id).map (·.model)

/-- The scope that the walk opens for a model. -/
def scopeOf (graph : Graph) (id : ModelId) : ScopeId :=
  ⟨(graph.scopeModels graph.visited).idxOf id⟩

/-- The regions of the node `id` are alternatives. -/
def branches (graph : Graph) (scoping : Scoping) (id : NodeId) : Bool :=
  (graph.node? id).any fun node =>
    scoping = .exclusive ∧ node.isExclusive ∧ 1 < node.regions.length

/-- The group of the regions of `owner`, if they are alternatives. -/
def groupOf (graph : Graph) (scoping : Scoping) (owner : NodeId) : Option Nat :=
  if graph.branches scoping owner then
    some ((graph.visited.filter (graph.branches scoping)).idxOf owner)
  else none

/-- The step from the scope around a model to its own. -/
def stepTo (graph : Graph) (scoping : Scoping) (id : ModelId) : ScopeStep :=
  ⟨graph.scopeOf id, (graph.model? id).bind (·.owner) |>.bind (graph.groupOf scoping)⟩

/-- The models from the outermost region down to `id`. -/
def route (graph : Graph) (id : ModelId) : List ModelId := (graph.enclosing id).dropLast.reverse

/-- The steps from the root scope to that of a model. -/
def pathTo (graph : Graph) (scoping : Scoping) (id : ModelId) : ScopePath :=
  (graph.route id).map (graph.stepTo scoping)

/-- The tree once the scopes of the regions of the node `id` are opened too. -/
def openRegions (graph : Graph) (scoping : Scoping) (tree : ScopeTree) (id : NodeId) : ScopeTree :=
  (((graph.node? id).bind fun node =>
    tree.addRegions? scoping (graph.scopeOf node.model) node).map (·.2)).getD tree

/-- The scopes opened once `nodes`, the first of the visited ones, are visited. -/
def treeAfter (graph : Graph) (scoping : Scoping) (nodes : List NodeId) : ScopeTree :=
  nodes.foldl (graph.openRegions scoping) .root

/-- The tree has the scopes that are opened once `nodes` are visited: one for every model that has
come up, at the end of the way to it. -/
structure Opened (graph : Graph) (scoping : Scoping) (nodes : List NodeId) (tree : ScopeTree) :
    Prop where
  size : tree.entries.size = (graph.scopeModels nodes).length
  groups : tree.groups = (nodes.filter (graph.branches scoping)).length
  path : ∀ id ∈ graph.scopeModels nodes,
    tree.path? (graph.scopeOf id) = some (graph.pathTo scoping id)

/-- The visit of a node. -/
def visitOf (graph : Graph) (id : NodeId) : Visit := ⟨id, graph.scopeOf (graph.modelOf id)⟩

variable {graph : Graph}

theorem scopeModels_append (nodes more : List NodeId) :
    graph.scopeModels (nodes ++ more) = graph.scopeModels nodes ++
      more.flatMap fun id => (graph.regionsOf id).map (·.model) := by
  simp [scopeModels]

theorem scopeModels_mono {nodes more : List NodeId} (h : nodes <+: more) :
    graph.scopeModels nodes <+: graph.scopeModels more := by
  obtain ⟨rest, rfl⟩ := h
  exact ⟨_, (scopeModels_append nodes rest).symm⟩

theorem mem_scopeModels {nodes : List NodeId} {id : ModelId} :
    id ∈ graph.scopeModels nodes ↔ id = .root ∨ ∃ owner ∈ nodes, graph.Owns owner id := by
  simp [scopeModels, owns_iff]

theorem scopeOf_root : graph.scopeOf .root = .root := by simp [scopeOf, scopeModels, ScopeId.root]

namespace WellFormed

variable (hg : graph.WellFormed)
include hg

theorem nodup_scopeModels : (graph.scopeModels graph.visited).Nodup := by
  have hcovers := hg.covers_visited
  refine List.nodup_cons.2 ⟨fun h => ?_, List.nodup_flatMap.2 ⟨fun id hid => ?_, ?_⟩⟩
  · obtain ⟨owner, -, ho⟩ := List.mem_flatMap.1 h
    obtain ⟨region, hr, hmodel⟩ := List.mem_map.1 ho
    exact hg.not_owns_root owner (owns_iff.2 ⟨region, hr, hmodel⟩)
  · obtain ⟨node, hn, -⟩ := hcovers.within id hid
    rw [regionsOf_eq hn]
    exact hg.nodup_regions hn
  · refine hcovers.nodup.imp fun hne model hm hm' => hne ?_
    obtain ⟨region, hr, hmodel⟩ := List.mem_map.1 hm
    obtain ⟨region', hr', hmodel'⟩ := List.mem_map.1 hm'
    exact hg.owner_unique (owns_iff.2 ⟨region, hr, hmodel⟩) (owns_iff.2 ⟨region', hr', hmodel'⟩)

/-- The model of a visited node has a scope. -/
theorem modelOf_mem_scopeModels {id : NodeId} (hid : id ∈ graph.visited) :
    graph.modelOf id ∈ graph.scopeModels graph.visited := by
  obtain ⟨node, hn, -⟩ := hg.covers_visited.within id hid
  rw [modelOf_eq hn, mem_scopeModels]
  by_cases hroot : node.model = .root
  · exact .inl hroot
  · obtain ⟨owner, ho, hb⟩ := hg.covers_visited.owner hid hn hroot
    exact .inr ⟨owner, hb.left_mem, ho⟩

theorem route_of_parent? {id outer : ModelId} (h : graph.parent? id = some outer) :
    graph.route id = graph.route outer ++ [id] := by
  have hne : graph.enclosing outer ≠ [] := by
    obtain ⟨-, ho⟩ := hg.model_exists_of_parent? h
    exact List.ne_nil_of_mem ((hg.mem_enclosing ho).2 (.refl outer))
  rw [route, route, hg.enclosing_of_parent? h, List.dropLast_cons_of_ne_nil hne,
    List.reverse_cons]

theorem pathTo_region (scoping : Scoping) {id : NodeId} {node : Node} {region : Region}
    (hn : graph.node? id = some node) (hr : region ∈ node.regions) :
    graph.pathTo scoping region.model = graph.pathTo scoping node.model ++
      [⟨graph.scopeOf region.model, graph.groupOf scoping id⟩] := by
  have ho : graph.Owns id region.model := ⟨node, hn, List.mem_map_of_mem hr⟩
  obtain ⟨model, hm⟩ := hg.model_exists_of_owns ho
  rw [pathTo, hg.route_of_parent? (hg.parent?_of_region hn hr), List.map_append]
  simp [pathTo, stepTo, hm, (hg.owner_iff hm id).2 ho]

/-! ## The walk -/

section Steps

variable (scoping : Scoping) {trace : List NodeId}

/-- The scopes of the regions of the next node have the next numbers. -/
private theorem map_scopeOf {id : NodeId} (hpre : trace ++ [id] <+: graph.visited) :
    (graph.regionsOf id).map (graph.scopeOf ·.model) =
      (List.range' (graph.scopeModels trace).length
        (graph.regionsOf id).length).map ScopeId.mk := by
  obtain ⟨rest, hrest⟩ := hpre
  have hnodup := hg.nodup_scopeModels
  have hmodels : graph.scopeModels graph.visited = graph.scopeModels trace ++
      ((graph.regionsOf id).map (·.model) ++
        rest.flatMap fun id => (graph.regionsOf id).map (·.model)) := by
    rw [← hrest, scopeModels_append, scopeModels_append]
    simp
  refine List.ext_getElem (by simp) fun i hi _ => ?_
  rw [List.length_map] at hi
  have hget : (graph.scopeModels graph.visited)[(graph.scopeModels trace).length + i]? =
      some (graph.regionsOf id)[i].model := by
    rw [hmodels, List.getElem?_append_right (by omega),
      List.getElem?_append_left (by simpa using hi)]
    simp [hi]
  obtain ⟨hlt, hget⟩ := List.getElem?_eq_some_iff.1 hget
  have hindex := hnodup.idxOf_getElem _ hlt
  rw [hget] at hindex
  simp [scopeOf, hindex]

/-- The group of the next node has the next number. -/
private theorem groupOf_eq {id : NodeId} (hpre : trace ++ [id] <+: graph.visited) :
    graph.groupOf scoping id = if graph.branches scoping id then
      some (trace.filter (graph.branches scoping)).length else none := by
  obtain ⟨rest, hrest⟩ := hpre
  by_cases hb : graph.branches scoping id = true
  · have hnot : id ∉ trace.filter (graph.branches scoping) := by
      have hnodup := hg.covers_visited.nodup
      rw [← hrest, List.append_assoc] at hnodup
      intro h
      exact List.disjoint_of_nodup_append hnodup (List.mem_of_mem_filter h) (by simp)
    rw [groupOf, if_pos hb, if_pos hb, ← hrest, List.append_assoc, List.filter_append,
      List.idxOf_append_of_notMem hnot]
    simp [hb]
  · rw [groupOf, if_neg hb, if_neg hb]

omit hg in
theorem number_scopeOf_lt {nodes : List NodeId} (h : nodes <+: graph.visited) {id : ModelId}
    (hid : id ∈ graph.scopeModels nodes) :
    (graph.scopeOf id).number < (graph.scopeModels nodes).length := by
  rw [scopeOf, ← (scopeModels_mono h).idxOf_eq_of_mem hid]
  exact List.idxOf_lt_length_iff.2 hid

theorem opened_nil : graph.Opened scoping [] .root where
  size := rfl
  groups := rfl
  path id hid := by
    obtain rfl : id = .root := by simpa [scopeModels] using hid
    have hroute : graph.pathTo scoping .root = [] := by simp [pathTo, route, hg.enclosing_root]
    rw [scopeOf_root, hroute]
    rfl

/-- The model of the next node has a scope: its owner was visited before. -/
theorem model_mem_scopeModels {id : NodeId} {node : Node} (hn : graph.node? id = some node)
    (hpre : trace ++ [id] <+: graph.visited) : node.model ∈ graph.scopeModels trace := by
  have hcovers := hg.covers_visited
  rw [mem_scopeModels]
  by_cases hroot : node.model = .root
  · exact .inl hroot
  obtain ⟨rest, hrest⟩ := hpre
  have hid : id ∈ graph.visited := by simp [← hrest]
  obtain ⟨owner, ho, hbefore⟩ := hcovers.owner hid hn hroot
  have hnodup := hcovers.nodup
  rw [← hrest, List.append_assoc, List.singleton_append] at hnodup hbefore
  exact .inr ⟨owner, hbefore.mem_front hnodup, ho⟩

/-- The regions of the next node come to lie one step below its model. -/
private theorem addMany?_regions {tree : ScopeTree} (h : graph.Opened scoping trace tree)
    {id : NodeId} {node : Node} (hn : graph.node? id = some node)
    (hpre : trace ++ [id] <+: graph.visited) (groups : Nat) :
    ∃ after, ScopeTree.addMany? { tree with groups } (graph.scopeOf node.model)
        (graph.groupOf scoping id) node.regions.length =
          some (node.regions.map (graph.scopeOf ·.model), after) ∧ after.groups = groups ∧
      after.entries.size = (graph.scopeModels (trace ++ [id])).length ∧
      ∀ id' ∈ graph.scopeModels (trace ++ [id]),
        after.path? (graph.scopeOf id') = some (graph.pathTo scoping id') := by
  have hpath : ScopeTree.path? { tree with groups } (graph.scopeOf node.model) =
      some (graph.pathTo scoping node.model) := by
    rw [ScopeTree.path?_groups]
    exact h.path _ (hg.model_mem_scopeModels hn hpre)
  obtain ⟨after, hafter, hgrown⟩ :=
    ScopeTree.exists_addMany? hpath (graph.groupOf scoping id) node.regions.length
  have hscopes := map_scopeOf hg hpre
  rw [regionsOf_eq hn, ← h.size] at hscopes
  have hmodels : graph.scopeModels (trace ++ [id]) =
      graph.scopeModels trace ++ node.regions.map (·.model) := by
    simp [scopeModels_append, regionsOf_eq hn]
  refine ⟨after, hscopes ▸ hafter, hgrown.groups, ?_, fun id' hid => ?_⟩
  · rw [hgrown.size, hmodels, List.length_append, List.length_map, ← h.size]
  rw [hmodels] at hid
  -- Old scopes keep their paths, and the paths of the new ones are that of the model with one more
  -- step.
  rcases List.mem_append.1 hid with hold | hnew
  · have hlt := number_scopeOf_lt ((List.prefix_append _ _).trans hpre) hold
    rw [hgrown.old (h.size ▸ hlt), ScopeTree.path?_groups]
    exact h.path _ hold
  · obtain ⟨region, hr, rfl⟩ := List.mem_map.1 hnew
    have hmem : graph.scopeOf region.model ∈
        (List.range' tree.entries.size node.regions.length).map ScopeId.mk :=
      hscopes ▸ List.mem_map_of_mem hr
    obtain ⟨k, hk, hscope⟩ := List.mem_map.1 hmem
    obtain ⟨hle, hlt⟩ := List.mem_range'_1.1 hk
    rw [hg.pathTo_region scoping hn hr, ← hscope]
    exact hgrown.new hle hlt

private theorem exists_addRegions? {tree : ScopeTree} (h : graph.Opened scoping trace tree)
    {id : NodeId} {node : Node} (hn : graph.node? id = some node)
    (hpre : trace ++ [id] <+: graph.visited) :
    ∃ after, tree.addRegions? scoping (graph.scopeOf node.model) node =
        some (node.regions.map (graph.scopeOf ·.model), after) ∧
      graph.Opened scoping (trace ++ [id]) after := by
  have hgroup := groupOf_eq hg scoping hpre
  have hiff : graph.branches scoping id = true ↔
      scoping = .exclusive ∧ node.isExclusive ∧ 1 < node.regions.length := by
    simp [branches, hn]
  unfold ScopeTree.addRegions?
  by_cases hb : graph.branches scoping id = true
  · obtain ⟨after, hafter, hgroups, hsize, hpath⟩ :=
      addMany?_regions hg scoping h hn hpre (tree.groups + 1)
    rw [if_pos hb, ← h.groups] at hgroup
    rw [hgroup] at hafter
    refine ⟨after, (if_pos (hiff.1 hb)).trans hafter, hsize, ?_, hpath⟩
    simp [hgroups, h.groups, hb]
  · obtain ⟨after, hafter, hgroups, hsize, hpath⟩ :=
      addMany?_regions hg scoping h hn hpre tree.groups
    rw [if_neg hb] at hgroup
    rw [hgroup] at hafter
    refine ⟨after, (if_neg (mt hiff.2 hb)).trans hafter, hsize, ?_, hpath⟩
    simp [hgroups, h.groups, hb]

omit hg in
private theorem treeAfter_concat {id : NodeId} {node : Node} (hn : graph.node? id = some node)
    {opened : List ScopeId} {after : ScopeTree}
    (h : (graph.treeAfter scoping trace).addRegions? scoping (graph.scopeOf node.model) node =
      some (opened, after)) : graph.treeAfter scoping (trace ++ [id]) = after := by
  have hlast : graph.treeAfter scoping (trace ++ [id]) =
      graph.openRegions scoping (graph.treeAfter scoping trace) id := by simp [treeAfter]
  simp [hlast, openRegions, hn, h]

theorem opened_treeAfter (hpre : trace <+: graph.visited) :
    graph.Opened scoping trace (graph.treeAfter scoping trace) := by
  induction trace using List.reverseRecOn with
  | nil => exact hg.opened_nil scoping
  | append_singleton trace id ih =>
    obtain ⟨node, hn, -⟩ := hg.covers_visited.within id (hpre.subset (by simp))
    obtain ⟨after, hafter, hopened⟩ :=
      exists_addRegions? hg scoping (ih ((List.prefix_append _ _).trans hpre)) hn hpre
    rwa [treeAfter_concat scoping hn hafter]

/-- The scope of a model is found where the walk has opened it. -/
theorem path?_treeAfter (hpre : trace <+: graph.visited) {id : ModelId}
    (hid : id ∈ graph.scopeModels trace) :
    (graph.treeAfter scoping trace).path? (graph.scopeOf id) = some (graph.pathTo scoping id) :=
  (hg.opened_treeAfter scoping hpre).path id hid

/-- Visiting the next node opens the scopes of its regions. -/
theorem addRegions?_eq {id : NodeId} {node : Node} (hn : graph.node? id = some node)
    (hpre : trace ++ [id] <+: graph.visited) :
    (graph.treeAfter scoping trace).addRegions? scoping (graph.scopeOf node.model) node =
      some (node.regions.map (graph.scopeOf ·.model), graph.treeAfter scoping (trace ++ [id])) := by
  have hopened := hg.opened_treeAfter scoping ((List.prefix_append _ _).trans hpre)
  obtain ⟨after, hafter, -⟩ := exists_addRegions? hg scoping hopened hn hpre
  rw [hafter, treeAfter_concat scoping hn hafter]

/-- Whenever the turn of the model `id` comes, the walk visits it with all that lies in it. -/
def Visits (graph : Graph) (scoping : Scoping) (fuel : Nat) (id : ModelId) : Prop :=
  ∀ trace, trace ++ graph.nodesWithin fuel id <+: graph.visited →
    graph.walkWithin? scoping fuel id (graph.scopeOf id) (graph.treeAfter scoping trace) =
      some ((graph.nodesWithin fuel id).map graph.visitOf,
        graph.treeAfter scoping (trace ++ graph.nodesWithin fuel id))

/-- The block of a node, as the walk has it. -/
private def turn (graph : Graph) (fuel : Nat) (id : NodeId) : List NodeId :=
  graph.block (fun region => graph.nodesWithin fuel region.model) id

omit hg in
private theorem walkRegions_eq {fuel : Nat} {id : NodeId} {node : Node}
    (hn : graph.node? id = some node) (hpre : trace ++ turn graph fuel id <+: graph.visited)
    (hregions : ∀ region ∈ node.regions, Visits graph scoping fuel region.model) :
    thread? (fun region tree =>
        graph.walkWithin? scoping fuel region.model (graph.scopeOf region.model) tree)
      node.regions (graph.treeAfter scoping (trace ++ [id])) =
      some (node.regions.map fun region => (graph.nodesWithin fuel region.model).map graph.visitOf,
        graph.treeAfter scoping (trace ++ turn graph fuel id)) := by
  rw [turn, block, regionsOf_eq hn] at hpre ⊢
  -- The tree once some of the regions are done, from which the walk goes on.
  let state (done : List Region) := graph.treeAfter scoping
    (trace ++ id :: done.flatMap fun region => graph.nodesWithin fuel region.model)
  refine thread?_known state fun done region rest hd => ?_
  have hr : region ∈ node.regions := by simp [hd]
  have hwalk := hregions region hr (trace ++ id :: done.flatMap fun region =>
    graph.nodesWithin fuel region.model)
  simp only [List.append_assoc, List.cons_append] at hwalk
  rw [hwalk]
  · simp [state]
  · refine List.IsPrefix.trans ⟨rest.flatMap fun region => graph.nodesWithin fuel region.model, ?_⟩
      hpre
    simp [hd]

private theorem walkNode?_eq {fuel : Nat} {id : NodeId} {node : Node}
    (hn : graph.node? id = some node) (hpre : trace ++ turn graph fuel id <+: graph.visited)
    (hregions : ∀ region ∈ node.regions, Visits graph scoping fuel region.model) :
    graph.walkNode? scoping (graph.walkWithin? scoping fuel) (graph.scopeOf node.model) id
        (graph.treeAfter scoping trace) =
      some ((turn graph fuel id).map graph.visitOf,
        graph.treeAfter scoping (trace ++ turn graph fuel id)) := by
  have hpre' : trace ++ [id] <+: graph.visited :=
    List.IsPrefix.trans ⟨_, by rw [List.append_assoc, List.singleton_append]; rfl⟩ hpre
  have hzip : node.regions.zip (node.regions.map (graph.scopeOf ·.model)) =
      node.regions.map fun region => (region, graph.scopeOf region.model) :=
    List.map_prod_left_eq_zip.symm
  rw [walkNode?, hn]
  simp only [Option.bind_eq_bind, Option.bind_some, addRegions?_eq hg scoping hn hpre', hzip,
    thread?_map, walkRegions_eq scoping hn hpre hregions]
  simp [turn, block, regionsOf_eq hn, visitOf, modelOf_eq hn, List.flatMap_def, List.map_flatten,
    Function.comp_def]

/-- The walk of a model takes the turns of its nodes one after the other. -/
private theorem visits {fuel : Nat} {id : ModelId} (hid : ∃ model, graph.model? id = some model)
    (hf : graph.models.size < fuel + (graph.enclosing id).length) :
    Visits graph scoping fuel id := by
  induction fuel generalizing id with
  | zero =>
    have hle := hg.length_enclosing_le hid
    omega
  | succ fuel ih =>
    obtain ⟨model, hm⟩ := hid
    obtain ⟨order, horder, ho, -⟩ := hg.exists_order hm
    have hnodes : graph.nodesWithin (fuel + 1) id = order.flatMap (turn graph fuel) := by
      rw [nodesWithin, horder]
      rfl
    intro trace hpre
    rw [hnodes] at hpre ⊢
    -- The tree once some of the nodes are done. Their regions are covered by the induction on the
    -- fuel.
    let state (done : List NodeId) :=
      graph.treeAfter scoping (trace ++ done.flatMap (turn graph fuel))
    have hthread : thread? (graph.walkNode? scoping (graph.walkWithin? scoping fuel)
        (graph.scopeOf id)) order (graph.treeAfter scoping trace) =
        some (order.map fun id => (turn graph fuel id).map graph.visitOf, state order) := by
      have hstart : graph.treeAfter scoping trace = state [] := by simp [state]
      rw [hstart]
      refine thread?_known state fun done n rest hd => ?_
      have hn : n ∈ order := by simp [hd]
      obtain ⟨node, hnode, rfl, -⟩ := ho.mem n hn
      have hturn : (trace ++ done.flatMap (turn graph fuel)) ++ turn graph fuel n <+:
          graph.visited := by
        refine List.IsPrefix.trans ⟨rest.flatMap (turn graph fuel), ?_⟩ hpre
        simp [hd]
      have hstep := walkNode?_eq hg scoping hnode hturn fun region hr => ?_
      · simpa [state] using hstep
      · have hp := hg.parent?_of_region hnode hr
        exact ih (hg.model_exists_of_parent? hp).1 (hg.fuel_of_parent? hp hf)
    simp only [walkWithin?, horder, hthread, Option.bind_eq_bind, Option.bind_some]
    simp [state, List.flatMap_def, List.map_flatten, Function.comp_def]

end Steps

/-- The walk visits the nodes in order, each in the scope of its model. -/
theorem walk?_eq (scoping : Scoping) : graph.walk? scoping =
    some ⟨graph.visited.map graph.visitOf, graph.treeAfter scoping graph.visited⟩ := by
  have hwalk := visits hg scoping hg.hasRoot hg.fuel_root [] List.prefix_rfl
  rw [scopeOf_root, List.nil_append] at hwalk
  rw [walk?, show ScopeTree.root = graph.treeAfter scoping [] from rfl, hwalk]
  rfl

theorem nodes_of_walk? {scoping : Scoping} {walk : Walk} (h : graph.walk? scoping = some walk) :
    walk.nodes = graph.visited := by
  rw [hg.walk?_eq] at h
  cases h
  simp [Walk.nodes, visitOf, Function.comp_def]

theorem exists_walk (scoping : Scoping) :
    ∃ walk, graph.walk? scoping = some walk ∧ walk.nodes = graph.visited :=
  ⟨_, hg.walk?_eq scoping, hg.nodes_of_walk? (hg.walk?_eq scoping)⟩

end WellFormed

theorem scopeOf_of_shape {after : Graph} (h : graph.shape = after.shape) (id : ModelId) :
    after.scopeOf id = graph.scopeOf id := by
  simp only [scopeOf, scopeModels, visited_of_shape h, regionsOf_of_shape h]

end Graph

end GraphNaming
