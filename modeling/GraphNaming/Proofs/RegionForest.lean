import GraphNaming.Graph.Printer
import GraphNaming.Proofs.History
import GraphNaming.Proofs.Walk

/-!
# The forest of regions

Models can be filled, nested into each other and joined to nodes in any order, while they lie in
the root model or not. What comes about is always a forest.

* `Graph.Bound`: the bindings of a region join what they should.
* `Graph.Ends`: from a model outwards, and from a model down through its regions, everything comes
  to an end. With as much fuel as there are models nothing is cut off: more fuel makes no
  difference.
* `WellFormed.ends`: this holds of every model, also of one that no region of the root leads to.
* `Graph.RegionForest`, `Reachable.regions_form_forest`: the regions of every graph with a history
  form a forest.
-/

namespace GraphNaming

/-! ## Opening scopes -/

namespace ScopeTree

variable {tree after : ScopeTree}

/-- `after` has the scopes of `tree`, by the same paths. -/
def GrowsTo (tree after : ScopeTree) : Prop :=
  ∀ scope path, tree.path? scope = some path → after.path? scope = some path

theorem GrowsTo.refl (tree : ScopeTree) : tree.GrowsTo tree := fun _ _ hp => hp

theorem GrowsTo.trans {last : ScopeTree} (h : tree.GrowsTo after) (h' : after.GrowsTo last) :
    tree.GrowsTo last := fun scope path hp => h' scope path (h scope path hp)

/-- Scopes can be opened in every scope of a tree. -/
theorem addMany?_grows {parent : ScopeId} {path : ScopePath} (hp : tree.path? parent = some path)
    (group : Option Nat) (count : Nat) :
    ∃ opened after, tree.addMany? parent group count = some (opened, after) ∧
      tree.GrowsTo after ∧ ∀ scope ∈ opened, ∃ path, after.path? scope = some path := by
  obtain ⟨after, hafter, hgrown⟩ := exists_addMany? hp group count
  refine ⟨_, after, hafter, fun scope path hpath => hgrown.keeps hpath, fun scope hs => ?_⟩
  obtain ⟨k, hk, rfl⟩ := List.mem_map.1 hs
  obtain ⟨hle, hlt⟩ := List.mem_range'_1.1 hk
  exact ⟨_, hgrown.new hle hlt⟩

theorem exists_addRegions? {scope : ScopeId} {path : ScopePath} (hp : tree.path? scope = some path)
    (scoping : Scoping) (owner : Node) :
    ∃ opened after, tree.addRegions? scoping scope owner = some (opened, after) ∧
      tree.GrowsTo after ∧ ∀ scope ∈ opened, ∃ path, after.path? scope = some path := by
  have hp' : ScopeTree.path? { tree with groups := tree.groups + 1 } scope = some path :=
    (path?_groups tree _ scope).trans hp
  simp only [addRegions?]
  split
  · obtain ⟨opened, after, hafter, hgrows, hopened⟩ := addMany?_grows hp' (some tree.groups) _
    exact ⟨opened, after, hafter, fun id path hpath =>
      hgrows id path ((path?_groups tree _ id).trans hpath), hopened⟩
  · exact addMany?_grows hp _ _

end ScopeTree

namespace Graph

variable {graph : Graph}

/-! ## Everything comes to an end -/

/-- A walk of the model `id` from any scope comes to an end, in the same way with any fuel from
`enough` on. -/
def WalkEnds (graph : Graph) (scoping : Scoping) (enough : Nat) (id : ModelId) : Prop :=
  ∀ scope tree path, tree.path? scope = some path →
    ∃ visits after, tree.GrowsTo after ∧ ∀ fuel, enough ≤ fuel →
      graph.walkWithin? scoping fuel id scope tree = some (visits, after)

/-- Writing the model `id` comes to an end, in the same way with any fuel from `enough` on. -/
def LinesEnd (graph : Graph) (enough : Nat) (id : ModelId) : Prop :=
  ∀ depth, ∃ lines, ∀ fuel, enough ≤ fuel → graph.linesWithin? fuel depth id = some lines

/-- From the model `id` outwards and inwards everything comes to an end, and no fuel beyond the
number of models makes a difference. -/
structure Ends (graph : Graph) (id : ModelId) : Prop where
  enclosing : ∃ chain, graph.Chain id chain ∧
    ∀ fuel, graph.models.size ≤ fuel → graph.enclosingWithin fuel id = chain
  walk : ∀ scoping, graph.WalkEnds scoping graph.models.size id
  lines : graph.LinesEnd graph.models.size id

/-- The visit of a node comes to an end if the walks of its regions do. -/
theorem walkNode?_ends {scoping : Scoping} {enough : Nat} {id : NodeId} {node : Node}
    (hn : graph.node? id = some node)
    (hregions : ∀ region ∈ node.regions, graph.WalkEnds scoping enough region.model)
    {scope : ScopeId} {tree : ScopeTree} {path : ScopePath} (hp : tree.path? scope = some path) :
    ∃ visits after, tree.GrowsTo after ∧ ∀ fuel, enough ≤ fuel →
      graph.walkNode? scoping (graph.walkWithin? scoping fuel) scope id tree =
        some (visits, after) := by
  obtain ⟨opened, start, hopened, hgrows, hscopes⟩ := ScopeTree.exists_addRegions? hp scoping node
  -- The trees only grow, so the scopes opened for the regions are found whatever regions come
  -- before.
  have hstep : ∀ entry ∈ node.regions.zip opened, ∀ tree, start.GrowsTo tree →
      ∃ visits after, start.GrowsTo after ∧ ∀ fuel, enough ≤ fuel →
        graph.walkWithin? scoping fuel entry.1.model entry.2 tree = some (visits, after) := by
    intro entry he tree htree
    obtain ⟨hregion, hscope⟩ := List.of_mem_zip he
    obtain ⟨path, hpath⟩ := hscopes _ hscope
    obtain ⟨visits, after, hafter, hwalk⟩ := hregions _ hregion _ _ _ (htree _ _ hpath)
    exact ⟨visits, after, htree.trans hafter, hwalk⟩
  obtain ⟨inner, last, hlast, hinner⟩ := thread?_uniform hstep (.refl start)
  refine ⟨⟨id, scope⟩ :: inner.flatten, last, hgrows.trans hlast, fun fuel hf => ?_⟩
  simp only [walkNode?, hn, hopened, Option.bind_eq_bind, Option.bind_some, hinner fuel hf]

/-- The lines of a node come to an end if those of its regions do. -/
theorem nodeLines?_ends {enough : Nat} {id : NodeId} {node : Node}
    (hn : graph.node? id = some node)
    (hregions : ∀ region ∈ node.regions, graph.LinesEnd enough region.model) (depth : Nat) :
    ∃ lines, ∀ fuel, enough ≤ fuel →
      graph.nodeLines? (graph.linesWithin? fuel) depth id = some lines := by
  obtain ⟨inner, hinner⟩ := mapM_uniform fun region hr => hregions region hr (depth + 1)
  refine ⟨indented depth node.line :: inner.flatten, fun fuel hf => ?_⟩
  simp only [nodeLines?, hn, Option.bind_eq_bind, Option.bind_some, hinner fuel hf]

namespace WellFormed

variable (hg : graph.WellFormed)
include hg

section Inner

variable {enough : Nat} {id : ModelId} {model : Model} (hm : graph.model? id = some model)
include hm

/-- A walk of a model comes to an end if those of the models directly in it do. -/
theorem walkEnds_succ {scoping : Scoping}
    (h : ∀ inner, graph.parent? inner = some id → graph.WalkEnds scoping enough inner) :
    graph.WalkEnds scoping (enough + 1) id := by
  intro scope tree path hp
  obtain ⟨order, horder, ho, -⟩ := hg.exists_order hm
  have hstep : ∀ n ∈ order, ∀ state, tree.GrowsTo state →
      ∃ visits after, tree.GrowsTo after ∧ ∀ fuel, enough ≤ fuel →
        graph.walkNode? scoping (graph.walkWithin? scoping fuel) scope n state =
          some (visits, after) := by
    intro n hn state hstate
    obtain ⟨node, hnode, rfl, -⟩ := ho.mem n hn
    obtain ⟨visits, after, hafter, hwalk⟩ := walkNode?_ends hnode
      (fun region hr => h _ (hg.parent?_of_region hnode hr)) (hstate _ _ hp)
    exact ⟨visits, after, hstate.trans hafter, hwalk⟩
  obtain ⟨visits, last, hlast, hwalk⟩ := thread?_uniform hstep (.refl tree)
  refine ⟨visits.flatten, last, hlast, fun fuel hf => ?_⟩
  -- One fuel is for the model itself, and what is left lasts for its regions.
  obtain ⟨fuel, rfl⟩ := Nat.exists_eq_succ_of_ne_zero (show fuel ≠ 0 by omega)
  simp only [walkWithin?, horder, Option.bind_eq_bind, Option.bind_some,
    hwalk fuel (Nat.le_of_succ_le_succ hf)]

/-- Writing a model comes to an end if writing the models directly in it does. -/
theorem linesEnd_succ (h : ∀ inner, graph.parent? inner = some id → graph.LinesEnd enough inner) :
    graph.LinesEnd (enough + 1) id := by
  intro depth
  obtain ⟨order, horder, ho, -⟩ := hg.exists_order hm
  have hnodes : ∀ n ∈ order, ∃ lines, ∀ fuel, enough ≤ fuel →
      graph.nodeLines? (graph.linesWithin? fuel) (depth + 1) n = some lines := by
    intro n hn
    obtain ⟨node, hnode, rfl, -⟩ := ho.mem n hn
    exact nodeLines?_ends hnode (fun region hr => h _ (hg.parent?_of_region hnode hr)) (depth + 1)
  obtain ⟨lines, hlines⟩ := mapM_uniform hnodes
  refine ⟨indented depth model.line :: lines.flatten, fun fuel hf => ?_⟩
  obtain ⟨fuel, rfl⟩ := Nat.exists_eq_succ_of_ne_zero (show fuel ≠ 0 by omega)
  simp only [linesWithin?, hm, horder, Option.bind_eq_bind, Option.bind_some,
    hlines fuel (Nat.le_of_succ_le_succ hf)]

end Inner

theorem ends {id : ModelId} (hid : ∃ model, graph.model? id = some model) : graph.Ends id where
  enclosing := by
    have hc := hg.chain_enclosing hid
    exact ⟨_, hc, fun fuel hf => hc.enclosingWithin (Nat.le_trans (hc.length_le hg hid) hf)⟩
  walk scoping := hg.fuel_induct (fun _ _ _ hm h => hg.walkEnds_succ hm h) hid (hg.fuel_size hid)
  lines := hg.fuel_induct (fun _ _ _ hm h => hg.linesEnd_succ hm h) hid (hg.fuel_size hid)

/-! ## The forest -/

/-- Going from models to those around them never leads back. -/
theorem not_inside_itself (id : ModelId) :
    ¬ Relation.TransGen (fun inner outer => graph.parent? inner = some outer) id id := by
  intro h
  obtain ⟨outer, hp, hw⟩ := Relation.TransGen.head'_iff.1 h
  exact hg.not_within_of_parent? hp hw

/-- A model is the region of its owner once. -/
theorem owner_iff_count {id : ModelId} {model : Model} (hm : graph.model? id = some model)
    (owner : NodeId) : model.owner = some owner ↔
      ∃ node, graph.node? owner = some node ∧ (node.regions.map (·.model)).count id = 1 := by
  rw [hg.owner_iff hm]
  constructor
  · rintro ⟨node, hn, hr⟩
    exact ⟨node, hn, List.count_eq_one_of_mem (hg.nodup_regions hn) hr⟩
  · rintro ⟨node, hn, hr⟩
    exact ⟨node, hn, List.count_pos_iff.1 (hr ▸ Nat.one_pos)⟩

/-- Two regions with one model are one region of one node. -/
theorem region_once {a b : NodeId} {node node' : Node} {i j : Nat} {region region' : Region}
    (ha : graph.node? a = some node) (hb : graph.node? b = some node')
    (hi : node.regions[i]? = some region) (hj : node'.regions[j]? = some region')
    (h : region.model = region'.model) : a = b ∧ i = j := by
  have howner : a = b := hg.owner_unique
    ⟨node, ha, List.mem_map_of_mem (List.mem_of_getElem? hi)⟩
    ⟨node', hb, h ▸ List.mem_map_of_mem (List.mem_of_getElem? hj)⟩
  subst howner
  rw [ha] at hb
  cases hb
  refine ⟨rfl, ?_⟩
  obtain ⟨hlt, -⟩ := List.getElem?_eq_some_iff.1 hi
  refine (List.getElem?_inj (by simpa using hlt) (hg.nodup_regions ha)).1 ?_
  rw [List.getElem?_map, List.getElem?_map, hi, hj, Option.map_some, Option.map_some, h]

end WellFormed

/-- The bindings of `region`, whose model is `inner`, join outputs in the model of `node` that
`node` takes to parameters, and results to outputs of `node`. -/
structure Bound (graph : Graph) (node : Node) (region : Region) (inner : Model) : Prop where
  found : graph.model? region.model = some inner
  input : ∀ binding ∈ region.inputs, graph.Produces node.model binding.outer ∧
    binding.outer ∈ node.inputs ∧ binding.inner ∈ inner.parameters
  output : ∀ binding ∈ region.outputs,
    binding.inner ∈ inner.results ∧ binding.outer < node.outputs.length

theorem WellFormed.exists_bound (hg : graph.WellFormed) {id : NodeId} {node : Node}
    (hn : graph.node? id = some node) {region : Region} (hr : region ∈ node.regions) :
    ∃ inner, graph.Bound node region inner := by
  have hjoins := (hg.node hn).region region hr
  obtain ⟨inner, hm⟩ := hjoins.model
  refine ⟨inner, hm, fun binding hb => ?_, fun binding hb => ?_⟩
  · obtain ⟨hinput, hparameter⟩ := hjoins.input binding hb
    exact ⟨((hg.node hn).input _ hinput).2, hinput, (hg.mem_parameters hm).2 hparameter⟩
  · obtain ⟨houtput, hresult⟩ := hjoins.output binding hb
    exact ⟨(hg.mem_results hm).2 hresult, houtput⟩

/-- The regions of the graph form a forest. -/
structure RegionForest (graph : Graph) : Prop where
  root : ∃ root, graph.model? .root = some root ∧ root.owner = none
  /-- The owner of a model is the node that has the model as one of its regions. -/
  owner : ∀ {id model}, graph.model? id = some model → ∀ owner, model.owner = some owner ↔
    ∃ node, graph.node? owner = some node ∧ (node.regions.map (·.model)).count id = 1
  /-- Two regions with one model are one region of one node. -/
  once : ∀ {a b : NodeId} {node node' : Node} {i j : Nat} {region region' : Region},
    graph.node? a = some node → graph.node? b = some node' → node.regions[i]? = some region →
      node'.regions[j]? = some region' → region.model = region'.model → a = b ∧ i = j
  /-- Going from models to those around them never leads back. -/
  acyclic : ∀ id,
    ¬ Relation.TransGen (fun inner outer => graph.parent? inner = some outer) id id
  ends : ∀ {id model}, graph.model? id = some model → graph.Ends id
  bound : ∀ {id node}, graph.node? id = some node → ∀ region ∈ node.regions,
    ∃ inner, graph.Bound node region inner

/-- In a graph with a history the regions form a forest, whether they lie in the root model or
not. -/
theorem Reachable.regions_form_forest (hr : graph.Reachable) : graph.RegionForest := by
  have hg := hr.wellFormed
  refine ⟨?_, hg.owner_iff_count, hg.region_once, hg.not_inside_itself,
    fun hm => hg.ends ⟨_, hm⟩, fun hn _ hr => hg.exists_bound hn hr⟩
  obtain ⟨root, hroot⟩ := hg.hasRoot
  exact ⟨root, hroot, hg.root_free hroot⟩

/-- A model becomes a region of another one that no node owns. That other one, and the root, are
refused as regions inside it. It can still be filled, and writing either model comes to an end. -/
theorem regions_form_forest_conditional :
    ∃ after outer inner, Call.runAll? [.addModel "outer", .addModel "inner",
        .addOwner ⟨3⟩ "Loop" [] [{ model := ⟨4⟩ }] false 0,
        .addOwner ⟨4⟩ "Loop" [] [{ model := ⟨3⟩ }] false 0,
        .addOwner ⟨4⟩ "Loop" [] [{ model := .root }] false 0,
        .addParameter ⟨4⟩] conditional = some after ∧
      after.model? ⟨3⟩ = some outer ∧ outer.owner = none ∧
      after.model? ⟨4⟩ = some inner ∧ inner.owner = some ⟨12⟩ ∧ inner.nodes = [⟨13⟩] ∧
      (∃ node, after.node? ⟨12⟩ = some node ∧ (node.regions.map (·.model)).count ⟨4⟩ = 1) ∧
      after.Ends ⟨3⟩ ∧ after.Ends ⟨4⟩ ∧
      (∃ owner region region', after.node? ⟨9⟩ = some owner ∧ owner.regions = [region, region'] ∧
        (∃ first, after.Bound owner region first) ∧ ∃ second, after.Bound owner region' second) ∧
      ¬ Relation.TransGen (fun inner outer => after.parent? inner = some outer) ⟨4⟩ ⟨4⟩ := by
  have hrun : (Call.runAll? [.addModel "outer", .addModel "inner",
      .addOwner ⟨3⟩ "Loop" [] [{ model := ⟨4⟩ }] false 0,
      .addOwner ⟨4⟩ "Loop" [] [{ model := ⟨3⟩ }] false 0,
      .addOwner ⟨4⟩ "Loop" [] [{ model := .root }] false 0,
      .addParameter ⟨4⟩] conditional).any fun after =>
        (∃ outer ∈ after.model? ⟨3⟩, outer.owner = none) ∧
        (∃ inner ∈ after.model? ⟨4⟩, inner.owner = some ⟨12⟩ ∧ inner.nodes = [⟨13⟩]) ∧
        ∃ owner ∈ after.node? ⟨9⟩, owner.regions.length = 2 := by
    decide +kernel
  obtain ⟨after, h, hfacts⟩ := (Option.any_eq_true _ _).1 hrun
  obtain ⟨⟨outer, houter, hfree⟩, ⟨inner, hinner, howner, hnodes⟩, owner, ho, htwo⟩ :=
    of_decide_eq_true hfacts
  have hforest := (reachable_conditional.runAll? h).regions_form_forest
  obtain ⟨region, region', hregions⟩ := List.length_eq_two.1 htwo
  refine ⟨after, outer, inner, h, houter, hfree, hinner, howner, hnodes,
    (hforest.owner hinner _).1 howner, hforest.ends houter, hforest.ends hinner,
    ⟨owner, region, region', ho, hregions, ?_, ?_⟩, hforest.acyclic _⟩
  · exact hforest.bound ho _ (by simp [hregions])
  · exact hforest.bound ho _ (by simp [hregions])

end Graph

end GraphNaming
