import GraphNaming.Proofs.History
import GraphNaming.Proofs.Walk

/-!
# Which nodes are visited

A walk visits what matters to the root model and no more: the nodes that a result depends on, the
parameters, and the same again in every region that belongs to such a node.

* `Graph.Feeds`: a node depends on another along the values that nodes take.
* `Graph.LiveIn`, `Graph.Walked`: the nodes of a model that matter, and the models that do.
* `WellFormed.mem_visited_iff`: the visited nodes are the live nodes of the walked models.
* `WellFormed.infix_visited`: an owner is followed at once by all that lies in its regions, region
  by region.
* `Reachable.visits_live_nodes`: what a walk of a graph with a history visits, and in what order.
-/

namespace GraphNaming.Graph

variable {graph : Graph}

/-! ## Live nodes -/

/-- The node `taker` takes a value of `giver`. -/
def Gives (graph : Graph) (giver taker : NodeId) : Prop :=
  ∃ node, graph.node? taker = some node ∧ ∃ value ∈ node.inputs, value.node = giver

/-- The node `last` is `first` or depends on it. -/
def Feeds (graph : Graph) : NodeId → NodeId → Prop := Relation.ReflTransGen graph.Gives

/-- `id` is a parameter of `model`, or a result of `model` is `id` or depends on it. -/
def LiveIn (graph : Graph) (model : ModelId) (id : NodeId) : Prop :=
  graph.HasParameter model id ∨ ∃ result, graph.HasResult model result ∧ graph.Feeds id result

/-- `id` is the root, or a region of a live node of a walked model. -/
inductive Walked (graph : Graph) : ModelId → Prop
  | root : Walked graph .root
  | region {model id : ModelId} {owner : NodeId} : Walked graph model → graph.LiveIn model owner →
    graph.Owns owner id → Walked graph id

/-- The node `id` lies in `outer`, in its own model or in a region inside it. -/
def liesIn (graph : Graph) (outer : ModelId) (id : NodeId) : Bool :=
  outer ∈ graph.enclosing (graph.modelOf id)

/-- What is added to an order for a node feeds it. -/
theorem feeds_of_mem_orderWithin? {fuel : Nat} {order next : List NodeId} {id : NodeId}
    (h : graph.orderWithin? fuel order id = some next) :
    ∀ other ∈ next, other ∈ order ∨ graph.Feeds other id := by
  induction fuel generalizing order next id with
  | zero => cases h
  | succ fuel ih =>
    obtain ⟨-, rfl⟩ | ⟨-, node, before, hn, hbefore, rfl⟩ := orderWithin?_eq_some.1 h
    · exact fun _ ho => .inl ho
    have hinputs : ∀ other ∈ before, other ∈ order ∨ graph.Feeds other id := by
      refine foldlM_keeps (fun between : List NodeId =>
        ∀ other ∈ between, other ∈ order ∨ graph.Feeds other id) ?_ (fun _ ho => .inl ho) hbefore
      intro value hv between after hbetween hstep other ho
      rcases ih hstep other ho with ho | hf
      · exact hbetween other ho
      · exact .inr (hf.tail ⟨node, hn, value, hv, rfl⟩)
    intro other ho
    rcases List.mem_append.1 ho with ho | ho
    · exact hinputs other ho
    · exact .inr (List.mem_singleton.1 ho ▸ .refl)

/-- A list of visits has, with a node, all that feeds it. -/
theorem Covers.mem_of_feeds {id : ModelId} {nodes : List NodeId} (hc : graph.Covers id nodes)
    {first last : NodeId} (h : graph.Feeds first last) (hl : last ∈ nodes) : first ∈ nodes := by
  induction h using Relation.ReflTransGen.head_induction_on with
  | refl => exact hl
  | head hgives _ ih =>
    obtain ⟨node, hn, value, hv, rfl⟩ := hgives
    exact (hc.input ih hn value hv).left_mem

/-- A list of visits with the parameters and results of a model has all its live nodes. -/
theorem Covers.mem_of_liveIn {id model : ModelId} {nodes : List NodeId}
    (hc : graph.Covers id nodes) (hb : ∀ {n}, graph.AtBoundary model n → n ∈ nodes) {n : NodeId}
    (h : graph.LiveIn model n) : n ∈ nodes := by
  rcases h with hp | ⟨result, hr, hf⟩
  · exact hb (.inl hp)
  · exact hc.mem_of_feeds hf (hb (.inr hr))

namespace WellFormed

variable (hg : graph.WellFormed)
include hg

theorem inModel_of_feeds {first last : NodeId} {model : ModelId} (h : graph.Feeds first last)
    (hl : graph.InModel last model) : graph.InModel first model := by
  induction h using Relation.ReflTransGen.head_induction_on with
  | refl => exact hl
  | head hgives _ ih =>
    obtain ⟨node, hn, value, hv, rfl⟩ := hgives
    obtain ⟨taker, ht, rfl⟩ := ih
    rw [hn] at ht
    cases ht
    obtain ⟨giver, hgiver, hmodel, -⟩ := ((hg.node hn).input value hv).2
    exact ⟨giver, hgiver, hmodel⟩

theorem inModel_of_liveIn {model : ModelId} {id : NodeId} (h : graph.LiveIn model id) :
    graph.InModel id model := by
  rcases h with ⟨node, hn, hm, -⟩ | ⟨result, ⟨node, hn, hm, -⟩, hf⟩
  · exact ⟨node, hn, hm⟩
  · exact hg.inModel_of_feeds hf ⟨node, hn, hm⟩

/-- The order of a model has live nodes only. -/
theorem liveIn_of_mem_order? {id : ModelId} {order : List NodeId}
    (h : graph.order? id = some order) : ∀ n ∈ order, graph.LiveIn id n := by
  obtain ⟨model, hm, h⟩ := Option.bind_eq_some_iff.1 h
  refine foldlM_keeps (fun order : List NodeId => ∀ n ∈ order, graph.LiveIn id n) ?_
    (fun n hn => .inl ((hg.mem_parameters hm).1 hn)) h
  intro result hr order next horder hstep n hn
  rcases feeds_of_mem_orderWithin? hstep n hn with hn | hf
  · exact horder n hn
  · exact .inr ⟨result, (hg.mem_results hm).1 hr, hf⟩

theorem liesIn_iff {outer : ModelId} {id : NodeId} {node : Node} (hn : graph.node? id = some node) :
    graph.liesIn outer id = true ↔ graph.Within node.model outer := by
  rw [liesIn, decide_eq_true_iff, modelOf_eq hn]
  exact hg.mem_enclosing (hg.node hn).model

/-! ## What is visited -/

/-- Below a walked model only live nodes of walked models are visited. -/
theorem live_of_mem_nodesWithin {fuel : Nat} {id : ModelId} (hw : graph.Walked id) :
    ∀ n ∈ graph.nodesWithin fuel id, ∃ model, graph.Walked model ∧ graph.LiveIn model n := by
  induction fuel generalizing id with
  | zero => nofun
  | succ fuel ih =>
    intro n hn
    rw [nodesWithin] at hn
    cases horder : graph.order? id with
    | none => simp [horder] at hn
    | some order =>
      rw [horder, Option.getD_some] at hn
      obtain ⟨m, hm, hn⟩ := List.mem_flatMap.1 hn
      have hlive : graph.LiveIn id m := hg.liveIn_of_mem_order? horder m hm
      rcases mem_block.1 hn with rfl | ⟨region, hr, hn⟩
      · exact ⟨id, hw, hlive⟩
      · exact ih (.region hw hlive (owns_iff.2 ⟨region, hr, rfl⟩)) n hn

theorem mem_visited_of_live {model : ModelId} (hw : graph.Walked model) {id : NodeId}
    (h : graph.LiveIn model id) : id ∈ graph.visited := by
  have hc := hg.covers_visited
  -- The induction is on the way from the root: a walked region has a live owner, whose regions are
  -- visited with it.
  have hboundary : ∀ {n}, graph.AtBoundary model n → n ∈ graph.visited := by
    induction hw generalizing id with
    | root => exact hc.boundary
    | region _ hlive ho ih =>
      intro n hn
      exact hc.region (hc.mem_of_liveIn (ih hlive) hlive) ho hn
  exact hc.mem_of_liveIn hboundary h

/-- The visited nodes are the live nodes of the walked models. -/
theorem mem_visited_iff {id : NodeId} : id ∈ graph.visited ↔
    ∃ node, graph.node? id = some node ∧ graph.Walked node.model ∧
      graph.LiveIn node.model id := by
  constructor
  · intro h
    obtain ⟨model, hw, hl⟩ := hg.live_of_mem_nodesWithin .root id h
    obtain ⟨node, hn, rfl⟩ := hg.inModel_of_liveIn hl
    exact ⟨node, hn, hw, hl⟩
  · rintro ⟨node, -, hw, hl⟩
    exact hg.mem_visited_of_live hw hl

/-- The walked models are the root and the regions of visited nodes. -/
theorem walked_iff {id : ModelId} :
    graph.Walked id ↔ id = .root ∨ ∃ owner ∈ graph.visited, graph.Owns owner id := by
  constructor
  · rintro (_ | ⟨hw, hl, ho⟩)
    · exact .inl rfl
    · exact .inr ⟨_, hg.mem_visited_of_live hw hl, ho⟩
  · rintro (rfl | ⟨owner, hv, ho⟩)
    · exact .root
    · obtain ⟨node, -, hw, hl⟩ := hg.mem_visited_iff.1 hv
      exact .region hw hl ho

/-! ## Regions follow their owner -/

/-- Visits of a model have all visited nodes that lie in it. -/
theorem mem_of_covers {outer : ModelId} {nodes : List NodeId} (hc : graph.Covers outer nodes)
    {id : NodeId} (hv : id ∈ graph.visited) {node : Node} (hn : graph.node? id = some node)
    (hw : graph.Within node.model outer) : id ∈ nodes := by
  have hlive {n : NodeId} {node : Node} (hv : n ∈ graph.visited)
      (hn : graph.node? n = some node) : graph.Walked node.model ∧ graph.LiveIn node.model n := by
    obtain ⟨node', hn', h⟩ := hg.mem_visited_iff.1 hv
    rw [hn] at hn'
    cases hn'
    exact h
  have hboundary {model : ModelId} (hw : graph.Within model outer) (hm : graph.Walked model) :
      ∀ {n}, graph.AtBoundary model n → n ∈ nodes := by
    induction hw using Relation.ReflTransGen.head_induction_on with
    | refl => exact hc.boundary
    | head hp _ ih =>
      obtain ⟨owner, ho, node, hn, rfl⟩ := hg.parent?_eq_some_iff.1 hp
      rcases hg.walked_iff.1 hm with rfl | ⟨owner', hv, ho'⟩
      · exact absurd ho (hg.not_owns_root owner)
      · obtain rfl := hg.owner_unique ho ho'
        obtain ⟨hm, hl⟩ := hlive hv hn
        intro n hb
        exact hc.region (hc.mem_of_liveIn (ih hm) hl) ho hb
  exact hc.mem_of_liveIn (hboundary hw (hlive hv hn).1) (hlive hv hn).2

/-- Visits of a model that are among the visited nodes are those that lie in it, in their order. -/
theorem eq_filter_of_covers {outer : ModelId} {nodes : List NodeId}
    (hc : graph.Covers outer nodes) (hs : nodes.Sublist graph.visited) :
    nodes = graph.visited.filter (graph.liesIn outer) := by
  refine eq_filter_of_sublist hg.covers_visited.nodup hs fun id hv => ?_
  obtain ⟨node, hn, -⟩ := hg.covers_visited.within id hv
  rw [hg.liesIn_iff hn]
  constructor
  · intro hid
    obtain ⟨node', hn', hw⟩ := hc.within id hid
    rw [hn] at hn'
    cases hn'
    exact hw
  · exact hg.mem_of_covers hc hv hn

/-- Somewhere in the visits of a model stands every owner with the visits of its regions. -/
theorem block_infix {fuel : Nat} {id : ModelId} (hid : ∃ model, graph.model? id = some model)
    (hf : graph.models.size < fuel + (graph.enclosing id).length) {owner : NodeId}
    (ho : owner ∈ graph.nodesWithin fuel id) :
    ∃ walk : Region → List NodeId,
      (∀ region ∈ graph.regionsOf owner, graph.Covers region.model (walk region)) ∧
      graph.block walk owner <:+: graph.nodesWithin fuel id := by
  induction fuel generalizing id with
  | zero => cases ho
  | succ fuel ih =>
    obtain ⟨model, hm⟩ := hid
    obtain ⟨order, horder, hin, -⟩ := hg.exists_order hm
    have hregion {n : NodeId} (hn : n ∈ order) {region : Region}
        (hr : region ∈ graph.regionsOf n) : (∃ model, graph.model? region.model = some model) ∧
          graph.models.size < fuel + (graph.enclosing region.model).length := by
      obtain ⟨node, hnode, rfl, -⟩ := hin.mem n hn
      have hp := hg.parent?_of_region hnode (regionsOf_eq hnode ▸ hr)
      exact ⟨(hg.model_exists_of_parent? hp).1, hg.fuel_of_parent? hp hf⟩
    rw [nodesWithin, horder, Option.getD_some] at ho ⊢
    obtain ⟨m, hm, ho⟩ := List.mem_flatMap.1 ho
    have hblock : graph.block (fun region => graph.nodesWithin fuel region.model) m <:+:
        order.flatMap (graph.block fun region => graph.nodesWithin fuel region.model) :=
      infix_flatMap _ hm
    rcases mem_block.1 ho with rfl | ⟨region, hr, ho⟩
    · refine ⟨_, fun region hr => ?_, hblock⟩
      exact hg.covers_nodesWithin (hregion hm hr).1 (hregion hm hr).2
    · obtain ⟨walk, hwalk, hlies⟩ := ih (hregion hm hr).1 (hregion hm hr).2 ho
      have hwithin : graph.nodesWithin fuel region.model <:+:
          (graph.regionsOf m).flatMap fun region => graph.nodesWithin fuel region.model :=
        infix_flatMap (fun region => graph.nodesWithin fuel region.model) hr
      exact ⟨walk, hwalk, (hlies.trans (hwithin.trans (List.suffix_cons _ _).isInfix)).trans hblock⟩

/-- A visited owner is followed at once by all visited nodes that lie in its regions, region by
region. -/
theorem infix_visited {owner : NodeId} (ho : owner ∈ graph.visited) :
    (owner :: (graph.regionsOf owner).flatMap fun region =>
      graph.visited.filter (graph.liesIn region.model)) <:+: graph.visited := by
  obtain ⟨walk, hwalk, hlies⟩ := hg.block_infix hg.hasRoot hg.fuel_root ho
  have hfilter : ∀ region ∈ graph.regionsOf owner,
      walk region = graph.visited.filter (graph.liesIn region.model) := by
    intro region hr
    have hblock : (walk region).Sublist (graph.block walk owner) :=
      (List.sublist_flatten_of_mem (List.mem_map_of_mem hr)).trans (List.sublist_cons_self _ _)
    exact hg.eq_filter_of_covers (hwalk region hr) (hblock.trans hlies.sublist)
  rw [block, List.flatMap_congr hfilter] at hlies
  exact hlies

/-- What is bound to a parameter of a region is visited before all that lies in the region. -/
theorem outer_before {owner inner : NodeId} {node : Node} (ho : owner ∈ graph.visited)
    (hn : graph.node? owner = some node) {region : Region} (hr : region ∈ node.regions)
    {binding : InputBinding} (hb : binding ∈ region.inputs) (hi : inner ∈ graph.visited)
    (hin : graph.liesIn region.model inner = true) :
    Before graph.visited binding.outer.node inner := by
  have hc := hg.covers_visited
  have houter : Before graph.visited binding.outer.node owner :=
    hc.input ho hn _ (((hg.node hn).region region hr).input binding hb).1
  have hinner : inner ∈ (graph.regionsOf owner).flatMap fun region =>
      graph.visited.filter (graph.liesIn region.model) :=
    List.mem_flatMap.2 ⟨region, regionsOf_eq hn ▸ hr, List.mem_filter.2 ⟨hi, hin⟩⟩
  have hafter : Before graph.visited owner inner :=
    Before.mono (Before.cons_iff.2 (.inl ⟨rfl, hinner⟩)) (hg.infix_visited ho).sublist
  exact houter.trans hc.nodup hafter

end WellFormed

/-! ## The walk -/

/-- A walk of a graph with a history visits the live nodes of the walked models and no others, each
of them once. A node comes after those whose values it takes. An owner is followed at once by all
that lies in its regions, one region after the other, so what is bound to a region has come before
all of it. -/
theorem Reachable.visits_live_nodes (hr : graph.Reachable) (scoping : Scoping) :
    ∃ walk, graph.walk? scoping = some walk ∧ walk.nodes.Nodup ∧
      (∀ id, graph.Walked id ↔ id = .root ∨ ∃ owner ∈ walk.nodes, graph.Owns owner id) ∧
      (∀ id, id ∈ walk.nodes ↔ ∃ node, graph.node? id = some node ∧ graph.Walked node.model ∧
        graph.LiveIn node.model id) ∧
      ∀ id ∈ walk.nodes, ∀ node, graph.node? id = some node →
        (∀ value ∈ node.inputs, Before walk.nodes value.node id) ∧
        (id :: node.regions.flatMap fun region =>
          walk.nodes.filter (graph.liesIn region.model)) <:+: walk.nodes ∧
        ∀ region ∈ node.regions, ∀ binding ∈ region.inputs, ∀ inner ∈ walk.nodes,
          graph.liesIn region.model inner = true →
            Before walk.nodes binding.outer.node inner := by
  have hg := hr.wellFormed
  obtain ⟨walk, hwalk, hnodes⟩ := hg.exists_walk scoping
  refine ⟨walk, hwalk, ?_⟩
  rw [hnodes]
  have hc := hg.covers_visited
  refine ⟨hc.nodup, fun _ => hg.walked_iff, fun _ => hg.mem_visited_iff, fun id hv node hn => ?_⟩
  refine ⟨hc.input hv hn, ?_, fun region hregion binding hb inner hi hin => ?_⟩
  · exact regionsOf_eq hn ▸ hg.infix_visited hv
  · exact hg.outer_before hv hn hregion hb hi hin

/-- An operation of which no result takes a value is not visited. The two branches of the
conditional come right after it. -/
theorem visits_live_nodes_conditional :
    ∃ after walk, Call.runAll? [.addOperation .root "Log" [⟨⟨10⟩, 0⟩] 1] conditional = some after ∧
      after.Reachable ∧ after.walk? .exclusive = some walk ∧
      walk.nodes = [0, 9, 1, 2, 3, 4, 5, 6, 7, 8, 10, 11].map NodeId.mk ∧
      after.InModel ⟨12⟩ .root ∧ ¬ after.LiveIn .root ⟨12⟩ ∧ after.Walked ⟨2⟩ := by
  have hrun : (Call.runAll? [.addOperation .root "Log" [⟨⟨10⟩, 0⟩] 1] conditional).any fun after =>
      (∃ walk ∈ after.walk? .exclusive,
        walk.nodes = [0, 9, 1, 2, 3, 4, 5, 6, 7, 8, 10, 11].map NodeId.mk) ∧
      (∃ node ∈ after.node? ⟨12⟩, node.model = .root) ∧
      ∃ node ∈ after.node? ⟨9⟩, ⟨2⟩ ∈ node.regions.map (·.model) := by
    decide +kernel
  obtain ⟨after, h, hfacts⟩ := (Option.any_eq_true _ _).1 hrun
  obtain ⟨⟨walk, hwalk, hnodes⟩, ⟨unused, hu, hroot⟩, ⟨owner, ho, hregion⟩⟩ :=
    of_decide_eq_true hfacts
  have hr := reachable_conditional.runAll? h
  obtain ⟨found, hfound, -, hwalked, hlive, -⟩ := hr.visits_live_nodes .exclusive
  obtain rfl : walk = found := Option.some.inj (hwalk.symm.trans hfound)
  refine ⟨after, walk, h, hr, hwalk, hnodes, ⟨unused, hu, hroot⟩, fun hl => ?_, ?_⟩
  · have hv := (hlive ⟨12⟩).2 ⟨unused, hu, hroot ▸ .root, hroot ▸ hl⟩
    rw [hnodes] at hv
    simp at hv
  · exact (hwalked ⟨2⟩).2 (.inr ⟨⟨9⟩, by simp [hnodes], owner, ho, hregion⟩)

end GraphNaming.Graph
