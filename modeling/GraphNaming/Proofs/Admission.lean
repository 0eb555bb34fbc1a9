import GraphNaming.Proofs.History

/-!
# Which regions a new node can own

A request for a node that owns regions is granted just when it is admissible. The graph then has
that node, and nothing else has changed but the owner of the regions and the list of nodes of the
node's model.

* `Graph.Admissible`: what a request must meet.
* `Graph.newlyBound`, `withBoundValues_eq`: the values that the node takes for its regions.
* `WellFormed.addOwner_eq_ok`: the requests that are granted, and what each of them leaves.
* `Reachable.admits_exactly`: all this of every graph that calls lead to.
-/

namespace GraphNaming.Graph

variable {graph after : Graph}

/-! ## The request -/

/-- A new node of `model` with `outputs` outputs can take `inputs` and own `regions`. -/
structure Admissible (graph : Graph) (model : ModelId) (inputs : List Value)
    (regions : List Region) (outputs : Nat) : Prop where
  exists_model : ∃ found, graph.model? model = some found
  input : ∀ value ∈ inputs, graph.Produces model value
  /-- The model of a region is not the root, it is free, and `model` does not lie in it. -/
  available : ∀ region ∈ regions, graph.Available model region.model
  distinct : (regions.map (·.model)).Nodup
  /-- Values of the node's model are bound to parameters of the region. -/
  boundInput : ∀ region ∈ regions, ∀ binding ∈ region.inputs,
    graph.Produces model binding.outer ∧ graph.HasParameter region.model binding.inner
  /-- Results of the region are bound to outputs of the node. -/
  boundOutput : ∀ region ∈ regions, ∀ binding ∈ region.outputs,
    graph.HasResult region.model binding.inner ∧ binding.outer < outputs

/-- The checks of the regions accept what the models list, and those list what they have. -/
theorem WellFormed.acceptable_iff (hg : graph.WellFormed) {model : ModelId} {outputs : Nat}
    {region : Region} (hm : ∃ found, graph.model? model = some found) :
    (region.model ∉ .root :: graph.enclosing model ∧
        ∃ inner, graph.Acceptable model outputs region inner) ↔
      graph.Available model region.model ∧
      (∀ binding ∈ region.inputs,
        graph.Produces model binding.outer ∧ graph.HasParameter region.model binding.inner) ∧
      ∀ binding ∈ region.outputs,
        graph.HasResult region.model binding.inner ∧ binding.outer < outputs := by
  rw [List.mem_cons, not_or, hg.mem_enclosing hm]
  constructor
  · rintro ⟨⟨hroot, houtside⟩, inner, hfound, hfree, hin, hout⟩
    refine ⟨⟨hroot, houtside, inner, hfound, hfree⟩, fun binding hb => ?_, fun binding hb => ?_⟩
    · exact (hin binding hb).imp_right (hg.mem_parameters hfound).1
    · exact (hout binding hb).imp_left (hg.mem_results hfound).1
  · rintro ⟨⟨hroot, houtside, inner, hfound, hfree⟩, hin, hout⟩
    refine ⟨⟨hroot, houtside⟩, inner, hfound, hfree, fun binding hb => ?_, fun binding hb => ?_⟩
    · exact (hin binding hb).imp_right (hg.mem_parameters hfound).2
    · exact (hout binding hb).imp_left (hg.mem_results hfound).2

/-! ## The node -/

/-- The values bound to regions that are not among `values`, each once, in the order of the
bindings. -/
def newlyBound (values : List Value) (regions : List Region) : List Value :=
  ((regions.flatMap fun region => region.inputs.map (·.outer)).filter (· ∉ values)).eraseDups

theorem withBoundValues_eq (values : List Value) (regions : List Region) :
    withBoundValues values regions = values ++ newlyBound values regions := by
  have fold : ∀ (more values : List Value), more.foldl
      (fun known value => if value ∈ known then known else known ++ [value]) values =
        values ++ (more.filter (· ∉ values)).eraseDups := by
    intro more
    induction more with
    | nil => simp
    | cons first more ih =>
      intro values
      rw [List.foldl_cons, ih]
      by_cases hf : first ∈ values
      · simp [hf]
      · have hrest : more.filter (fun value => decide (value ∉ values ++ [first])) =
            (more.filter (fun value => decide (value ∉ values))).filter (!· == first) := by
          rw [List.filter_filter]
          refine List.filter_congr fun value _ => ?_
          by_cases hv : value = first <;> simp [hv]
        rw [if_neg hf, List.filter_cons_of_pos (by simpa using hf), List.eraseDups_cons, hrest,
          List.append_assoc, List.singleton_append]
  exact fold _ _

theorem ids_setOwner (owner : NodeId) (regions : List Region) :
    (graph.setOwner owner regions).ids = graph.ids := by
  unfold setOwner
  induction regions generalizing graph with
  | nil => rfl
  | cons region regions ih =>
    rw [List.foldl_cons, ih]
    rfl

/-- One more node number is in use, and no more model numbers. -/
theorem ids_attach (node : Node) : (graph.attach node).ids = graph.ids.takeNode.2 := by
  rw [attach, ids_setOwner]
  rfl

/-- What becomes of a model when a node is added that owns regions. -/
theorem model?_attach_owner (model : ModelId) (type : String) (inputs : List Value)
    (regions : List Region) (exclusive : Bool) (outputs : Nat) (other : ModelId) :
    (graph.attach (graph.freshNode model type (.owner regions exclusive) inputs outputs)).model?
        other = (graph.model? other).map fun found =>
      { found with
        owner := if other ∈ regions.map (·.model) then some ⟨graph.nodes.size⟩ else found.owner
        nodes := if other = model then found.nodes ++ [⟨graph.nodes.size⟩] else found.nodes } := by
  have henter (found : Model) :
      found.enter (graph.freshNode model type (.owner regions exclusive) inputs outputs) =
        { found with nodes := found.nodes ++ [⟨graph.nodes.size⟩] } := by
    simp [Model.enter, freshNode, Node.isParameter, Node.isResult]
  rw [model?_attach]
  refine congrArg (Option.map · _) (funext fun found => ?_)
  simp only [henter, @eq_comm _ other model]
  by_cases hnode : model = other <;> by_cases hregion : other ∈ regions.map (·.model) <;>
    simp [freshNode, Node.regions, hnode, hregion]

theorem WellFormed.addOwner_eq_ok (hg : graph.WellFormed) {model : ModelId} {type : String}
    {inputs : List Value} {regions : List Region} {exclusive : Bool} {outputs : Nat}
    {id : NodeId} :
    (Graph.addOwner model type inputs regions exclusive outputs).run graph = .ok id after ↔
      graph.Admissible model inputs regions outputs ∧ id = ⟨graph.nodes.size⟩ ∧
        after = graph.attach (graph.freshNode model type (.owner regions exclusive)
          (inputs ++ newlyBound inputs regions) outputs) := by
  rw [← withBoundValues_eq, Graph.addOwner, Request.check_bind_eq_ok]
  constructor
  · rintro ⟨_, hinputs, h⟩
    obtain ⟨found, hfound, h⟩ := Request.check_bind_eq_ok.1 h
    obtain ⟨_, hregions, h⟩ := Request.check_bind_eq_ok.1 h
    obtain ⟨id', grown, hgrown, h⟩ := Request.bind_eq_ok.1 h
    cases h
    obtain ⟨hm, rfl, rfl⟩ := addNode_eq_ok.1 hgrown
    obtain ⟨hregions, hdistinct⟩ := requireRegions_eq_ok.1 hregions
    have haccepted region (hr : region ∈ regions) := (hg.acceptable_iff hm).1 (hregions region hr)
    refine ⟨⟨hm, ?_, ?_, hdistinct, ?_, ?_⟩, rfl, rfl⟩
    · exact fun value hv => requireLocal_eq_ok.1 (forM_eq_ok.1 hinputs value hv)
    · exact fun region hr => (haccepted region hr).1
    · exact fun region hr => (haccepted region hr).2.1
    · exact fun region hr => (haccepted region hr).2.2
  · rintro ⟨ha, rfl, rfl⟩
    obtain ⟨found, hfound⟩ := ha.exists_model
    refine ⟨(), forM_eq_ok.2 fun value hv => requireLocal_eq_ok.2 (ha.input value hv), ?_⟩
    refine Request.check_bind_eq_ok.2 ⟨found, requireModel_eq_ok.2 hfound, ?_⟩
    refine Request.check_bind_eq_ok.2
      ⟨(), requireRegions_eq_ok.2 ⟨fun region hr => ?_, ha.distinct⟩, ?_⟩
    · exact (hg.acceptable_iff ha.exists_model).2
        ⟨ha.available region hr, ha.boundInput region hr, ha.boundOutput region hr⟩
    · exact Request.bind_eq_ok.2 ⟨_, _, addNode_eq_ok.2 ⟨ha.exists_model, rfl, rfl⟩, rfl⟩

/-- A node that owns regions is added just when the request is admissible. It then takes the given
inputs, and after them the values bound to its regions that are not yet there. Models change only
in their owner, if they became regions, and in their nodes, if the new one is theirs. A request
that is refused leaves the graph as it was. -/
theorem Reachable.admits_exactly (hr : graph.Reachable) (model : ModelId) (type : String)
    (inputs : List Value) (regions : List Region) (exclusive : Bool) (outputs : Nat) :
    ((∃ id after,
        (addOwner model type inputs regions exclusive outputs).run graph = .ok id after) ↔
      graph.Admissible model inputs regions outputs) ∧
    (∀ id after, (addOwner model type inputs regions exclusive outputs).run graph = .ok id after →
      id = graph.ids.takeNode.1 ∧ after.ids = graph.ids.takeNode.2 ∧
      after.nodes = graph.nodes.push {
        id, model, type
        kind := .owner regions exclusive
        inputs := inputs ++ newlyBound inputs regions
        outputs := (List.range outputs).map fun index => { index }
        name := .default type id } ∧
      ∀ other, after.model? other = (graph.model? other).map fun found =>
        { found with
          owner := if other ∈ regions.map (·.model) then some id else found.owner
          nodes := if other = model then found.nodes ++ [id] else found.nodes }) ∧
    ∀ error after,
      (addOwner model type inputs regions exclusive outputs).run graph = .error error after →
        after = graph ∧
          (Call.addOwner model type inputs regions exclusive outputs).run? graph = some graph := by
  have hg := hr.wellFormed
  refine ⟨?_, ?_, ?_⟩
  · constructor
    · rintro ⟨id, after, h⟩
      exact (hg.addOwner_eq_ok.1 h).1
    · exact fun ha => ⟨_, _, hg.addOwner_eq_ok.2 ⟨ha, rfl, rfl⟩⟩
  · intro id after h
    obtain ⟨-, rfl, rfl⟩ := hg.addOwner_eq_ok.1 h
    refine ⟨takeNode_ids.symm, ids_attach _, ?_, fun other => ?_⟩
    · rw [attach, nodes_setOwner]
      rfl
    · exact model?_attach_owner model type _ regions exclusive outputs other
  · intro error after h
    obtain rfl := harmless_addOwner _ _ _ _ _ _ _ _ _ h
    exact ⟨rfl, congrArg some (Request.afterRequest_of_error h)⟩

/-- A region whose one parameter takes two values, one of them twice. -/
def loopRegion : Region where
  model := ⟨3⟩
  inputs := [{ outer := ⟨⟨9⟩, 1⟩, inner := ⟨12⟩ }, { outer := ⟨⟨0⟩, 0⟩, inner := ⟨12⟩ },
    { outer := ⟨⟨9⟩, 1⟩, inner := ⟨12⟩ }]
  outputs := [{ inner := ⟨13⟩, outer := 0 }]

/-- A loop is added next to the conditional. It keeps the value that it is given twice, and takes
the other one that is bound to its region once. A second loop with the same region is refused. -/
theorem admits_exactly_conditional :
    ∃ graph id after, Call.runAll? [.addModel "body", .addParameter ⟨3⟩,
        .addResult ⟨3⟩ ⟨⟨12⟩, 0⟩] conditional = some graph ∧
      graph.Admissible .root [⟨⟨0⟩, 0⟩, ⟨⟨0⟩, 0⟩] [loopRegion] 1 ∧
      (addOwner .root "Loop" [⟨⟨0⟩, 0⟩, ⟨⟨0⟩, 0⟩] [loopRegion] false 1).run graph =
        .ok id after ∧
      (after.node? id).map (·.inputs) = some [⟨⟨0⟩, 0⟩, ⟨⟨0⟩, 0⟩, ⟨⟨9⟩, 1⟩] ∧
      (after.model? ⟨3⟩).map (·.owner) = some (some id) ∧
      ¬ after.Admissible .root [] [loopRegion] 1 ∧
      (Call.addOwner .root "Loop" [] [loopRegion] false 1).run? after = some after := by
  have hrun : (Call.runAll? [.addModel "body", .addParameter ⟨3⟩,
      .addResult ⟨3⟩ ⟨⟨12⟩, 0⟩] conditional).any fun graph =>
        (graph.granted?
          (addOwner .root "Loop" [⟨⟨0⟩, 0⟩, ⟨⟨0⟩, 0⟩] [loopRegion] false 1)).isSome := by
    decide +kernel
  obtain ⟨graph, h, hgranted⟩ := (Option.any_eq_true _ _).1 hrun
  obtain ⟨⟨id, after⟩, hgranted⟩ := Option.isSome_iff_exists.1 hgranted
  have hgranted := Request.granted?_eq_some.1 hgranted
  have hr := reachable_conditional.runAll? h
  obtain ⟨hexact, hleaves, -⟩ := hr.admits_exactly .root "Loop" [⟨⟨0⟩, 0⟩, ⟨⟨0⟩, 0⟩] [loopRegion]
    false 1
  have hadmissible := hexact.1 ⟨id, after, hgranted⟩
  obtain ⟨rfl, -, hnodes, hmodels⟩ := hleaves id after hgranted
  have hafter : after.Reachable :=
    hr.call (.addOwner .root "Loop" [⟨⟨0⟩, 0⟩, ⟨⟨0⟩, 0⟩] [loopRegion] false 1)
      (congrArg some (Request.afterRequest_of_ok hgranted))
  obtain ⟨body, hbody, -⟩ := (hadmissible.available loopRegion (.head _)).free
  have howned : after.model? ⟨3⟩ = some _ := (hmodels ⟨3⟩).trans (congrArg (Option.map _) hbody)
  obtain ⟨hexact', -, hrefused⟩ := hafter.admits_exactly .root "Loop" [] [loopRegion] false 1
  have hnot : ¬ after.Admissible .root [] [loopRegion] 1 := by
    intro hadmissible'
    obtain ⟨inner, hinner, hfree⟩ := (hadmissible'.available loopRegion (.head _)).free
    rw [show loopRegion.model = ⟨3⟩ from rfl, howned] at hinner
    cases hinner
    simp [loopRegion] at hfree
  refine ⟨graph, _, after, h, hadmissible, hgranted, ?_, by simp [howned, loopRegion], hnot, ?_⟩
  · have hbound : newlyBound [⟨⟨0⟩, 0⟩, ⟨⟨0⟩, 0⟩] [loopRegion] = [⟨⟨9⟩, 1⟩] := by decide
    rw [node?, hnodes, hbound]
    simp [takeNode_ids]
  · cases hout : (addOwner .root "Loop" [] [loopRegion] false 1).run after with
    | error error refused => exact (hrefused error refused hout).2
    | ok id' grown => exact absurd (hexact'.1 ⟨id', grown, hout⟩) hnot

end GraphNaming.Graph
