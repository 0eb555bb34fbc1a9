import GraphNaming.Proofs.Links
import GraphNaming.Proofs.Liveness

/-!
# Everything in its place

Whatever history a graph has, its nodes and models stand at their numbers, the lists of the models
tell their nodes, and values go forward only.

* `Graph.ResultsBare`: results own no aliases. Aliases given to a result go to its source, and a
  replaced name takes the place of another, so no call changes this.
* `Graph.NodeInPlace`, `Graph.ModelInPlace`: what a node and a model must meet.
* `WellFormed.not_gives_self`: no node depends on itself.
* `Reachable.structurally_valid`: all this holds of every graph with a history.
-/

namespace GraphNaming

theorem Node.isParameter_iff {node : Node} :
    node.isParameter = true ↔ node.kind = .parameter := beq_iff_eq

theorem Node.isResult_iff {node : Node} : node.isResult = true ↔ node.kind = .result := beq_iff_eq

/-- If the node is a result, its outputs have no aliases of their own. -/
def Node.Bare (node : Node) : Prop :=
  node.isResult = true → ∀ output ∈ node.outputs, output.aliases = ∅

theorem AliasSet.replace_empty (old new : String) : (∅ : AliasSet).replace old new = ∅ :=
  if_neg (not_mem_empty old)

namespace Graph

variable {graph after : Graph}

/-! ## Results own no aliases -/

/-- No result has aliases of its own. -/
def ResultsBare (graph : Graph) : Prop := ∀ id node, graph.node? id = some node → node.Bare

theorem bare_freshNode (model : ModelId) (type : String) (kind : NodeKind) (inputs : List Value)
    (outputs : Nat) : (graph.freshNode model type kind inputs outputs).Bare := by
  intro _ output ho
  obtain ⟨index, -, rfl⟩ := List.mem_map.1 ho
  rfl

namespace ResultsBare

theorem new (name : String) : (new name).ResultsBare := by
  intro id node hn
  simp [node?_new] at hn

theorem modifyNode (h : graph.ResultsBare) {id : NodeId} {change : Node → Node}
    (hchange : ∀ node, graph.node? id = some node → node.Bare → (change node).Bare) :
    (graph.modifyNode id change).ResultsBare := by
  intro other node hn
  rw [node?_modifyNode] at hn
  split at hn
  · next he =>
    obtain ⟨old, hold, rfl⟩ := Option.map_eq_some_iff.1 hn
    subst he
    exact hchange old hold (h _ _ hold)
  · exact h _ _ hn

/-- A change of one output matters only if its node is a result. -/
theorem modifyOutput (h : graph.ResultsBare) {value : Value} {change : Output → Output}
    (hchange : ∀ node, graph.node? value.node = some node → node.isResult = true →
      ∀ output, output.aliases = ∅ → (change output).aliases = ∅) :
    (graph.modifyOutput value change).ResultsBare := by
  refine h.modifyNode fun node hn hbare hr output ho => ?_
  obtain ⟨i, hi⟩ := List.mem_iff_getElem?.1 ho
  rw [List.getElem?_modify] at hi
  obtain ⟨old, hold, rfl⟩ := Option.map_eq_some_iff.1 hi
  have hempty : old.aliases = ∅ := hbare hr old (List.mem_of_getElem? hold)
  by_cases he : value.index = i
  · simpa [he] using hchange node hn hr old hempty
  · simpa [he] using hempty

theorem grow (h : graph.ResultsBare) {node : Node} (hbare : node.Bare) :
    (graph.grow node).ResultsBare := by
  intro id other hn
  rw [node?_grow] at hn
  split at hn
  · cases hn
    exact hbare
  · exact h _ _ hn

theorem setOwner (h : graph.ResultsBare) (owner : NodeId) (regions : List Region) :
    (graph.setOwner owner regions).ResultsBare := by
  intro id node hn
  rw [node?_setOwner] at hn
  exact h _ _ hn

theorem addNode (h : graph.ResultsBare) {model : ModelId} {type : String} {kind : NodeKind}
    {inputs : List Value} {outputs : Nat} {id : NodeId}
    (hrun : (Graph.addNode model type kind inputs outputs).run graph = .ok id after) :
    after.ResultsBare := by
  obtain ⟨-, -, rfl⟩ := addNode_eq_ok.1 hrun
  exact h.grow (bare_freshNode _ _ _ _ _)

/-- The aliases that a new parameter shares go to a node that is no result. -/
theorem addSharedParameter (h : graph.ResultsBare) {model : ModelId} {outer : Value} {id : NodeId}
    (hrun : (Graph.addSharedParameter model outer).run graph = .ok id after) :
    after.ResultsBare := by
  obtain ⟨producer, grown, -, hgrown, rfl⟩ := addSharedParameter_eq_ok.1 hrun
  have hnamed : (grown.modifyNode id fun node => { node with name := producer.name }).ResultsBare :=
    (h.addNode hgrown).modifyNode fun _ _ hbare => hbare
  refine hnamed.modifyOutput fun node hn hr => ?_
  obtain ⟨-, rfl, rfl⟩ := addNode_eq_ok.1 hgrown
  simp only [NodeId.output, node?_modifyNode, node?_grow, if_true, Option.map_some,
    Option.some.injEq] at hn
  rw [Node.isResult_iff, ← hn] at hr
  cases hr

theorem addOperation (h : graph.ResultsBare) {model : ModelId} {type : String}
    {inputs : List Value} {outputs : Nat} {id : NodeId}
    (hrun : (Graph.addOperation model type inputs outputs).run graph = .ok id after) :
    after.ResultsBare := by
  obtain ⟨_, -, hrun⟩ := Request.check_bind_eq_ok.1 hrun
  exact h.addNode hrun

theorem addResult (h : graph.ResultsBare) {model : ModelId} {source : Value} {id : NodeId}
    (hrun : (Graph.addResult model source).run graph = .ok id after) : after.ResultsBare := by
  obtain ⟨_, -, hrun⟩ := Request.check_bind_eq_ok.1 hrun
  exact h.addNode hrun

theorem addOwner (h : graph.ResultsBare) {model : ModelId} {type : String} {inputs : List Value}
    {regions : List Region} {exclusive : Bool} {outputs : Nat} {id : NodeId}
    (hrun : (Graph.addOwner model type inputs regions exclusive outputs).run graph = .ok id after) :
    after.ResultsBare := by
  obtain ⟨grown, hgrown, rfl⟩ := addOwner_of_ok hrun
  exact (h.addNode hgrown).setOwner _ _

theorem setFriendlyName (h : graph.ResultsBare) {id : NodeId} {name : String}
    (hrun : (Graph.setFriendlyName id name).run graph = .ok () after) : after.ResultsBare := by
  obtain ⟨_, -, hrun⟩ := Request.check_bind_eq_ok.1 hrun
  cases hrun
  exact h.modifyNode fun _ _ hbare => hbare

/-- Aliases go to the source of a value, which is no result. -/
theorem modifyAliases (hg : graph.WellFormed) (h : graph.ResultsBare) {value : Value}
    {change : AliasSet → AliasSet}
    (hrun : (Graph.modifyAliases value change).run graph = .ok () after) :
    after.ResultsBare := by
  obtain ⟨⟨model, hp⟩, rfl⟩ := modifyAliases_eq_ok.1 hrun
  refine h.modifyOutput fun node hnode hr => ?_
  obtain ⟨source, hsource, hnot⟩ := hg.isResult_source hp
  rw [hnode] at hsource
  cases hsource
  rw [hr] at hnot
  cases hnot

/-- A rename takes a name away before it gives one. -/
theorem rename (h : graph.ResultsBare) (rename : Rename) : (graph.rename rename).ResultsBare := by
  unfold Graph.rename
  split
  · exact h.modifyNode fun _ _ hbare => hbare
  · refine h.modifyOutput fun _ _ _ output hempty => ?_
    rw [hempty, AliasSet.replace_empty]

theorem renameAll (h : graph.ResultsBare) (renames : List Rename) :
    (graph.renameAll renames).ResultsBare := by
  induction renames generalizing graph with
  | nil => exact h
  | cons first rest ih => exact ih (h.rename first)

/-- A call leaves results without aliases of their own. -/
theorem run? (hg : graph.WellFormed) (h : graph.ResultsBare) {call : Call}
    (hrun : call.run? graph = some after) : after.ResultsBare := by
  cases call with
  | addModel name => cases hrun; exact h
  | addParameter model =>
    cases hrun
    exact (harmless_addParameter _).keeps h fun _ _ hr => h.addNode hr
  | addSharedParameter model outer =>
    cases hrun
    exact (harmless_addSharedParameter _ _).keeps h fun _ _ hr => h.addSharedParameter hr
  | addOperation model type inputs outputs =>
    cases hrun
    exact (harmless_addOperation _ _ _ _).keeps h fun _ _ hr => h.addOperation hr
  | addResult model source =>
    cases hrun
    exact (harmless_addResult _ _).keeps h fun _ _ hr => h.addResult hr
  | addOwner model type inputs regions exclusive outputs =>
    cases hrun
    exact (harmless_addOwner _ _ _ _ _ _).keeps h fun _ _ hr => h.addOwner hr
  | setFriendlyName node name =>
    cases hrun
    exact (harmless_setFriendlyName _ _).keeps h fun _ _ hr => h.setFriendlyName hr
  | setAliases value names =>
    cases hrun
    exact (harmless_modifyAliases _ _).keeps h fun _ _ hr => modifyAliases hg h hr
  | addAliases value names =>
    cases hrun
    exact (harmless_modifyAliases _ _).keeps h fun _ _ hr => modifyAliases hg h hr
  | resolveFriendlyNames config =>
    obtain ⟨⟨report, last⟩, hpass, rfl⟩ := Option.map_eq_some_iff.1 hrun
    rw [(resolveFriendlyNames?_eq_some.1 hpass).2]
    exact h.renameAll _
  | resolveAliases config =>
    obtain ⟨⟨report, last⟩, hpass, rfl⟩ := Option.map_eq_some_iff.1 hrun
    rw [(resolveAliases?_eq_some.1 hpass).2]
    exact h.renameAll _

end ResultsBare

theorem Reachable.resultsBare (hr : graph.Reachable) : graph.ResultsBare := by
  induction hr with
  | new name => exact .new name
  | call call hr hrun ih => exact ih.run? hr.wellFormed hrun

/-! ## Places -/

/-- `node` stands at the number `id`, is listed where it belongs, and takes values of earlier
nodes only. -/
structure NodeInPlace (graph : Graph) (id : NodeId) (node : Node) : Prop where
  id_eq : node.id = id
  /-- The node's own model lists it once, and among its parameters or results by its kind. -/
  listed : ∃ model, graph.model? node.model = some model ∧ model.nodes.count id = 1 ∧
    (id ∈ model.parameters ↔ node.kind = .parameter) ∧ (id ∈ model.results ↔ node.kind = .result)
  /-- No other model lists it. -/
  elsewhere : ∀ {other model}, graph.model? other = some model → id ∈ model.nodes →
    other = node.model
  index : ∀ {i : Nat} {output : Output}, node.outputs[i]? = some output → output.index = i
  parameter : node.kind = .parameter → node.inputs = [] ∧ node.outputs.length = 1
  result : node.kind = .result →
    ∃ value output, node.inputs = [value] ∧ node.outputs = [output] ∧ output.aliases = ∅
  input : ∀ value ∈ node.inputs, value.node.number < id.number ∧ graph.Produces node.model value

/-- `model` stands at the number `id` and lists nodes of its own, in the order of their numbers. -/
structure ModelInPlace (graph : Graph) (id : ModelId) (model : Model) : Prop where
  id_eq : model.id = id
  ascending : model.nodes.Pairwise (·.number < ·.number)
  own : ∀ node ∈ model.nodes, graph.InModel node id
  parameters : model.parameters.Sublist model.nodes
  results : model.results.Sublist model.nodes

theorem nodesOf_sublist (id : ModelId) (p : Node → Bool) :
    (graph.nodesOf id p).Sublist (graph.nodesOf id fun _ => true) := by
  refine List.Sublist.map _ (List.monotone_filter_right _ fun node h => ?_)
  simp only [Bool.and_eq_true] at h
  simpa using h.1

namespace WellFormed

variable (hg : graph.WellFormed)
include hg

theorem ascending_nodesOf (id : ModelId) (p : Node → Bool) :
    (graph.nodesOf id p).Pairwise (·.number < ·.number) := by
  have hall : (graph.nodes.toList.map (·.id)).Pairwise (·.number < ·.number) := by
    rw [hg.map_id_nodes, List.pairwise_map]
    exact List.pairwise_lt_range
  exact hall.sublist (List.filter_sublist.map _)

theorem modelInPlace {id : ModelId} {model : Model} (hm : graph.model? id = some model) :
    graph.ModelInPlace id model where
  id_eq := (hg.model hm).id_eq
  ascending := (hg.model hm).nodes ▸ hg.ascending_nodesOf id _
  own n hn := by
    rw [(hg.model hm).nodes, hg.mem_nodesOf] at hn
    obtain ⟨node, hn, hmodel, -⟩ := hn
    exact ⟨node, hn, hmodel⟩
  parameters := by
    rw [(hg.model hm).parameters, (hg.model hm).nodes]
    exact nodesOf_sublist id _
  results := by
    rw [(hg.model hm).results, (hg.model hm).nodes]
    exact nodesOf_sublist id _

theorem listed {id : NodeId} {node : Node} (hn : graph.node? id = some node) :
    ∃ model, graph.model? node.model = some model ∧ model.nodes.count id = 1 ∧
      (id ∈ model.parameters ↔ node.kind = .parameter) ∧
      (id ∈ model.results ↔ node.kind = .result) := by
  obtain ⟨model, hm⟩ := (hg.node hn).model
  have here (p : Node → Bool) : id ∈ graph.nodesOf node.model p ↔ p node = true := by
    rw [hg.mem_nodesOf]
    simp [hn]
  refine ⟨model, hm, ?_, ?_, ?_⟩
  · rw [(hg.model hm).nodes]
    exact List.count_eq_one_of_mem (hg.nodup_nodesOf _ _) ((here _).2 rfl)
  · rw [(hg.model hm).parameters, here, Node.isParameter_iff]
  · rw [(hg.model hm).results, here, Node.isResult_iff]

theorem nodeInPlace (hb : graph.ResultsBare) {id : NodeId} {node : Node}
    (hn : graph.node? id = some node) : graph.NodeInPlace id node where
  id_eq := (hg.node hn).id_eq
  listed := hg.listed hn
  elsewhere {other model} hm hid := by
    obtain ⟨node', hn', hmodel⟩ := (hg.modelInPlace hm).own id hid
    rw [hn] at hn'
    cases hn'
    exact hmodel.symm
  index {i output} ho := by
    have hindices := congrArg (·[i]?) (hg.node hn).indices
    have hlt : i < node.outputs.length := (List.getElem?_eq_some_iff.1 ho).1
    simpa only [List.getElem?_map, ho, Option.map_some, List.getElem?_range hlt,
      Option.some.injEq] using hindices
  parameter hk := (hg.node hn).parameter (Node.isParameter_iff.2 hk)
  result hk := by
    have hr := Node.isResult_iff.2 hk
    obtain ⟨⟨value, hinputs⟩, hone⟩ := (hg.node hn).result hr
    obtain ⟨output, houtputs⟩ := List.length_eq_one_iff.1 hone
    exact ⟨value, output, hinputs, houtputs, hb _ _ hn hr output (by simp [houtputs])⟩
  input := (hg.node hn).input

theorem number_lt_of_gives {giver taker : NodeId} (h : graph.Gives giver taker) :
    giver.number < taker.number := by
  obtain ⟨node, hn, value, hv, rfl⟩ := h
  exact ((hg.node hn).input value hv).1

/-- Values go from smaller to larger numbers, so no way along them leads back. -/
theorem not_gives_self (id : NodeId) : ¬ Relation.TransGen graph.Gives id id := by
  have hlt {first last : NodeId} (h : Relation.TransGen graph.Gives first last) :
      first.number < last.number := by
    induction h with
    | single h => exact hg.number_lt_of_gives h
    | tail _ h ih => exact ih.trans (hg.number_lt_of_gives h)
  exact fun h => Nat.lt_irrefl _ (hlt h)

end WellFormed

/-- In a graph with a history every node and model stands at its number. A node is listed once, by
its own model and in the place that its kind asks for. Its outputs are numbered, and it takes
outputs of earlier nodes of its model, so that values never go round in a circle. -/
theorem Reachable.structurally_valid (hr : graph.Reachable) :
    (∀ id node, graph.node? id = some node → graph.NodeInPlace id node) ∧
    (∀ id model, graph.model? id = some model → graph.ModelInPlace id model) ∧
    ∀ id, ¬ Relation.TransGen graph.Gives id id := by
  have hg := hr.wellFormed
  exact ⟨fun _ _ hn => hg.nodeInPlace hr.resultsBare hn, fun _ _ hm => hg.modelInPlace hm,
    hg.not_gives_self⟩

/-- A request with a value of another model is refused. Aliases given to the first result of a
branch are those of its source, and the result still has none of its own after a pass. -/
theorem structurally_valid_conditional :
    ∃ after result source, Call.runAll? [.addOperation .root "Add" [⟨⟨2⟩, 0⟩] 1,
        .setAliases ⟨⟨3⟩, 0⟩ ["x"], .resolveAliases {}] conditional = some after ∧
      after.nodes.size = conditional.nodes.size ∧
      after.node? ⟨3⟩ = some result ∧ result.kind = .result ∧
      after.NodeInPlace ⟨3⟩ result ∧ result.outputs.map (·.aliases) = [∅] ∧
      after.output? ⟨⟨2⟩, 0⟩ = some source ∧ source.aliases ≠ ∅ ∧
      ¬ Relation.TransGen after.Gives ⟨3⟩ ⟨3⟩ := by
  have hrun : (Call.runAll? [.addOperation .root "Add" [⟨⟨2⟩, 0⟩] 1,
      .setAliases ⟨⟨3⟩, 0⟩ ["x"], .resolveAliases {}] conditional).any fun after =>
        after.nodes.size = conditional.nodes.size ∧
        (∃ result ∈ after.node? ⟨3⟩, result.kind = .result) ∧
        ∃ source ∈ after.output? ⟨⟨2⟩, 0⟩, source.aliases ≠ ∅ := by
    decide +kernel
  obtain ⟨after, h, hfacts⟩ := (Option.any_eq_true _ _).1 hrun
  obtain ⟨hsize, ⟨result, hn, hk⟩, source, hs, hne⟩ := of_decide_eq_true hfacts
  obtain ⟨hnodes, -, hacyclic⟩ := (reachable_conditional.runAll? h).structurally_valid
  have hplace := hnodes _ _ hn
  obtain ⟨_, output, -, houtputs, hempty⟩ := hplace.result hk
  exact ⟨after, result, source, h, hsize, hn, hk, hplace, by simp [houtputs, hempty], hs, hne,
    hacyclic _⟩

end Graph

end GraphNaming
