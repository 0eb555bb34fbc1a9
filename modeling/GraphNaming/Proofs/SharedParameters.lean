import GraphNaming.Proofs.Admission
import GraphNaming.Proofs.Classes

/-!
# Parameters that share the names of a value

A parameter made to share the names of a value takes its aliases from the source of the value, and
its friendly name from the node that the value names. Bound to the value by the next call, it is
linked with the source just when these two nodes have the same friendly name. They are one node
unless the value is the output of a result.

* `Graph.KeepsNodes`: a larger graph, in which nothing is renamed.
* `addSharedParameter_ok`: the parameter made.
* `Reachable.sharedParameter_linked`: what links and aliases it has once it is bound.
-/

namespace GraphNaming.Graph

variable {graph middle after : Graph}

/-! ## Nodes that stay -/

/-- Every node is as it was. -/
def KeepsNodes (graph after : Graph) : Prop := ∀ id node, graph.node? id = some node →
  after.node? id = some node

theorem KeepsNodes.trans (h : graph.KeepsNodes middle) (h' : middle.KeepsNodes after) :
    graph.KeepsNodes after := fun id node hn => h' id node (h id node hn)

theorem keepsNodes_attach (node : Node) : graph.KeepsNodes (graph.attach node) :=
  fun _ _ hn => node?_attach_of_some hn

namespace KeepsNodes

variable (h : graph.KeepsNodes after)
include h

theorem friendlyText? {id : NodeId} {node : Node} (hn : graph.node? id = some node) :
    after.friendlyText? id = graph.friendlyText? id := by
  rw [Graph.friendlyText?, Graph.friendlyText?, hn, h id node hn]

theorem output? {value : Value} {output : Output} (ho : graph.output? value = some output) :
    after.output? value = some output := by
  obtain ⟨node, hn, ho⟩ := Option.bind_eq_some_iff.1 ho
  exact Option.bind_eq_some_iff.2 ⟨node, h _ _ hn, ho⟩

variable (hg : graph.WellFormed)
include hg

/-- The way back to a source goes by nodes that were there. -/
theorem source {model : ModelId} {value : Value} (hp : graph.Produces model value) :
    after.source value = graph.source value := by
  have within (fuel : Nat) {model : ModelId} {value : Value} (hp : graph.Produces model value) :
      after.sourceWithin fuel value = graph.sourceWithin fuel value := by
    induction fuel generalizing model value with
    | zero => rfl
    | succ fuel ih =>
      obtain ⟨node, hn, -⟩ := hp
      have hpassed : after.passedOn? value.node = graph.passedOn? value.node := by
        simp only [passedOn?, hn, h _ _ hn]
      rw [sourceWithin, sourceWithin, hpassed]
      cases hinput : graph.passedOn? value.node with
      | none => rfl
      | some input =>
        obtain ⟨_, -, -, -, hp⟩ := hg.produces_of_passedOn? hinput
        exact ih hp
  exact within _ hp

/-- Values keep their aliases. -/
theorem aliases? {model : ModelId} {value : Value} (hp : graph.Produces model value) :
    ∃ names, graph.aliases? value = some names ∧ after.aliases? value = some names := by
  obtain ⟨node, hn, -, hi⟩ := hg.produces_source hp
  have ho : graph.output? (graph.source value) = some node.outputs[(graph.source value).index] := by
    rw [Graph.output?, hn]
    exact List.getElem?_eq_getElem hi
  refine ⟨_, by rw [Graph.aliases?, ho]; rfl, ?_⟩
  rw [Graph.aliases?, h.source hg hp, h.output? ho]
  rfl

end KeepsNodes

/-! ## The parameter -/

/-- The new parameter has the name of the node that `outer` names, and the aliases of `outer`. -/
theorem addSharedParameter_ok {model : ModelId} {outer : Value} {id : NodeId}
    (h : (addSharedParameter model outer).run graph = .ok id after) :
    graph.KeepsNodes after ∧ ∃ producer, graph.node? outer.node = some producer ∧
      outer.index < producer.outputs.length ∧
      after.node? id = some { graph.freshNode model "Parameter" .parameter [] 1 with
        name := producer.name
        outputs := [{ index := 0, aliases := (graph.aliases? outer).getD ∅ }] } := by
  obtain ⟨producer, grown, hproducer, hgrown, rfl⟩ := addSharedParameter_eq_ok.1 h
  obtain ⟨-, rfl, rfl⟩ := addNode_eq_ok.1 hgrown
  obtain ⟨hn, hi⟩ := requireProducer_eq_ok.1 hproducer
  refine ⟨fun other node hother => ?_, producer, hn, hi, ?_⟩
  · rw [modifyOutput, node?_modifyNode, NodeId.output, if_neg (next_ne hother), node?_modifyNode,
      if_neg (next_ne hother), node?_grow, if_neg (next_ne hother).symm, hother]
  · rw [modifyOutput, node?_modifyNode, NodeId.output, if_pos rfl, node?_modifyNode, if_pos rfl,
      node?_grow, if_pos rfl]
    rfl

/-! ## Links and aliases of the parameter -/

/-- The node that `value` names has the friendly name of the value's source. -/
def NamedAsSource (graph : Graph) (value : Value) : Prop :=
  graph.friendlyText? value.node = graph.friendlyText? (graph.source value).node

/-- The two sides of the parameter's binding agree just when the value was named as its source. -/
theorem agrees_sharedParameter (hg : graph.WellFormed) {inner : ModelId} {outer : Value}
    {id : NodeId} (hid : (addSharedParameter inner outer).run graph = .ok id middle)
    (hkeeps : middle.KeepsNodes after) :
    after.agrees ⟨outer, id, .shared⟩ = true ↔ graph.NamedAsSource outer := by
  obtain ⟨hfirst, producer, hn, hi, hparameter⟩ := addSharedParameter_ok hid
  have hall := hfirst.trans hkeeps
  have hp : graph.Produces producer.model outer := ⟨producer, hn, rfl, hi⟩
  obtain ⟨source, hsource, -⟩ := hg.produces_source hp
  have hinner : after.friendlyText? id = graph.friendlyText? outer.node := by
    rw [Graph.friendlyText?, Graph.friendlyText?, hkeeps _ _ hparameter, hn]
    rfl
  rw [agrees, decide_eq_true_iff, hall.source hg hp, hall.friendlyText? hsource, hinner]
  exact eq_comm

/-- The parameter goes by the names of the value. -/
theorem aliases?_sharedParameter (hg : graph.WellFormed) {inner : ModelId} {outer : Value}
    {id : NodeId} (hid : (addSharedParameter inner outer).run graph = .ok id middle)
    (hkeeps : middle.KeepsNodes after) :
    ∃ names, after.aliases? (id.output 0) = some names ∧ after.aliases? outer = some names := by
  obtain ⟨hfirst, producer, hn, hi, hparameter⟩ := addSharedParameter_ok hid
  have hp : graph.Produces producer.model outer := ⟨producer, hn, rfl, hi⟩
  obtain ⟨names, hnames, hafter⟩ := (hfirst.trans hkeeps).aliases? hg hp
  refine ⟨names, ?_, hafter⟩
  have hfound := hkeeps _ _ hparameter
  rw [Graph.aliases?, source_of_not_result hfound rfl, Graph.output?, NodeId.output, hfound]
  rw [hnames]
  rfl

/-! ## The links of one owner -/

namespace WellFormed

variable (hg : graph.WellFormed)
include hg

/-- A node that owns the regions is added, and no other node changes. -/
theorem addOwner_keeps {model : ModelId} {type : String} {inputs : List Value}
    {regions : List Region} {exclusive : Bool} {outputs : Nat} {owner : NodeId}
    (h : (Graph.addOwner model type inputs regions exclusive outputs).run graph = .ok owner after) :
    graph.KeepsNodes after ∧ ∃ node, after.node? owner = some node ∧ node.regions = regions := by
  obtain ⟨-, rfl, rfl⟩ := hg.addOwner_eq_ok.1 h
  exact ⟨keepsNodes_attach _, _, node?_attach_self _, rfl⟩

/-- A source is its own source. -/
theorem source_source {model : ModelId} {value : Value} (hp : graph.Produces model value) :
    graph.source (graph.source value) = graph.source value := by
  obtain ⟨node, hn, hresult⟩ := hg.isResult_source hp
  exact source_of_not_result hn hresult

/-- A shared binding of a node links its two sides if they have one friendly name, and is reported
if they have two. -/
theorem linked_or_reported {owner : NodeId} {node : Node} {region : Region}
    {binding : InputBinding} (hn : graph.node? owner = some node) (hr : region ∈ node.regions)
    (hb : binding ∈ region.inputs) (hlink : binding.link = .shared) :
    ∃ links findings, graph.friendlyLinks? [owner] = some (links, findings) ∧
      (links.related (graph.source binding.outer).node binding.inner = true ↔
        graph.agrees binding = true) ∧
      ((∃ finding ∈ findings, finding.code = some .divergingNames ∧
          finding.related = [(graph.source binding.outer).node, binding.inner]) ↔
        ¬ graph.agrees binding = true) := by
  have hshared : binding ∈ graph.sharedBindingsAmong [owner] := by
    refine List.mem_flatMap.2 ⟨owner, .head _, List.mem_flatMap.2 ⟨region, ?_, ?_⟩⟩
    · rwa [regionsOf_eq hn]
    · exact List.mem_filter.2 ⟨hb, decide_eq_true hlink⟩
  refine ⟨_, _, hg.friendlyLinks?_among fun id hid => ?_, ?_, ?_⟩
  · obtain rfl := List.mem_singleton.1 hid
    exact ⟨node, hn⟩
  · constructor
    · exact fun h => decide_eq_true (friendlyText?_of_joined h)
    · intro hagrees
      refine Partition.related_joinAll_empty.2 (.rel _ _ ?_)
      exact List.mem_map.2 ⟨binding, List.mem_filter.2 ⟨hshared, hagrees⟩, rfl⟩
  · constructor
    · rintro ⟨_, hmem, -, hrelated⟩
      obtain ⟨other, hother, rfl⟩ := List.mem_map.1 hmem
      -- A finding names the two nodes, so another binding that brings it about joins the same two.
      have hsame : graph.agrees other = graph.agrees binding := by
        simp only [divergenceOf, List.cons.injEq, and_true] at hrelated
        rw [agrees, agrees, hrelated.1, hrelated.2]
      have hdiffer := (List.mem_filter.1 hother).2
      rwa [hsame, Bool.not_eq_true', ← Bool.not_eq_true] at hdiffer
    · intro hdiffer
      refine ⟨graph.divergenceOf binding, List.mem_map_of_mem (List.mem_filter.2 ⟨hshared, ?_⟩),
        rfl, rfl⟩
      rw [Bool.not_eq_true', ← Bool.not_eq_true]
      exact hdiffer

end WellFormed

/-- A parameter made to share the names of a value, and bound to it by the next call, is linked
with the source of the value just when the node that the value names has the friendly name of the
source, and reported otherwise. It always has that name if the value comes from no result. The
aliases of parameter and source are the same in any case. -/
theorem Reachable.sharedParameter_linked (hr : graph.Reachable) {inner model : ModelId}
    {outer : Value} {id owner : NodeId} {type : String} {inputs : List Value}
    {regions : List Region} {exclusive : Bool} {outputs : Nat} {region : Region}
    (hid : (addSharedParameter inner outer).run graph = .ok id middle)
    (howner : (addOwner model type inputs regions exclusive outputs).run middle = .ok owner after)
    (hregion : region ∈ regions) (hbinding : ⟨outer, id, .shared⟩ ∈ region.inputs) :
    (∃ links findings, after.friendlyLinks? [owner] = some (links, findings) ∧
      (links.related (after.source outer).node id = true ↔ graph.NamedAsSource outer) ∧
      ((∃ finding ∈ findings, finding.code = some .divergingNames ∧
        finding.related = [(after.source outer).node, id]) ↔ ¬ graph.NamedAsSource outer)) ∧
    (∀ producer, graph.node? outer.node = some producer → producer.isResult = false →
      graph.NamedAsSource outer) ∧
    ∃ names, after.aliases? (id.output 0) = some names ∧
      after.aliases? (after.source outer) = some names := by
  have hg := hr.wellFormed
  have hm := hg.addSharedParameter hid
  have ha := hm.addOwner howner
  obtain ⟨hkeeps, node, hn, rfl⟩ := hm.addOwner_keeps howner
  refine ⟨?_, fun producer hproducer hresult => ?_, ?_⟩
  · have hlinked := ha.linked_or_reported hn hregion hbinding rfl
    rwa [agrees_sharedParameter hg hid hkeeps] at hlinked
  · rw [NamedAsSource, source_of_not_result hproducer hresult]
  · obtain ⟨names, hparameter, hvalue⟩ := aliases?_sharedParameter hg hid hkeeps
    obtain ⟨hinput, -⟩ := ((ha.node hn).region region hregion).input _ hbinding
    have hp := ((ha.node hn).input outer hinput).2
    refine ⟨names, hparameter, ?_⟩
    rw [Graph.aliases?, ha.source_source hp]
    exact hvalue

/-- A parameter is made for an output of the conditional and bound to it by a loop. It is linked
with the conditional, and there is nothing to report. -/
theorem sharedParameter_linked_conditional :
    ∃ graph middle after links findings,
      Call.runAll? [.addModel "body"] conditional = some graph ∧
      (addSharedParameter ⟨3⟩ ⟨⟨9⟩, 0⟩).run graph = .ok ⟨12⟩ middle ∧
      (addOwner .root "Loop" [] [{ model := ⟨3⟩, inputs := [⟨⟨⟨9⟩, 0⟩, ⟨12⟩, .shared⟩] }] false
        0).run middle = .ok ⟨13⟩ after ∧
      after.friendlyLinks? [⟨13⟩] = some (links, findings) ∧
      links.related (after.source ⟨⟨9⟩, 0⟩).node ⟨12⟩ = true ∧
      (¬ ∃ finding ∈ findings, finding.code = some .divergingNames ∧
        finding.related = [(after.source ⟨⟨9⟩, 0⟩).node, ⟨12⟩]) ∧
      ∃ names, after.aliases? ⟨⟨12⟩, 0⟩ = some names ∧
        after.aliases? (after.source ⟨⟨9⟩, 0⟩) = some names := by
  have hrun : (Call.runAll? [.addModel "body"] conditional).any fun graph =>
      (∃ producer ∈ graph.node? ⟨9⟩, producer.isResult = false) ∧
      ∃ made ∈ graph.granted? (addSharedParameter ⟨3⟩ ⟨⟨9⟩, 0⟩), made.1 = ⟨12⟩ ∧
        ∃ owned ∈ made.2.granted? (addOwner .root "Loop" []
          [{ model := ⟨3⟩, inputs := [⟨⟨⟨9⟩, 0⟩, ⟨12⟩, .shared⟩] }] false 0),
            owned.1 = ⟨13⟩ := by
    decide +kernel
  obtain ⟨graph, h, hfacts⟩ := (Option.any_eq_true _ _).1 hrun
  obtain ⟨⟨producer, hn, hresult⟩, ⟨_, middle⟩, hmade, rfl, ⟨_, after⟩, howned, rfl⟩ :=
    of_decide_eq_true hfacts
  have hmade := Request.granted?_eq_some.1 hmade
  have howned := Request.granted?_eq_some.1 howned
  obtain ⟨⟨links, findings, hlinks, hlinked, hreported⟩, hnamed, haliases⟩ :=
    (reachable_conditional.runAll? h).sharedParameter_linked hmade howned (.head _) (.head _)
  have hsame := hnamed producer hn hresult
  exact ⟨graph, middle, after, links, findings, h, hmade, howned, hlinks, hlinked.2 hsame,
    fun hfinding => hreported.1 hfinding hsame, haliases⟩

/-- A parameter is made for the output of a result and bound to it by a loop. It has the friendly
name of the result, which is not that of the source, so the two are not linked but reported. -/
theorem sharedParameter_of_result_reported :
    ∃ graph middle after links findings,
      Call.runAll? [.addParameter .root, .addResult .root ⟨⟨0⟩, 0⟩, .addModel "body"]
        (.new "main") = some graph ∧ graph.Reachable ∧
      (addSharedParameter ⟨1⟩ ⟨⟨1⟩, 0⟩).run graph = .ok ⟨2⟩ middle ∧
      (addOwner .root "Loop" [] [{ model := ⟨1⟩, inputs := [⟨⟨⟨1⟩, 0⟩, ⟨2⟩, .shared⟩] }] false
        0).run middle = .ok ⟨3⟩ after ∧
      after.friendlyLinks? [⟨3⟩] = some (links, findings) ∧
      links.related (after.source ⟨⟨1⟩, 0⟩).node ⟨2⟩ = false ∧
      ∃ finding ∈ findings, finding.code = some .divergingNames ∧
        finding.related = [(after.source ⟨⟨1⟩, 0⟩).node, ⟨2⟩] := by
  have hrun : (Call.runAll? [.addParameter .root, .addResult .root ⟨⟨0⟩, 0⟩, .addModel "body"]
      (.new "main")).any fun graph =>
        ∃ made ∈ graph.granted? (addSharedParameter ⟨1⟩ ⟨⟨1⟩, 0⟩), made.1 = ⟨2⟩ ∧
          ∃ owned ∈ made.2.granted? (addOwner .root "Loop" []
            [{ model := ⟨1⟩, inputs := [⟨⟨⟨1⟩, 0⟩, ⟨2⟩, .shared⟩] }] false 0),
              owned.1 = ⟨3⟩ ∧ ∃ linked ∈ owned.2.friendlyLinks? [⟨3⟩],
                linked.1.related (owned.2.source ⟨⟨1⟩, 0⟩).node ⟨2⟩ = false ∧
                ∃ finding ∈ linked.2, finding.code = some .divergingNames ∧
                  finding.related = [(owned.2.source ⟨⟨1⟩, 0⟩).node, ⟨2⟩] := by
    decide +kernel
  obtain ⟨graph, h, hmade⟩ := (Option.any_eq_true _ _).1 hrun
  obtain ⟨⟨_, middle⟩, hmade, rfl, ⟨_, after⟩, howned, rfl, ⟨links, findings⟩, hlinks, happart,
    hreported⟩ := of_decide_eq_true hmade
  exact ⟨graph, middle, after, links, findings, h, (Reachable.new "main").runAll? h,
    Request.granted?_eq_some.1 hmade, Request.granted?_eq_some.1 howned, hlinks, happart,
    hreported⟩

end GraphNaming.Graph
