import GraphNaming.Proofs.Entries
import GraphNaming.Proofs.Unvisited

/-!
# The written form

A graph is written in the order in which it is walked. The writing goes through the regions in a
recursion of its own, without scopes, and yet it lists the nodes that the walk visits and no others.

* `Graph.Listing`: lines that list some nodes in order, under the headers of their models.
* `Listing.unique`: the visited nodes can be listed in one way only.
* `lineOf_model_congr`, `lineOf_node_congr`: the names that a line shows.
* `Reachable.text_lists_walk`: what the text of a graph with a history is made of.
-/

namespace GraphNaming.Graph

variable {graph : Graph}

/-! ## What a listing is like -/

/-- The lines that `entries` stand for list `nodes` in order, under the headers of their models. -/
structure Listing (graph : Graph) (nodes : List NodeId) (entries : List Entry) : Prop where
  once : entries.Nodup
  visits : entries.filterMap Entry.node? = nodes
  headers : ∀ id, .model id ∈ entries ↔ id = .root ∨ ∃ owner ∈ nodes, graph.Owns owner id
  /-- A header comes right before the first node of its model, after all that is listed earlier. -/
  first : ∀ id ∈ nodes,
    (∀ other, Before nodes other id → graph.modelOf other ≠ graph.modelOf id) →
      [.model (graph.modelOf id), .node id] <:+: entries
  /-- After the header of a model come its nodes, each followed by all that is in its regions. -/
  unfolds : ∀ id, .model id ∈ entries → entries.filter (graph.belongsTo id) =
    .model id :: (nodes.filter (graph.modelOf · = id)).flatMap fun node =>
      .node node :: (graph.regionsOf node).flatMap fun region =>
        entries.filter (graph.belongsTo region.model)

namespace WellFormed

variable (hg : graph.WellFormed)
include hg

theorem header_infix {first : NodeId} (hv : first ∈ graph.visited)
    (hfirst : ∀ other, Before graph.visited other first →
      graph.modelOf other ≠ graph.modelOf first) :
    [.model (graph.modelOf first), .node first] <:+: graph.entriesOf .root := by
  obtain ⟨node, hn, hw, -⟩ := hg.mem_visited_iff.1 hv
  obtain ⟨model, hm⟩ := hg.model?_of_walked hw
  obtain ⟨order, horder, -, hentries⟩ := hg.entriesOf_eq hm
  have horder' := Option.some.inj (horder.symm.trans (hg.order?_of_walked hw))
  rw [modelOf_eq hn] at hfirst ⊢
  have hmem : first ∈ order := by
    rw [horder', List.mem_filter, decide_eq_true_iff]
    exact ⟨hv, modelOf_eq hn⟩
  cases order with
  | nil => cases hmem
  | cons head rest =>
    -- Whatever comes first in the order of the model is visited first.
    have hhead : head = first := by
      rcases List.mem_cons.1 hmem with heq | hrest
      · exact heq.symm
      · have hb : Before (graph.visited.filter (graph.modelOf · = node.model)) head first :=
          horder' ▸ Before.cons_iff.2 (.inl ⟨rfl, hrest⟩)
        exact absurd (of_decide_eq_true (List.mem_filter.1 hb.left_mem).2)
          (hfirst head (hb.mono List.filter_sublist))
    subst hhead
    refine List.IsInfix.trans (List.IsPrefix.isInfix ?_) (hg.entriesOf_infix hw)
    rw [hentries, List.flatMap_cons, entryBlock]
    simp

theorem listing_entriesOf : graph.Listing graph.visited (graph.entriesOf .root) where
  once := hg.nodup_entries
  visits := filterMap_node?_entriesWithin _ _
  headers _ := hg.model_mem_entries.trans hg.walked_iff
  first _ hv hfirst := hg.header_infix hv hfirst
  unfolds _ hmem := hg.filter_belongsTo_eq (hg.model_mem_entries.1 hmem)

theorem belongsTo_root {entries : List Entry} (h : graph.Listing graph.visited entries) :
    ∀ entry ∈ entries, graph.belongsTo .root entry = true := by
  have hnode {n : NodeId} (hv : n ∈ graph.visited) : graph.liesIn .root n = true := by
    obtain ⟨node, hn, hwithin⟩ := hg.covers_visited.within n hv
    exact (hg.liesIn_iff hn).2 hwithin
  intro entry he
  cases entry with
  | node n => exact hnode (h.visits ▸ List.mem_filterMap.2 ⟨_, he, rfl⟩)
  | model id =>
    have hw := hg.walked_iff.2 ((h.headers id).1 he)
    rw [belongsTo, decide_eq_true_iff, modelIn, hg.mem_enclosing (hg.model?_of_walked hw)]
    rcases (h.headers id).1 he with rfl | ⟨owner, hv, ho⟩
    · exact .refl _
    · obtain ⟨node, hn, hwithin⟩ := hg.covers_visited.within owner hv
      exact (Within.of_parent? (hg.parent?_eq_some_iff.2 ⟨owner, ho, node, hn, rfl⟩)).trans hwithin

end WellFormed

/-- There is only one listing of the visited nodes. -/
theorem Listing.unique (hg : graph.WellFormed) {entries entries' : List Entry}
    (h : graph.Listing graph.visited entries) (h' : graph.Listing graph.visited entries') :
    entries = entries' := by
  have hall : graph.Walked .root → entries.filter (graph.belongsTo .root) =
      entries'.filter (graph.belongsTo .root) := by
    -- Model by model, from the innermost out: a listing is put together from those of the regions.
    refine hg.model_induct (P := fun id => graph.Walked id →
      entries.filter (graph.belongsTo id) = entries'.filter (graph.belongsTo id)) ?_ hg.hasRoot
    intro id model hm ih hw
    have hin := hg.walked_iff.1 hw
    rw [h.unfolds id ((h.headers id).2 hin), h'.unfolds id ((h'.headers id).2 hin)]
    refine congrArg _ (List.flatMap_congr fun n hn => ?_)
    refine congrArg _ (List.flatMap_congr fun region hr => ?_)
    obtain ⟨hv, hmodel⟩ := List.mem_filter.1 hn
    obtain ⟨node, hnode, -⟩ := hg.covers_visited.within n hv
    have hp := hg.parent?_of_region hnode (regionsOf_eq hnode ▸ hr)
    rw [← modelOf_eq hnode, of_decide_eq_true hmodel] at hp
    exact ih region.model hp (hg.walked_of_region hv hr)
  have hall := hall .root
  rwa [List.filter_eq_self.2 (hg.belongsTo_root h), List.filter_eq_self.2 (hg.belongsTo_root h')]
    at hall

/-! ## What the text hangs on -/

section Shape

variable {other : Graph} (h : graph.shape = other.shape)
include h

theorem enclosing_of_shape (id : ModelId) : other.enclosing id = graph.enclosing id := by
  have hwithin (fuel : Nat) : ∀ id, other.enclosingWithin fuel id =
      graph.enclosingWithin fuel id := by
    induction fuel with
    | zero => exact fun _ => rfl
    | succ fuel ih =>
      intro id
      simp only [enclosingWithin, parent?_of_shape h, ih]
  have hsize : other.models.size = graph.models.size := congrArg (·.models.size) h.symm
  rw [enclosing, enclosing, hsize, hwithin]

theorem depthOf_of_shape (id : ModelId) : other.depthOf id = graph.depthOf id := by
  rw [depthOf, depthOf, route, route, enclosing_of_shape h]

theorem entriesOf_of_shape (id : ModelId) : other.entriesOf id = graph.entriesOf id := by
  have hwithin (fuel : Nat) : ∀ id, other.entriesWithin fuel id =
      graph.entriesWithin fuel id := by
    induction fuel with
    | zero => exact fun _ => rfl
    | succ fuel ih =>
      intro id
      simp only [entriesWithin, order?_of_shape h, regionsOf_of_shape h, ih]
  have hsize : other.models.size = graph.models.size := congrArg (·.models.size) h.symm
  rw [entriesOf, entriesOf, hsize, hwithin]

/-- The line of a header hangs on no name but that of the model. -/
theorem lineOf_model_congr (id : ModelId) :
    other.lineOf (.model id) = graph.lineOf (.model id) := by
  rw [lineOf, lineOf, ← model?_of_shape h, depthOf_of_shape h]

/-- The outputs of a visited node that is no result are told by their aliases. -/
private theorem outputs_of_aliases {id : NodeId} {node node' : Node} (hv : id ∈ graph.visited)
    (hn : graph.node? id = some node) (hn' : other.node? id = some node')
    (hr : node.isResult = false) (haliases : ∀ index, graph.IsVisitedOutput (id.output index) →
      other.aliases? (id.output index) = graph.aliases? (id.output index)) :
    node'.outputs = node.outputs := by
  refine List.ext_getElem? fun index => ?_
  have houtput : other.output? (id.output index) = graph.output? (id.output index) := by
    by_cases hlt : index < node.outputs.length
    · have hsame := haliases index ⟨hv, node, hn, hr, hlt⟩
      exact (output?_eq_of_holds h (source_of_not_result hn hr)
        fun name => by rw [Holds, Holds, hsame]).symm
    · have hnone : graph.output? (id.output index) = none := by
        simpa [output?, NodeId.output, hn] using hlt
      have hshape : graph.shape.output? (id.output index) = none := by
        rw [output?_shape, hnone]
        rfl
      rw [h, output?_shape, Option.map_eq_none_iff] at hshape
      rw [hshape, hnone]
  simpa [output?, NodeId.output, hn, hn'] using houtput

/-- The line of a node shows its friendly name, who chose it, and its aliases, and hangs on no
other names. -/
theorem lineOf_node_congr {id : NodeId} (hv : id ∈ graph.visited)
    (htext : other.friendlyText? id = graph.friendlyText? id)
    (huser : other.isUserNamed id = graph.isUserNamed id)
    (haliases : ∀ value, value.node = id → graph.IsVisitedOutput value →
      other.aliases? value = graph.aliases? value) :
    other.lineOf (.node id) = graph.lineOf (.node id) := by
  cases hn : graph.node? id with
  | none =>
    have hn' : other.node? id = none := by
      have hsame := congrArg (·.node? id) h
      simpa [hn, eq_comm] using hsame
    rw [lineOf, lineOf, hn, hn']
  | some node =>
    obtain ⟨node', hn', hs⟩ := node?_of_shape h hn
    have hname := name_eq_of_node? hn hn' htext huser
    have huser : node'.isUserNamed = node.isUserNamed := by simp only [Node.isUserNamed, hname]
    have htype : node'.type = node.type := congrArg (·.type) hs
    have hresult := isResult_of_shape hs
    have hshown : node'.shownOutputs = node.shownOutputs := by
      cases hr : node.isResult with
      | true => simp only [Node.shownOutputs, hresult, hr, if_true]
      | false =>
        have houtputs : node'.outputs = node.outputs :=
          outputs_of_aliases h hv hn hn' hr fun index => haliases (id.output index) rfl
        simp only [Node.shownOutputs, hresult, houtputs]
    simp only [lineOf, hn, hn', hname, huser, model_of_shape hs, htype, hshown,
      depthOf_of_shape h]

end Shape

/-- The text of a graph with a history is made of one line for each visited node, in the order of
the visits and moved in by the regions around it, and of one header for each walked model, right
before what is listed of the model. Nothing else is in it: what is not visited has no line, and
graphs of one shape have the same text if the visited nodes have the same names. -/
theorem Reachable.text_lists_walk (hr : graph.Reachable) (scoping : Scoping) :
    ∃ walk entries, graph.walk? scoping = some walk ∧
      graph.text? = some (String.join (entries.map graph.lineOf)) ∧
      graph.Listing walk.nodes entries ∧
      ∀ other : Graph, graph.shape = other.shape →
        (∀ id ∈ walk.nodes, other.friendlyText? id = graph.friendlyText? id) →
        (∀ id ∈ walk.nodes, other.isUserNamed id = graph.isUserNamed id) →
        (∀ value, graph.IsVisitedOutput value → other.aliases? value = graph.aliases? value) →
        other.text? = graph.text? := by
  have hg := hr.wellFormed
  obtain ⟨walk, hwalk, hnodes⟩ := hg.exists_walk scoping
  refine ⟨walk, graph.entriesOf .root, hwalk, hg.text?_eq, hnodes ▸ hg.listing_entriesOf, ?_⟩
  rw [hnodes]
  intro other hs htext huser haliases
  rw [(hg.of_shape hs).text?_eq, hg.text?_eq, entriesOf_of_shape hs]
  refine congrArg (fun lines => some (String.join lines)) (List.map_congr_left fun entry he => ?_)
  cases entry with
  | model id => exact lineOf_model_congr hs id
  | node id =>
    have hv : id ∈ graph.visited := node_mem_entriesOf.1 he
    exact lineOf_node_congr hs hv (htext id hv) (huser id hv) fun value _ => haliases value

/-- The region without nodes has a header and no more, and the operation that is not visited has no
line, so its names may be any. -/
theorem text_lists_walk_conditional : ∃ graph other walk entries, Call.runAll?
      [.addOperation .root "Log" [⟨⟨10⟩, 0⟩] 1, .addModel "empty",
        .addOwner .root "Wrap" [⟨⟨0⟩, 0⟩] [{ model := ⟨3⟩ }] false 1,
        .addResult .root ⟨⟨13⟩, 0⟩] conditional = some graph ∧
    Call.runAll? [.setFriendlyName ⟨12⟩ "Parameter_0", .setAliases ⟨⟨12⟩, 0⟩ ["x"]] graph =
      some other ∧
    graph.walk? .exclusive = some walk ∧ ⟨12⟩ ∉ walk.nodes ∧
    graph.text? = some (String.join (entries.map graph.lineOf)) ∧
    entries = [.model ⟨0⟩, .node ⟨0⟩, .node ⟨9⟩, .model ⟨1⟩, .node ⟨1⟩, .node ⟨2⟩, .node ⟨3⟩,
      .node ⟨4⟩, .model ⟨2⟩, .node ⟨5⟩, .node ⟨6⟩, .node ⟨7⟩, .node ⟨8⟩, .node ⟨10⟩, .node ⟨11⟩,
      .node ⟨13⟩, .model ⟨3⟩, .node ⟨14⟩] ∧
    graph.lineOf (.node ⟨2⟩) = "      n2 Split 'Split_6' (user) [0: y] [1: z:0]\n" ∧
    graph.lineOf (.model ⟨3⟩) = "    model 'empty'\n" ∧
    other ≠ graph ∧ other.text? = graph.text? := by
  have hrun : (Call.runAll? [.addOperation .root "Log" [⟨⟨10⟩, 0⟩] 1, .addModel "empty",
      .addOwner .root "Wrap" [⟨⟨0⟩, 0⟩] [{ model := ⟨3⟩ }] false 1,
      .addResult .root ⟨⟨13⟩, 0⟩] conditional).any fun graph =>
    ∃ other ∈ Call.runAll? [.setFriendlyName ⟨12⟩ "Parameter_0",
        .setAliases ⟨⟨12⟩, 0⟩ ["x"]] graph,
      (∃ walk ∈ graph.walk? .exclusive, ⟨12⟩ ∉ walk.nodes ∧ graph.shape = other.shape ∧
        ∀ id ∈ walk.nodes, other.node? id = graph.node? id) ∧
      graph.entriesOf .root = [.model ⟨0⟩, .node ⟨0⟩, .node ⟨9⟩, .model ⟨1⟩, .node ⟨1⟩, .node ⟨2⟩,
        .node ⟨3⟩, .node ⟨4⟩, .model ⟨2⟩, .node ⟨5⟩, .node ⟨6⟩, .node ⟨7⟩, .node ⟨8⟩, .node ⟨10⟩,
        .node ⟨11⟩, .node ⟨13⟩, .model ⟨3⟩, .node ⟨14⟩] ∧
      graph.lineOf (.node ⟨2⟩) = "      n2 Split 'Split_6' (user) [0: y] [1: z:0]\n" ∧
      graph.lineOf (.model ⟨3⟩) = "    model 'empty'\n" ∧ other ≠ graph := by
    decide +kernel
  obtain ⟨graph, hgraph, hfacts⟩ := (Option.any_eq_true _ _).1 hrun
  obtain ⟨other, hother, ⟨walk, hwalk, hnot, hs, hnodes⟩, hentries, hline, hheader, hdiff⟩ :=
    of_decide_eq_true hfacts
  have hr := reachable_conditional.runAll? hgraph
  have hg := hr.wellFormed
  obtain ⟨found, entries, hfound, htext, hlisting, hsame⟩ := hr.text_lists_walk .exclusive
  obtain rfl : walk = found := Option.some.inj (hwalk.symm.trans hfound)
  have hagrees : graph.AgreesOn walk.nodes other := ⟨hs, hnodes⟩
  have hvisited := hg.nodes_of_walk? hwalk
  rw [hvisited] at hlisting
  have hunique := hlisting.unique hg hg.listing_entriesOf
  refine ⟨graph, other, walk, entries, hgraph, hother, hwalk, hnot, htext, hunique.trans hentries,
    hline, hheader, hdiff, ?_⟩
  refine hsame other hs (fun _ hv => hagrees.friendlyText? hv) (fun _ hv => hagrees.isUserNamed hv)
    fun value hv => ?_
  obtain ⟨hv, node, hn, hresult, -⟩ := hv
  exact hagrees.aliases? (hvisited ▸ hv) hn hresult

end GraphNaming.Graph
