import GraphNaming.Proofs.Commuting

/-!
# What a pass does not visit

The names of nodes that the walk does not come by are not there for a pass: it neither looks at
them nor changes them.

* `Graph.AgreesOn`: two graphs differ at most in the names of some nodes.
* `WellFormed.resolveNames?_of_agreesOn`: a pass makes no difference between graphs that agree on
  the visited nodes.
* `WellFormed.node?_resolveNames?_of_not_visited`: a pass leaves all other nodes as they were.
* `Reachable.unvisited_apart`: both, of graphs with a history.
-/

namespace GraphNaming.Graph

variable {graph other after : Graph} {config : Config} {report : Report}

/-! ## Graphs that agree -/

/-- The graph and `other` differ at most in the names of nodes that are not among `nodes`: in
friendly names, in who chose them, and in aliases. -/
structure AgreesOn (graph : Graph) (nodes : List NodeId) (other : Graph) : Prop where
  shape : graph.shape = other.shape
  node : ∀ id ∈ nodes, other.node? id = graph.node? id

namespace AgreesOn

variable {nodes : List NodeId} (h : graph.AgreesOn nodes other)
include h

theorem symm : other.AgreesOn nodes graph where
  shape := h.shape.symm
  node id hid := (h.node id hid).symm

theorem friendlyText? {id : NodeId} (hid : id ∈ nodes) :
    other.friendlyText? id = graph.friendlyText? id := by
  rw [Graph.friendlyText?, Graph.friendlyText?, h.node id hid]

theorem isUserNamed {id : NodeId} (hid : id ∈ nodes) :
    other.isUserNamed id = graph.isUserNamed id := by
  rw [Graph.isUserNamed, Graph.isUserNamed, h.node id hid]

theorem output? {value : Value} (hv : value.node ∈ nodes) :
    other.output? value = graph.output? value := by
  rw [Graph.output?, Graph.output?, h.node _ hv]

/-- An output that is no result's goes by its own aliases. -/
theorem aliases? {value : Value} (hv : value.node ∈ nodes) {node : Node}
    (hn : graph.node? value.node = some node) (hr : node.isResult = false) :
    other.aliases? value = graph.aliases? value := by
  rw [Graph.aliases?, Graph.aliases?, source_of_shape h.shape, source_of_not_result hn hr,
    h.output? hv]

/-- The same renames do the same to nodes that are the same. -/
theorem renameAll (renames : List Rename) :
    (graph.renameAll renames).AgreesOn nodes (other.renameAll renames) where
  shape := by rw [shape_renameAll, shape_renameAll, h.shape]
  node id hid := node?_renameAll_congr (h.node id hid) renames

theorem walk? (scoping : Scoping) : other.walk? scoping = graph.walk? scoping := by
  rw [← walk?_shape, ← h.shape, walk?_shape]

end AgreesOn

namespace WellFormed

variable (hg : graph.WellFormed)
include hg

/-! ## What is not looked at -/

section AgreesOn

variable (h : graph.AgreesOn graph.visited other)
include h

theorem resolveFriendlyNames?_of_agreesOn
    (hrun : graph.resolveFriendlyNames? config = some (report, after)) :
    ∃ after', other.resolveFriendlyNames? config = some (report, after') ∧
      after.AgreesOn graph.visited after' := by
  obtain ⟨hreport, rfl⟩ := resolveFriendlyNames?_eq_some.1 hrun
  have hsame : other.friendlyReport? config = graph.friendlyReport? config :=
    hg.friendlyReport?_congr h.shape (fun _ hv => h.friendlyText? hv)
      (fun _ hv => h.isUserNamed hv) config
  exact ⟨_, resolveFriendlyNames?_eq_some.2 ⟨hsame.trans hreport, rfl⟩, h.renameAll _⟩

theorem resolveAliases?_of_agreesOn
    (hrun : graph.resolveAliases? config = some (report, after)) :
    ∃ after', other.resolveAliases? config = some (report, after') ∧
      after.AgreesOn graph.visited after' := by
  obtain ⟨hreport, rfl⟩ := resolveAliases?_eq_some.1 hrun
  have hsame : other.aliasReport? config = graph.aliasReport? config :=
    hg.aliasReport?_congr h.shape (fun _ hv => h.output? hv.1) config
  exact ⟨_, resolveAliases?_eq_some.2 ⟨hsame.trans hreport, rfl⟩, h.renameAll _⟩

/-- A pass over a graph that agrees on the visited nodes reports the same and does the same to
them. -/
theorem resolveNames?_of_agreesOn (hrun : graph.resolveNames? config = some (report, after)) :
    ∃ after', other.resolveNames? config = some (report, after') ∧
      after.AgreesOn graph.visited after' := by
  obtain ⟨friendly, middle, aliases, hf, ha, rfl⟩ := resolveNames?_eq_some.1 hrun
  have hs := (shape_resolveFriendlyNames? hf).symm
  obtain ⟨middle', hf', hmiddle⟩ := hg.resolveFriendlyNames?_of_agreesOn h hf
  rw [← visited_of_shape hs] at hmiddle ⊢
  obtain ⟨after', ha', hafter⟩ := (hg.of_shape hs).resolveAliases?_of_agreesOn hmiddle ha
  exact ⟨after', resolveNames?_eq_some.2 ⟨_, _, _, hf', ha', rfl⟩, hafter⟩

theorem resolveNames?_eq_none_of_agreesOn (hnone : graph.resolveNames? config = none) :
    other.resolveNames? config = none := by
  refine Option.eq_none_iff_forall_ne_some.2 fun ⟨report, after⟩ hrun => ?_
  -- An answer for the other graph would be one for this graph, by the same argument from there.
  have h' := h.symm
  rw [← visited_of_shape h.shape] at h'
  obtain ⟨after', hrun', -⟩ := (hg.of_shape h.shape).resolveNames?_of_agreesOn h' hrun
  rw [hnone] at hrun'
  cases hrun'

end AgreesOn

/-! ## What is not touched -/

section NotVisited

variable {id : NodeId} (hv : id ∉ graph.visited)
include hv

theorem node?_resolveFriendlyNames?_of_not_visited
    (h : graph.resolveFriendlyNames? config = some (report, after)) :
    after.node? id = graph.node? id := by
  obtain ⟨hreport, rfl⟩ := resolveFriendlyNames?_eq_some.1 h
  refine node?_renameAll_of_not_mem fun rename hr hid => hv ?_
  obtain ⟨node, hnode, hsite⟩ := hg.site_of_friendlyRename hreport hr
  rw [hsite] at hid
  exact hid ▸ hnode

theorem node?_resolveAliases?_of_not_visited
    (h : graph.resolveAliases? config = some (report, after)) :
    after.node? id = graph.node? id := by
  obtain ⟨hreport, rfl⟩ := resolveAliases?_eq_some.1 h
  refine node?_renameAll_of_not_mem fun rename hr hid => hv ?_
  obtain ⟨value, hvalue, hsite⟩ := hg.site_of_aliasRename hreport hr
  rw [hsite] at hid
  exact hid ▸ hvalue.1

/-- A pass renames visited nodes and visited outputs only. -/
theorem node?_resolveNames?_of_not_visited
    (h : graph.resolveNames? config = some (report, after)) :
    after.node? id = graph.node? id := by
  obtain ⟨_, middle, _, hf, ha, -⟩ := resolveNames?_eq_some.1 h
  have hs := (shape_resolveFriendlyNames? hf).symm
  have hv' : id ∉ middle.visited := by rwa [visited_of_shape hs]
  rw [(hg.of_shape hs).node?_resolveAliases?_of_not_visited hv' ha,
    hg.node?_resolveFriendlyNames?_of_not_visited hv hf]

end NotVisited

end WellFormed

/-- Of a graph with a history, take another one that differs from it only in the names of nodes
that the walk does not visit. A pass over either reports the same and leaves the visited nodes with
the same names, and it leaves the others as they were in its own graph. On a graph with fewer than
`2 ^ 32 - 2` nodes and fewer than `2 ^ 32 - 2` aliases both passes succeed. -/
theorem Reachable.unvisited_apart (hr : graph.Reachable) {scoping : Scoping} {walk : Walk}
    (hwalk : graph.walk? scoping = some walk) (h : graph.AgreesOn walk.nodes other)
    (config : Config) :
    other.walk? scoping = some walk ∧
    (∀ report after, graph.resolveNames? config = some (report, after) →
      (∀ id, id ∉ walk.nodes → after.node? id = graph.node? id) ∧
      ∃ after', other.resolveNames? config = some (report, after') ∧
        after.AgreesOn walk.nodes after' ∧
        ∀ id, id ∉ walk.nodes → after'.node? id = other.node? id) ∧
    (graph.resolveNames? config = none → other.resolveNames? config = none) ∧
    (graph.nodes.size < 0xFFFFFFFE → graph.allAliases.length < 0xFFFFFFFE →
      ∃ report after, graph.resolveNames? config = some (report, after)) := by
  have hg := hr.wellFormed
  refine ⟨(h.walk? scoping).trans hwalk, fun report after hrun => ?_, ?_, fun hn ha => ?_⟩
  · rw [hg.nodes_of_walk? hwalk] at h ⊢
    obtain ⟨after', hrun', hafter⟩ := hg.resolveNames?_of_agreesOn h hrun
    refine ⟨fun id hv => hg.node?_resolveNames?_of_not_visited hv hrun, after', hrun', hafter,
      fun id hv => (hg.of_shape h.shape).node?_resolveNames?_of_not_visited ?_ hrun'⟩
    rwa [visited_of_shape h.shape]
  · rw [hg.nodes_of_walk? hwalk] at h
    exact hg.resolveNames?_eq_none_of_agreesOn h
  · exact hg.exists_resolveNames? hn ha config

/-- Names that clash with others count for nothing where no result takes a value. -/
theorem unvisited_apart_conditional :
    ∃ graph other walk report after after', Call.runAll?
        [.addOperation .root "Log" [⟨⟨10⟩, 0⟩] 1] conditional = some graph ∧
      Call.runAll? [.setFriendlyName ⟨12⟩ "Parameter_0", .setAliases ⟨⟨12⟩, 0⟩ ["x", "z:0"]] graph =
        some other ∧
      graph.walk? .exclusive = some walk ∧ ⟨12⟩ ∉ walk.nodes ∧ graph.AgreesOn walk.nodes other ∧
      graph.resolveNames? {} = some (report, after) ∧
      other.resolveNames? {} = some (report, after') ∧ report.renames ≠ [] ∧
      after.AgreesOn walk.nodes after' ∧ after.node? ⟨12⟩ = graph.node? ⟨12⟩ ∧
      after'.node? ⟨12⟩ = other.node? ⟨12⟩ ∧ other.node? ⟨12⟩ ≠ graph.node? ⟨12⟩ := by
  have hrun : (Call.runAll? [.addOperation .root "Log" [⟨⟨10⟩, 0⟩] 1] conditional).any
      fun graph => ∃ other ∈ Call.runAll? [.setFriendlyName ⟨12⟩ "Parameter_0",
          .setAliases ⟨⟨12⟩, 0⟩ ["x", "z:0"]] graph,
        (∃ walk ∈ graph.walk? .exclusive, ⟨12⟩ ∉ walk.nodes ∧ graph.shape = other.shape ∧
          ∀ id ∈ walk.nodes, other.node? id = graph.node? id) ∧
        (∃ run ∈ graph.resolveNames? {}, run.1.renames ≠ []) ∧
        other.node? ⟨12⟩ ≠ graph.node? ⟨12⟩ := by
    decide +kernel
  obtain ⟨graph, hgraph, hfacts⟩ := (Option.any_eq_true _ _).1 hrun
  obtain ⟨other, hother, ⟨walk, hwalk, hnot, hshape, hnodes⟩, ⟨⟨report, after⟩, hpass, hne⟩,
    hdiff⟩ := of_decide_eq_true hfacts
  have hagrees : graph.AgreesOn walk.nodes other := ⟨hshape, hnodes⟩
  obtain ⟨-, hsame, -⟩ :=
    (reachable_conditional.runAll? hgraph).unvisited_apart hwalk hagrees {}
  obtain ⟨hkept, after', hpass', hafter, hkept'⟩ := hsame report after hpass
  exact ⟨graph, other, walk, report, after, after', hgraph, hother, hwalk, hnot, hagrees, hpass,
    hpass', hne, hafter, hkept _ hnot, hkept' _ hnot, hdiff⟩

end GraphNaming.Graph
