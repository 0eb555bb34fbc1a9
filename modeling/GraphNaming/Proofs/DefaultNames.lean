import GraphNaming.Proofs.Findings
import GraphNaming.Proofs.NumberedNames
import GraphNaming.Proofs.UserNames

/-!
# Default names

A node is made with its type and its number as its name. As long as no node gets another name, no
two nodes have one name, whatever their types are.

* `Graph.DefaultNamed`: every node has the name that it was made with.
* `Call.givesName`, `Call.noneGivesName`: calls by which a node gets another name.
* `DefaultNamed.friendlyText?_ne`: default names differ.
* `DefaultNamed.fixed`: a pass over default names changes none of them, and tells of no name of the
  user's choice.
* `WellFormed.defaultNamed_run?`, `defaultNamed_runAll?`: what one call keeps, and what a whole
  history does.
* `Call.defaultNames_never_clash`: both together, for every history.
-/

namespace GraphNaming

/-- Type and number can be read off a default name, even if the type ends in a number too. -/
theorem FriendlyName.default_text_inj {type type' : String} {id id' : NodeId} :
    (FriendlyName.default type id).text = (FriendlyName.default type' id').text ↔
      type = type' ∧ id = id' := by
  have hnumbered (type : String) (id : NodeId) :
      (FriendlyName.default type id).text = numberedName type "" id.number := by
    simp [FriendlyName.default, numberedName]
  rw [hnumbered, hnumbered, numberedName_inj]
  obtain ⟨n⟩ := id
  obtain ⟨n'⟩ := id'
  rw [NodeId.mk.injEq]

namespace Graph

variable {graph after : Graph} {config : Config} {report : Report}

/-- Every node has the name that it was made with. -/
def DefaultNamed (graph : Graph) : Prop :=
  ∀ id node, graph.node? id = some node → node.name = .default node.type id

namespace DefaultNamed

theorem new (name : String) : (Graph.new name).DefaultNamed := nofun

section Names

variable (hd : graph.DefaultNamed)
include hd

theorem friendlyText?_ne {a b : NodeId} (hne : a ≠ b) {node : Node}
    (ha : graph.node? a = some node) : graph.friendlyText? a ≠ graph.friendlyText? b := by
  intro hsame
  rw [friendlyText?, friendlyText?, ha, Option.map_some, eq_comm, Option.map_eq_some_iff] at hsame
  obtain ⟨node', hb, hname⟩ := hsame
  rw [hd b node' hb, hd a node ha, FriendlyName.default_text_inj] at hname
  exact hne hname.2.symm

/-- The user chose none of the names. -/
theorem isUserNamed_eq_false (id : NodeId) : graph.isUserNamed id = false := by
  unfold isUserNamed
  cases hn : graph.node? id with
  | none => rfl
  | some node =>
    rw [Option.any_some, Node.isUserNamed, hd id node hn]
    rfl

/-- A pass over default names finds no clash. It may still tell of shared bindings: the two sides
are two nodes, so their names differ. -/
theorem fixed (hg : graph.WellFormed) (config : Config) :
    ∃ report, graph.resolveFriendlyNames? config = some (report, graph) ∧ report.renames = [] ∧
      ∀ finding ∈ report.diagnostics, finding.code = some .divergingNames := by
  have hdistinct : graph.FriendlyDistinct config graph := by
    intro a ha b hb hr hsame
    obtain ⟨node, hn, -⟩ := hg.covers_visited.within a ha
    refine absurd hsame (hd.friendlyText?_ne ?_ hn)
    rintro rfl
    rw [Partition.related_refl] at hr
    cases hr
  obtain ⟨report, hrun, hnone⟩ := hg.resolveFriendlyNames?_fixed hdistinct
  refine ⟨report, hrun, hnone, fun finding hf => ?_⟩
  -- All findings but those of bindings are about names that the user set, and there are none.
  have huser (walk : Walk) (links : Partition NodeId) : graph.userVisits walk links = [] := by
    refine List.filter_eq_nil_iff.2 fun visit _ => ?_
    rw [decide_eq_true_iff, not_and]
    rintro ⟨member, -, hu⟩
    rw [hd.isUserNamed_eq_false] at hu
    cases hu
  rw [hg.diagnostics_resolveFriendlyNames? hrun, findings, replacedVisits, repeatedVisits,
    huser] at hf
  rcases List.mem_append.1 hf with hf | hf
  · obtain ⟨binding, -, rfl⟩ := List.mem_map.1 hf
    rfl
  · split at hf <;> cases hf

/-! ## Requests -/

theorem addNode {model : ModelId} {type : String} {kind : NodeKind} {inputs : List Value}
    {outputs : Nat} {id : NodeId}
    (h : (Graph.addNode model type kind inputs outputs).run graph = .ok id after) :
    after.DefaultNamed := by
  obtain ⟨-, -, rfl⟩ := addNode_eq_ok.1 h
  intro other node hn
  rw [node?_grow] at hn
  split at hn
  · next hother =>
    cases hn
    rw [hother]
    rfl
  · exact hd other node hn

theorem addOwner {model : ModelId} {type : String} {inputs : List Value} {regions : List Region}
    {exclusive : Bool} {outputs : Nat} {id : NodeId}
    (h : (Graph.addOwner model type inputs regions exclusive outputs).run graph = .ok id after) :
    after.DefaultNamed := by
  obtain ⟨grown, hgrown, rfl⟩ := addOwner_of_ok h
  intro other node hn
  rw [node?_setOwner] at hn
  exact hd.addNode hgrown other node hn

/-- What keeps the shape of a graph and its friendly names keeps the default ones. -/
theorem of_keepsNames (hs : graph.shape = after.shape) (hk : graph.KeepsNames after) :
    after.DefaultNamed := by
  intro id node hn
  obtain ⟨old, hold, hshape⟩ := node?_of_shape hs.symm hn
  obtain ⟨node', hn', hname⟩ := hk id old hold
  obtain rfl : node' = node := Option.some.inj (hn'.symm.trans hn)
  have htype : old.type = node'.type := congrArg (·.type) hshape
  rw [hname, hd id old hold, htype]

theorem modifyAliases {value : Value} {change : AliasSet → AliasSet}
    (h : (Graph.modifyAliases value change).run graph = .ok () after) : after.DefaultNamed :=
  hd.of_keepsNames (shape_modifyAliases h).symm (keepsNames_modifyAliases h)

end Names

end DefaultNamed

/-- A pass over the aliases touches no friendly name. -/
theorem WellFormed.keepsNames_resolveAliases? (hg : graph.WellFormed)
    (h : graph.resolveAliases? config = some (report, after)) : graph.KeepsNames after := by
  intro id node hn
  obtain ⟨node', hn', -⟩ := node?_of_shape (shape_resolveAliases? h).symm hn
  have htext := hg.friendlyText?_resolveAliases? h id
  have huser := (hg.sameClasses_resolveAliases? h).userNamed id
  exact ⟨node', hn', name_eq_of_node? hn hn' htext huser⟩

end Graph

/-! ## Histories -/

namespace Call

open GraphNaming.Graph

/-- The call is granted, and a node gets a name by it that is not its default one: the user's
choice, or the name of the node whose value it mirrors. -/
def givesName (graph : Graph) : Call → Bool
  | setFriendlyName node name => (graph.granted? (Graph.setFriendlyName node name)).isSome
  | addSharedParameter model outer =>
    (graph.granted? (Graph.addSharedParameter model outer)).isSome
  | _ => false

/-- None of the calls does that when its turn comes. -/
def noneGivesName : List Call → Graph → Bool
  | [], _ => true
  | call :: calls, graph =>
    !call.givesName graph && (call.run? graph).all (noneGivesName calls)

end Call

namespace Graph

variable {graph after : Graph}

/-- A request that is refused keeps the default names. -/
private theorem DefaultNamed.refused {α : Type} {request : Request α} (hr : request.Harmless)
    (hd : graph.DefaultNamed) (h : (graph.granted? request).isSome = false) :
    (graph.afterRequest request).DefaultNamed := by
  refine hr.keeps hd fun answer after hgranted => ?_
  rw [Request.granted?_eq_some.2 hgranted] at h
  cases h

namespace WellFormed

theorem defaultNamed_run? (hg : graph.WellFormed) (hd : graph.DefaultNamed) {call : Call}
    (h : call.run? graph = some after) (hc : call.givesName graph = false) :
    after.DefaultNamed := by
  cases call with
  | addModel name =>
    cases h
    exact hd
  | addParameter model =>
    cases h
    exact (harmless_addParameter _).keeps hd fun _ _ h => hd.addNode h
  | addSharedParameter model outer =>
    cases h
    exact hd.refused (harmless_addSharedParameter _ _) hc
  | addOperation model type inputs outputs =>
    cases h
    refine (harmless_addOperation _ _ _ _).keeps hd fun _ _ h => ?_
    obtain ⟨_, -, h⟩ := Request.check_bind_eq_ok.1 h
    exact hd.addNode h
  | addResult model source =>
    cases h
    refine (harmless_addResult _ _).keeps hd fun _ _ h => ?_
    obtain ⟨_, -, h⟩ := Request.check_bind_eq_ok.1 h
    exact hd.addNode h
  | addOwner model type inputs regions exclusive outputs =>
    cases h
    exact (harmless_addOwner _ _ _ _ _ _).keeps hd fun _ _ h => hd.addOwner h
  | setFriendlyName node name =>
    cases h
    exact hd.refused (harmless_setFriendlyName _ _) hc
  | setAliases value names =>
    cases h
    exact (harmless_modifyAliases _ _).keeps hd fun _ _ h => hd.modifyAliases h
  | addAliases value names =>
    cases h
    exact (harmless_modifyAliases _ _).keeps hd fun _ _ h => hd.modifyAliases h
  | resolveFriendlyNames config =>
    obtain ⟨report, hrun, -⟩ := hd.fixed hg config
    rw [Call.run?, hrun] at h
    cases h
    exact hd
  | resolveAliases config =>
    obtain ⟨⟨report, last⟩, hrun, rfl⟩ := Option.map_eq_some_iff.1 h
    exact hd.of_keepsNames (shape_resolveAliases? hrun).symm (hg.keepsNames_resolveAliases? hrun)

theorem defaultNamed_runAll? (hg : graph.WellFormed) (hd : graph.DefaultNamed) {calls : List Call}
    (h : Call.runAll? calls graph = some after) (hc : Call.noneGivesName calls graph = true) :
    after.DefaultNamed := by
  induction calls generalizing graph with
  | nil =>
    cases h
    exact hd
  | cons call calls ih =>
    rw [Call.runAll?, List.foldlM_cons] at h
    obtain ⟨next, hnext, h⟩ := Option.bind_eq_some_iff.1 h
    rw [Call.noneGivesName, hnext, Option.all_some, Bool.and_eq_true, Bool.not_eq_true'] at hc
    exact ih (hg.run? hnext) (hg.defaultNamed_run? hd hnext hc.1) h hc.2

end WellFormed

end Graph

namespace Call

open GraphNaming.Graph

/-- In a graph with a history in which no node is given a name or takes one over, no two nodes have
one name, whatever the types are. A pass over the friendly names, whatever its settings, then
replaces none, tells of no name that was set twice or replaced, and leaves the graph as it is. -/
theorem defaultNames_never_clash {name : String} {calls : List Call} {graph : Graph}
    (h : runAll? calls (.new name) = some graph)
    (hc : noneGivesName calls (.new name) = true) :
    (∀ a b node node', a ≠ b → graph.node? a = some node → graph.node? b = some node' →
      node.name.text ≠ node'.name.text) ∧
    ∀ config, ∃ report, graph.resolveFriendlyNames? config = some (report, graph) ∧
      report.renames = [] ∧ ∀ finding ∈ report.diagnostics,
        finding.code ≠ some .repeatedUserName ∧ finding.code ≠ some .userNameReplaced := by
  have hd := (WellFormed.new name).defaultNamed_runAll? (.new name) h hc
  have hg := ((Reachable.new name).runAll? h).wellFormed
  refine ⟨fun a b node node' hne ha hb hsame => ?_, fun config => ?_⟩
  · refine hd.friendlyText?_ne hne ha ?_
    rw [friendlyText?, friendlyText?, ha, hb, Option.map_some, Option.map_some, hsame]
  · obtain ⟨report, hrun, hnone, hcodes⟩ := hd.fixed hg config
    refine ⟨report, hrun, hnone, fun finding hf => ?_⟩
    rw [hcodes finding hf]
    decide

/-- Types that end in numbers, a shared binding of which every pass tells, and two requests that are
refused: to name a node that does not exist, and to mirror a value in a model that does not. -/
def numberedTypes : List Call :=
  [.addParameter .root, .addModel "body", .addOperation .root "A" [] 1,
    .addOperation .root "A_1" [] 1, .addParameter ⟨1⟩,
    .addOwner .root "A_1_2" [] [⟨⟨1⟩, [⟨⟨⟨0⟩, 0⟩, ⟨3⟩, .shared⟩], []⟩] false 1,
    .addResult .root ⟨⟨4⟩, 0⟩, .setFriendlyName ⟨9⟩ "A_1", .addSharedParameter ⟨9⟩ ⟨⟨0⟩, 0⟩,
    .resolveFriendlyNames {}]

/-- Here all names are default ones, some of them as types of other nodes too, and stay. -/
theorem defaultNames_never_clash_numbered :
    ∃ graph report, runAll? numberedTypes (.new "main") = some graph ∧
      noneGivesName numberedTypes (.new "main") = true ∧
      (graph.nodes.toList.map (·.name.text)) =
        ["Parameter_0", "A_1", "A_1_2", "Parameter_3", "A_1_2_4", "Result_5"] ∧
      graph.resolveFriendlyNames? { strict := true } = some (report, graph) ∧
      report.renames = [] ∧ report.diagnostics.map (·.code) = [some .divergingNames] := by
  have hnone : noneGivesName numberedTypes (.new "main") = true := by decide +kernel
  have hrun : (runAll? numberedTypes (.new "main")).any fun graph =>
      graph.nodes.toList.map (·.name.text) =
        ["Parameter_0", "A_1", "A_1_2", "Parameter_3", "A_1_2_4", "Result_5"] ∧
      (graph.resolveFriendlyNames? { strict := true }).any fun run =>
        run.1.diagnostics.map (·.code) = [some .divergingNames] := by
    decide +kernel
  obtain ⟨graph, h, hfacts⟩ := (Option.any_eq_true _ _).1 hrun
  obtain ⟨hnames, hcodes⟩ := of_decide_eq_true hfacts
  obtain ⟨report, hpass, hrenames, -⟩ := (defaultNames_never_clash h hnone).2 { strict := true }
  rw [hpass] at hcodes
  exact ⟨graph, report, h, hnone, hnames, hpass, hrenames, of_decide_eq_true hcodes⟩

end Call

end GraphNaming
