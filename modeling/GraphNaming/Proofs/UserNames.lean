import GraphNaming.Proofs.Passes

/-!
# Names of the user's choice

A friendly name that the user has set stays until the user sets another one, whatever is added to
the graph in the meantime and whichever passes run, unless one of them is strict.

* `Graph.KeepsNames`: the requests that add something, or change aliases, touch no friendly name.
* `Call.lastChoice?`: the name that the user gave a node last in a history of calls.
* `WellFormed.namedByUser_run?`: what one call leaves of the user's choice; `namedByUser_runAll?`:
  what a whole history does.
* `Reachable.userNames_survive`: the same for every graph that some history leads to, and what a
  single pass leaves.
-/

namespace GraphNaming

namespace Graph

variable {graph after : Graph}

/-- The node is called `name`, and the user chose that name. -/
def NamedByUser (graph : Graph) (id : NodeId) (name : String) : Prop :=
  graph.friendlyText? id = some name ∧ graph.isUserNamed id = true

/-! ## Requests that leave friendly names alone -/

/-- Every node keeps its friendly name. -/
def KeepsNames (graph after : Graph) : Prop := ∀ id node, graph.node? id = some node →
  ∃ node', after.node? id = some node' ∧ node'.name = node.name

theorem KeepsNames.refl (graph : Graph) : graph.KeepsNames graph := fun _ _ hn => ⟨_, hn, rfl⟩

theorem KeepsNames.namedByUser (h : graph.KeepsNames after) {id : NodeId} {name : String}
    (hu : graph.NamedByUser id name) : after.NamedByUser id name := by
  obtain ⟨htext, huser⟩ := hu
  obtain ⟨node, hn, rfl⟩ := Option.map_eq_some_iff.1 htext
  obtain ⟨node', hn', hname⟩ := h id node hn
  have huser : node.isUserNamed = true := by simpa [isUserNamed, hn] using huser
  exact ⟨by simp [friendlyText?, hn', hname],
    by simpa [isUserNamed, hn', Node.isUserNamed, hname] using huser⟩

/-- A request keeps all names if it does so when it is granted. -/
theorem keepsNames_afterRequest {α : Type} {request : Request α} (hr : request.Harmless)
    (h : ∀ {answer after}, request.run graph = .ok answer after → graph.KeepsNames after) :
    graph.KeepsNames (graph.afterRequest request) := hr.keeps (.refl graph) fun _ _ ho => h ho

theorem keepsNames_addModel (name : String) : graph.KeepsNames (graph.addModel name).2 :=
  fun _ _ hn => ⟨_, hn, rfl⟩

theorem keepsNames_grow (node : Node) : graph.KeepsNames (graph.grow node) := fun _ old hn =>
  ⟨old, by rw [node?_grow, if_neg (next_ne hn).symm, hn], rfl⟩

theorem keepsNames_addNode {model : ModelId} {type : String} {kind : NodeKind} {inputs : List Value}
    {outputs : Nat} {id : NodeId}
    (h : (Graph.addNode model type kind inputs outputs).run graph = .ok id after) :
    graph.KeepsNames after := by
  obtain ⟨-, -, rfl⟩ := addNode_eq_ok.1 h
  exact keepsNames_grow _

/-- Only the new parameter takes over a name. -/
theorem keepsNames_addSharedParameter {model : ModelId} {outer : Value} {id : NodeId}
    (h : (Graph.addSharedParameter model outer).run graph = .ok id after) :
    graph.KeepsNames after := by
  obtain ⟨producer, grown, -, hgrown, rfl⟩ := addSharedParameter_eq_ok.1 h
  obtain ⟨-, rfl, -⟩ := addNode_eq_ok.1 hgrown
  intro other node hn
  obtain ⟨node', hn', hname⟩ := keepsNames_addNode hgrown other node hn
  refine ⟨node', ?_, hname⟩
  rw [modifyOutput, node?_modifyNode, NodeId.output, if_neg (next_ne hn), node?_modifyNode,
    if_neg (next_ne hn), hn']

theorem keepsNames_addOwner {model : ModelId} {type : String} {inputs : List Value}
    {regions : List Region} {exclusive : Bool} {outputs : Nat} {id : NodeId}
    (h : (Graph.addOwner model type inputs regions exclusive outputs).run graph = .ok id after) :
    graph.KeepsNames after := by
  obtain ⟨grown, hgrown, rfl⟩ := addOwner_of_ok h
  intro other node hn
  obtain ⟨node', hn', hname⟩ := keepsNames_addNode hgrown other node hn
  exact ⟨node', by rw [node?_setOwner, hn'], hname⟩

theorem keepsNames_modifyAliases {value : Value} {change : AliasSet → AliasSet}
    (h : (Graph.modifyAliases value change).run graph = .ok () after) : graph.KeepsNames after := by
  obtain ⟨-, rfl⟩ := modifyAliases_eq_ok.1 h
  intro id node hn
  rw [modifyOutput, node?_modifyNode, hn]
  split
  · exact ⟨_, rfl, rfl⟩
  · exact ⟨node, rfl, rfl⟩

/-- A node that is given a name has it, and all others keep theirs. -/
theorem namedByUser_setFriendlyName {node : NodeId} {text : String}
    (h : (Graph.setFriendlyName node text).run graph = .ok () after) :
    after.NamedByUser node text ∧ ∀ id name, node ≠ id → graph.NamedByUser id name →
      after.NamedByUser id name := by
  obtain ⟨found, hfound, h⟩ := Request.check_bind_eq_ok.1 h
  cases h
  have hn := requireNode_eq_ok.1 hfound
  refine ⟨⟨by simp [friendlyText?, node?_modifyNode, hn],
    by simp [isUserNamed, node?_modifyNode, hn, Node.isUserNamed]⟩, fun id name hne hu => ?_⟩
  simpa only [NamedByUser, friendlyText?, isUserNamed, node?_modifyNode, if_neg hne] using hu

/-! ## Passes -/

section Pass

variable {config : Config} {report : Report} (hg : graph.WellFormed)
  (h : graph.resolveFriendlyNames? config = some (report, after))
include hg h

/-- A pass that is not strict leaves the names of all nodes that are linked with one that the user
named. -/
theorem WellFormed.friendlyText?_of_inUserClass (hstrict : config.strict = false) {id : NodeId}
    (hu : graph.InUserClass id) : after.friendlyText? id = graph.friendlyText? id := by
  by_cases hv : id ∈ graph.visited
  · exact (hg.friendlyOutcome h).kept hstrict hv hu
  · exact hg.friendlyText?_of_not_visited h hv

theorem WellFormed.namedByUser_resolveFriendlyNames? (hstrict : config.strict = false)
    {id : NodeId} {name : String} (hu : graph.NamedByUser id name) :
    after.NamedByUser id name := by
  obtain ⟨htext, huser⟩ := hu
  have hin : graph.InUserClass id :=
    ⟨id, graph.friendlyPartition.mem_classOf_self id, huser⟩
  exact ⟨(hg.friendlyText?_of_inUserClass h hstrict hin).trans htext,
    ((hg.sameClasses_resolveFriendlyNames? h).userNamed id).trans huser⟩

end Pass

end Graph

/-! ## Histories -/

namespace Call

open GraphNaming.Graph

variable {graph after : Graph}

/-- The name that the user gives the node by this call, if the call is granted. -/
def choice? (graph : Graph) (id : NodeId) : Call → Option String
  | setFriendlyName node name =>
    if node = id ∧ (graph.granted? (Graph.setFriendlyName node name)).isSome then some name
    else none
  | _ => none

/-- The name that the user gives the node by the last of the calls that does so. -/
def lastChoice? (id : NodeId) : List Call → Graph → Option String
  | [], _ => none
  | call :: calls, graph =>
    ((call.run? graph).bind (lastChoice? id calls)).or (call.choice? graph id)

/-- What the user has just chosen is what the node is called. -/
theorem namedByUser_of_choice? {call : Call} {id : NodeId} {name : String}
    (h : call.run? graph = some after) (hc : call.choice? graph id = some name) :
    after.NamedByUser id name := by
  cases call with
  | setFriendlyName node text =>
    simp only [choice?, Option.ite_none_right_eq_some, Option.some.injEq] at hc
    obtain ⟨⟨rfl, hgranted⟩, rfl⟩ := hc
    obtain ⟨⟨_, named⟩, hset⟩ := Option.isSome_iff_exists.1 hgranted
    have hset := Request.granted?_eq_some.1 hset
    rw [run?, Request.afterRequest_of_ok hset] at h
    cases h
    exact (namedByUser_setFriendlyName hset).1
  | _ => cases hc

end Call

namespace Graph

variable {graph after : Graph}

namespace WellFormed

/-- A call that is no strict pass, and by which the user chooses no other name for the node, leaves
the one chosen before. -/
theorem namedByUser_run? (hg : graph.WellFormed) {call : Call} {id : NodeId} {name : String}
    (h : call.run? graph = some after)
    (hl : ∀ config, call = .resolveFriendlyNames config → config.strict = false)
    (hc : call.choice? graph id = none) (hu : graph.NamedByUser id name) :
    after.NamedByUser id name := by
  -- All calls but two leave the names of the old nodes alone: the one that sets a name, and the
  -- pass over the names.
  cases call with
  | addModel text =>
    cases h
    exact (keepsNames_addModel text).namedByUser hu
  | addParameter model =>
    cases h
    exact (keepsNames_afterRequest (harmless_addParameter _) keepsNames_addNode).namedByUser hu
  | addSharedParameter model outer =>
    cases h
    exact (keepsNames_afterRequest (harmless_addSharedParameter _ _)
      keepsNames_addSharedParameter).namedByUser hu
  | addOperation model type inputs outputs =>
    cases h
    refine (keepsNames_afterRequest (harmless_addOperation _ _ _ _) fun h => ?_).namedByUser hu
    obtain ⟨_, -, h⟩ := Request.check_bind_eq_ok.1 h
    exact keepsNames_addNode h
  | addResult model source =>
    cases h
    refine (keepsNames_afterRequest (harmless_addResult _ _) fun h => ?_).namedByUser hu
    obtain ⟨_, -, h⟩ := Request.check_bind_eq_ok.1 h
    exact keepsNames_addNode h
  | addOwner model type inputs regions exclusive outputs =>
    cases h
    exact (keepsNames_afterRequest (harmless_addOwner _ _ _ _ _ _)
      keepsNames_addOwner).namedByUser hu
  | setFriendlyName node text =>
    cases h
    cases hset : (Graph.setFriendlyName node text).run graph with
    | error error refused =>
      rw [Request.afterRequest_of_error hset, harmless_setFriendlyName _ _ _ _ _ hset]
      exact hu
    | ok _ named =>
      rw [Request.afterRequest_of_ok hset]
      have hne : node ≠ id := by
        rintro rfl
        simp [Call.choice?, Request.granted?_eq_some.2 hset] at hc
      exact (namedByUser_setFriendlyName hset).2 id name hne hu
  | setAliases value names =>
    cases h
    exact (keepsNames_afterRequest (harmless_modifyAliases _ _)
      keepsNames_modifyAliases).namedByUser hu
  | addAliases value names =>
    cases h
    exact (keepsNames_afterRequest (harmless_modifyAliases _ _)
      keepsNames_modifyAliases).namedByUser hu
  | resolveFriendlyNames config =>
    obtain ⟨⟨report, last⟩, hrun, rfl⟩ := Option.map_eq_some_iff.1 h
    exact hg.namedByUser_resolveFriendlyNames? hrun (hl config rfl) hu
  | resolveAliases config =>
    obtain ⟨⟨report, last⟩, hrun, rfl⟩ := Option.map_eq_some_iff.1 h
    exact ⟨(hg.friendlyText?_resolveAliases? hrun id).trans hu.1,
      ((hg.sameClasses_resolveAliases? hrun).userNamed id).trans hu.2⟩

/-- At the end of a history the node has the name that the user gave it last, or the one that it had
from the user at the start. -/
theorem namedByUser_runAll? (hg : graph.WellFormed) {calls : List Call} {last : Graph} {id : NodeId}
    {name : String} (h : Call.runAll? calls graph = some last)
    (hl : ∀ config, .resolveFriendlyNames config ∈ calls → config.strict = false)
    (hname : Call.lastChoice? id calls graph = some name ∨
      Call.lastChoice? id calls graph = none ∧ graph.NamedByUser id name) :
    last.NamedByUser id name := by
  induction calls generalizing graph with
  | nil =>
    cases h
    rcases hname with hname | ⟨-, hu⟩
    · cases hname
    · exact hu
  | cons call calls ih =>
    rw [Call.runAll?, List.foldlM_cons] at h
    obtain ⟨next, hnext, h⟩ := Option.bind_eq_some_iff.1 h
    have hcall : ∀ config, call = .resolveFriendlyNames config → config.strict = false :=
      fun config he => hl config (he ▸ List.mem_cons_self)
    have hrest : ∀ config, .resolveFriendlyNames config ∈ calls → config.strict = false :=
      fun config hm => hl config (List.mem_cons_of_mem _ hm)
    -- The last choice of the whole history is one of the rest, or, if there is none there, that of
    -- the first call. What the first call leaves is what the rest starts from.
    refine ih (hg.run? hnext) h hrest ?_
    rw [Call.lastChoice?, hnext, Option.bind_some] at hname
    cases hlast : Call.lastChoice? id calls next with
    | some later =>
      rw [hlast] at hname
      exact .inl (by simpa using hname)
    | none =>
      rw [hlast, Option.none_or] at hname
      refine .inr ⟨rfl, ?_⟩
      rcases hname with hc | ⟨hc, hu⟩
      · exact Call.namedByUser_of_choice? hnext hc
      · exact hg.namedByUser_run? hnext hcall hc hu

end WellFormed

/-- A node has the name that the user gave it last, and has it from the user, at the end of any
history of calls without strict passes. No pass changes who chose a name, and one that is not
strict leaves the name of every node linked on entry with a node that the user named. -/
theorem Reachable.userNames_survive (hr : graph.Reachable) :
    (∀ calls last id name, Call.runAll? calls graph = some last →
      (∀ config, .resolveFriendlyNames config ∈ calls → config.strict = false) →
      Call.lastChoice? id calls graph = some name →
      last.friendlyText? id = some name ∧ last.isUserNamed id = true) ∧
    ∀ config report after, graph.resolveNames? config = some (report, after) →
      (∀ id, after.isUserNamed id = graph.isUserNamed id) ∧
      (config.strict = false → ∃ walk links diverging,
        graph.walk? config.friendlyScoping = some walk ∧
        graph.friendlyLinks? walk.nodes = some (links, diverging) ∧
        ∀ id member, links.related id member = true → graph.isUserNamed member = true →
          after.friendlyText? id = graph.friendlyText? id) := by
  have hg := hr.wellFormed
  refine ⟨fun calls last id name h hl hc => hg.namedByUser_runAll? h hl (.inl hc), ?_⟩
  intro config report after h
  refine ⟨(hg.sameClasses_resolveNames? h).userNamed, fun hstrict => ?_⟩
  obtain ⟨walk, hwalk, hnodes⟩ := hg.exists_walk config.friendlyScoping
  obtain ⟨diverging, hlinks⟩ := hg.friendlyLinks?_eq
  obtain ⟨_, middle, _, hf, ha, -⟩ := resolveNames?_eq_some.1 h
  refine ⟨walk, graph.friendlyPartition, diverging, hwalk, hnodes ▸ hlinks, ?_⟩
  intro id member hlinked huser
  have hm := hg.of_shape (shape_resolveFriendlyNames? hf).symm
  rw [hm.friendlyText?_resolveAliases? ha]
  exact hg.friendlyText?_of_inUserClass hf hstrict
    ⟨member, valid_friendlyPartition.mem_classOf.2 hlinked, huser⟩

/-- In the conditional a name that the user gives twice survives two passes at both nodes. -/
theorem userNames_survive_conditional :
    ∃ last, Call.runAll? [.resolveFriendlyNames {}, .setFriendlyName ⟨10⟩ "Split_6",
        .addParameter .root, .resolveFriendlyNames { scoping := .flattened },
        .resolveAliases {}] conditional = some last ∧
      last.friendlyText? ⟨10⟩ = some "Split_6" ∧ last.isUserNamed ⟨10⟩ = true ∧
      last.friendlyText? ⟨2⟩ = some "Split_6" := by
  have hrun : (Call.runAll? [.resolveFriendlyNames {}, .setFriendlyName ⟨10⟩ "Split_6",
      .addParameter .root, .resolveFriendlyNames { scoping := .flattened },
      .resolveAliases {}] conditional).any fun last =>
        last.friendlyText? ⟨2⟩ = some "Split_6" := by decide +kernel
  obtain ⟨last, h, hother⟩ := (Option.any_eq_true _ _).1 hrun
  obtain ⟨htext, huser⟩ := reachable_conditional.userNames_survive.1 _ last ⟨10⟩ "Split_6" h
    (by simp) (by decide +kernel)
  exact ⟨last, h, htext, huser, of_decide_eq_true hother⟩

end Graph

end GraphNaming
