import GraphNaming.Proofs.AliasNames
import GraphNaming.Proofs.FriendlyNames
import GraphNaming.Proofs.ScopeNesting

/-!
# Classes and their scopes

Every visited node is in one class of friendly names, and every output of a visited node that is no
result in one class of aliases. A class takes names in the scope of its first visit. All members lie
in the model of that visit, so no member is visited outside of that scope.

* `SharesOut`: every key is a member of exactly one class.
* `Graph.LedBy`: all visits to some nodes follow one of them, in its scope or inside it.
* `WellFormed.sharesOut_friendlyClasses`, `sharesOut_aliasClasses`: what the classes share out.
* `WellFormed.ledBy_friendlyLeader`, `ledBy_aliasLeader`: the visit of the leader leads the members
  of its class.
* `Reachable.classes_share_out`: what the classes of a pass are like.
-/

namespace GraphNaming

/-! ## Sharing out -/

/-- Each of `keys` is a member of exactly one class, where it stands once, and nothing else is a
member of any. -/
structure SharesOut {γ κ : Type} (classes : List γ) (members : γ → List κ) (keys : κ → Prop) :
    Prop where
  exactly_one : ∀ key, keys key → ∃! cls, cls ∈ classes ∧ key ∈ members cls
  once : (classes.flatMap members).Nodup
  only : ∀ cls ∈ classes, ∀ member ∈ members cls, keys member

theorem SharesOut.of_perm {γ κ : Type} {classes : List γ} {members : γ → List κ} {items : List κ}
    {keys : κ → Prop} (h : (classes.flatMap members).Perm items) (hn : items.Nodup)
    (hmem : ∀ key, key ∈ items ↔ keys key) : SharesOut classes members keys := by
  have honce : (classes.flatMap members).Nodup := h.nodup_iff.2 hn
  have : Std.Symm fun cls cls' => (members cls).Disjoint (members cls') :=
    ⟨fun _ _ h _ hm hm' => h hm' hm⟩
  refine ⟨fun key hkey => ?_, honce, fun cls hc member hm => ?_⟩
  · obtain ⟨cls, hc, hm⟩ := List.mem_flatMap.1 (h.mem_iff.2 ((hmem key).2 hkey))
    refine ⟨cls, ⟨hc, hm⟩, fun other ⟨ho, hm'⟩ => Classical.byContradiction fun hne => ?_⟩
    exact (List.nodup_flatMap.1 honce).2.forall ho hc hne hm' hm
  · exact (hmem member).1 (h.mem_iff.1 (List.mem_flatMap.2 ⟨cls, hc, hm⟩))

namespace Graph

/-- Of the visits to `nodes` the first one is `first`. They are all within its model, and the scope
of each is its scope or lies in it. -/
structure LedBy (graph : Graph) (walk : Walk) (first : Visit) (nodes : List NodeId) : Prop where
  visited : first ∈ walk.visits
  member : first.node ∈ nodes
  follows : ∀ visit ∈ walk.visits, visit.node ∈ nodes →
    first = visit ∨ Before walk.visits first visit
  within_model : ∀ visit ∈ walk.visits, visit.node ∈ nodes →
    graph.Within (graph.modelOf visit.node) (graph.modelOf first.node)
  within_scope : ∀ visit ∈ walk.visits, visit.node ∈ nodes →
    walk.scopes.Within visit.scope first.scope

/-- The class has the scope of its first visit, which is to a parameter or to another node. -/
def LedAt (graph : Graph) (walk : Walk) (cls : AliasClass) (atParameter : Bool) : Prop :=
  ∃ first node, cls.scope = first.scope ∧ graph.LedBy walk first (cls.members.map (·.node)) ∧
    graph.node? first.node = some node ∧ node.isParameter = atParameter

variable {graph : Graph}

namespace WellFormed

variable (hg : graph.WellFormed)
include hg

theorem sharesOut_friendlyClasses :
    SharesOut (graph.friendlyLeaders.map graph.friendlyClassOf) (·.members)
      (· ∈ graph.visited) := by
  refine .of_perm ?_ hg.covers_visited.nodup fun _ => .rfl
  rw [List.flatMap_map]
  exact hg.friendlyMembers_perm

theorem sharesOut_aliasClasses :
    SharesOut (graph.settlingOrder.map graph.aliasClassOf) (·.members) graph.IsVisitedOutput :=
  .of_perm hg.settlingMembers_perm hg.nodup_outputValues fun _ => hg.mem_outputValues_iff

/-! ## First visits -/

/-- Nodes are led by the first of them if all lie in its model. -/
theorem ledBy (scoping : Scoping) {leader : NodeId} {nodes : List NodeId}
    (hv : leader ∈ graph.visited) (hm : leader ∈ nodes)
    (hfirst : ∀ id ∈ nodes, leader = id ∨ Before graph.visited leader id)
    (hwithin : ∀ id ∈ nodes, graph.Within (graph.modelOf id) (graph.modelOf leader)) :
    graph.LedBy ⟨graph.visited.map graph.visitOf, graph.treeAfter scoping graph.visited⟩
      (graph.visitOf leader) nodes where
  visited := List.mem_map_of_mem hv
  member := hm
  follows visit hvisit hnode := by
    obtain ⟨id, -, rfl⟩ := List.mem_map.1 hvisit
    exact (hfirst id hnode).imp (congrArg graph.visitOf) (Before.map graph.visitOf)
  within_model visit _ hnode := hwithin visit.node hnode
  within_scope visit hvisit hnode := by
    obtain ⟨id, hid, rfl⟩ := List.mem_map.1 hvisit
    exact (hg.within_scopeOf_iff scoping _ (hg.modelOf_mem_scopeModels hid)).2 (hwithin id hnode)

theorem ledBy_friendlyLeader (scoping : Scoping) {leader : NodeId}
    (hl : leader ∈ graph.friendlyLeaders) :
    graph.LedBy ⟨graph.visited.map graph.visitOf, graph.treeAfter scoping graph.visited⟩
      (graph.visitOf leader) (graph.friendlyPartition.classOf leader) :=
  hg.ledBy scoping (friendlyLeader_visited hl) (Partition.mem_classOf_self _ _)
    (fun _ hm => hg.friendlyLeader_first hl (valid_friendlyPartition.mem_classOf.1 hm))
    fun _ hm => hg.within_friendlyLeader hl (valid_friendlyPartition.mem_classOf.1 hm)

theorem ledBy_aliasLeader (scoping : Scoping) {leader : OutputVisit}
    (hl : leader ∈ graph.aliasLeaders) :
    graph.LedBy ⟨graph.visited.map graph.visitOf, graph.treeAfter scoping graph.visited⟩
      (graph.visitOf leader.value.node)
      ((graph.aliasPartition.classOf leader.value).map (·.node)) := by
  refine hg.ledBy scoping (hg.aliasLeader_visited hl)
    (List.mem_map_of_mem (Partition.mem_classOf_self _ _)) (fun id hm => ?_) fun id hm => ?_
  · obtain ⟨member, hmember, rfl⟩ := List.mem_map.1 hm
    exact hg.aliasLeader_first hl (valid_aliasPartition.mem_classOf.1 hmember)
  · obtain ⟨member, hmember, rfl⟩ := List.mem_map.1 hm
    exact hg.within_aliasLeader hl (valid_aliasPartition.mem_classOf.1 hmember)

theorem atParameter_of_outputVisit {visit : OutputVisit} (h : visit ∈ graph.outputVisits) :
    ∃ node, graph.node? visit.value.node = some node ∧ node.isParameter = visit.atParameter := by
  obtain ⟨id, hid, h⟩ := List.mem_flatMap.1 h
  obtain ⟨node, hn, -⟩ := hg.covers_visited.within id hid
  simp only [outputsOf, hn] at h
  split at h
  · cases h
  · obtain ⟨output, -, rfl⟩ := List.mem_map.1 h
    exact ⟨node, hn, rfl⟩

theorem ledAt_aliasClassOf (scoping : Scoping) {leader : OutputVisit} {atParameter : Bool}
    (hl : leader ∈ graph.aliasLeaders) (hp : leader.atParameter = atParameter) :
    graph.LedAt ⟨graph.visited.map graph.visitOf, graph.treeAfter scoping graph.visited⟩
      (graph.aliasClassOf leader) atParameter := by
  obtain ⟨node, hn, hnode⟩ := hg.atParameter_of_outputVisit (aliasLeader_mem hl)
  exact ⟨graph.visitOf leader.value.node, node, hg.scope_of_aliasLeader hl,
    hg.ledBy_aliasLeader scoping hl, hn, hnode.trans hp⟩

end WellFormed

/-- The classes of friendly names share out the visited nodes, and those of aliases the outputs of
the visited nodes that are no results. The members of a class of friendly names have one name. Every
class has the scope of its first visit, and all visits to members are in that scope or inside it. -/
theorem Reachable.classes_share_out (hr : graph.Reachable) (config : Config) :
    (∃ walk links diverging classes, graph.walk? config.friendlyScoping = some walk ∧
      graph.friendlyLinks? walk.nodes = some (links, diverging) ∧
      graph.friendlyClasses? links walk.visits = some classes ∧
      SharesOut classes (·.members) (· ∈ walk.nodes) ∧
      ∀ cls ∈ classes, (∀ member ∈ cls.members, graph.friendlyText? member = some cls.name) ∧
        ∃ first, cls.scope = first.scope ∧ graph.LedBy walk first cls.members) ∧
    ∃ walk links entries others, graph.walk? config.scoping = some walk ∧
      graph.aliasLinks? walk.nodes = some links ∧
      graph.aliasClasses? links walk.visits = some (entries ++ others) ∧
      SharesOut (entries ++ others) (·.members) (fun value => value.node ∈ walk.nodes ∧
        ∃ node, graph.node? value.node = some node ∧ node.isResult = false ∧
          value.index < node.outputs.length) ∧
      (∀ cls ∈ entries, graph.LedAt walk cls true) ∧
      ∀ cls ∈ others, graph.LedAt walk cls false := by
  have hg := hr.wellFormed
  refine ⟨?_, ?_⟩
  · obtain ⟨diverging, hlinks⟩ := hg.friendlyLinks?_eq
    have hnodes := hg.nodes_of_walk? (hg.walk?_eq config.friendlyScoping)
    refine ⟨_, graph.friendlyPartition, diverging, _, hg.walk?_eq config.friendlyScoping, ?_,
      hg.friendlyClasses?_eq, ?_, ?_⟩
    · rw [hnodes]
      exact hlinks
    · rw [hnodes]
      exact hg.sharesOut_friendlyClasses
    · intro cls hc
      obtain ⟨leader, hl, rfl⟩ := List.mem_map.1 hc
      exact ⟨fun member hm =>
          hg.friendlyText?_of_member hl (valid_friendlyPartition.mem_classOf.1 hm),
        graph.visitOf leader, rfl, hg.ledBy_friendlyLeader _ hl⟩
  · have hnodes := hg.nodes_of_walk? (hg.walk?_eq config.scoping)
    have hclasses := hg.aliasClasses?_eq
    have hshares := hg.sharesOut_aliasClasses
    rw [settlingOrder, List.map_append] at hclasses hshares
    refine ⟨_, graph.aliasPartition, _, _, hg.walk?_eq config.scoping, ?_, hclasses, ?_, ?_, ?_⟩
    · rw [hnodes]
      exact hg.aliasLinks?_eq
    · rw [hnodes]
      exact hshares
    · intro cls hc
      obtain ⟨leader, hl, rfl⟩ := List.mem_map.1 hc
      obtain ⟨hl, hp⟩ := List.mem_filter.1 hl
      exact hg.ledAt_aliasClassOf config.scoping hl hp
    · intro cls hc
      obtain ⟨leader, hl, rfl⟩ := List.mem_map.1 hc
      obtain ⟨hl, hp⟩ := List.mem_filter.1 hl
      exact hg.ledAt_aliasClassOf config.scoping hl (by simpa using hp)

/-- In the conditional the value that both branches take has one class of names. It is led by the
node around the branches, and encloses the scopes of both. So is the class of the value that both
give. -/
theorem classes_share_out_conditional :
    ∃ walk links diverging classes cls, conditional.walk? .exclusive = some walk ∧
      conditional.friendlyLinks? walk.nodes = some (links, diverging) ∧
      conditional.friendlyClasses? links walk.visits = some classes ∧
      cls ∈ classes ∧ cls.members = [⟨0⟩, ⟨1⟩, ⟨5⟩] ∧
      (∀ other ∈ classes, ⟨5⟩ ∈ other.members → other = cls) ∧
      conditional.friendlyText? ⟨5⟩ = some cls.name ∧
      walk.scopes.Within ⟨1⟩ cls.scope ∧ walk.scopes.Within ⟨2⟩ cls.scope ∧
      ∃ aliasLinks aliasClasses given, conditional.aliasLinks? walk.nodes = some aliasLinks ∧
        conditional.aliasClasses? aliasLinks walk.visits = some aliasClasses ∧
        given ∈ aliasClasses ∧ given.members = [⟨⟨9⟩, 0⟩, ⟨⟨2⟩, 0⟩, ⟨⟨6⟩, 0⟩] ∧
        ∃ atParameter, conditional.LedAt walk given atParameter := by
  have hrun : (conditional.walk? .exclusive).any fun walk =>
      ⟨⟨1⟩, ⟨1⟩⟩ ∈ walk.visits ∧ ⟨⟨5⟩, ⟨2⟩⟩ ∈ walk.visits ∧
      ((conditional.friendlyLinks? walk.nodes).any fun links =>
        (conditional.friendlyClasses? links.1 walk.visits).any fun classes =>
          ∃ cls ∈ classes, cls.members = [⟨0⟩, ⟨1⟩, ⟨5⟩]) ∧
      (conditional.aliasLinks? walk.nodes).any fun links =>
        (conditional.aliasClasses? links walk.visits).any fun classes =>
          ∃ cls ∈ classes, cls.members = [⟨⟨9⟩, 0⟩, ⟨⟨2⟩, 0⟩, ⟨⟨6⟩, 0⟩] := by
    decide +kernel
  obtain ⟨⟨walk, links, diverging, classes, hwalk, hlinks, hclasses, hshares, hled⟩,
    ⟨walk', links', entries, others, hwalk', hlinks', hclasses', -, hentries, hothers⟩⟩ :=
    reachable_conditional.classes_share_out {}
  replace hwalk : conditional.walk? .exclusive = some walk := hwalk
  obtain rfl : walk = walk' := Option.some.inj (hwalk.symm.trans hwalk')
  simp only [hwalk, Option.any_some, decide_eq_true_eq, hlinks, hclasses, hlinks', hclasses']
    at hrun
  obtain ⟨hfirst, hsecond, ⟨cls, hc, hmembers⟩, given, hgiven, hvalues⟩ := hrun
  obtain ⟨hnamed, first, hscope, hvisits⟩ := hled cls hc
  have hmem (id : NodeId) (hid : id ∈ [(⟨0⟩ : NodeId), ⟨1⟩, ⟨5⟩]) : id ∈ cls.members :=
    hmembers ▸ hid
  have hfive := hmem ⟨5⟩ (by decide)
  have hone := hshares.exactly_one ⟨5⟩ (hshares.only cls hc _ hfive)
  refine ⟨walk, links, diverging, classes, cls, hwalk, hlinks, hclasses, hc, hmembers,
    fun other ho hm => hone.unique ⟨ho, hm⟩ ⟨hc, hfive⟩,
    hnamed _ hfive, ?_, ?_, links', entries ++ others, given, hlinks', hclasses', hgiven, hvalues,
    ?_⟩
  · exact hscope ▸ hvisits.within_scope _ hfirst (hmem ⟨1⟩ (by decide))
  · exact hscope ▸ hvisits.within_scope _ hsecond hfive
  · rcases List.mem_append.1 hgiven with h | h
    · exact ⟨true, hentries given h⟩
    · exact ⟨false, hothers given h⟩

end Graph

end GraphNaming
