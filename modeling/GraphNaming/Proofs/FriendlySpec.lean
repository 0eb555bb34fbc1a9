import GraphNaming.Proofs.Passes

/-!
# Which friendly names a pass gives

The friendly names after a pass, told by themselves: each class looks at the final names of the
classes that come before it.

* `Graph.FriendlySpec`: what the graph after a pass is like.
* `FriendlySpec.unique`: it can be like that in one way only.
* `WellFormed.friendlySpec`: it is like that.
* `Reachable.friendlyNames_specified`: the same for every graph that some history leads to.
-/

namespace GraphNaming.Graph

/-! ## The specification -/

section Spec

variable (graph : Graph) (config : Config) (walk : Walk) (links : Partition NodeId)

/-- The user chose the name of some node that is linked with `id`. -/
def SharesUserName (id : NodeId) : Prop :=
  ∃ member ∈ links.classOf id, graph.isUserNamed member = true

instance (id : NodeId) : Decidable (graph.SharesUserName links id) :=
  inferInstanceAs (Decidable (∃ member ∈ links.classOf id, graph.isUserNamed member = true))

/-- The class first visited at `rival` has its name before the one first visited at `visit`, which
has to choose another. Strict settings name the classes in the order of their first visits. Else the
user's names come first, and what lies in exclusive scopes may have one name. -/
def NamedBefore (rival visit : Visit) : Prop :=
  if config.strict then Before walk.visits rival visit
  else (graph.SharesUserName links rival.node ∨ Before walk.visits rival visit) ∧
    walk.scopes.exclusive? rival.scope visit.scope ≠ some true

/-- The final names of the classes that have theirs before the one first visited at `visit`. -/
def namesBefore (after : Graph) (visit : Visit) : Set String :=
  {name | ∃ rival, links.IsFirst (·.node) walk.visits rival ∧
    graph.NamedBefore config walk links rival visit ∧ after.friendlyText? rival.node = some name}

/-- What a pass over the friendly names leaves of a graph. -/
structure FriendlySpec (after : Graph) : Prop where
  shape : after.shape = graph.shape
  outputs : ∀ value, after.output? value = graph.output? value
  userNamed : ∀ id, after.isUserNamed id = graph.isUserNamed id
  /-- Nodes that are in no class keep their names. -/
  outside : ∀ id ∉ walk.nodes, after.friendlyText? id = graph.friendlyText? id
  /-- All members of a class get the name of the one visited first. -/
  linked : ∀ visit, links.IsFirst (·.node) walk.visits visit → ∀ id ∈ links.classOf visit.node,
    after.friendlyText? id = after.friendlyText? visit.node
  /-- Unless the settings are strict, the names of the user's choice stay. -/
  kept : config.strict = false → ∀ visit, links.IsFirst (·.node) walk.visits visit →
    graph.SharesUserName links visit.node →
      after.friendlyText? visit.node = graph.friendlyText? visit.node
  /-- All others make way for the names before them. -/
  named : ∀ visit, links.IsFirst (·.node) walk.visits visit →
    (config.strict = false → ¬ graph.SharesUserName links visit.node) →
      ∃ name new, graph.friendlyText? visit.node = some name ∧
        after.friendlyText? visit.node = some new ∧
        FirstName (if config.strict then 1 else 2)
          (graph.namesBefore config walk links after visit) name new

end Spec

variable {graph after other : Graph} {config : Config} {walk : Walk} {links : Partition NodeId}

/-! ## One graph only -/

namespace FriendlySpec

section Unique

variable (h : graph.FriendlySpec config walk links after)
  (h' : graph.FriendlySpec config walk links other)
include h h'

/-- Classes with the same names before them get the same name. -/
private theorem text_of_before {visit : Visit} (hv : links.IsFirst (·.node) walk.visits visit)
    (ih : ∀ rival, Before walk.visits rival visit → links.IsFirst (·.node) walk.visits rival →
      after.friendlyText? rival.node = other.friendlyText? rival.node) :
    after.friendlyText? visit.node = other.friendlyText? visit.node := by
  by_cases hu : config.strict = false ∧ graph.SharesUserName links visit.node
  · rw [h.kept hu.1 visit hv hu.2, h'.kept hu.1 visit hv hu.2]
  · rw [not_and] at hu
    -- A rival is visited before, or has a name of the user's choice, which stays in both graphs.
    have hrival {rival : Visit} (hr : links.IsFirst (·.node) walk.visits rival)
        (hb : graph.NamedBefore config walk links rival visit) :
        after.friendlyText? rival.node = other.friendlyText? rival.node := by
      unfold NamedBefore at hb
      split at hb
      · exact ih rival hb hr
      · next hstrict =>
        rw [Bool.not_eq_true] at hstrict
        rcases hb.1 with huser | hb
        · rw [h.kept hstrict rival hr huser, h'.kept hstrict rival hr huser]
        · exact ih rival hb hr
    have hbefore : graph.namesBefore config walk links after visit =
        graph.namesBefore config walk links other visit := by
      ext name
      refine exists_congr fun rival => and_congr_right fun hr => and_congr_right fun hb => ?_
      rw [hrival hr hb]
    obtain ⟨name, new, hname, hnew, hfirst⟩ := h.named visit hv hu
    obtain ⟨name', new', hname', hnew', hfirst'⟩ := h'.named visit hv hu
    rw [hname] at hname'
    cases hname'
    rw [hnew, hnew', hfirst.unique (hbefore ▸ hfirst')]

/-- The specification says all there is to say. -/
theorem unique (hvalid : links.Valid) (hn : walk.visits.Nodup) : after = other := by
  have hfirst : ∀ visit ∈ walk.visits, links.IsFirst (·.node) walk.visits visit →
      after.friendlyText? visit.node = other.friendlyText? visit.node :=
    Before.induct hn fun visit _ ih hv => h.text_of_before h' hv ih
  refine eq_of_names (h.shape.trans h'.shape.symm) (fun id => ?_)
    (fun id => (h.userNamed id).trans (h'.userNamed id).symm)
    fun value => (h.outputs value).trans (h'.outputs value).symm
  -- A visited node has the name of the first of its class; the others keep theirs.
  by_cases hid : id ∈ walk.nodes
  · obtain ⟨visit, hv, rfl⟩ := List.mem_map.1 hid
    obtain ⟨leader, hl, hr, -⟩ : ∃ leader ∈ links.leaders (·.node) walk.visits,
        links.related leader.node visit.node = true ∧
          (leader = visit ∨ Before walk.visits leader visit) := Partition.exists_leader hv
    have hl' := (Partition.mem_leaders_iff hn).1 hl
    have hmem := hvalid.mem_classOf.2 hr
    rw [h.linked leader hl' _ hmem, h'.linked leader hl' _ hmem]
    exact hfirst leader hl'.1 hl'
  · rw [h.outside id hid, h'.outside id hid]

end Unique

end FriendlySpec

/-! ## Every pass -/

namespace WellFormed

variable (hg : graph.WellFormed)
include hg

theorem nodup_visits : (graph.visited.map graph.visitOf).Nodup :=
  hg.covers_visited.nodup.map fun _ _ h => congrArg Visit.node h

/-- The first visits to the classes are those of the leaders. -/
theorem isFirst_visit_iff {visit : Visit} :
    graph.friendlyPartition.IsFirst (·.node) (graph.visited.map graph.visitOf) visit ↔
      ∃ leader ∈ graph.friendlyLeaders, graph.visitOf leader = visit := by
  rw [← Partition.mem_leaders_iff hg.nodup_visits, Partition.leaders_map, List.mem_map]
  rfl

section Plan

variable {plan : List (FriendlyClass × String)} {report : Report}

/-- The classes that come before another are those that stand in its way in the plan. -/
private theorem namedBefore_iff {rival leader : NodeId} (hr : rival ∈ graph.friendlyLeaders)
    (hl : leader ∈ graph.friendlyLeaders) :
    graph.NamedBefore config ⟨graph.visited.map graph.visitOf,
        graph.treeAfter config.friendlyScoping graph.visited⟩ graph.friendlyPartition
        (graph.visitOf rival) (graph.visitOf leader) ↔
      (config.strict = false ∧ (graph.friendlyClassOf rival).userNamed = true ∨
        Before (graph.friendlyLeaders.map graph.friendlyClassOf) (graph.friendlyClassOf rival)
          (graph.friendlyClassOf leader)) ∧
      (graph.treeAfter config.friendlyScoping graph.visited).exclusive?
        (graph.friendlyClassOf rival).scope (graph.friendlyClassOf leader).scope ≠ some true := by
  have hbefore : Before (graph.friendlyLeaders.map graph.friendlyClassOf)
      (graph.friendlyClassOf rival) (graph.friendlyClassOf leader) ↔
      Before (graph.visited.map graph.visitOf) (graph.visitOf rival) (graph.visitOf leader) := by
    rw [Before.map_iff nodup_friendlyClasses hr hl, Before.map_iff hg.nodup_visits
      (friendlyLeader_visited hr) (friendlyLeader_visited hl)]
    exact Before.sublist_iff hg.covers_visited.nodup (Partition.leaders_sublist _) hr hl
  rw [hbefore, userNamed_friendlyClassOf, NamedBefore]
  cases hstrict : config.strict with
  | true =>
    have hflat : (graph.treeAfter config.friendlyScoping graph.visited).exclusive?
        (graph.friendlyClassOf rival).scope (graph.friendlyClassOf leader).scope ≠ some true := by
      intro hex
      have hscoping := (hg.alternatives_of_exclusive? (friendlyLeader_visited hr)
        (friendlyLeader_visited hl) hex).1
      rw [Config.friendlyScoping, if_pos hstrict] at hscoping
      cases hscoping
    simp [hflat]
  | false =>
    simp only [Bool.false_eq_true, if_false, true_and]
    rfl

/-- The names before a class are those that stand in its way in the plan. -/
private theorem namesBefore_eq
    (hplan : FriendlyClass.Plans (graph.treeAfter config.friendlyScoping graph.visited)
      config.strict (graph.friendlyLeaders.map graph.friendlyClassOf) plan)
    {leader : NodeId} (hl : leader ∈ graph.friendlyLeaders) :
    graph.namesBefore config ⟨graph.visited.map graph.visitOf,
        graph.treeAfter config.friendlyScoping graph.visited⟩ graph.friendlyPartition
        (graph.renameAll (plan.flatMap fun entry => (entry.1.renamedTo entry.2).renames))
        (graph.visitOf leader) =
      FriendlyClass.rivalNames (graph.treeAfter config.friendlyScoping graph.visited)
        config.strict (graph.friendlyLeaders.map graph.friendlyClassOf) plan
        (graph.friendlyClassOf leader) := by
  ext name
  constructor
  · rintro ⟨_, hfirst, hbefore, hname⟩
    obtain ⟨rival, hr, rfl⟩ := hg.isFirst_visit_iff.1 hfirst
    obtain ⟨entry, he, hentry⟩ :=
      List.mem_map.1 (hplan.perm.mem_iff.2 (List.mem_map_of_mem hr))
    obtain ⟨cls, new⟩ := entry
    obtain rfl : cls = graph.friendlyClassOf rival := hentry
    have htext := hg.friendlyText?_of_plan hplan.perm hr he (Partition.related_refl _ rival)
    rw [visitOf, htext, Option.some.injEq] at hname
    obtain ⟨hturn, hex⟩ := (hg.namedBefore_iff hr hl).1 hbefore
    exact ⟨_, he, hname, hturn, hex⟩
  · rintro ⟨⟨cls, new⟩, he, rfl, hturn, hex⟩
    obtain ⟨rival, hr, hrival⟩ := List.mem_map.1 (hplan.perm.mem_iff.1 (List.mem_map_of_mem he))
    obtain rfl : graph.friendlyClassOf rival = cls := hrival
    exact ⟨graph.visitOf rival, hg.isFirst_visit_iff.2 ⟨rival, hr, rfl⟩,
      (hg.namedBefore_iff hr hl).2 ⟨hturn, hex⟩,
      hg.friendlyText?_of_plan hplan.perm hr he (Partition.related_refl _ rival)⟩

/-- The graph after a pass is as specified. -/
theorem friendlySpec (h : graph.resolveFriendlyNames? config = some (report, after)) :
    graph.FriendlySpec config ⟨graph.visited.map graph.visitOf,
      graph.treeAfter config.friendlyScoping graph.visited⟩ graph.friendlyPartition after := by
  have houtcome := hg.friendlyOutcome h
  have hshape := shape_resolveFriendlyNames? h
  have huser := (hg.sameClasses_resolveFriendlyNames? h).userNamed
  have houtput := hg.output?_resolveFriendlyNames? h
  have houtside {id : NodeId} (hv : id ∉ graph.visited) :=
    hg.friendlyText?_of_not_visited h hv
  obtain ⟨hreport, rfl⟩ := resolveFriendlyNames?_eq_some.1 h
  constructor
  · exact hshape
  · exact houtput
  · exact huser
  · exact fun id hid => houtside fun hv =>
      hid (List.mem_map.2 ⟨graph.visitOf id, List.mem_map_of_mem hv, rfl⟩)
  · intro visit hv id hid
    obtain ⟨leader, hl, rfl⟩ := hg.isFirst_visit_iff.1 hv
    exact (houtcome.linked (friendlyLeader_visited hl)
      (valid_friendlyPartition.mem_classOf.1 hid)).symm
  · intro hstrict visit hv hu
    obtain ⟨leader, hl, rfl⟩ := hg.isFirst_visit_iff.1 hv
    exact houtcome.kept hstrict (friendlyLeader_visited hl) hu
  · intro visit hv hu
    obtain ⟨leader, hl, rfl⟩ := hg.isFirst_visit_iff.1 hv
    obtain ⟨plan, hplan, hrenames⟩ := hg.exists_friendlyPlan hreport
    obtain ⟨⟨cls, new⟩, he, hentry⟩ :=
      List.mem_map.1 (hplan.perm.mem_iff.2 (List.mem_map_of_mem hl))
    obtain rfl : cls = graph.friendlyClassOf leader := hentry
    -- A class may change its name if the user named no member, and then the plan gives it the first
    -- that is free.
    have hgenerated (hstrict : config.strict = false) :
        (graph.friendlyClassOf leader).userNamed = false := by
      rw [← Bool.not_eq_true, userNamed_friendlyClassOf]
      exact hu hstrict
    have hself := Partition.related_refl graph.friendlyPartition leader
    refine ⟨(graph.friendlyClassOf leader).name, new, hg.friendlyText?_of_member hl hself, ?_, ?_⟩
    · rw [hrenames]
      exact hg.friendlyText?_of_plan hplan.perm hl he hself
    · rw [hrenames, hg.namesBefore_eq hplan hl]
      exact hplan.named _ he hgenerated

end Plan

end WellFormed

/-- The graph after a pass over the friendly names is the one that its specification describes, in
terms of the walk and the links on entry. There is one as long as there are more numbers than
visits. -/
theorem Reachable.friendlyNames_specified (hr : graph.Reachable) (config : Config) :
    ∃ walk links diverging, graph.walk? config.friendlyScoping = some walk ∧
      graph.friendlyLinks? walk.nodes = some (links, diverging) ∧
      (walk.visits.length < maxSuffix →
        ∃ report result, graph.resolveFriendlyNames? config = some (report, result)) ∧
      ∀ report result, graph.resolveFriendlyNames? config = some (report, result) →
        ∀ after, graph.FriendlySpec config walk links after ↔ after = result := by
  have hg := hr.wellFormed
  obtain ⟨diverging, hlinks⟩ := hg.friendlyLinks?_eq
  have hnodes := hg.nodes_of_walk? (hg.walk?_eq config.friendlyScoping)
  refine ⟨_, graph.friendlyPartition, diverging, hg.walk?_eq config.friendlyScoping, ?_, ?_, ?_⟩
  · rw [hnodes]
    exact hlinks
  · intro hfew
    exact hg.exists_resolveFriendlyNames? config (by simpa using hfew)
  · intro report result h after
    have hspec := hg.friendlySpec h
    refine ⟨fun hafter => hafter.unique hspec valid_friendlyPartition hg.nodup_visits, ?_⟩
    rintro rfl
    exact hspec

/-- In the conditional a pass changes names, and leaves what its specification describes. -/
theorem friendlyNames_specified_conditional :
    ∃ walk links diverging report result, conditional.walk? .exclusive = some walk ∧
      conditional.friendlyLinks? walk.nodes = some (links, diverging) ∧
      conditional.resolveFriendlyNames? {} = some (report, result) ∧ result ≠ conditional ∧
      conditional.FriendlySpec {} walk links result := by
  have hrun : (conditional.resolveFriendlyNames? {}).any fun run => run.2 ≠ conditional := by
    decide +kernel
  obtain ⟨⟨report, result⟩, h, hchanged⟩ := (Option.any_eq_true _ _).1 hrun
  obtain ⟨walk, links, diverging, hwalk, hlinks, -, hspec⟩ :=
    reachable_conditional.friendlyNames_specified {}
  exact ⟨walk, links, diverging, report, result, hwalk, hlinks, h, of_decide_eq_true hchanged,
    (hspec report result h result).2 rfl⟩

end GraphNaming.Graph
