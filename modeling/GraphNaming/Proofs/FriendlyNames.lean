import GraphNaming.Proofs.Classes
import GraphNaming.Proofs.FriendlyPlan
import GraphNaming.Proofs.History

/-!
# Unique friendly names

* `Graph.MayShareName`: nodes of two classes that the settings let have one name.
* `Graph.FriendlyOutcome`: what the friendly names are like after a pass.
* `filter_friendlyPlan`, `friendlyText?_of_plan`: what a node undergoes, and its name after it.
* `WellFormed.exists_resolveFriendlyNames?`: a pass has an answer as long as there are numbers
  enough.
* `WellFormed.friendlyOutcome`: every pass has that outcome.
* `WellFormed.resolveFriendlyNames?_fixed`: a pass that finds no clash changes nothing.
-/

namespace GraphNaming.Graph

variable {graph after : Graph} {config : Config} {report : Report}

/-- The class that a leader stands for. -/
def friendlyClassOf (graph : Graph) (leader : NodeId) : FriendlyClass where
  scope := graph.scopeOf (graph.modelOf leader)
  name := (graph.friendlyText? leader).getD ""
  members := graph.friendlyPartition.classOf leader
  userNamed := (graph.friendlyPartition.classOf leader).any graph.isUserNamed

/-- The user chose the name of some node that is linked with `id`. -/
def InUserClass (graph : Graph) (id : NodeId) : Prop :=
  ∃ member ∈ graph.friendlyPartition.classOf id, graph.isUserNamed member = true

/-- Nodes of two classes that may have one name: they are never live together, or the user chose
the name of both. -/
def MayShareName (graph : Graph) (config : Config) (a b : NodeId) : Prop :=
  config.strict = false ∧
    (config.scoping = .exclusive ∧
        graph.Alternatives graph.visited (graph.modelOf a) (graph.modelOf b) ∨
      graph.InUserClass a ∧ graph.InUserClass b)

/-- Visited nodes of different classes have one name in `after` only if they may. -/
def FriendlyDistinct (graph : Graph) (config : Config) (after : Graph) : Prop :=
  ∀ a ∈ graph.visited, ∀ b ∈ graph.visited, graph.friendlyPartition.related a b = false →
    after.friendlyText? a = after.friendlyText? b → graph.MayShareName config a b

/-- The friendly names after a pass, in terms of the classes before it. -/
structure FriendlyOutcome (graph : Graph) (config : Config) (after : Graph) : Prop where
  linked : ∀ {a b}, a ∈ graph.visited → graph.friendlyPartition.related a b = true →
    after.friendlyText? a = after.friendlyText? b
  kept : config.strict = false → ∀ {a}, a ∈ graph.visited → graph.InUserClass a →
    after.friendlyText? a = graph.friendlyText? a
  distinct : graph.FriendlyDistinct config after

theorem userNamed_friendlyClassOf {leader : NodeId} :
    (graph.friendlyClassOf leader).userNamed = true ↔ graph.InUserClass leader := by
  simp [friendlyClassOf, InUserClass]

theorem inUserClass_of_related {a b : NodeId} (h : graph.friendlyPartition.related a b = true)
    (ha : graph.InUserClass a) : graph.InUserClass b := by
  obtain ⟨member, hm, hu⟩ := ha
  rw [valid_friendlyPartition.related_iff.1 h] at hm
  exact ⟨member, hm, hu⟩

/-- Different leaders stand for different classes. -/
theorem related_of_friendlyClassOf_eq {a b : NodeId}
    (h : graph.friendlyClassOf a = graph.friendlyClassOf b) :
    graph.friendlyPartition.related a b = true :=
  valid_friendlyPartition.related_iff.2 (congrArg FriendlyClass.members h)

namespace WellFormed

variable (hg : graph.WellFormed)
include hg

theorem exists_friendlyText? {id : NodeId} (h : id ∈ graph.visited) :
    ∃ text, graph.friendlyText? id = some text := by
  obtain ⟨node, hn, -⟩ := hg.covers_visited.within id h
  exact ⟨node.name.text, by simp [friendlyText?, hn]⟩

theorem friendlyClasses?_eq :
    graph.friendlyClasses? graph.friendlyPartition (graph.visited.map graph.visitOf) =
      some (graph.friendlyLeaders.map graph.friendlyClassOf) := by
  have hleaders : graph.friendlyPartition.leaders (·.node) (graph.visited.map graph.visitOf) =
      graph.friendlyLeaders.map graph.visitOf := Partition.leaders_map graph.visitOf graph.visited
  have hclass : ∀ visit ∈ graph.friendlyLeaders.map graph.visitOf,
      graph.friendlyClass? graph.friendlyPartition visit =
        some (graph.friendlyClassOf visit.node) := by
    intro visit hv
    obtain ⟨leader, hl, rfl⟩ := List.mem_map.1 hv
    obtain ⟨node, hn, -⟩ := hg.covers_visited.within leader (friendlyLeader_visited hl)
    simp only [friendlyClass?, visitOf, hn, Option.bind_eq_bind, Option.bind_some,
      friendlyClassOf, friendlyText?, Option.map_some, Option.getD_some]
    rfl
  rw [friendlyClasses?, hleaders, mapM_eq_some hclass, List.map_map]
  rfl

theorem friendlyReport?_eq_divergences (config : Config) : graph.friendlyReport? config =
    (assignFriendlyNames? config.strict (graph.friendlyLeaders.map graph.friendlyClassOf)
      (graph.treeAfter config.friendlyScoping graph.visited)).map fun report =>
        { diagnostics := graph.divergences } ++ report := by
  have hnodes := hg.nodes_of_walk? (hg.walk?_eq config.friendlyScoping)
  simp only [friendlyReport?, hg.walk?_eq, hnodes, hg.friendlyLinks?_eq_divergences,
    hg.friendlyClasses?_eq, Option.bind_eq_bind, Option.bind_some]
  rw [Option.map_eq_bind]
  rfl

theorem friendlyReport?_eq (config : Config) : ∃ diverging,
    graph.friendlyReport? config =
      (assignFriendlyNames? config.strict (graph.friendlyLeaders.map graph.friendlyClassOf)
        (graph.treeAfter config.friendlyScoping graph.visited)).map fun report =>
          { diagnostics := diverging } ++ report :=
  ⟨_, hg.friendlyReport?_eq_divergences config⟩

/-- The walk opens the scope of every class. -/
theorem exists_friendlyScope (scoping : Scoping) :
    ∀ cls ∈ graph.friendlyLeaders.map graph.friendlyClassOf,
      ∃ path, (graph.treeAfter scoping graph.visited).path? cls.scope = some path := by
  intro cls hc
  obtain ⟨leader, hl, rfl⟩ := List.mem_map.1 hc
  exact ⟨_, hg.path?_treeAfter _ List.prefix_rfl
    (hg.modelOf_mem_scopeModels (friendlyLeader_visited hl))⟩

omit hg in
theorem nodup_friendlyClasses : (graph.friendlyLeaders.map graph.friendlyClassOf).Nodup := by
  refine List.pairwise_map.2 ((Partition.pairwise_leaders _).imp fun hne he => ?_)
  rw [id, id, related_of_friendlyClassOf_eq he] at hne
  cases hne

/-- A member has the name of its class. -/
theorem friendlyText?_of_member {leader id : NodeId} (hl : leader ∈ graph.friendlyLeaders)
    (hr : graph.friendlyPartition.related leader id = true) :
    graph.friendlyText? id = some (graph.friendlyClassOf leader).name := by
  obtain ⟨text, htext⟩ := hg.exists_friendlyText? (friendlyLeader_visited hl)
  rw [← friendlyText?_of_related hr, friendlyClassOf, htext]
  rfl

section Plan

variable {plan : List (FriendlyClass × String)}
  (hclasses : (plan.map (·.1)).Perm (graph.friendlyLeaders.map graph.friendlyClassOf))
include hclasses

omit hg in
theorem exists_friendlyEntry {id : NodeId} (h : id ∈ graph.visited) :
    ∃ leader ∈ graph.friendlyLeaders, ∃ name, (graph.friendlyClassOf leader, name) ∈ plan ∧
      graph.friendlyPartition.related leader id = true := by
  obtain ⟨leader, hl, hr⟩ := exists_friendlyLeader h
  obtain ⟨entry, he, hentry⟩ := List.mem_map.1 (hclasses.mem_iff.2 (List.mem_map_of_mem hl))
  exact ⟨leader, hl, entry.2, hentry ▸ he, hr⟩

section Member

variable {leader id : NodeId} {name : String} (hl : leader ∈ graph.friendlyLeaders)
  (he : (graph.friendlyClassOf leader, name) ∈ plan)
  (hr : graph.friendlyPartition.related leader id = true)
include hl he hr

omit hg in
/-- The members of a class get the name of the class and no other. -/
theorem filter_friendlyPlan :
    (plan.flatMap fun entry => (entry.1.renamedTo entry.2).renames).filter
        (fun rename => rename.site = .friendly id) =
      if name = (graph.friendlyClassOf leader).name then []
      else [⟨.friendly id, (graph.friendlyClassOf leader).name, name⟩] := by
  have hnodup : (plan.map (·.1)).Nodup := hclasses.nodup_iff.2 nodup_friendlyClasses
  have hothers : ∀ entry ∈ plan, entry ≠ (graph.friendlyClassOf leader, name) →
      (entry.1.renamedTo entry.2).renames.filter (fun rename => rename.site = .friendly id) =
        [] := by
    intro entry hentry hne
    refine List.filter_eq_nil_iff.2 fun rename hrename => ?_
    obtain ⟨-, node, hn, rfl⟩ := FriendlyClass.mem_renames_renamedTo.1 hrename
    simp only [NameSite.friendly.injEq, decide_eq_true_eq]
    rintro rfl
    obtain ⟨leader', hl', hleader'⟩ :=
      List.mem_map.1 (hclasses.mem_iff.1 (List.mem_map_of_mem hentry))
    rw [← hleader'] at hn
    have hsame : leader' = leader := Partition.leader_unique hl' hl
      (Partition.related_trans (valid_friendlyPartition.mem_classOf.1 hn)
        (Partition.related_symm hr))
    exact hne (List.inj_on_of_nodup_map hnodup hentry he (hleader'.symm.trans (hsame ▸ rfl)))
  rw [List.filter_flatMap, flatMap_eq_of_unique (List.Nodup.of_map _ hnodup) he hothers,
    FriendlyClass.filter_renamedTo (valid_friendlyPartition.nodup_classOf _)
      (valid_friendlyPartition.mem_classOf.2 hr)]

/-- Every node of a class gets the name that the plan has for the class. -/
theorem friendlyText?_of_plan : (graph.renameAll (plan.flatMap fun entry =>
      (entry.1.renamedTo entry.2).renames)).friendlyText? id = some name := by
  rw [friendlyText?_renameAll, hg.friendlyText?_of_member hl hr,
    filter_friendlyPlan hclasses hl he hr]
  split
  · next hsame => rw [hsame]; rfl
  · rfl

end Member

end Plan

theorem exists_friendlyPlan (h : graph.friendlyReport? config = some report) :
    ∃ plan, FriendlyClass.Plans (graph.treeAfter config.friendlyScoping graph.visited) config.strict
        (graph.friendlyLeaders.map graph.friendlyClassOf) plan ∧
      report.renames = plan.flatMap fun entry => (entry.1.renamedTo entry.2).renames := by
  obtain ⟨diverging, hclosed⟩ := hg.friendlyReport?_eq config
  rw [hclosed] at h
  obtain ⟨assigned, hassigned, rfl⟩ := Option.map_eq_some_iff.1 h
  obtain ⟨plan, hplan, hrenames⟩ := assignFriendlyNames?_eq_some nodup_friendlyClasses hassigned
  exact ⟨plan, hplan, hrenames⟩

/-- A pass has an answer as long as there are more numbers than nodes. -/
theorem exists_resolveFriendlyNames? (config : Config) (hfew : graph.visited.length < maxSuffix) :
    ∃ report after, graph.resolveFriendlyNames? config = some (report, after) := by
  obtain ⟨diverging, hclosed⟩ := hg.friendlyReport?_eq config
  have hleaders : graph.friendlyLeaders.length ≤ graph.visited.length :=
    (Partition.leaders_sublist _).length_le
  obtain ⟨assigned, hassigned⟩ := exists_assignFriendlyNames? config.strict
    (hg.exists_friendlyScope config.friendlyScoping) (by rw [List.length_map]; omega)
  exact ⟨_, _, resolveFriendlyNames?_eq_some.2 ⟨by rw [hclosed, hassigned]; rfl, rfl⟩⟩

/-- Only friendly names are replaced, and only those of visited nodes. -/
theorem site_of_friendlyRename (h : graph.friendlyReport? config = some report) {rename : Rename}
    (hr : rename ∈ report.renames) : ∃ id ∈ graph.visited, rename.site = .friendly id := by
  obtain ⟨plan, hplan, hrenames⟩ := hg.exists_friendlyPlan h
  rw [hrenames] at hr
  obtain ⟨entry, he, hr⟩ := List.mem_flatMap.1 hr
  obtain ⟨-, id, hid, rfl⟩ := FriendlyClass.mem_renames_renamedTo.1 hr
  obtain ⟨leader, hl, hleader⟩ := List.mem_map.1 (hplan.perm.mem_iff.1 (List.mem_map_of_mem he))
  rw [← hleader] at hid
  exact ⟨id, hg.visited_of_friendly (friendlyLeader_visited hl)
    (valid_friendlyPartition.mem_classOf.1 hid), rfl⟩

section Sites

variable (h : graph.friendlyReport? config = some report) {rename : Rename}
  (hr : rename ∈ report.renames)
include h hr

theorem visited_of_friendlyRename {id : NodeId} (hsite : rename.site = .friendly id) :
    id ∈ graph.visited := by
  obtain ⟨other, ho, hother⟩ := hg.site_of_friendlyRename h hr
  rw [hsite] at hother
  cases hother
  exact ho

theorem friendlyRename_ne_output (value : Value) : rename.site ≠ .output value := by
  obtain ⟨id, -, hid⟩ := hg.site_of_friendlyRename h hr
  rw [hid]
  nofun

end Sites

section Compatible

variable {leader leader' : NodeId} (hl : leader ∈ graph.friendlyLeaders)
  (hl' : leader' ∈ graph.friendlyLeaders)
include hl hl'

/-- Compatible classes that get one name may share it. -/
private theorem mayShareName_of_compatible {name name' : String}
    (h : FriendlyClass.Compatible (graph.treeAfter config.friendlyScoping graph.visited)
      config.strict (graph.friendlyClassOf leader, name) (graph.friendlyClassOf leader', name'))
    (hname : name = name') : graph.MayShareName config leader leader' := by
  rcases h hname with hex | ⟨hstrict, hu, hu'⟩
  · obtain ⟨hscoping, halt⟩ := hg.alternatives_of_exclusive? (friendlyLeader_visited hl)
      (friendlyLeader_visited hl') hex
    unfold Config.friendlyScoping at hscoping
    split at hscoping
    · cases hscoping
    · next hstrict => exact ⟨by simpa using hstrict, .inl ⟨hscoping, halt⟩⟩
  · exact ⟨hstrict, .inr ⟨userNamed_friendlyClassOf.1 hu, userNamed_friendlyClassOf.1 hu'⟩⟩

private theorem compatible_of_mayShareName (h : graph.MayShareName config leader leader')
    (name name' : String) :
    FriendlyClass.Compatible (graph.treeAfter config.friendlyScoping graph.visited)
      config.strict (graph.friendlyClassOf leader, name)
      (graph.friendlyClassOf leader', name') := by
  intro _
  obtain ⟨hstrict, ⟨hscoping, halt⟩ | ⟨hu, hu'⟩⟩ := h
  · have hfriendly : config.friendlyScoping = .exclusive := by
      simp [Config.friendlyScoping, hstrict, hscoping]
    rw [hfriendly]
    exact .inl (hg.exclusive?_of_alternatives (friendlyLeader_visited hl)
      (friendlyLeader_visited hl') halt)
  · exact .inr ⟨hstrict, userNamed_friendlyClassOf.2 hu, userNamed_friendlyClassOf.2 hu'⟩

/-- If the leaders may share a name, so may all members of their classes. -/
private theorem mayShareName_of_leaders {a b : NodeId}
    (h : graph.MayShareName config leader leader')
    (ha : graph.friendlyPartition.related leader a = true)
    (hb : graph.friendlyPartition.related leader' b = true) : graph.MayShareName config a b := by
  obtain ⟨hstrict, ⟨hscoping, halt⟩ | ⟨hu, hu'⟩⟩ := h
  · exact ⟨hstrict, .inl ⟨hscoping, halt.mono (hg.within_friendlyLeader hl ha)
      (hg.within_friendlyLeader hl' hb)⟩⟩
  · exact ⟨hstrict, .inr ⟨inUserClass_of_related ha hu, inUserClass_of_related hb hu'⟩⟩

end Compatible

theorem friendlyOutcome (h : graph.resolveFriendlyNames? config = some (report, after)) :
    graph.FriendlyOutcome config after := by
  obtain ⟨hreport, rfl⟩ := resolveFriendlyNames?_eq_some.1 h
  obtain ⟨plan, ⟨hclasses, hkept, -, hpair⟩, hrenames⟩ := hg.exists_friendlyPlan hreport
  rw [hrenames]
  constructor
  · intro a b ha hr
    obtain ⟨leader, hl, name, he, hra⟩ := exists_friendlyEntry hclasses ha
    rw [hg.friendlyText?_of_plan hclasses hl he hra,
      hg.friendlyText?_of_plan hclasses hl he (Partition.related_trans hra hr)]
  · intro hstrict a ha huser
    obtain ⟨leader, hl, name, he, hra⟩ := exists_friendlyEntry hclasses ha
    have hname : name = (graph.friendlyClassOf leader).name := hkept hstrict _ he
      (userNamed_friendlyClassOf.2 (inUserClass_of_related (Partition.related_symm hra) huser))
    rw [hg.friendlyText?_of_plan hclasses hl he hra, hg.friendlyText?_of_member hl hra, hname]
  · intro a ha b hb hne hsame
    obtain ⟨leader, hl, name, he, hra⟩ := exists_friendlyEntry hclasses ha
    obtain ⟨leader', hl', name', he', hrb⟩ := exists_friendlyEntry hclasses hb
    rw [hg.friendlyText?_of_plan hclasses hl he hra,
      hg.friendlyText?_of_plan hclasses hl' he' hrb] at hsame
    have hentry : (graph.friendlyClassOf leader, name) ≠
        (graph.friendlyClassOf leader', name') := by
      intro heq
      have hleaders := related_of_friendlyClassOf_eq (congrArg Prod.fst heq)
      have hab := Partition.related_trans (Partition.related_symm hra)
        (Partition.related_trans hleaders hrb)
      rw [hne] at hab
      cases hab
    have : Std.Symm (FriendlyClass.Compatible (graph.treeAfter config.friendlyScoping graph.visited)
      config.strict) := ⟨fun _ _ h => h.symm⟩
    have hleaders := hg.mayShareName_of_compatible hl hl' (hpair.forall he he' hentry)
      (Option.some.inj hsame)
    exact hg.mayShareName_of_leaders hl hl' hleaders hra hrb

/-- A pass that finds no clash changes nothing. -/
theorem resolveFriendlyNames?_fixed (h : graph.FriendlyDistinct config graph) :
    ∃ report, graph.resolveFriendlyNames? config = some (report, graph) ∧ report.renames = [] := by
  obtain ⟨diverging, hclosed⟩ := hg.friendlyReport?_eq config
  have hcompatible : ∀ cls ∈ graph.friendlyLeaders.map graph.friendlyClassOf,
      ∀ cls' ∈ graph.friendlyLeaders.map graph.friendlyClassOf, cls ≠ cls' →
        FriendlyClass.Compatible (graph.treeAfter config.friendlyScoping graph.visited)
          config.strict (cls, cls.name) (cls', cls'.name) := by
    intro cls hc cls' hc' hne hname
    obtain ⟨leader, hl, rfl⟩ := List.mem_map.1 hc
    obtain ⟨leader', hl', rfl⟩ := List.mem_map.1 hc'
    have hv := friendlyLeader_visited hl
    have hv' := friendlyLeader_visited hl'
    obtain ⟨text, htext⟩ := hg.exists_friendlyText? hv
    obtain ⟨text', htext'⟩ := hg.exists_friendlyText? hv'
    have hsame : graph.friendlyText? leader = graph.friendlyText? leader' := by
      simpa [friendlyClassOf, htext, htext'] using hname
    have hunrelated : graph.friendlyPartition.related leader leader' = false := by
      rw [← Bool.not_eq_true]
      exact fun hr => hne (congrArg graph.friendlyClassOf (Partition.leader_unique hl hl' hr))
    exact hg.compatible_of_mayShareName hl hl' (h _ hv _ hv' hunrelated hsame) _ _ hname
  obtain ⟨assigned, hassigned, hnone⟩ :=
    assignFriendlyNames?_fixed (hg.exists_friendlyScope _) nodup_friendlyClasses hcompatible
  refine ⟨{ diagnostics := diverging } ++ assigned, ?_, by simpa using hnone⟩
  rw [resolveFriendlyNames?, hclosed, hassigned]
  simp [hnone, renameAll]

/-! ## Links after a pass -/

/-- The two sides of a shared binding are never live without each other. -/
theorem not_alternatives_of_binding {binding : InputBinding} (hb : binding ∈ graph.sharedBindings) :
    ¬ graph.Alternatives graph.visited (graph.modelOf (graph.source binding.outer).node)
      (graph.modelOf binding.inner) := by
  obtain ⟨owner, hv, region, hr, hmem, -⟩ := mem_sharedBindings.1 hb
  have hparent := (hg.crosses_input hv hr hmem).parent? hg
  intro halt
  exact hg.alternatives_irrefl (halt.mono (.of_parent? hparent) (.refl _))

/-- The two sides of a shared binding agree after a pass if they did before, and only then. -/
theorem agrees_after (ho : graph.FriendlyOutcome config after) (hs : graph.shape = after.shape)
    {binding : InputBinding} (hb : binding ∈ graph.sharedBindings) :
    after.agrees binding = graph.agrees binding := by
  obtain ⟨owner, hv, region, hr, hmem, -⟩ := mem_sharedBindings.1 hb
  have hcross := hg.crosses_input hv hr hmem
  have hlinked (h : graph.agrees binding = true) :
      graph.friendlyPartition.related (graph.source binding.outer).node binding.inner = true :=
    Partition.related_joinAll_empty.2 (.rel _ _ (List.mem_map.2
      ⟨binding, List.mem_filter.2 ⟨hb, h⟩, rfl⟩))
  rw [Bool.eq_iff_iff]
  constructor
  · intro hafter
    have hsame : after.friendlyText? (graph.source binding.outer).node =
        after.friendlyText? binding.inner := by
      rw [← source_of_shape hs]
      exact of_decide_eq_true hafter
    refine Classical.byContradiction fun hnot => ?_
    -- Two sides that were not linked come to one name only in alternatives, where a binding never
    -- has them, or as names of the user's choice, which were the same before.
    by_cases hr : graph.friendlyPartition.related (graph.source binding.outer).node
      binding.inner = true
    · exact hnot (decide_eq_true (friendlyText?_of_related hr))
    · rw [Bool.not_eq_true] at hr
      obtain ⟨hstrict, ⟨-, halt⟩ | ⟨hu, hu'⟩⟩ :=
        ho.distinct _ hcross.outer_visited _ hcross.inner_visited hr hsame
      · exact hg.not_alternatives_of_binding hb halt
      · rw [ho.kept hstrict hcross.outer_visited hu,
          ho.kept hstrict hcross.inner_visited hu'] at hsame
        exact hnot (decide_eq_true hsame)
  · intro hbefore
    have hsame := ho.linked hcross.outer_visited (hlinked hbefore)
    rw [← source_of_shape hs] at hsame
    exact decide_eq_true hsame

end WellFormed

end GraphNaming.Graph
