import GraphNaming.Proofs.AliasPlan
import GraphNaming.Proofs.Classes
import GraphNaming.Proofs.History

/-!
# Unique aliases

* `Graph.AliasesDistinct`: two classes share an alias only if their leaders are never live together.
* `Graph.AliasOutcome`: what the aliases are like after a pass: each class has had one injective
  substitution.
* `filter_plan`, `holds_after`: what an output undergoes, and its aliases after it.
* `WellFormed.aliasOutcome`: every pass has that outcome.
* `WellFormed.resolveAliases?_fixed`: a pass that finds no clash changes nothing.
-/

namespace GraphNaming

/-! ## Renames of one value -/

namespace AliasClass

variable {graph : Graph} {cls : AliasClass} {swaps : List (String × String)} {value : Value}

theorem site_of_mem_renamesOf {rename : Rename} (h : rename ∈ cls.renamesOf graph swaps) :
    ∃ member ∈ cls.members, rename.site = .output member := by
  obtain ⟨swap, -, h⟩ := List.mem_flatMap.1 h
  obtain ⟨member, hm, rfl⟩ := List.mem_map.1 h
  exact ⟨member, (List.mem_filter.1 hm).1, rfl⟩

/-- A member undergoes the swaps of the aliases that it has. -/
theorem filter_renamesOf (hn : cls.members.Nodup) (hv : value ∈ cls.members) :
    (cls.renamesOf graph swaps).filter (fun rename => rename.site = .output value) =
      (swaps.filter fun swap => swap.1 ∈ (graph.aliases? value).getD ∅).map
        fun swap => ⟨.output value, swap.1, swap.2⟩ := by
  have hone (old : String) : (cls.holders graph old).filter (· = value) =
      if old ∈ (graph.aliases? value).getD ∅ then [value] else [] := by
    rw [holders, List.filter_comm, filter_eq_singleton hn hv, List.filter_singleton]
    simp
  induction swaps with
  | nil => rfl
  | cons swap swaps ih =>
    have hfirst : (List.map (fun member => (⟨.output member, swap.1, swap.2⟩ : Rename))
        (cls.holders graph swap.1)).filter (fun rename => rename.site = .output value) =
        if swap.1 ∈ (graph.aliases? value).getD ∅ then [⟨.output value, swap.1, swap.2⟩]
        else [] := by
      rw [List.filter_map]
      simp only [Function.comp_def, NameSite.output.injEq, hone]
      split <;> rfl
    rw [renamesOf, List.flatMap_cons, List.filter_append, hfirst, ← renamesOf, ih, List.filter_cons]
    split <;> simp_all

end AliasClass

namespace Graph

variable {graph after : Graph} {config : Config} {report : Report}

/-- The value goes by the alias `name`. -/
def Holds (graph : Graph) (value : Value) (name : String) : Prop :=
  name ∈ (graph.aliases? value).getD ∅

/-- An output that is its own source is told by the aliases that it goes by. -/
theorem output?_eq_of_holds {other : Graph} {value : Value} (hs : after.shape = other.shape)
    (hsource : after.source value = value)
    (h : ∀ name, after.Holds value name ↔ other.Holds value name) :
    after.output? value = other.output? value := by
  have hsource' : other.source value = value := by rw [← source_shape, ← hs, source_shape, hsource]
  have hshape : (after.output? value).map Output.shape =
      (other.output? value).map Output.shape := by
    rw [← output?_shape, hs, output?_shape]
  simp only [Holds, aliases?, hsource, hsource'] at h
  cases hafter : after.output? value with
  | none => simpa [hafter, eq_comm] using hshape
  | some output =>
    cases hother : other.output? value with
    | none => simp [hafter, hother] at hshape
    | some output' =>
      simp only [hafter, hother, Option.map_some, Option.some.injEq, Option.getD_some] at hshape h ⊢
      obtain ⟨index, aliases⟩ := output
      obtain ⟨index', aliases'⟩ := output'
      obtain rfl : aliases = aliases' := AliasSet.ext h
      cases hshape
      rfl

/-- The class that a leader stands for. -/
def aliasClassOf (graph : Graph) (leader : OutputVisit) : AliasClass :=
  ⟨leader.scope, graph.aliasPartition.classOf leader.value⟩

/-- The leaders in the order in which their classes settle. -/
def settlingOrder (graph : Graph) : List OutputVisit :=
  graph.aliasLeaders.filter (·.atParameter) ++ graph.aliasLeaders.filter fun leader =>
    !leader.atParameter

/-- Two classes have an alias in common in `after` only if their leaders lie in alternatives. -/
def AliasesDistinct (graph : Graph) (scoping : Scoping) (after : Graph) : Prop :=
  ∀ leader ∈ graph.aliasLeaders, ∀ leader' ∈ graph.aliasLeaders, leader ≠ leader' →
    ∀ u v name, graph.aliasPartition.related leader.value u = true →
      graph.aliasPartition.related leader'.value v = true → after.Holds u name →
      after.Holds v name → scoping = .exclusive ∧ graph.Alternatives graph.visited
        (graph.modelOf leader.value.node) (graph.modelOf leader'.value.node)

/-- What a pass makes of the aliases. -/
structure AliasOutcome (graph : Graph) (scoping : Scoping) (after : Graph) : Prop where
  image : ∀ leader ∈ graph.aliasLeaders, ∃ f : String → String,
    Set.InjOn f {name | ∃ member, graph.aliasPartition.related leader.value member = true ∧
      graph.Holds member name} ∧
    ∀ member, graph.aliasPartition.related leader.value member = true → ∀ name,
      after.Holds member name ↔ ∃ old, graph.Holds member old ∧ f old = name
  distinct : graph.AliasesDistinct scoping after

/-- A value that goes by an alias exists. -/
theorem isVisitedOutput_of_holds (hs : graph.shape = after.shape) {value : Value} {node : Node}
    {name : String} (hv : value.node ∈ graph.visited) (hn : graph.node? value.node = some node)
    (hr : node.isResult = false) (h : after.Holds value name) : graph.IsVisitedOutput value := by
  obtain ⟨node', hn', hnode⟩ := node?_of_shape hs hn
  refine ⟨hv, node, hn, hr, Nat.lt_of_not_le fun hle => ?_⟩
  have hout : node'.outputs[value.index]? = none := by
    rw [List.getElem?_eq_none_iff, outputs_length_of_shape hnode]
    exact hle
  rw [Holds, aliases?, source_of_shape hs, source_of_not_result hn hr, output?, hn',
    Option.bind_eq_bind, Option.bind_some, hout] at h
  exact AliasSet.not_mem_empty _ h

theorem settlingOrder_perm : graph.settlingOrder.Perm graph.aliasLeaders :=
  List.filter_append_perm _ _

theorem mem_aliases_aliasClassOf {leader : OutputVisit} {name : String} :
    name ∈ (graph.aliasClassOf leader).aliases graph ↔
      ∃ member, graph.aliasPartition.related leader.value member = true ∧
        graph.Holds member name := by
  simp only [AliasClass.mem_aliases, aliasClassOf, valid_aliasPartition.mem_classOf, Holds]

/-- Different leaders stand for different classes. -/
theorem eq_of_aliasClassOf_eq {leader leader' : OutputVisit} (hl : leader ∈ graph.aliasLeaders)
    (hl' : leader' ∈ graph.aliasLeaders)
    (h : graph.aliasClassOf leader = graph.aliasClassOf leader') : leader = leader' :=
  Partition.leader_unique hl hl'
    (valid_aliasPartition.related_iff.2 (congrArg AliasClass.members h))

theorem exists_leader_of_mem {cls : AliasClass}
    (h : cls ∈ graph.settlingOrder.map graph.aliasClassOf) :
    ∃ leader ∈ graph.aliasLeaders, graph.aliasClassOf leader = cls := by
  obtain ⟨leader, hl, rfl⟩ := List.mem_map.1 h
  exact ⟨leader, settlingOrder_perm.mem_iff.1 hl, rfl⟩

theorem nodup_aliasClasses : (graph.settlingOrder.map graph.aliasClassOf).Nodup := by
  have hnodup : graph.aliasLeaders.Nodup :=
    (Partition.pairwise_leaders _).imp fun h he => by
      rw [he, Partition.related_refl] at h
      cases h
  refine List.Nodup.map_on (fun a ha b hb h => ?_) (settlingOrder_perm.nodup_iff.2 hnodup)
  exact eq_of_aliasClassOf_eq (settlingOrder_perm.mem_iff.1 ha) (settlingOrder_perm.mem_iff.1 hb) h

namespace WellFormed

variable (hg : graph.WellFormed)
include hg

/-- The classes share out the visited outputs, in whatever order they settle. -/
theorem settlingMembers_perm :
    ((graph.settlingOrder.map graph.aliasClassOf).flatMap (·.members)).Perm
      (graph.outputVisits.map (·.value)) := by
  rw [List.flatMap_map]
  exact (settlingOrder_perm.flatMap_right _).trans hg.aliasMembers_perm

theorem aliasClasses?_eq :
    graph.aliasClasses? graph.aliasPartition (graph.visited.map graph.visitOf) =
      some (graph.settlingOrder.map graph.aliasClassOf) := by
  rw [aliasClasses?, hg.outputVisits?_eq, Option.bind_eq_bind, Option.bind_some,
    List.partition_eq_filter_filter]
  rfl

theorem aliasReport?_eq (config : Config) : graph.aliasReport? config =
    (thread? (fun cls space => cls.assign? graph space)
      (graph.settlingOrder.map graph.aliasClassOf)
      (.ofScopes (graph.treeAfter config.scoping graph.visited) 1)).map fun (reports, _) =>
        .concat reports := by
  have hnodes := hg.nodes_of_walk? (hg.walk?_eq config.scoping)
  simp only [aliasReport?, hg.walk?_eq, hnodes, hg.aliasLinks?_eq, hg.aliasClasses?_eq,
    Option.bind_eq_bind, Option.bind_some]
  rw [Option.map_eq_bind]
  rfl

theorem aliasLeader_visited {leader : OutputVisit} (h : leader ∈ graph.aliasLeaders) :
    leader.value.node ∈ graph.visited :=
  (hg.isVisitedOutput_of_mem (aliasLeader_mem h)).1

theorem scope_of_aliasLeader {leader : OutputVisit} (h : leader ∈ graph.aliasLeaders) :
    leader.scope = graph.scopeOf (graph.modelOf leader.value.node) :=
  hg.scope_of_outputVisit (aliasLeader_mem h)

/-- The walk opens the scope of every class. -/
theorem knows_aliasClass (scoping : Scoping) :
    ∀ cls ∈ graph.settlingOrder.map graph.aliasClassOf,
      (Namespace.ofScopes (graph.treeAfter scoping graph.visited) 1).Knows cls.scope := by
  intro cls hc
  obtain ⟨leader, hl, rfl⟩ := exists_leader_of_mem hc
  refine ⟨⟨graph.pathTo scoping (graph.modelOf leader.value.node), ?_⟩, nofun⟩
  simp only [aliasClassOf, hg.scope_of_aliasLeader hl]
  exact hg.path?_treeAfter _ List.prefix_rfl
    (hg.modelOf_mem_scopeModels (hg.aliasLeader_visited hl))

/-- The members of a class have aliases of their own. -/
theorem source_of_member {leader : OutputVisit} {member : Value}
    (hl : leader ∈ graph.aliasLeaders)
    (h : graph.aliasPartition.related leader.value member = true) :
    graph.source member = member := by
  obtain ⟨-, node, hn, hr, -⟩ := hg.isVisitedOutput_of_member hl h
  exact source_of_not_result hn hr

/-- Outputs of two classes have an alias in common only if they lie in alternatives. -/
theorem alternatives_of_holds {scoping : Scoping} (hd : graph.AliasesDistinct scoping after)
    {u v : Value} {name : String} (hu : graph.IsVisitedOutput u) (hv : graph.IsVisitedOutput v)
    (hne : graph.aliasPartition.related u v = false) (hun : after.Holds u name)
    (hvn : after.Holds v name) : scoping = .exclusive ∧
      graph.Alternatives graph.visited (graph.modelOf u.node) (graph.modelOf v.node) := by
  obtain ⟨leader, hl, hru⟩ := hg.exists_aliasLeader hu
  obtain ⟨leader', hl', hrv⟩ := hg.exists_aliasLeader hv
  have hleaders : leader ≠ leader' := by
    rintro rfl
    rw [Partition.related_trans (Partition.related_symm hru) hrv] at hne
    cases hne
  obtain ⟨hscoping, halt⟩ := hd leader hl leader' hl' hleaders u v name hru hrv hun hvn
  exact ⟨hscoping, halt.mono (hg.within_aliasLeader hl hru) (hg.within_aliasLeader hl' hrv)⟩

section Plan

variable {plan : List (AliasClass × List (String × String))} {space last : Namespace}
  (hclasses : plan.map (·.1) = graph.settlingOrder.map graph.aliasClassOf)
  (hplan : AliasClass.SettleAll graph space plan last)
include hclasses

omit hg in
theorem exists_swaps {leader : OutputVisit} (hl : leader ∈ graph.aliasLeaders) :
    ∃ swaps, (graph.aliasClassOf leader, swaps) ∈ plan := by
  have hmem : graph.aliasClassOf leader ∈ plan.map (·.1) :=
    hclasses ▸ List.mem_map_of_mem (settlingOrder_perm.mem_iff.2 hl)
  obtain ⟨entry, he, hentry⟩ := List.mem_map.1 hmem
  exact ⟨entry.2, hentry ▸ he⟩

omit hg in
theorem exists_leader_of_mem_plan {entry : AliasClass × List (String × String)}
    (he : entry ∈ plan) : ∃ leader ∈ graph.aliasLeaders, graph.aliasClassOf leader = entry.1 := by
  have hmem : entry.1 ∈ graph.settlingOrder.map graph.aliasClassOf :=
    hclasses ▸ List.mem_map_of_mem he
  exact exists_leader_of_mem hmem

section Member

variable {leader : OutputVisit} {swaps : List (String × String)} {member : Value}
  (hl : leader ∈ graph.aliasLeaders) (he : (graph.aliasClassOf leader, swaps) ∈ plan)
  (hr : graph.aliasPartition.related leader.value member = true)
include hl he hr

omit hg in
/-- The members of a class undergo the swaps of the class and no others. -/
theorem filter_plan : (plan.flatMap fun entry => entry.1.renamesOf graph entry.2).filter
      (fun rename => rename.site = .output member) =
    (swaps.filter fun swap => swap.1 ∈ (graph.aliases? member).getD ∅).map
      fun swap => ⟨.output member, swap.1, swap.2⟩ := by
  have hnodup : (plan.map (·.1)).Nodup := hclasses ▸ nodup_aliasClasses
  -- A rename of the member elsewhere in the plan would put it in two classes.
  have hothers : ∀ entry ∈ plan, entry ≠ (graph.aliasClassOf leader, swaps) →
      (entry.1.renamesOf graph entry.2).filter (fun rename => rename.site = .output member) =
        [] := by
    intro entry hentry hne
    refine List.filter_eq_nil_iff.2 fun rename hrename => ?_
    obtain ⟨value, hv, hsite⟩ := AliasClass.site_of_mem_renamesOf hrename
    obtain ⟨leader', hl', hleader'⟩ := exists_leader_of_mem_plan hclasses hentry
    rw [hsite]
    simp only [NameSite.output.injEq, decide_eq_true_eq]
    rintro rfl
    rw [← hleader'] at hv
    have hsame : leader' = leader := Partition.leader_unique hl' hl
      (Partition.related_trans (valid_aliasPartition.mem_classOf.1 hv) (Partition.related_symm hr))
    exact hne (List.inj_on_of_nodup_map hnodup hentry he (hleader'.symm.trans (hsame ▸ rfl)))
  rw [List.filter_flatMap, flatMap_eq_of_unique (List.Nodup.of_map _ hnodup) he hothers,
    AliasClass.filter_renamesOf (valid_aliasPartition.nodup_classOf _)
      (valid_aliasPartition.mem_classOf.2 hr)]

include hplan

theorem holds_after {name : String} :
    (graph.renameAll (plan.flatMap fun entry => entry.1.renamesOf graph entry.2)).Holds
      member name ↔ ∃ old, graph.Holds member old ∧ substitute swaps old = name := by
  obtain ⟨before, next, hsettles⟩ := hplan.settles _ he
  rw [Holds, aliases?_renameAll, hg.source_of_member hl hr, filter_plan hclasses hl he hr]
  simp only [List.foldl_map, Holds]
  cases graph.aliases? member with
  | none => simp
  | some names =>
    -- Swaps of aliases that the member does not have are left out, which substitutes the same.
    rw [Option.map_some, Option.getD_some, Option.getD_some, mem_foldl_replace
      (hsettles.swapped.nodup.sublist (List.filter_sublist.map _))
      fun swap hs hm => hsettles.swapped.not_mem_olds (List.mem_filter.1 hs).1
        ((List.filter_sublist.map _).subset hm)]
    refine exists_congr fun old => and_congr_right fun ho => ?_
    rw [substitute_filter fun swap _ hswap => by simpa [hswap] using ho]

end Member

end Plan

theorem exists_aliasPlan (h : graph.aliasReport? config = some report) :
    ∃ plan last, plan.map (·.1) = graph.settlingOrder.map graph.aliasClassOf ∧
      AliasClass.SettleAll graph (.ofScopes (graph.treeAfter config.scoping graph.visited) 1) plan
        last ∧ report.renames = plan.flatMap fun entry => entry.1.renamesOf graph entry.2 := by
  rw [hg.aliasReport?_eq] at h
  obtain ⟨⟨reports, last⟩, hrun, rfl⟩ := Option.map_eq_some_iff.1 h
  obtain ⟨plan, hplan, hclasses, hrenames⟩ := AliasClass.exists_settleAll hrun
  exact ⟨plan, last, hclasses, hplan, by rw [Report.renames_concat, hrenames]⟩

/-- Only aliases are replaced, and only those of visited outputs. -/
theorem site_of_aliasRename (h : graph.aliasReport? config = some report) {rename : Rename}
    (hr : rename ∈ report.renames) :
    ∃ value, graph.IsVisitedOutput value ∧ rename.site = .output value := by
  obtain ⟨plan, last, hclasses, -, hrenames⟩ := hg.exists_aliasPlan h
  rw [hrenames] at hr
  obtain ⟨entry, he, hr⟩ := List.mem_flatMap.1 hr
  obtain ⟨member, hm, hsite⟩ := AliasClass.site_of_mem_renamesOf hr
  obtain ⟨leader, hl, hleader⟩ := exists_leader_of_mem_plan hclasses he
  rw [← hleader] at hm
  have hrelated := valid_aliasPartition.mem_classOf.1 hm
  exact ⟨member, hg.isVisitedOutput_of_member hl hrelated, hsite⟩

section Sites

variable (h : graph.aliasReport? config = some report) {rename : Rename}
  (hr : rename ∈ report.renames)
include h hr

theorem isVisitedOutput_of_aliasRename {value : Value} (hsite : rename.site = .output value) :
    graph.IsVisitedOutput value := by
  obtain ⟨other, ho, hother⟩ := hg.site_of_aliasRename h hr
  rw [hsite] at hother
  cases hother
  exact ho

theorem aliasRename_ne_friendly (id : NodeId) : rename.site ≠ .friendly id := by
  obtain ⟨value, -, hvalue⟩ := hg.site_of_aliasRename h hr
  rw [hvalue]
  nofun

end Sites

theorem aliasOutcome (h : graph.resolveAliases? config = some (report, after)) :
    graph.AliasOutcome config.scoping after := by
  obtain ⟨hreport, rfl⟩ := resolveAliases?_eq_some.1 h
  obtain ⟨plan, last, hclasses, hplan, hrenames⟩ := hg.exists_aliasPlan hreport
  rw [hrenames]
  constructor
  · intro leader hl
    obtain ⟨swaps, he⟩ := exists_swaps hclasses hl
    obtain ⟨before, next, hsettles⟩ := hplan.settles _ he
    refine ⟨substitute swaps, ?_, fun member hr name => hg.holds_after hclasses hplan hl he hr⟩
    simpa only [mem_aliases_aliasClassOf] using hsettles.swapped.injOn
  · intro leader hl leader' hl' hne u v name hu hv hun hvn
    obtain ⟨swaps, he⟩ := exists_swaps hclasses hl
    obtain ⟨swaps', he'⟩ := exists_swaps hclasses hl'
    obtain ⟨old, hold, hsub⟩ := (hg.holds_after hclasses hplan hl he hu).1 hun
    obtain ⟨old', hold', hsub'⟩ := (hg.holds_after hclasses hplan hl' he' hv).1 hvn
    have hentry : (graph.aliasClassOf leader, swaps) ≠ (graph.aliasClassOf leader', swaps') :=
      fun heq => hne (eq_of_aliasClassOf_eq hl hl' (congrArg Prod.fst heq))
    have hpair : plan.Pairwise
        (AliasClass.Compatible graph (graph.treeAfter config.scoping graph.visited)) :=
      hplan.pairwise
    have : Std.Symm
        (AliasClass.Compatible graph (graph.treeAfter config.scoping graph.visited)) :=
      ⟨fun _ _ h => h.symm⟩
    have hex := hpair.forall he he' hentry
      old (mem_aliases_aliasClassOf.2 ⟨u, hu, hold⟩) old'
      (mem_aliases_aliasClassOf.2 ⟨v, hv, hold'⟩) (hsub.trans hsub'.symm)
    simp only [aliasClassOf, hg.scope_of_aliasLeader hl, hg.scope_of_aliasLeader hl'] at hex
    exact hg.alternatives_of_exclusive? (hg.aliasLeader_visited hl) (hg.aliasLeader_visited hl') hex

/-- A pass that finds no clash changes nothing. -/
theorem resolveAliases?_fixed (h : graph.AliasesDistinct config.scoping graph) :
    ∃ report, graph.resolveAliases? config = some (report, graph) ∧ report.renames = [] := by
  obtain ⟨reports, last, hrun, hnone⟩ := AliasClass.thread?_assign?_fixed
    (hg.knows_aliasClass config.scoping)
    (fun cls _ name _ => Namespace.free_ofScopes _ 1 cls.scope name)
    (nodup_aliasClasses.imp_of_mem fun {cls cls'} hc hc' hne name hn hn' => by
      obtain ⟨leader, hl, rfl⟩ := exists_leader_of_mem hc
      obtain ⟨leader', hl', rfl⟩ := exists_leader_of_mem hc'
      obtain ⟨u, hu, hun⟩ := mem_aliases_aliasClassOf.1 hn
      obtain ⟨v, hv, hvn⟩ := mem_aliases_aliasClassOf.1 hn'
      obtain ⟨hscoping, halt⟩ := h leader hl leader' hl' (fun he => hne (he ▸ rfl)) u v name hu hv
        hun hvn
      simp only [aliasClassOf, hg.scope_of_aliasLeader hl, hg.scope_of_aliasLeader hl',
        Namespace.ofScopes, hscoping]
      exact hg.exclusive?_of_alternatives (hg.aliasLeader_visited hl) (hg.aliasLeader_visited hl')
        halt)
  refine ⟨.concat reports, ?_, by simpa using hnone⟩
  rw [resolveAliases?, hg.aliasReport?_eq, hrun]
  simp [hnone, renameAll]

end WellFormed

end Graph

end GraphNaming
