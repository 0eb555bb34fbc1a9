import GraphNaming.Proofs.Passes
import Mathlib.Data.List.Perm.Subperm

/-!
# Which aliases a pass gives

The aliases after a pass, told by themselves: each class looks at the final aliases of the classes
that settle before it.

* `Graph.AliasSpec`: what the graph after a pass is like.
* `AliasSpec.unique`: it can be like that in one way only.
* `AliasSpec.of_parameter`: aliases that come in through a parameter make way for such only.
* `WellFormed.aliasSpec`: every pass leaves a graph like that.
* `WellFormed.exists_resolveAliases?`: a pass has an answer as long as there are numbers enough.
* `Reachable.aliases_specified`: the same for every graph that some history leads to.
-/

namespace GraphNaming.Graph

/-! ## The specification -/

section Spec

variable (graph : Graph) (walk : Walk) (links : Partition Value) (outputs : List OutputVisit)

/-- The class first visited at `rival` settles before the one first visited at `visit`: those first
visited at a parameter come first, and else the order is that of the first visits. -/
def SettlesBefore (rival visit : OutputVisit) : Prop :=
  rival.atParameter = true ∧ visit.atParameter = false ∨
    rival.atParameter = visit.atParameter ∧ Before outputs rival visit

/-- Some member of the class of `value` goes by the alias `name`. -/
def ClassHolds (value : Value) (name : String) : Prop :=
  ∃ member ∈ links.classOf value, graph.Holds member name

/-- The aliases of the classes that settle before the one first visited at `visit`, without those of
exclusive scopes. -/
def aliasesBefore (visit : OutputVisit) : Set String :=
  {name | ∃ rival, links.IsFirst (·.value) outputs rival ∧ SettlesBefore outputs rival visit ∧
    walk.scopes.exclusive? rival.scope visit.scope ≠ some true ∧
    graph.ClassHolds links rival.value name}

/-- What a pass over the aliases leaves of a graph. -/
structure AliasSpec (after : Graph) : Prop where
  shape : after.shape = graph.shape
  userNamed : ∀ id, after.isUserNamed id = graph.isUserNamed id
  friendly : ∀ id, after.friendlyText? id = graph.friendlyText? id
  /-- What is no visited output keeps its aliases. -/
  outside : ∀ value, (∀ visit ∈ outputs, visit.value ≠ value) →
    after.output? value = graph.output? value
  /-- Of each class, the aliases that other classes hold before it are swapped in all members. -/
  settled : ∀ visit, links.IsFirst (·.value) outputs visit → ∃ swaps,
    SwapsFor 1 (after.aliasesBefore walk links outputs visit)
      {name | graph.ClassHolds links visit.value name} swaps ∧
    ∀ member ∈ links.classOf visit.value, ∀ name,
      after.Holds member name ↔ ∃ old, graph.Holds member old ∧ substitute swaps old = name

end Spec

variable {graph after other : Graph} {config : Config} {walk : Walk} {links : Partition Value}
  {outputs : List OutputVisit}

namespace AliasSpec

/-! ## One graph only -/

section Unique

variable (h : graph.AliasSpec walk links outputs after)
  (h' : graph.AliasSpec walk links outputs other)
include h h'

/-- Classes with the same aliases before them come to the same aliases. -/
private theorem holds_of_before {visit : OutputVisit} (hv : links.IsFirst (·.value) outputs visit)
    (ih : ∀ rival, links.IsFirst (·.value) outputs rival → SettlesBefore outputs rival visit →
      ∀ member ∈ links.classOf rival.value, ∀ name,
        after.Holds member name ↔ other.Holds member name) :
    ∀ member ∈ links.classOf visit.value, ∀ name,
      after.Holds member name ↔ other.Holds member name := by
  have hbefore : after.aliasesBefore walk links outputs visit =
      other.aliasesBefore walk links outputs visit := by
    ext name
    refine exists_congr fun rival => and_congr_right fun hr => and_congr_right fun hb =>
      and_congr_right fun _ => exists_congr fun member => and_congr_right fun hm => ?_
    exact ih rival hr hb member hm name
  -- The same names are blocked in both graphs, so the same swaps are the first ones possible.
  obtain ⟨swaps, hswaps, hholds⟩ := h.settled visit hv
  obtain ⟨swaps', hswaps', hholds'⟩ := h'.settled visit hv
  obtain rfl := hswaps.unique (hbefore ▸ hswaps')
  intro member hm name
  rw [hholds member hm, hholds' member hm]

/-- The specification says all there is to say. -/
theorem unique (hvalid : links.Valid) (hn : outputs.Nodup)
    (hsource : ∀ visit ∈ outputs, graph.source visit.value = visit.value) : after = other := by
  have horder : (outputs.filter (·.atParameter) ++ outputs.filter fun visit =>
      !visit.atParameter).Perm outputs := List.filter_append_perm _ _
  have hsettled : ∀ visit ∈ outputs, links.IsFirst (·.value) outputs visit →
      ∀ member ∈ links.classOf visit.value, ∀ name,
        after.Holds member name ↔ other.Holds member name := by
    -- The induction is on the order in which the classes settle: parameters first, then in the
    -- order of the visits.
    have hinduct := Before.induct (horder.nodup_iff.2 hn)
      (P := fun visit => links.IsFirst (·.value) outputs visit →
        ∀ member ∈ links.classOf visit.value, ∀ name,
          after.Holds member name ↔ other.Holds member name)
      fun visit _ ih hfirst => h.holds_of_before h' hfirst fun rival hr hb =>
        ih rival ((Before.filter_append_iff hr.1 hfirst.1).2 hb) hr
    exact fun visit hv => hinduct visit (horder.mem_iff.2 hv)
  refine eq_of_names (h.shape.trans h'.shape.symm)
    (fun id => (h.friendly id).trans (h'.friendly id).symm)
    (fun id => (h.userNamed id).trans (h'.userNamed id).symm) fun value => ?_
  -- Outputs that are not visited keep their aliases in both graphs, and the others share those of
  -- the first of their class.
  by_cases hv : ∀ visit ∈ outputs, visit.value ≠ value
  · rw [h.outside value hv, h'.outside value hv]
  · simp only [not_forall, not_not] at hv
    obtain ⟨visit, hv, rfl⟩ := hv
    obtain ⟨leader, hl, hr, -⟩ : ∃ leader ∈ links.leaders (·.value) outputs,
        links.related leader.value visit.value = true ∧
          (leader = visit ∨ Before outputs leader visit) := Partition.exists_leader hv
    have hfirst := (Partition.mem_leaders_iff hn).1 hl
    refine output?_eq_of_holds (h.shape.trans h'.shape.symm) ?_
      (hsettled leader hfirst.1 hfirst _ (hvalid.mem_classOf.2 hr))
    rw [source_of_shape h.shape.symm, hsource visit hv]

end Unique

/-! ## Parameters -/

/-- A class that is first visited at a parameter gives up an alias only if a class that is first
visited at an earlier parameter holds it. -/
theorem of_parameter (h : graph.AliasSpec walk links outputs after) {visit : OutputVisit}
    (hv : links.IsFirst (·.value) outputs visit) (hp : visit.atParameter = true) {member : Value}
    (hm : member ∈ links.classOf visit.value) {name : String} (hbefore : graph.Holds member name)
    (hafter : ¬ after.Holds member name) :
    ∃ rival, links.IsFirst (·.value) outputs rival ∧ rival.atParameter = true ∧
      Before outputs rival visit ∧ walk.scopes.exclusive? rival.scope visit.scope ≠ some true ∧
      after.ClassHolds links rival.value name := by
  obtain ⟨swaps, hswaps, hholds⟩ := h.settled visit hv
  have hblocked : name ∈ after.aliasesBefore walk links outputs visit := by
    refine Classical.byContradiction fun hfree => hafter ((hholds member hm name).2 ?_)
    exact ⟨name, hbefore, hswaps.substitute_of_not_blocked hfree⟩
  obtain ⟨rival, hr, hturn, hex, hname⟩ := hblocked
  rcases hturn with ⟨-, hother⟩ | ⟨hsame, hturn⟩
  · rw [hp] at hother
    cases hother
  · exact ⟨rival, hr, hsame.trans hp, hturn, hex, hname⟩

end AliasSpec

namespace WellFormed

variable (hg : graph.WellFormed)
include hg

/-! ## Every pass -/

theorem isFirst_output_iff {visit : OutputVisit} :
    graph.aliasPartition.IsFirst (·.value) graph.outputVisits visit ↔ visit ∈ graph.aliasLeaders :=
  (Partition.mem_leaders_iff hg.nodup_outputVisits).symm

section Plan

variable {plan : List (AliasClass × List (String × String))} {tree : ScopeTree} {last : Namespace}
  (hclasses : plan.map (·.1) = graph.settlingOrder.map graph.aliasClassOf)
include hclasses

/-- The classes settle in the order of the plan. -/
private theorem before_plan_iff {rival leader : OutputVisit} {swaps swaps' : List (String × String)}
    (hr : rival ∈ graph.aliasLeaders) (hl : leader ∈ graph.aliasLeaders)
    (he : (graph.aliasClassOf rival, swaps) ∈ plan)
    (he' : (graph.aliasClassOf leader, swaps') ∈ plan) :
    Before plan (graph.aliasClassOf rival, swaps) (graph.aliasClassOf leader, swaps') ↔
      SettlesBefore graph.outputVisits rival leader := by
  have hnodup : (plan.map (·.1)).Nodup := hclasses ▸ nodup_aliasClasses
  rw [← Before.map_iff hnodup he he', hclasses, Before.map_iff nodup_aliasClasses
    (settlingOrder_perm.mem_iff.2 hr) (settlingOrder_perm.mem_iff.2 hl), settlingOrder,
    Before.filter_append_iff hr hl]
  exact or_congr_right (and_congr_right fun _ =>
    Before.sublist_iff hg.nodup_outputVisits (Partition.leaders_sublist _) hr hl)

/-- The aliases before a class are those that are blocked for it in the plan. -/
private theorem aliasesBefore_eq (visits : List Visit)
    (hplan : AliasClass.SettleAll graph (.ofScopes tree 1) plan last) {leader : OutputVisit}
    (hl : leader ∈ graph.aliasLeaders) {swaps : List (String × String)}
    (he : (graph.aliasClassOf leader, swaps) ∈ plan) :
    (graph.renameAll (plan.flatMap fun entry => entry.1.renamesOf graph entry.2)).aliasesBefore
        ⟨visits, tree⟩ graph.aliasPartition graph.outputVisits leader =
      AliasClass.SettleAll.blocked graph (.ofScopes tree 1) plan
        (graph.aliasClassOf leader, swaps) := by
  ext name
  simp only [aliasesBefore, AliasClass.SettleAll.blocked, Namespace.blockedFor,
    Namespace.taken_ofScopes, Set.mem_ofPred_eq, Set.mem_empty_iff_false, false_or]
  -- Leaders on the one side are classes of the plan on the other, in the same order, and the
  -- rival's aliases after the pass are its substituted ones.
  constructor
  · rintro ⟨rival, hfirst, hturn, hex, member, hm, hholds⟩
    have hr := hg.isFirst_output_iff.1 hfirst
    have hm := valid_aliasPartition.mem_classOf.1 hm
    obtain ⟨swaps', he'⟩ := exists_swaps hclasses hr
    obtain ⟨old, hold, hsub⟩ := (hg.holds_after hclasses hplan hr he' hm).1 hholds
    exact ⟨_, (hg.before_plan_iff hclasses hr hl he' he).2 hturn,
      ⟨old, mem_aliases_aliasClassOf.2 ⟨member, hm, hold⟩, hsub⟩, hex⟩
  · rintro ⟨⟨cls, swaps'⟩, hb, ⟨old, hold, hsub⟩, hex⟩
    obtain ⟨rival, hr, hrival⟩ := exists_leader_of_mem_plan hclasses hb.left_mem
    obtain rfl : graph.aliasClassOf rival = cls := hrival
    obtain ⟨member, hm, hold⟩ := mem_aliases_aliasClassOf.1 hold
    exact ⟨rival, hg.isFirst_output_iff.2 hr,
      (hg.before_plan_iff hclasses hr hl hb.left_mem he).1 hb, hex, member,
      valid_aliasPartition.mem_classOf.2 hm,
      (hg.holds_after hclasses hplan hr hb.left_mem hm).2 ⟨old, hold, hsub⟩⟩

end Plan

/-- The graph after a pass is as specified. -/
theorem aliasSpec {report : Report} (h : graph.resolveAliases? config = some (report, after)) :
    graph.AliasSpec ⟨graph.visited.map graph.visitOf, graph.treeAfter config.scoping graph.visited⟩
      graph.aliasPartition graph.outputVisits after := by
  have hshape := shape_resolveAliases? h
  have huser := (hg.sameClasses_resolveAliases? h).userNamed
  have htext := hg.friendlyText?_resolveAliases? h
  have houtside {value : Value} (hv : ¬ graph.IsVisitedOutput value) :=
    hg.output?_of_not_visited h hv
  obtain ⟨hreport, rfl⟩ := resolveAliases?_eq_some.1 h
  constructor
  · exact hshape
  · exact huser
  · exact htext
  · refine fun value hv => houtside fun hvisited => ?_
    obtain ⟨visit, hvisit, hvalue⟩ := hg.exists_outputVisit hvisited
    exact hv visit hvisit hvalue
  · intro visit hv
    have hl := hg.isFirst_output_iff.1 hv
    obtain ⟨plan, last, hclasses, hplan, hrenames⟩ := hg.exists_aliasPlan hreport
    obtain ⟨swaps, he⟩ := exists_swaps hclasses hl
    have hnodup : plan.Nodup := .of_map _ (hclasses ▸ nodup_aliasClasses)
    have hnames : {name | name ∈ (graph.aliasClassOf visit).aliases graph} =
        {name | graph.ClassHolds graph.aliasPartition visit.value name} := by
      ext name
      simp only [Set.mem_ofPred_eq, mem_aliases_aliasClassOf, ClassHolds,
        valid_aliasPartition.mem_classOf]
    refine ⟨swaps, ?_, fun member hm name => ?_⟩
    · rw [hrenames, hg.aliasesBefore_eq hclasses _ hplan hl he, ← hnames]
      exact hplan.swapsFor hnodup _ he
    · rw [hrenames]
      exact hg.holds_after hclasses hplan hl he (valid_aliasPartition.mem_classOf.1 hm)

end WellFormed

/-! ## Numbers enough -/

/-- The aliases that the value goes by. -/
def aliasesOf (graph : Graph) (value : Value) : List String :=
  ((graph.aliases? value).getD ∅).toList

theorem subperm_flatMap {α β : Type} {items more : List α} (h : items.Subperm more)
    (f : α → List β) : (items.flatMap f).Subperm (more.flatMap f) := by
  obtain ⟨part, hperm, hsub⟩ := h
  exact (hperm.flatMap fun item _ => .refl (f item)).symm.subperm.trans (hsub.flatMap f).subperm

theorem subperm_flatMap_right {α β : Type} {items : List α} {f g : α → List β}
    (h : ∀ item ∈ items, (f item).Subperm (g item)) :
    (items.flatMap f).Subperm (items.flatMap g) := by
  induction items with
  | nil => exact .refl _
  | cons item items ih =>
    obtain ⟨hitem, hitems⟩ := List.forall_mem_cons.1 h
    rw [List.flatMap_cons, List.flatMap_cons]
    exact hitem.append (ih hitems)

/-- Each alias of a class is one of some member. -/
theorem subperm_aliases (cls : AliasClass) :
    (cls.aliases graph).toList.Subperm (cls.members.flatMap graph.aliasesOf) :=
  (AliasSet.nodup_toList _).subperm fun _ hn =>
    List.mem_flatMap.2 (AliasClass.mem_aliases.1 hn)

namespace WellFormed

variable (hg : graph.WellFormed)
include hg

/-- The classes have no more aliases than the visited outputs have together. -/
theorem length_aliases_le : ((graph.settlingOrder.map graph.aliasClassOf).flatMap fun cls =>
      (cls.aliases graph).toList).length ≤
    (graph.outputVisits.flatMap fun visit => graph.aliasesOf visit.value).length := by
  calc ((graph.settlingOrder.map graph.aliasClassOf).flatMap fun cls =>
        (cls.aliases graph).toList).length
      ≤ ((graph.settlingOrder.map graph.aliasClassOf).flatMap fun cls =>
        cls.members.flatMap graph.aliasesOf).length :=
        (subperm_flatMap_right fun cls _ => subperm_aliases cls).length_le
    _ = (((graph.settlingOrder.map graph.aliasClassOf).flatMap (·.members)).flatMap
        graph.aliasesOf).length := by rw [List.flatMap_assoc]
    _ = ((graph.outputVisits.map (·.value)).flatMap graph.aliasesOf).length :=
        (hg.settlingMembers_perm.flatMap_right _).length_eq
    _ = (graph.outputVisits.flatMap fun visit => graph.aliasesOf visit.value).length := by
        rw [List.flatMap_map]

/-- A pass has an answer as long as there are as many numbers as aliases. -/
theorem exists_resolveAliases? (config : Config)
    (hfew : (graph.outputVisits.flatMap fun visit => graph.aliasesOf visit.value).length ≤
      maxSuffix) :
    ∃ report after, graph.resolveAliases? config = some (report, after) := by
  have hclasses := hg.length_aliases_le
  obtain ⟨reports, last, hrun⟩ := AliasClass.thread?_assign?_knows graph
    (hg.knows_aliasClass config.scoping) (by
      simp only [Namespace.ofScopes, List.length_nil]
      omega)
  exact ⟨_, _, resolveAliases?_eq_some.2 ⟨by rw [hg.aliasReport?_eq, hrun]; rfl, rfl⟩⟩

end WellFormed

/-- The graph after a pass over the aliases is the one that its specification describes, in terms of
the walk and the links on entry, and what comes in through a parameter makes way for nothing else.
There is such a graph as long as there are as many numbers as aliases. -/
theorem Reachable.aliases_specified (hr : graph.Reachable) (config : Config) :
    ∃ walk links outputs, graph.walk? config.scoping = some walk ∧
      graph.aliasLinks? walk.nodes = some links ∧ graph.outputVisits? walk.visits = some outputs ∧
      ((outputs.flatMap fun visit => graph.aliasesOf visit.value).length ≤ maxSuffix →
        ∃ report result, graph.resolveAliases? config = some (report, result)) ∧
      ∀ report result, graph.resolveAliases? config = some (report, result) →
        (∀ after, graph.AliasSpec walk links outputs after ↔ after = result) ∧
        ∀ visit, links.IsFirst (·.value) outputs visit → visit.atParameter = true →
          ∀ member ∈ links.classOf visit.value, ∀ name, graph.Holds member name →
            ¬ result.Holds member name →
            ∃ rival, links.IsFirst (·.value) outputs rival ∧ rival.atParameter = true ∧
              Before outputs rival visit ∧
              walk.scopes.exclusive? rival.scope visit.scope ≠ some true ∧
              result.ClassHolds links rival.value name := by
  have hg := hr.wellFormed
  have hnodes := hg.nodes_of_walk? (hg.walk?_eq config.scoping)
  refine ⟨_, graph.aliasPartition, graph.outputVisits, hg.walk?_eq config.scoping, ?_,
    hg.outputVisits?_eq, hg.exists_resolveAliases? config, ?_⟩
  · rw [hnodes]
    exact hg.aliasLinks?_eq
  · intro report result h
    have hspec := hg.aliasSpec h
    have hsource : ∀ visit ∈ graph.outputVisits, graph.source visit.value = visit.value := by
      intro visit hv
      obtain ⟨-, node, hn, hresult, -⟩ := hg.isVisitedOutput_of_mem hv
      exact source_of_not_result hn hresult
    refine ⟨fun after => ⟨fun hafter => ?_, ?_⟩, fun visit hv hp member hm name => ?_⟩
    · exact hafter.unique hspec valid_aliasPartition hg.nodup_outputVisits hsource
    · rintro rfl
      exact hspec
    · exact hspec.of_parameter hv hp hm

/-- In the conditional a pass replaces aliases, and leaves what its specification describes. -/
theorem aliases_specified_conditional :
    ∃ walk links outputs report result, conditional.walk? .exclusive = some walk ∧
      conditional.aliasLinks? walk.nodes = some links ∧
      conditional.outputVisits? walk.visits = some outputs ∧
      conditional.resolveAliases? {} = some (report, result) ∧ result ≠ conditional ∧
      conditional.AliasSpec walk links outputs result := by
  have hrun : (conditional.resolveAliases? {}).any fun run => run.2 ≠ conditional := by
    decide +kernel
  obtain ⟨⟨report, result⟩, h, hchanged⟩ := (Option.any_eq_true _ _).1 hrun
  obtain ⟨walk, links, outputs, hwalk, hlinks, houtputs, -, hspec⟩ :=
    reachable_conditional.aliases_specified {}
  exact ⟨walk, links, outputs, report, result, hwalk, hlinks, houtputs, h,
    of_decide_eq_true hchanged, ((hspec report result h).1 result).2 rfl⟩

end GraphNaming.Graph
