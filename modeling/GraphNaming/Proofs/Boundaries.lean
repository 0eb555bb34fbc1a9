import GraphNaming.Proofs.Totality

/-!
# The two sides of a boundary

A shared binding makes one name of two, and a pass keeps them in step: where the two sides agree
before it they agree after it, and where they do not it makes no accident agree.

* `WellFormed.exists_substitution`: the members of a class undergo one injective substitution.
* `WellFormed.aliases?_eq_iff`: linked values agree after a pass if they did before.
* `Reachable.boundaries_in_step`: all that a pass keeps of its links.
-/

namespace GraphNaming.Graph

variable {graph after : Graph} {config : Config} {report : Report}

/-- All aliases of the values that are linked with `value`. -/
def classAliases (graph : Graph) (value : Value) : Set String :=
  {name | ∃ member ∈ graph.aliasPartition.classOf value, graph.Holds member name}

/-- Existing values have the same aliases if they go by the same names. -/
theorem aliases?_eq_iff_holds {u v : Value} (hu : ∃ names, graph.aliases? u = some names)
    (hv : ∃ names, graph.aliases? v = some names) : graph.aliases? u = graph.aliases? v ↔
      {name | graph.Holds u name} = {name | graph.Holds v name} := by
  obtain ⟨names, hu⟩ := hu
  obtain ⟨names', hv⟩ := hv
  simp only [Holds, hu, hv, Option.getD_some, Option.some.injEq, Set.ext_iff, Set.mem_ofPred_eq]
  exact ⟨fun h name => by rw [h], AliasSet.ext⟩

theorem IsVisitedOutput.exists_aliases? {value : Value} (h : graph.IsVisitedOutput value) :
    ∃ names, graph.aliases? value = some names := by
  obtain ⟨-, node, hn, hr, hi⟩ := h
  refine ⟨node.outputs[value.index].aliases, ?_⟩
  simp [aliases?, source_of_not_result hn hr, output?, hn, hi]

/-- A value goes by the aliases of its source. -/
theorem IsVisitedOutput.aliases?_source {value : Value}
    (h : graph.IsVisitedOutput (graph.source value)) :
    graph.aliases? (graph.source value) = graph.aliases? value := by
  obtain ⟨-, node, hn, hr, -⟩ := h
  rw [aliases?, source_of_not_result hn hr, ← aliases?]

theorem IsVisitedOutput.of_source_of_shape (hs : graph.shape = after.shape) {value : Value}
    (h : graph.IsVisitedOutput (graph.source value)) :
    after.IsVisitedOutput (after.source value) := by
  rw [source_of_shape hs]
  exact isVisitedOutput_of_shape hs h

theorem AliasOutcome.exists_substitution {scoping : Scoping} (hg : graph.WellFormed)
    (ho : graph.AliasOutcome scoping after) {value : Value} (hv : graph.IsVisitedOutput value) :
    ∃ f : String → String, Set.InjOn f (graph.classAliases value) ∧
      ∀ member ∈ graph.aliasPartition.classOf value,
        {name | after.Holds member name} = f '' {name | graph.Holds member name} := by
  obtain ⟨leader, hl, hr⟩ := hg.exists_aliasLeader hv
  obtain ⟨f, hinj, himage⟩ := ho.image leader hl
  have hclass {member : Value} : member ∈ graph.aliasPartition.classOf value ↔
      graph.aliasPartition.related leader.value member = true := by
    rw [← valid_aliasPartition.related_iff.1 hr, valid_aliasPartition.mem_classOf]
  refine ⟨f, ?_, fun member hm => Set.ext fun name => himage member (hclass.1 hm) name⟩
  simpa only [classAliases, hclass] using hinj

namespace WellFormed

variable (hg : graph.WellFormed) (h : graph.resolveNames? config = some (report, after))
include hg h

/-- The values of a class undergo one substitution, and no two of their aliases become one. -/
theorem exists_substitution (value : Value) :
    ∃ f : String → String, Set.InjOn f (graph.classAliases value) ∧
      ∀ member ∈ graph.aliasPartition.classOf value,
        {name | after.Holds member name} = f '' {name | graph.Holds member name} := by
  have ho := hg.aliasOutcome_resolveNames? h
  have hs := (shape_resolveNames? h).symm
  by_cases hv : graph.IsVisitedOutput value
  · exact ho.exists_substitution hg hv
  -- The value is alone in its class, but it may still go by the aliases of another.
  have halone : ∀ member ∈ graph.aliasPartition.classOf value, member = value := fun member hm =>
    (hg.eq_or_isVisitedOutput_of_related (valid_aliasPartition.mem_classOf.1 hm)).resolve_right hv
  by_cases hsource : graph.IsVisitedOutput (graph.source value)
  · obtain ⟨f, hinj, himage⟩ := ho.exists_substitution hg hsource
    have hself := graph.aliasPartition.mem_classOf_self (graph.source value)
    have hbefore := hsource.aliases?_source
    have hafter := (hsource.of_source_of_shape hs).aliases?_source
    rw [source_of_shape hs] at hafter
    refine ⟨f, hinj.mono ?_, fun member hm => ?_⟩
    · rintro name ⟨member, hm, hname⟩
      rw [halone member hm, Holds, ← hbefore] at hname
      exact ⟨graph.source value, hself, hname⟩
    · have hvalue := himage _ hself
      simpa only [halone member hm, Holds, hbefore, hafter] using hvalue
  · refine ⟨id, Set.injOn_id _, fun member hm => ?_⟩
    simp only [halone member hm, Holds, hg.aliases?_resolveNames?_of_not_visited h hsource,
      Set.image_id]

/-- Linked values have the same aliases after a pass if they had before, and only then. -/
theorem aliases?_eq_iff {u v : Value} (hpair : (u, v) ∈ graph.aliasPairs) :
    after.aliases? u = after.aliases? v ↔ graph.aliases? u = graph.aliases? v := by
  obtain ⟨-, hu, hv⟩ := hg.of_aliasPair hpair
  have hs := (shape_resolveNames? h).symm
  have hlinked : v ∈ graph.aliasPartition.classOf u :=
    valid_aliasPartition.mem_classOf.2 (Partition.related_joinAll_empty.2 (.rel _ _ hpair))
  have hself := graph.aliasPartition.mem_classOf_self u
  obtain ⟨f, hinj, himage⟩ := hg.exists_substitution h u
  rw [aliases?_eq_iff_holds hu.exists_aliases? hv.exists_aliases?,
    aliases?_eq_iff_holds (isVisitedOutput_of_shape hs hu).exists_aliases?
      (isVisitedOutput_of_shape hs hv).exists_aliases?, himage u hself, himage v hlinked]
  exact hinj.image_eq_image_iff (fun name hn => ⟨u, hself, hn⟩) fun name hn => ⟨v, hlinked, hn⟩

theorem inputs_in_step {owner : NodeId} {region : Region} {binding : InputBinding}
    (hv : owner ∈ graph.visited) (hr : region ∈ graph.regionsOf owner)
    (hb : binding ∈ region.inputs) (hl : binding.link = .shared) :
    after.aliases? binding.outer = after.aliases? (binding.inner.output 0) ↔
      graph.aliases? binding.outer = graph.aliases? (binding.inner.output 0) := by
  have hs := (shape_resolveNames? h).symm
  have hpair : (graph.source binding.outer, binding.inner.output 0) ∈ graph.aliasPairs := by
    refine mem_aliasPairs.2 ⟨owner, hv, region, hr, List.mem_append_left _ (List.mem_map.2 ?_)⟩
    exact ⟨binding, List.mem_filter.2 ⟨hb, by simpa using hl⟩, rfl⟩
  have hsource := (hg.of_aliasPair hpair).2.1
  rw [← hsource.aliases?_source, ← (hsource.of_source_of_shape hs).aliases?_source,
    source_of_shape hs]
  exact hg.aliases?_eq_iff h hpair

theorem outputs_in_step {owner : NodeId} {region : Region} {binding : OutputBinding}
    (hv : owner ∈ graph.visited) (hr : region ∈ graph.regionsOf owner)
    (hb : binding ∈ region.outputs) (hl : binding.link = .shared) :
    after.aliases? (owner.output binding.outer) = after.aliases? (binding.inner.output 0) ↔
      graph.aliases? (owner.output binding.outer) = graph.aliases? (binding.inner.output 0) := by
  have hs := (shape_resolveNames? h).symm
  have hpair : (owner.output binding.outer, graph.source (binding.inner.output 0)) ∈
      graph.aliasPairs := by
    refine mem_aliasPairs.2 ⟨owner, hv, region, hr, List.mem_append_right _ (List.mem_map.2 ?_)⟩
    exact ⟨binding, List.mem_filter.2 ⟨hb, by simpa using hl⟩, rfl⟩
  have hsource := (hg.of_aliasPair hpair).2.2
  rw [← hsource.aliases?_source, ← (hsource.of_source_of_shape hs).aliases?_source,
    source_of_shape hs]
  exact hg.aliases?_eq_iff h hpair

/-- The friendly names on both sides of a shared binding agree as before. -/
theorem agrees_resolveNames? {binding : InputBinding} (hb : binding ∈ graph.sharedBindings) :
    after.agrees binding = graph.agrees binding := by
  obtain ⟨_, middle, _, hf, ha, -⟩ := resolveNames?_eq_some.1 h
  have hs := (shape_resolveFriendlyNames? hf).symm
  have hm := hg.of_shape hs
  rw [← hg.agrees_after (hg.friendlyOutcome hf) hs hb]
  simp only [agrees, source_of_shape (shape_resolveAliases? ha).symm,
    hm.friendlyText?_resolveAliases? ha]

end WellFormed

/-- A pass keeps the classes of its links. The two sides of a shared binding of a visited owner have
one friendly name after it if they had before, and only then, and the same holds of their aliases;
for the aliases of each class are replaced by one substitution that keeps them apart. There is an
outcome on a graph with fewer than `2 ^ 32 - 2` nodes and aliases. -/
theorem Reachable.boundaries_in_step (hr : graph.Reachable) (config : Config) :
    ∃ walk links diverging classes, graph.walk? config.scoping = some walk ∧
      graph.friendlyLinks? walk.nodes = some (links, diverging) ∧
      graph.aliasLinks? walk.nodes = some classes ∧
      (graph.nodes.size < 0xFFFFFFFE → graph.allAliases.length < 0xFFFFFFFE →
        ∃ report after, graph.resolveNames? config = some (report, after)) ∧
      ∀ report after, graph.resolveNames? config = some (report, after) →
        after.walk? config.scoping = some walk ∧
        (∃ diverging', after.friendlyLinks? walk.nodes = some (links, diverging')) ∧
        after.aliasLinks? walk.nodes = some classes ∧
        (∀ owner ∈ walk.nodes, ∀ node, graph.node? owner = some node → ∀ region ∈ node.regions,
          (∀ binding ∈ region.inputs, binding.link = .shared →
            (after.friendlyText? (after.source binding.outer).node =
                after.friendlyText? binding.inner ↔
              graph.friendlyText? (graph.source binding.outer).node =
                graph.friendlyText? binding.inner) ∧
            (after.aliases? binding.outer = after.aliases? (binding.inner.output 0) ↔
              graph.aliases? binding.outer = graph.aliases? (binding.inner.output 0))) ∧
          ∀ binding ∈ region.outputs, binding.link = .shared →
            (after.aliases? (owner.output binding.outer) =
                after.aliases? (binding.inner.output 0) ↔
              graph.aliases? (owner.output binding.outer) =
                graph.aliases? (binding.inner.output 0))) ∧
        ∀ value, ∃ f : String → String,
          Set.InjOn f {name | ∃ member ∈ classes.classOf value, graph.Holds member name} ∧
          ∀ member ∈ classes.classOf value,
            {name | after.Holds member name} = f '' {name | graph.Holds member name} := by
  have hg := hr.wellFormed
  obtain ⟨walk, hwalk, hnodes⟩ := hg.exists_walk config.scoping
  obtain ⟨diverging, hlinks⟩ := hg.friendlyLinks?_eq
  refine ⟨walk, graph.friendlyPartition, diverging, graph.aliasPartition, hwalk, ?_⟩
  rw [hnodes]
  refine ⟨hlinks, hg.aliasLinks?_eq, fun hn ha => hg.exists_resolveNames? hn ha config,
    fun report after h => ?_⟩
  have hs := shape_resolveNames? h
  have hafter := hg.of_shape hs.symm
  obtain ⟨diverging', hlinks'⟩ := hafter.friendlyLinks?_eq
  rw [visited_of_shape hs.symm, (hg.sameClasses_resolveNames? h).friendly] at hlinks'
  have hwalk' : after.walk? config.scoping = graph.walk? config.scoping := by
    rw [← walk?_shape, hs, walk?_shape]
  have hclasses : after.aliasLinks? graph.visited = some graph.aliasPartition := by
    rw [← aliasLinks?_shape, hs, aliasLinks?_shape, hg.aliasLinks?_eq]
  refine ⟨hwalk'.trans hwalk, ⟨diverging', hlinks'⟩, hclasses, ?_, hg.exists_substitution h⟩
  intro owner hv node hn region hr
  rw [← regionsOf_eq hn] at hr
  refine ⟨fun binding hb hl => ⟨?_, hg.inputs_in_step h hv hr hb hl⟩,
    fun binding hb hl => hg.outputs_in_step h hv hr hb hl⟩
  have hagrees := hg.agrees_resolveNames? h (mem_sharedBindings.2 ⟨owner, hv, region, hr, hb, hl⟩)
  simpa only [agrees, decide_eq_decide] using hagrees

/-- In the conditional the parameter of a branch is renamed with the value bound to it, while their
aliases differ before and after, also in one namespace for the whole graph. -/
theorem boundaries_in_step_conditional : conditional.Reachable ∧
    ∀ config ∈ [({} : Config), { scoping := .flattened }],
      ∃ report after, conditional.resolveNames? config = some (report, after) ∧
        after.friendlyText? ⟨1⟩ ≠ conditional.friendlyText? ⟨1⟩ ∧
        after.friendlyText? (after.source ⟨⟨0⟩, 0⟩).node = after.friendlyText? ⟨1⟩ ∧
        after.aliases? ⟨⟨0⟩, 0⟩ ≠ after.aliases? ⟨⟨1⟩, 0⟩ := by
  refine ⟨reachable_conditional, fun config hconfig => ?_⟩
  have hrenamed : ∀ config ∈ [({} : Config), { scoping := .flattened }],
      ∀ run ∈ conditional.resolveNames? config,
        run.2.friendlyText? ⟨1⟩ ≠ conditional.friendlyText? ⟨1⟩ := by
    decide +kernel
  have hvisited : ∀ scoping ∈ [Scoping.exclusive, .flattened],
      ∀ walk ∈ conditional.walk? scoping, ⟨9⟩ ∈ walk.nodes := by
    decide +kernel
  have howner : (conditional.node? ⟨9⟩).any fun node => ∃ region ∈ node.regions,
      (⟨⟨⟨0⟩, 0⟩, ⟨1⟩, .shared⟩ : InputBinding) ∈ region.inputs := by decide +kernel
  have hnames : conditional.friendlyText? (conditional.source ⟨⟨0⟩, 0⟩).node =
      conditional.friendlyText? ⟨1⟩ := by decide +kernel
  have hdiffer : conditional.aliases? ⟨⟨0⟩, 0⟩ ≠ conditional.aliases? ⟨⟨1⟩, 0⟩ := by
    decide +kernel
  obtain ⟨hnodes, haliases⟩ := few_conditional
  obtain ⟨walk, links, diverging, classes, hwalk, -, -, hexists, hstep⟩ :=
    reachable_conditional.boundaries_in_step config
  obtain ⟨report, after, h⟩ := hexists hnodes haliases
  obtain ⟨-, -, -, hbindings, -⟩ := hstep report after h
  obtain ⟨node, hn, howner⟩ := (Option.any_eq_true _ _).1 howner
  obtain ⟨region, hr, hb⟩ := of_decide_eq_true howner
  have howns := hvisited config.scoping (by cases config.scoping <;> simp) walk hwalk
  obtain ⟨hfriendly, hsides⟩ := (hbindings ⟨9⟩ howns node hn region hr).1 _ hb rfl
  exact ⟨report, after, h, hrenamed config hconfig _ h, hfriendly.2 hnames,
    fun hsame => hdiffer (hsides.1 hsame)⟩

end GraphNaming.Graph
