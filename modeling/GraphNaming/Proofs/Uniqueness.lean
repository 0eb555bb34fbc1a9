import GraphNaming.Proofs.Totality

/-!
# No names clash after a pass

What a pass promises, of every graph that some history leads to and for all settings, in terms of
the walk and the links on entry.

* `Reachable.friendlyNames_unique`: friendly names.
* `Reachable.aliases_unique`: aliases, after the pass that makes them unique and after both.
-/

namespace GraphNaming.Graph

variable {graph : Graph}

/-- Two visited nodes that are not linked have one friendly name after a pass only if names set by
the user may stay, and the nodes lie in alternatives or are each linked with a node that the user
named. There is an outcome as long as there are more numbers than visits. -/
theorem Reachable.friendlyNames_unique (hr : graph.Reachable) (config : Config) :
    ∃ walk links diverging, graph.walk? config.friendlyScoping = some walk ∧
      graph.friendlyLinks? walk.nodes = some (links, diverging) ∧
      (walk.visits.length < maxSuffix →
        ∃ report after, graph.resolveFriendlyNames? config = some (report, after)) ∧
      ∀ report after, graph.resolveFriendlyNames? config = some (report, after) →
        ∀ a ∈ walk.nodes, ∀ b ∈ walk.nodes, links.related a b = false →
          after.friendlyText? a = after.friendlyText? b →
          config.strict = false ∧
            (config.scoping = .exclusive ∧
                graph.Alternatives walk.nodes (graph.modelOf a) (graph.modelOf b) ∨
              (∃ member ∈ links.classOf a, graph.isUserNamed member = true) ∧
                ∃ member ∈ links.classOf b, graph.isUserNamed member = true) := by
  have hg := hr.wellFormed
  obtain ⟨diverging, hlinks⟩ := hg.friendlyLinks?_eq
  have hnodes := hg.nodes_of_walk? (hg.walk?_eq config.friendlyScoping)
  refine ⟨_, graph.friendlyPartition, diverging, hg.walk?_eq config.friendlyScoping, ?_⟩
  rw [hnodes]
  refine ⟨hlinks, fun hfew => ?_, fun _ _ h => (hg.friendlyOutcome h).distinct⟩
  exact hg.exists_resolveFriendlyNames? config (by simpa using hfew)

/-- The conditional has one name in both of its branches, where in one it is not of the user's
choice. It stays in both, but under strict settings the branches get different names. -/
theorem friendlyNames_unique_conditional :
    (∃ report after walk, conditional.resolveFriendlyNames? {} = some (report, after) ∧
      after.friendlyText? ⟨2⟩ = after.friendlyText? ⟨6⟩ ∧
      conditional.walk? .exclusive = some walk ∧
      conditional.Alternatives walk.nodes (conditional.modelOf ⟨2⟩) (conditional.modelOf ⟨6⟩)) ∧
    ∃ report after,
      conditional.resolveFriendlyNames? { strict := true } = some (report, after) ∧
        after.friendlyText? ⟨2⟩ ≠ after.friendlyText? ⟨6⟩ := by
  have hwalks : ∀ scoping ∈ [Scoping.exclusive, .flattened],
      ∀ walk ∈ conditional.walk? scoping, walk.visits.length < maxSuffix ∧ ⟨2⟩ ∈ walk.nodes ∧
        ⟨6⟩ ∈ walk.nodes ∧ ∀ links ∈ conditional.friendlyLinks? walk.nodes,
          links.1.related ⟨2⟩ ⟨6⟩ = false ∧
            ¬ ∃ member ∈ links.1.classOf ⟨6⟩, conditional.isUserNamed member = true := by
    decide +kernel
  have hkept : ∀ run ∈ conditional.resolveFriendlyNames? {},
      run.2.friendlyText? ⟨2⟩ = run.2.friendlyText? ⟨6⟩ := by
    decide +kernel
  constructor
  · obtain ⟨walk, links, diverging, hwalk, hlinks, hexists, hunique⟩ :=
      reachable_conditional.friendlyNames_unique {}
    obtain ⟨hfew, ha, hb, hclasses⟩ := hwalks .exclusive (by simp) walk hwalk
    obtain ⟨hne, hgenerated⟩ := hclasses _ hlinks
    obtain ⟨report, after, h⟩ := hexists hfew
    have hsame := hkept _ h
    obtain ⟨-, ⟨-, halt⟩ | ⟨-, huser⟩⟩ := hunique report after h _ ha _ hb hne hsame
    · exact ⟨report, after, walk, h, hsame, hwalk, halt⟩
    · exact absurd huser hgenerated
  · obtain ⟨walk, links, diverging, hwalk, hlinks, hexists, hunique⟩ :=
      reachable_conditional.friendlyNames_unique { strict := true }
    obtain ⟨hfew, ha, hb, hclasses⟩ := hwalks .flattened (by simp) walk hwalk
    obtain ⟨report, after, h⟩ := hexists hfew
    refine ⟨report, after, h, fun hsame => ?_⟩
    obtain ⟨hstrict, -⟩ := hunique report after h _ ha _ hb (hclasses _ hlinks).1 hsame
    cases hstrict

/-- Two outputs of visited nodes have an alias in common after a pass only if they are linked, or
lie in alternatives that may use each other's names: after the pass over aliases and after a whole
one. Both have an outcome on a graph with fewer than `2 ^ 32 - 2` nodes and aliases. -/
theorem Reachable.aliases_unique (hr : graph.Reachable) (config : Config) :
    ∃ walk links, graph.walk? config.scoping = some walk ∧
      graph.aliasLinks? walk.nodes = some links ∧
      (graph.nodes.size < 0xFFFFFFFE → graph.allAliases.length < 0xFFFFFFFE →
        (∃ report after, graph.resolveAliases? config = some (report, after)) ∧
          ∃ report after, graph.resolveNames? config = some (report, after)) ∧
      ∀ report after, graph.resolveAliases? config = some (report, after) ∨
          graph.resolveNames? config = some (report, after) →
        ∀ u v producer producer' name, u.node ∈ walk.nodes → v.node ∈ walk.nodes →
          graph.node? u.node = some producer → producer.isResult = false →
          graph.node? v.node = some producer' → producer'.isResult = false →
          after.Holds u name → after.Holds v name →
          links.related u v = true ∨ config.scoping = .exclusive ∧
            graph.Alternatives walk.nodes (graph.modelOf u.node) (graph.modelOf v.node) := by
  have hg := hr.wellFormed
  obtain ⟨walk, hwalk, hnodes⟩ := hg.exists_walk config.scoping
  refine ⟨walk, graph.aliasPartition, hwalk, ?_⟩
  rw [hnodes]
  refine ⟨hg.aliasLinks?_eq, fun hn ha =>
    ⟨hg.exists_resolveAliases?_of_few ha config, hg.exists_resolveNames? hn ha config⟩, ?_⟩
  intro report after h u v producer producer' name hu hv hn hr hn' hr' hun hvn
  obtain ⟨hs, hd⟩ : graph.shape = after.shape ∧
      graph.AliasesDistinct config.scoping after := by
    rcases h with h | h
    · exact ⟨(shape_resolveAliases? h).symm, (hg.aliasOutcome h).distinct⟩
    · exact ⟨(shape_resolveNames? h).symm, (hg.aliasOutcome_resolveNames? h).distinct⟩
  by_cases hlinked : graph.aliasPartition.related u v = true
  · exact .inl hlinked
  · rw [Bool.not_eq_true] at hlinked
    exact .inr (hg.alternatives_of_holds hd (isVisitedOutput_of_holds hs hu hn hr hun)
      (isVisitedOutput_of_holds hs hv hn' hr' hvn) hlinked hun hvn)

/-- The conditional has one alias in both of its branches. It stays in both, but in one namespace
for the whole graph only one of them keeps it. -/
theorem aliases_unique_conditional :
    (∃ report after walk, conditional.resolveNames? {} = some (report, after) ∧
      after.Holds ⟨⟨2⟩, 1⟩ "z:0" ∧ after.Holds ⟨⟨6⟩, 1⟩ "z:0" ∧
      conditional.walk? .exclusive = some walk ∧
      conditional.Alternatives walk.nodes (conditional.modelOf ⟨2⟩) (conditional.modelOf ⟨6⟩)) ∧
    ∃ report after,
      conditional.resolveNames? { scoping := .flattened } = some (report, after) ∧
        after.Holds ⟨⟨2⟩, 1⟩ "z:0" ∧ ¬ after.Holds ⟨⟨6⟩, 1⟩ "z:0" := by
  have hproducer (id : NodeId) (hid : id = ⟨2⟩ ∨ id = ⟨6⟩) :
      ∃ producer, conditional.node? id = some producer ∧ producer.isResult = false := by
    have hany : (conditional.node? id).any fun producer => producer.isResult = false := by
      rcases hid with rfl | rfl <;> decide +kernel
    simpa using (Option.any_eq_true _ _).1 hany
  have hwalks : ∀ scoping ∈ [Scoping.exclusive, .flattened],
      ∀ walk ∈ conditional.walk? scoping, ⟨2⟩ ∈ walk.nodes ∧ ⟨6⟩ ∈ walk.nodes ∧
        ∀ links ∈ conditional.aliasLinks? walk.nodes,
          links.related ⟨⟨2⟩, 1⟩ ⟨⟨6⟩, 1⟩ = false := by
    decide +kernel
  have hkept : ∀ run ∈ conditional.resolveNames? {},
      "z:0" ∈ (run.2.aliases? ⟨⟨2⟩, 1⟩).getD ∅ ∧ "z:0" ∈ (run.2.aliases? ⟨⟨6⟩, 1⟩).getD ∅ := by
    decide +kernel
  have hfirst : ∀ run ∈ conditional.resolveNames? { scoping := .flattened },
      "z:0" ∈ (run.2.aliases? ⟨⟨2⟩, 1⟩).getD ∅ := by
    decide +kernel
  obtain ⟨hnodes, haliases⟩ := few_conditional
  obtain ⟨producer, hn, hr⟩ := hproducer ⟨2⟩ (.inl rfl)
  obtain ⟨producer', hn', hr'⟩ := hproducer ⟨6⟩ (.inr rfl)
  constructor
  · obtain ⟨walk, links, hwalk, hlinks, hexists, hunique⟩ :=
      reachable_conditional.aliases_unique {}
    obtain ⟨ha, hb, hclasses⟩ := hwalks .exclusive (by simp) walk hwalk
    obtain ⟨-, report, after, h⟩ := hexists hnodes haliases
    obtain ⟨hu, hv⟩ := hkept _ h
    rcases hunique report after (.inr h) ⟨⟨2⟩, 1⟩ ⟨⟨6⟩, 1⟩ producer producer' "z:0" ha hb hn hr hn'
      hr' hu hv with hsame | ⟨-, halt⟩
    · rw [hclasses _ hlinks] at hsame
      cases hsame
    · exact ⟨report, after, walk, h, hu, hv, hwalk, halt⟩
  · obtain ⟨walk, links, hwalk, hlinks, hexists, hunique⟩ :=
      reachable_conditional.aliases_unique { scoping := .flattened }
    obtain ⟨ha, hb, hclasses⟩ := hwalks .flattened (by simp) walk hwalk
    obtain ⟨-, report, after, h⟩ := hexists hnodes haliases
    have hu := hfirst _ h
    refine ⟨report, after, h, hu, fun hv => ?_⟩
    rcases hunique report after (.inr h) ⟨⟨2⟩, 1⟩ ⟨⟨6⟩, 1⟩ producer producer' "z:0" ha hb hn hr hn'
      hr' hu hv with hsame | ⟨hscoping, -⟩
    · rw [hclasses _ hlinks] at hsame
      cases hsame
    · cases hscoping

end GraphNaming.Graph
