import GraphNaming.Proofs.Passes
import GraphNaming.Proofs.Reading
import GraphNaming.Proofs.Totality

/-!
# The halves of a pass in either order

Friendly names and aliases have nothing to do with each other. What makes the ones unique neither
changes the others nor looks at them, so it makes no difference which half of a pass is run first.

* `Graph.friendlyFirst?`, `Graph.aliasesFirst?`: both halves, in either order.
* `WellFormed.aliasReport?_resolveFriendlyNames?`, `friendlyReport?_resolveAliases?`: each half
  leaves the report of the other as it was.
* `renameAll_comm`: renames of nodes and renames of outputs can be carried out in either order.
* `Reachable.resolvers_commute`: both orders have one outcome.
-/

namespace GraphNaming.Graph

variable {graph after : Graph} {config : Config} {report friendly aliases : Report}

/-! ## Both orders -/

/-- Makes friendly names unique and then aliases. Tells the reports on friendly names and on
aliases, and the graph after both. -/
def friendlyFirst? (graph : Graph) (config : Config) : Option (Report × Report × Graph) := do
  let (friendly, graph) ← graph.resolveFriendlyNames? config
  let (aliases, graph) ← graph.resolveAliases? config
  some (friendly, aliases, graph)

/-- Makes aliases unique and then friendly names. Tells the reports on friendly names and on
aliases, and the graph after both. -/
def aliasesFirst? (graph : Graph) (config : Config) : Option (Report × Report × Graph) := do
  let (aliases, graph) ← graph.resolveAliases? config
  let (friendly, graph) ← graph.resolveFriendlyNames? config
  some (friendly, aliases, graph)

/-- A whole pass makes friendly names unique first, and puts the two reports together. -/
theorem resolveNames?_eq_friendlyFirst? (graph : Graph) (config : Config) :
    graph.resolveNames? config = (graph.friendlyFirst? config).map fun (friendly, aliases, after) =>
      (friendly ++ aliases, after) := by
  simp only [resolveNames?, friendlyFirst?]
  cases graph.resolveFriendlyNames? config with
  | none => rfl
  | some first => cases h : first.2.resolveAliases? config <;> simp [h]

/-- Renames of nodes and renames of outputs do not come in each other's way. -/
theorem renameAll_comm {first second : List Rename}
    (hfirst : ∀ rename ∈ first, ∀ value, rename.site ≠ .output value)
    (hsecond : ∀ rename ∈ second, ∀ id, rename.site ≠ .friendly id) :
    (graph.renameAll first).renameAll second = (graph.renameAll second).renameAll first := by
  refine eq_of_names ?_ (fun id => ?_) (fun id => ?_) (fun value => ?_)
  · simp only [shape_renameAll]
  · have hnone (graph : Graph) : (graph.renameAll second).friendlyText? id =
        graph.friendlyText? id :=
      friendlyText?_renameAll_of_not_mem fun rename hr => hsecond rename hr id
    rw [hnone, friendlyText?_renameAll, ← hnone graph, ← friendlyText?_renameAll]
  · simp only [isUserNamed_renameAll]
  · have hnone (graph : Graph) : (graph.renameAll first).output? value = graph.output? value :=
      output?_renameAll_of_not_mem fun rename hr => hfirst rename hr value
    rw [hnone, output?_renameAll, hnone, ← output?_renameAll]

namespace WellFormed

variable (hg : graph.WellFormed)
include hg

/-! ## Each half by itself -/

/-- Friendly names do not come up in the report on aliases. -/
theorem aliasReport?_resolveFriendlyNames? {other : Config}
    (h : graph.resolveFriendlyNames? config = some (report, after)) :
    after.aliasReport? other = graph.aliasReport? other :=
  hg.aliasReport?_congr (shape_resolveFriendlyNames? h).symm
    (fun value _ => hg.output?_resolveFriendlyNames? h value) other

theorem isUserNamed_resolveAliases? (h : graph.resolveAliases? config = some (report, after))
    (id : NodeId) : after.isUserNamed id = graph.isUserNamed id :=
  (hg.sameClasses_resolveAliases? h).userNamed id

/-- Aliases do not come up in the report on friendly names. -/
theorem friendlyReport?_resolveAliases? {other : Config}
    (h : graph.resolveAliases? config = some (report, after)) :
    after.friendlyReport? other = graph.friendlyReport? other :=
  hg.friendlyReport?_congr (shape_resolveAliases? h).symm
    (fun id _ => hg.friendlyText?_resolveAliases? h id)
    (fun id _ => hg.isUserNamed_resolveAliases? h id) other

/-! ## Both halves -/

theorem friendlyFirst?_eq_some :
    graph.friendlyFirst? config = some (friendly, aliases, after) ↔
      graph.friendlyReport? config = some friendly ∧ graph.aliasReport? config = some aliases ∧
        after = (graph.renameAll friendly.renames).renameAll aliases.renames := by
  simp only [friendlyFirst?, Option.bind_eq_bind, Option.bind_eq_some_iff, Option.some.injEq,
    Prod.mk.injEq, Prod.exists]
  constructor
  · rintro ⟨_, named, hnamed, _, last, hlast, rfl, rfl, rfl⟩
    obtain ⟨ha, rfl⟩ := resolveAliases?_eq_some.1 hlast
    obtain ⟨hf, rfl⟩ := resolveFriendlyNames?_eq_some.1 hnamed
    exact ⟨hf, (hg.aliasReport?_resolveFriendlyNames? hnamed).symm.trans ha, rfl⟩
  · rintro ⟨hf, ha, rfl⟩
    have hnamed := resolveFriendlyNames?_eq_some.2 ⟨hf, rfl⟩
    have hlast := (hg.aliasReport?_resolveFriendlyNames? hnamed).trans ha
    exact ⟨_, _, hnamed, _, _, resolveAliases?_eq_some.2 ⟨hlast, rfl⟩, rfl, rfl, rfl⟩

theorem aliasesFirst?_eq_some :
    graph.aliasesFirst? config = some (friendly, aliases, after) ↔
      graph.friendlyReport? config = some friendly ∧ graph.aliasReport? config = some aliases ∧
        after = (graph.renameAll aliases.renames).renameAll friendly.renames := by
  simp only [aliasesFirst?, Option.bind_eq_bind, Option.bind_eq_some_iff, Option.some.injEq,
    Prod.mk.injEq, Prod.exists]
  constructor
  · rintro ⟨_, relabelled, hrelabelled, _, last, hlast, rfl, rfl, rfl⟩
    obtain ⟨hf, rfl⟩ := resolveFriendlyNames?_eq_some.1 hlast
    obtain ⟨ha, rfl⟩ := resolveAliases?_eq_some.1 hrelabelled
    exact ⟨(hg.friendlyReport?_resolveAliases? hrelabelled).symm.trans hf, ha, rfl⟩
  · rintro ⟨hf, ha, rfl⟩
    have hrelabelled := resolveAliases?_eq_some.2 ⟨ha, rfl⟩
    have hlast := (hg.friendlyReport?_resolveAliases? hrelabelled).trans hf
    exact ⟨_, _, hrelabelled, _, _, resolveFriendlyNames?_eq_some.2 ⟨hlast, rfl⟩, rfl, rfl, rfl⟩

/-- It makes no difference which names come first. -/
theorem friendlyFirst?_eq_aliasesFirst? (config : Config) :
    graph.friendlyFirst? config = graph.aliasesFirst? config := by
  refine Option.ext fun ⟨friendly, aliases, after⟩ => ?_
  rw [hg.friendlyFirst?_eq_some, hg.aliasesFirst?_eq_some]
  refine and_congr_right fun hf => and_congr_right fun ha => ?_
  rw [renameAll_comm (fun _ hr => hg.friendlyRename_ne_output hf hr)
    (fun _ hr => hg.aliasRename_ne_friendly ha hr)]

/-- Both halves one after the other report what each of them does by itself. -/
theorem exists_friendlyFirst?_iff : (∃ after,
    graph.friendlyFirst? config = some (friendly, aliases, after)) ↔
      (∃ named, graph.resolveFriendlyNames? config = some (friendly, named)) ∧
        ∃ relabelled, graph.resolveAliases? config = some (aliases, relabelled) := by
  simp only [hg.friendlyFirst?_eq_some, resolveFriendlyNames?_eq_some, resolveAliases?_eq_some,
    exists_and_left, exists_eq, and_true]

theorem exists_friendlyFirst? (hnodes : graph.nodes.size < 0xFFFFFFFE)
    (haliases : graph.allAliases.length < 0xFFFFFFFE) (config : Config) :
    ∃ outcome, graph.friendlyFirst? config = some outcome := by
  obtain ⟨friendly, middle, aliases, after, hf, ha⟩ := hg.exists_halves hnodes haliases config
  exact ⟨(friendly, aliases, after), by simp [friendlyFirst?, hf, ha]⟩

end WellFormed

/-- Making friendly names unique changes no alias, and making aliases unique changes no friendly
name, nor who chose it. Run one after the other, the two lead to one graph in either order, and
each reports what it reports when it is run by itself, so a whole pass may begin with either. Both
succeed on a graph with fewer than `2 ^ 32 - 2` nodes and fewer than `2 ^ 32 - 2` aliases. -/
theorem Reachable.resolvers_commute (hr : graph.Reachable) (config : Config) :
    (∀ report after, graph.resolveFriendlyNames? config = some (report, after) →
      ∀ value, after.output? value = graph.output? value ∧
        after.aliases? value = graph.aliases? value) ∧
    (∀ report after, graph.resolveAliases? config = some (report, after) →
      ∀ id, after.friendlyText? id = graph.friendlyText? id ∧
        after.isUserNamed id = graph.isUserNamed id) ∧
    graph.friendlyFirst? config = graph.aliasesFirst? config ∧
    graph.resolveNames? config = (graph.aliasesFirst? config).map (fun (friendly, aliases, after) =>
      (friendly ++ aliases, after)) ∧
    (∀ friendly aliases, (∃ after,
      graph.friendlyFirst? config = some (friendly, aliases, after)) ↔
        (∃ named, graph.resolveFriendlyNames? config = some (friendly, named)) ∧
          ∃ relabelled, graph.resolveAliases? config = some (aliases, relabelled)) ∧
    (graph.nodes.size < 0xFFFFFFFE → graph.allAliases.length < 0xFFFFFFFE →
      ∃ outcome, graph.friendlyFirst? config = some outcome) := by
  have hg := hr.wellFormed
  have hsame := hg.friendlyFirst?_eq_aliasesFirst? config
  refine ⟨fun _ _ h value => ?_, fun _ _ h id => ?_, hsame, ?_,
    fun _ _ => hg.exists_friendlyFirst?_iff, fun hn ha => hg.exists_friendlyFirst? hn ha config⟩
  · exact ⟨hg.output?_resolveFriendlyNames? h value, hg.aliases?_resolveFriendlyNames? h value⟩
  · exact ⟨hg.friendlyText?_resolveAliases? h id, hg.isUserNamed_resolveAliases? h id⟩
  · rw [resolveNames?_eq_friendlyFirst?, hsame]

/-- In the conditional both halves have something to rename. -/
theorem resolvers_commute_conditional :
    ∃ friendly aliases after, conditional.friendlyFirst? {} = some (friendly, aliases, after) ∧
      conditional.aliasesFirst? {} = some (friendly, aliases, after) ∧
      friendly.renames ≠ [] ∧ aliases.renames ≠ [] ∧ after ≠ conditional ∧
      ∃ relabelled, conditional.resolveAliases? {} = some (aliases, relabelled) := by
  have hrun : (conditional.friendlyFirst? {}).any fun run =>
      run.1.renames ≠ [] ∧ run.2.1.renames ≠ [] ∧ run.2.2 ≠ conditional := by
    decide +kernel
  obtain ⟨⟨friendly, aliases, after⟩, h, hfacts⟩ := (Option.any_eq_true _ _).1 hrun
  obtain ⟨hfriendly, haliases, hne⟩ := of_decide_eq_true hfacts
  obtain ⟨-, -, hsame, -, halone, -⟩ := reachable_conditional.resolvers_commute {}
  exact ⟨friendly, aliases, after, h, hsame ▸ h, hfriendly, haliases, hne,
    ((halone _ _).1 ⟨after, h⟩).2⟩

end GraphNaming.Graph
