import GraphNaming.Proofs.SharedParameters
import GraphNaming.Proofs.Totality

/-!
# Aliases stay with their source

All values with one source go by one set of aliases. New aliases given to any of them are seen at
all of them, and nothing else changes.

* `Graph.ChangesAliasesOf`: nothing changes but the aliases of one source.
* `aliases?_modifyAliases`: what every value goes by then.
* `Reachable.aliases_follow_source`: this holds of all requests that change aliases.
-/

namespace GraphNaming.Graph

variable {graph after : Graph} {value other : Value} {change : AliasSet → AliasSet}

/-- All that `after` may have in which it differs from `graph` are aliases that `value`, and what
has the same source, goes by. -/
structure ChangesAliasesOf (graph : Graph) (value : Value) (after : Graph) : Prop where
  shape : after.shape = graph.shape
  source : ∀ other, after.source other = graph.source other
  name : ∀ id, (after.node? id).map (·.name) = (graph.node? id).map (·.name)
  output : ∀ other, other ≠ graph.source value → after.output? other = graph.output? other
  aliases : ∀ other, graph.source other ≠ graph.source value →
    after.aliases? other = graph.aliases? other

theorem aliases?_modifyAliases (h : (modifyAliases value change).run graph = .ok () after) :
    after.aliases? other = if graph.source other = graph.source value then
      (graph.aliases? other).map change else graph.aliases? other := by
  have hkept : after.source other = graph.source other :=
    source_of_shape (shape_modifyAliases h).symm other
  obtain ⟨-, rfl⟩ := modifyAliases_eq_ok.1 h
  rw [aliases?, hkept, output?_modifyOutput, aliases?]
  by_cases hsource : graph.source other = graph.source value
  · rw [if_pos hsource.symm, if_pos hsource]
    cases graph.output? (graph.source other) <;> rfl
  · rw [if_neg (Ne.symm hsource), if_neg hsource]

theorem changesAliasesOf_modifyAliases (h : (modifyAliases value change).run graph = .ok () after) :
    graph.ChangesAliasesOf value after where
  shape := shape_modifyAliases h
  source := source_of_shape (shape_modifyAliases h).symm
  name id := by
    obtain ⟨-, rfl⟩ := modifyAliases_eq_ok.1 h
    rw [modifyOutput, node?_modifyNode]
    split
    · cases graph.node? id <;> rfl
    · rfl
  output other hne := by
    obtain ⟨-, rfl⟩ := modifyAliases_eq_ok.1 h
    rw [output?_modifyOutput, if_neg hne.symm]
  aliases other hne := by rw [aliases?_modifyAliases h, if_neg hne]

/-- In a graph with a history every output comes from an output of the same model whose node is no
result and that comes from nowhere else. A request to change its aliases changes those that all
outputs go by that come from there, and nothing else. It is refused just when there is no such
output, and then nothing changes. -/
theorem Reachable.aliases_follow_source (hr : graph.Reachable) :
    (∀ model value, graph.Produces model value → graph.Traces value (graph.source value) ∧
      graph.Produces model (graph.source value) ∧
      (∃ node, graph.node? (graph.source value).node = some node ∧ node.isResult = false) ∧
      graph.source (graph.source value) = graph.source value) ∧
    (∀ value names after, (setAliases value names).run graph = .ok () after →
      graph.ChangesAliasesOf value after ∧
      ∀ model other, graph.Produces model other → graph.source other = graph.source value →
        ∃ new, after.aliases? other = some new ∧ ∀ name, name ∈ new ↔ name ∈ names) ∧
    (∀ value names after, (addAliases value names).run graph = .ok () after →
      graph.ChangesAliasesOf value after ∧
      ∀ model other, graph.Produces model other → graph.source other = graph.source value →
        ∃ old new, graph.aliases? other = some old ∧ after.aliases? other = some new ∧
          ∀ name, name ∈ new ↔ name ∈ old ∨ name ∈ names) ∧
    ∀ value names,
      ((∃ error after, (setAliases value names).run graph = .error error after) ↔
        ¬ ∃ model, graph.Produces model value) ∧
      ((∃ error after, (addAliases value names).run graph = .error error after) ↔
        ¬ ∃ model, graph.Produces model value) ∧
      (∀ error after, (setAliases value names).run graph = .error error after ∨
        (addAliases value names).run graph = .error error after → after = graph) ∧
      ((¬ ∃ model, graph.Produces model value) →
        (Call.setAliases value names).run? graph = some graph ∧
          (Call.addAliases value names).run? graph = some graph) := by
  have hg := hr.wellFormed
  have known {model : ModelId} {value : Value} (hp : graph.Produces model value) :
      graph.Traces value (graph.source value) ∧ ∃ names, graph.aliases? value = some names :=
    let ⟨_, ho⟩ := hp.exists_output
    hg.source_inRange ho
  refine ⟨fun model value hp => ?_, fun value names after h => ?_, fun value names after h => ?_,
    fun value names => ⟨modifyAliases_refused, modifyAliases_refused, ?_, fun hnone => ?_⟩⟩
  · exact ⟨(known hp).1, hg.produces_source hp, hg.isResult_source hp, hg.source_source hp⟩
  -- `setAliases`: what stands at the source is replaced.
  · refine ⟨changesAliasesOf_modifyAliases h, fun model other hp hsource => ?_⟩
    obtain ⟨-, old, hold⟩ := known hp
    refine ⟨.ofList names, ?_, fun name => AliasSet.mem_ofList⟩
    rw [aliases?_modifyAliases h, if_pos hsource, hold]
    rfl
  -- `addAliases`: what stood there before stays.
  · refine ⟨changesAliasesOf_modifyAliases h, fun model other hp hsource => ?_⟩
    obtain ⟨-, old, hold⟩ := known hp
    refine ⟨old, old.insertMany names, hold, ?_, fun name => ?_⟩
    · rw [aliases?_modifyAliases h, if_pos hsource, hold]
      rfl
    · rw [AliasSet.mem_insertMany, or_comm]
  · rintro error after (hset | hadd)
    · exact harmless_modifyAliases _ _ _ _ _ hset
    · exact harmless_modifyAliases _ _ _ _ _ hadd
  · have unchanged {change : AliasSet → AliasSet} :
        graph.afterRequest (modifyAliases value change) = graph := by
      obtain ⟨error, after, hrun⟩ := modifyAliases_refused.2 hnone
      rw [Request.afterRequest_of_error hrun, harmless_modifyAliases _ _ _ _ _ hrun]
    exact ⟨congrArg some unchanged, congrArg some unchanged⟩

/-- Two results come from one node, the second of them by way of a third. Aliases given to the one
are seen at the other, and not at the conditional. A second output of the node does not exist. -/
theorem aliases_follow_source_conditional : ∃ graph after,
    Call.runAll? [.addResult .root ⟨⟨10⟩, 0⟩, .addResult .root ⟨⟨11⟩, 0⟩] conditional =
      some graph ∧
    (setAliases ⟨⟨13⟩, 0⟩ ["a", "b"]).run graph = .ok () after ∧
    graph.Traces ⟨⟨13⟩, 0⟩ ⟨⟨10⟩, 0⟩ ∧ graph.source ⟨⟨12⟩, 0⟩ = ⟨⟨10⟩, 0⟩ ∧
    (∃ new, after.aliases? ⟨⟨12⟩, 0⟩ = some new ∧ ∀ name, name ∈ new ↔ name ∈ ["a", "b"]) ∧
    after.aliases? ⟨⟨9⟩, 0⟩ = graph.aliases? ⟨⟨9⟩, 0⟩ ∧
    ∃ error, (addAliases ⟨⟨10⟩, 1⟩ ["c"]).run graph = .error error graph := by
  have hrun : (Call.runAll? [.addResult .root ⟨⟨10⟩, 0⟩, .addResult .root ⟨⟨11⟩, 0⟩]
      conditional).any fun graph =>
        (∃ node ∈ graph.node? ⟨12⟩, node.model = .root ∧ node.outputs.length = 1) ∧
        (∃ node ∈ graph.node? ⟨13⟩, node.model = .root ∧ node.outputs.length = 1) ∧
        (∃ node ∈ graph.node? ⟨10⟩, node.outputs.length = 1) ∧
        graph.source ⟨⟨12⟩, 0⟩ = ⟨⟨10⟩, 0⟩ ∧ graph.source ⟨⟨13⟩, 0⟩ = ⟨⟨10⟩, 0⟩ ∧
        graph.source ⟨⟨9⟩, 0⟩ = ⟨⟨9⟩, 0⟩ ∧
        (graph.granted? (setAliases ⟨⟨13⟩, 0⟩ ["a", "b"])).isSome := by
    decide +kernel
  obtain ⟨graph, h, hfacts⟩ := (Option.any_eq_true _ _).1 hrun
  obtain ⟨⟨direct, hdirect, hm, hone⟩, ⟨chained, hchained, hm', hone'⟩, ⟨concat, hconcat, hsingle⟩,
    hsource, hsource', hapart, hset⟩ := of_decide_eq_true hfacts
  obtain ⟨⟨_, after⟩, hset⟩ := Option.isSome_iff_exists.1 hset
  have hset := Request.granted?_eq_some.1 hset
  obtain ⟨hsources, hseen, -, hrefused⟩ :=
    (reachable_conditional.runAll? h).aliases_follow_source
  have hp : graph.Produces .root ⟨⟨12⟩, 0⟩ := ⟨direct, hdirect, hm, hone ▸ Nat.zero_lt_one⟩
  have hp' : graph.Produces .root ⟨⟨13⟩, 0⟩ := ⟨chained, hchained, hm', hone' ▸ Nat.zero_lt_one⟩
  obtain ⟨hchanges, hnew⟩ := hseen _ _ _ hset
  obtain ⟨htraces, -⟩ := hsources _ _ hp'
  have hnone : ¬ ∃ model, graph.Produces model ⟨⟨10⟩, 1⟩ := by
    rintro ⟨model, node, hn, -, hi⟩
    cases hconcat.symm.trans hn
    rw [hsingle] at hi
    exact absurd hi (by decide)
  obtain ⟨-, hadd, hunchanged, -⟩ := hrefused ⟨⟨10⟩, 1⟩ ["c"]
  obtain ⟨error, refused, hadd⟩ := hadd.2 hnone
  obtain rfl := hunchanged error refused (.inr hadd)
  refine ⟨_, after, h, hset, hsource' ▸ htraces, hsource,
    hnew _ _ hp (hsource.trans hsource'.symm), hchanges.aliases _ ?_, error, hadd⟩
  rw [hapart, hsource']
  decide

end GraphNaming.Graph
