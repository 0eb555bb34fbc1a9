import GraphNaming.Proofs.NumberedNames
import GraphNaming.Proofs.Totality

/-!
# Indices of aliases

An alias that makes way for another keeps its index, and gets none if it had none.

* `ChosenInTurn.exists_number`: a new alias is the old one with a number.
* `IndexedAlias.split?_numberedAlias`: what a number does to an alias.
* `WellFormed.numbered_of_aliasRename`: both at once, for every replaced alias.
* `Reachable.index_kept`: a pass keeps every index, and adds none.
-/

namespace GraphNaming

theorem ChosenInTurn.exists_number {first : Nat} {blocked : Set String}
    {swaps : List (String × String)} (h : ChosenInTurn first blocked swaps) :
    ∀ swap ∈ swaps, ∃ n, first ≤ n ∧ swap.2 = numberedAlias swap.1 n := by
  induction swaps generalizing blocked with
  | nil => nofun
  | cons swap swaps ih =>
    obtain ⟨⟨n, hle, hnew, -, -⟩, hrest⟩ := h
    exact List.forall_mem_cons.2 ⟨⟨n, hle, hnew⟩, ih hrest⟩

/-- The number goes before the index, which stays; where there is none, none comes about. -/
theorem IndexedAlias.split?_numberedAlias (name : String) (n : Nat) :
    split? (numberedAlias name n) =
      (split? name).map fun parts => ⟨numberedName parts.base "" n, parts.index⟩ := by
  unfold numberedAlias
  cases hsplit : split? name with
  | none => exact split?_numberedName name n
  | some parts => exact split?_numberedName_tail (valid_of_split? hsplit) n

namespace Graph

variable {graph : Graph} {config : Config} {report : Report} {rename : Rename}

/-- Numbers start at one. -/
theorem WellFormed.numbered_of_aliasRename (hg : graph.WellFormed)
    (h : graph.aliasReport? config = some report) (hr : rename ∈ report.renames) :
    ∃ n, 1 ≤ n ∧ rename.new = numberedAlias rename.old n := by
  obtain ⟨plan, last, hclasses, hplan, hrenames⟩ := hg.exists_aliasPlan h
  have hnodup : plan.Nodup := List.Nodup.of_map _ (hclasses ▸ nodup_aliasClasses)
  rw [hrenames] at hr
  obtain ⟨entry, he, hr⟩ := List.mem_flatMap.1 hr
  obtain ⟨swap, hs, hr⟩ := List.mem_flatMap.1 hr
  obtain ⟨member, -, rfl⟩ := List.mem_map.1 hr
  exact (hplan.swapsFor hnodup entry he).chosen.exists_number swap hs

/-- An alias that makes way for another has a number put after its base if it is indexed, and keeps
the index. If it is not, the number goes to its end, and the new alias is not indexed either. Both
the pass over aliases and a whole one have an outcome on a graph with fewer than `2 ^ 32 - 2` nodes
and aliases. -/
theorem Reachable.index_kept (hr : graph.Reachable) (config : Config) :
    (graph.nodes.size < 0xFFFFFFFE → graph.allAliases.length < 0xFFFFFFFE →
      (∃ report after, graph.resolveNames? config = some (report, after)) ∧
        ∃ report after, graph.resolveAliases? config = some (report, after)) ∧
    ∀ report after, graph.resolveNames? config = some (report, after) ∨
        graph.resolveAliases? config = some (report, after) →
      ∀ rename ∈ report.renames, ∀ value, rename.site = .output value →
        (∀ parts, IndexedAlias.split? rename.old = some parts → ∃ n, 1 ≤ n ∧
          IndexedAlias.split? rename.new = some ⟨parts.base ++ "_" ++ n.repr, parts.index⟩) ∧
        (IndexedAlias.split? rename.old = none → ∃ n, 1 ≤ n ∧
          IndexedAlias.split? rename.new = none ∧ rename.new = rename.old ++ "_" ++ n.repr) := by
  have hg := hr.wellFormed
  refine ⟨fun hn ha => ⟨hg.exists_resolveNames? hn ha config,
    hg.exists_resolveAliases?_of_few ha config⟩, fun report after h rename hm value hsite => ?_⟩
  have hnumbered : ∃ n, 1 ≤ n ∧ rename.new = numberedAlias rename.old n := by
    rcases h with h | h
    · obtain ⟨friendly, middle, aliases, hf, ha, rfl⟩ := resolveNames?_eq_some.1 h
      have hmiddle := hg.of_shape (shape_resolveFriendlyNames? hf).symm
      rw [Report.renames_append] at hm
      rcases List.mem_append.1 hm with hm | hm
      · exact absurd hsite
          (hg.friendlyRename_ne_output (resolveFriendlyNames?_eq_some.1 hf).1 hm value)
      · exact hmiddle.numbered_of_aliasRename (resolveAliases?_eq_some.1 ha).1 hm
    · exact hg.numbered_of_aliasRename (resolveAliases?_eq_some.1 h).1 hm
  obtain ⟨n, hle, hnew⟩ := hnumbered
  have hsplit := IndexedAlias.split?_numberedAlias rename.old n
  rw [← hnew] at hsplit
  refine ⟨fun parts hold => ⟨n, hle, ?_⟩, fun hold => ⟨n, hle, ?_, ?_⟩⟩
  · simpa [hold, numberedName] using hsplit
  · simpa [hold] using hsplit
  · simp [hnew, numberedAlias, hold, numberedName]

/-- In the conditional an indexed alias makes way for another, and one that is not indexed. In one
namespace for the whole graph the index of the second branch is kept too. -/
theorem index_kept_conditional :
    (∃ report after, conditional.resolveNames? {} = some (report, after) ∧
      ∃ rename ∈ report.renames, rename.site = .output ⟨⟨2⟩, 0⟩ ∧
        IndexedAlias.split? rename.old = none ∧ ∃ n, 1 ≤ n ∧
          IndexedAlias.split? rename.new = none ∧ rename.new = rename.old ++ "_" ++ n.repr) ∧
    ∃ report after,
      conditional.resolveAliases? { scoping := .flattened } = some (report, after) ∧
        ∀ value ∈ [(⟨⟨6⟩, 1⟩ : Value), ⟨⟨10⟩, 0⟩], ∃ rename ∈ report.renames,
          rename.site = .output value ∧ IndexedAlias.split? rename.old = some ⟨"z", "0"⟩ ∧
            ∃ n, 1 ≤ n ∧ IndexedAlias.split? rename.new = some ⟨"z" ++ "_" ++ n.repr, "0"⟩ := by
  have hplain : ∀ run ∈ conditional.resolveNames? {}, ∃ rename ∈ run.1.renames,
      rename.site = .output ⟨⟨2⟩, 0⟩ ∧ IndexedAlias.split? rename.old = none := by
    decide +kernel
  have hindexed : ∀ run ∈ conditional.resolveAliases? { scoping := .flattened },
      ∀ value ∈ [(⟨⟨6⟩, 1⟩ : Value), ⟨⟨10⟩, 0⟩], ∃ rename ∈ run.1.renames,
        rename.site = .output value ∧ IndexedAlias.split? rename.old = some ⟨"z", "0"⟩ := by
    decide +kernel
  obtain ⟨hnodes, haliases⟩ := few_conditional
  constructor
  · obtain ⟨hexists, hkept⟩ := reachable_conditional.index_kept {}
    obtain ⟨⟨report, after, h⟩, -⟩ := hexists hnodes haliases
    obtain ⟨rename, hm, hsite, hnone⟩ := hplain _ h
    exact ⟨report, after, h, rename, hm, hsite, hnone,
      (hkept report after (.inl h) rename hm _ hsite).2 hnone⟩
  · obtain ⟨hexists, hkept⟩ := reachable_conditional.index_kept { scoping := .flattened }
    obtain ⟨-, report, after, h⟩ := hexists hnodes haliases
    refine ⟨report, after, h, fun value hv => ?_⟩
    obtain ⟨rename, hm, hsite, hsplit⟩ := hindexed _ h value hv
    exact ⟨rename, hm, hsite, hsplit,
      (hkept report after (.inr h) rename hm _ hsite).1 _ hsplit⟩

end Graph

end GraphNaming
