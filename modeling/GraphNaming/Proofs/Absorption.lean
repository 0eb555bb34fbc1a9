import GraphNaming.Proofs.Passes

/-!
# Passes that change nothing

Settings are ranked by the clashes that they remove: names that are distinct for some settings are
distinct for all settings of lower rank, and every pass keeps them so, whatever its own rank. So
once passes have run, a pass that is outranked by some of them finds nothing to do.

* `Config.friendlyRank`, `Scoping.rank`: the ranks, for friendly names and for aliases.
* `FriendlyDistinct.of_rank_le`, `AliasesDistinct.of_rank_le`: lower ranks ask for less.
* `Reachable.passes_absorb`: what has nothing to do after some passes.
-/

namespace GraphNaming

/-- Where regions share one namespace, more names clash. -/
def Scoping.rank : Scoping → Nat
  | .exclusive => 0
  | .flattened => 1

/-- Strict settings outrank all others. -/
def Config.friendlyRank (config : Config) : Nat := if config.strict then 2 else config.scoping.rank

/-- The passes with the given settings, one after the other. -/
def Pipeline.ofConfigs (configs : List Config) : Pipeline := ⟨configs.map Pass.resolveNames⟩

theorem Scoping.eq_exclusive_of_rank_le {scoping : Scoping} (h : scoping.rank ≤ 0) :
    scoping = .exclusive := by
  cases scoping with
  | exclusive => rfl
  | flattened => exact absurd h (by decide)

theorem Scoping.rank_lt_two (scoping : Scoping) : scoping.rank < 2 := by
  cases scoping <;> decide

theorem Pipeline.run?_ofConfigs (configs : List Config) (graph : Graph) :
    (ofConfigs configs).run? graph =
      (thread? (fun config graph => graph.resolveNames? config) configs graph).map
        fun (reports, after) => (reports.map fun report =>
          ⟨"resolve_name_collisions", report.changed⟩, after) := by
  rw [← thread?_yield, run?, ofConfigs, thread?_map]
  congr 1
  funext config graph
  cases h : graph.resolveNames? config <;> simp [Pass.resolveNames, h]

namespace Graph

variable {graph after : Graph} {config other : Config} {report : Report}

/-! ## Ranks -/

theorem MayShareName.of_rank_le (hle : other.friendlyRank ≤ config.friendlyRank) {a b : NodeId}
    (h : graph.MayShareName config a b) : graph.MayShareName other a b := by
  obtain ⟨hstrict, hshare⟩ := h
  have hrank := config.scoping.rank_lt_two
  have hother : other.strict = false := by
    by_cases hs : other.strict = true
    · simp only [Config.friendlyRank, hs, hstrict, if_true, Bool.false_eq_true, if_false] at hle
      omega
    · simpa using hs
  simp only [Config.friendlyRank, hother, hstrict, Bool.false_eq_true, if_false] at hle
  refine ⟨hother, hshare.imp_left fun ⟨hscoping, halt⟩ => ⟨?_, halt⟩⟩
  rw [hscoping] at hle
  exact Scoping.eq_exclusive_of_rank_le hle

/-- Names that are distinct for some settings are distinct for those of lower rank. -/
theorem FriendlyDistinct.of_rank_le (hle : other.friendlyRank ≤ config.friendlyRank)
    (h : graph.FriendlyDistinct config after) : graph.FriendlyDistinct other after :=
  fun a ha b hb hr hsame => (h a ha b hb hr hsame).of_rank_le hle

theorem AliasesDistinct.of_rank_le {scoping scoping' : Scoping} (hle : scoping'.rank ≤ scoping.rank)
    (h : graph.AliasesDistinct scoping after) : graph.AliasesDistinct scoping' after := by
  intro leader hl leader' hl' hne u v name hu hv hun hvn
  obtain ⟨rfl, halt⟩ := h leader hl leader' hl' hne u v name hu hv hun hvn
  exact ⟨Scoping.eq_exclusive_of_rank_le hle, halt⟩

/-! ## What passes keep -/

namespace WellFormed

variable (hg : graph.WellFormed)
include hg

/-- A pass of lower rank changes nothing, and one of higher rank attains more. -/
theorem friendlyDistinct_kept (h : graph.resolveFriendlyNames? config = some (report, after))
    (hd : graph.FriendlyDistinct other graph) : after.FriendlyDistinct other after := by
  -- The lower rank asks for less, so either the pass finds all it asks for, or what it attains is
  -- enough.
  rcases Nat.le_total config.friendlyRank other.friendlyRank with hle | hle
  · obtain ⟨_, hfixed, -⟩ := hg.resolveFriendlyNames?_fixed (hd.of_rank_le hle)
    rw [h] at hfixed
    cases hfixed
    exact hd
  · exact (hg.friendlyDistinct_resolveFriendlyNames? h).of_rank_le hle

theorem aliasesDistinct_kept (h : graph.resolveAliases? config = some (report, after))
    {scoping : Scoping} (hd : graph.AliasesDistinct scoping graph) :
    after.AliasesDistinct scoping after := by
  rcases Nat.le_total config.scoping.rank scoping.rank with hle | hle
  · obtain ⟨_, hfixed, -⟩ := hg.resolveAliases?_fixed (hd.of_rank_le hle)
    rw [h] at hfixed
    cases hfixed
    exact hd
  · exact (hg.aliasesDistinct_resolveAliases? h).of_rank_le hle

/-- A whole pass keeps friendly names distinct, or makes them so if its rank is high enough. -/
theorem friendlyDistinct_resolveNames? (h : graph.resolveNames? config = some (report, after))
    (hd : graph.FriendlyDistinct other graph ∨ other.friendlyRank ≤ config.friendlyRank) :
    after.FriendlyDistinct other after := by
  obtain ⟨_, middle, _, hf, ha, -⟩ := resolveNames?_eq_some.1 h
  have hm := hg.of_shape (shape_resolveFriendlyNames? hf).symm
  refine hm.friendlyDistinct_resolveAliases? ha ?_
  rcases hd with hd | hle
  · exact hg.friendlyDistinct_kept hf hd
  · exact (hg.friendlyDistinct_resolveFriendlyNames? hf).of_rank_le hle

theorem aliasesDistinct_resolveNames? (h : graph.resolveNames? config = some (report, after))
    {scoping : Scoping}
    (hd : graph.AliasesDistinct scoping graph ∨ scoping.rank ≤ config.scoping.rank) :
    after.AliasesDistinct scoping after := by
  obtain ⟨_, middle, _, hf, ha, -⟩ := resolveNames?_eq_some.1 h
  have hm := hg.of_shape (shape_resolveFriendlyNames? hf).symm
  rcases hd with hd | hle
  · exact hm.aliasesDistinct_kept ha (hg.aliasesDistinct_resolveFriendlyNames? hf hd)
  · exact (hm.aliasesDistinct_resolveAliases? ha).of_rank_le hle

/-! ## Runs -/

section Run

variable {configs : List Config} {reports : List Report}
  (hrun : thread? (fun config graph => graph.resolveNames? config) configs graph =
    some (reports, after))
include hrun

theorem resolveNames?_outranked
    (hf : ∃ config ∈ configs, other.friendlyRank ≤ config.friendlyRank)
    (ha : ∃ config ∈ configs, other.scoping.rank ≤ config.scoping.rank) :
    ∃ report, after.resolveNames? other = some (report, after) ∧ report.renames = [] := by
  have hshape (config : Config) {graph next : Graph} {report : Report} (hg : graph.WellFormed)
      (h : graph.resolveNames? config = some (report, next)) : next.WellFormed :=
    hg.of_shape (shape_resolveNames? h).symm
  have hfriendly : after.WellFormed ∧ after.FriendlyDistinct other after := thread?_attains
    (fun config _ _ _ hg h => ⟨hshape config hg h, hg.friendlyDistinct_resolveNames? h⟩)
    hrun hg (.inr hf)
  have haliases : after.WellFormed ∧ after.AliasesDistinct other.scoping after := thread?_attains
    (fun config _ _ _ hg h => ⟨hshape config hg h, hg.aliasesDistinct_resolveNames? h⟩)
    hrun hg (.inr ha)
  exact hfriendly.1.resolveNames?_fixed hfriendly.2 haliases.2

/-- A second run of the same passes has nothing to do. -/
theorem second_run : (Pipeline.ofConfigs configs).run? after =
    some (configs.map fun _ => ⟨"resolve_name_collisions", false⟩, after) := by
  have hstep (config : Config) (hc : config ∈ configs) : ∃ report,
      after.resolveNames? config = some (report, after) ∧ report.changed = false := by
    obtain ⟨report, h, hnone⟩ := hg.resolveNames?_outranked hrun ⟨config, hc, Nat.le_refl _⟩
      ⟨config, hc, Nat.le_refl _⟩
    exact ⟨report, h, by simp [Report.changed, hnone]⟩
  rw [Pipeline.run?, Pipeline.ofConfigs, thread?_map]
  refine thread?_known (fun _ => after) fun done config rest hd => ?_
  obtain ⟨report, h, hunchanged⟩ := hstep config (by simp [hd])
  simp [Pass.resolveNames, h, hunchanged]

end Run

end WellFormed

/-- Once passes have run, one that is outranked by some of them, for friendly names and for aliases,
renames nothing and leaves the graph as it is. So a pass need not run twice, and of a pipeline's
second run every pass tells that it changed nothing. -/
theorem Reachable.passes_absorb (hr : graph.Reachable) :
    (∀ (configs : List Config) (reports : List Report) (after : Graph),
      thread? (fun config graph => graph.resolveNames? config) configs graph =
        some (reports, after) →
      ∀ other : Config, (∃ config ∈ configs, other.friendlyRank ≤ config.friendlyRank) →
        (∃ config ∈ configs, other.scoping.rank ≤ config.scoping.rank) →
        ∃ report, after.resolveNames? other = some (report, after) ∧ report.renames = []) ∧
    (∀ (config : Config) (report : Report) (after : Graph),
      graph.resolveNames? config = some (report, after) →
      ∃ report', after.resolveNames? config = some (report', after) ∧ report'.renames = []) ∧
    ∀ (configs : List Config) (outcomes : List PassOutcome) (after : Graph),
      (Pipeline.ofConfigs configs).run? graph = some (outcomes, after) →
      ∃ outcomes', (Pipeline.ofConfigs configs).run? after = some (outcomes', after) ∧
        outcomes'.length = configs.length ∧ (∀ outcome ∈ outcomes', outcome.changed = false) ∧
        Pipeline.anyChanged outcomes' = false := by
  have hg := hr.wellFormed
  refine ⟨fun configs reports after hrun other => hg.resolveNames?_outranked hrun, ?_, ?_⟩
  · intro config report after h
    have hrun : thread? (fun config graph => graph.resolveNames? config) [config] graph =
        some ([report], after) := by simp [thread?_cons, h]
    exact hg.resolveNames?_outranked hrun ⟨config, .head _, Nat.le_refl _⟩
      ⟨config, .head _, Nat.le_refl _⟩
  · intro configs outcomes after hrun
    rw [Pipeline.run?_ofConfigs] at hrun
    obtain ⟨⟨reports, last⟩, hrun, hlast⟩ := Option.map_eq_some_iff.1 hrun
    cases hlast
    refine ⟨_, hg.second_run hrun, List.length_map _, ?_, ?_⟩
    · intro outcome ho
      obtain ⟨config, -, rfl⟩ := List.mem_map.1 ho
      rfl
    · simp [Pipeline.anyChanged]

/-- Of two passes neither outranks a third, but together they do. -/
theorem passes_absorb_conditional :
    ∃ reports after, thread? (fun config graph => graph.resolveNames? config)
        [⟨true, .exclusive⟩, ⟨false, .flattened⟩] conditional = some (reports, after) ∧
      (∀ report ∈ reports, report.changed = true) ∧
      ∃ report, after.resolveNames? ⟨true, .flattened⟩ = some (report, after) ∧
        report.renames = [] := by
  have hany : (thread? (fun config graph => graph.resolveNames? config)
      [⟨true, .exclusive⟩, ⟨false, .flattened⟩] conditional).any fun run =>
        ∀ report ∈ run.1, report.changed = true := by
    decide +kernel
  obtain ⟨⟨reports, after⟩, hrun, hchanged⟩ := (Option.any_eq_true _ _).1 hany
  refine ⟨reports, after, hrun, of_decide_eq_true hchanged, ?_⟩
  exact reachable_conditional.passes_absorb.1 _ _ _ hrun ⟨true, .flattened⟩
    ⟨⟨true, .exclusive⟩, by simp, by decide⟩ ⟨⟨false, .flattened⟩, by simp, by decide⟩

end Graph

end GraphNaming
