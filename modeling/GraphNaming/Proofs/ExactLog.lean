import GraphNaming.Proofs.Settling
import GraphNaming.Proofs.Totality

/-!
# What a report tells

The renames that a pass reports are what it changes, no more and no less.

* `Graph.ExactLog`: some renames tell exactly what is different in another graph.
* `exactLog_renameAll`: renames that put new names in the place of old ones do.
* `ExactLog.eq_iff`: there are no renames only if nothing is different.
* `WellFormed.replacesName`, `replacesAliases`: what a pass reports at one place.
* `Reachable.report_exact`: every report is exact.
-/

namespace GraphNaming

/-- The renames that are made at `site`. -/
def renamesAt (renames : List Rename) (site : NameSite) : List Rename :=
  renames.filter fun rename => rename.site = site

/-- The name that makes way, and the one that takes its place. -/
def Rename.swap (rename : Rename) : String × String := (rename.old, rename.new)

section RenamesAt

variable {renames more : List Rename} {site : NameSite} {rename : Rename}

theorem mem_renamesAt :
    rename ∈ renamesAt renames site ↔ rename ∈ renames ∧ rename.site = site := by
  simp [renamesAt]

theorem renamesAt_append :
    renamesAt (renames ++ more) site = renamesAt renames site ++ renamesAt more site :=
  List.filter_append ..

theorem renamesAt_eq_nil :
    renamesAt renames site = [] ↔ ∀ rename ∈ renames, rename.site ≠ site := by
  simp [renamesAt]

end RenamesAt

namespace Graph

variable {graph after : Graph} {config : Config} {report : Report} {renames : List Rename}

/-! ## Exact logs -/

/-- The renames tell exactly what is different in `after`. -/
structure ExactLog (graph : Graph) (renames : List Rename) (after : Graph) : Prop where
  shape : after.shape = graph.shape
  userNamed : ∀ id, after.isUserNamed id = graph.isUserNamed id
  /-- A node that is renamed had the old name and has the new one. -/
  friendly : ∀ rename ∈ renames, ∀ id, rename.site = .friendly id →
    graph.friendlyText? id = some rename.old ∧ after.friendlyText? id = some rename.new ∧
      rename.old ≠ rename.new
  once : ∀ id, (renamesAt renames (.friendly id)).length ≤ 1
  /-- An output that is renamed exists and has aliases of its own. -/
  owned : ∀ rename ∈ renames, ∀ value, rename.site = .output value →
    (graph.output? value).isSome = true ∧ graph.source value = value
  replaced : ∀ value output, graph.output? value = some output → ∃ names,
    after.output? value = some { output with aliases := names } ∧
      Replaced output.aliases ((renamesAt renames (.output value)).map Rename.swap) names
  otherNames : ∀ id, (∀ rename ∈ renames, rename.site ≠ .friendly id) →
    after.friendlyText? id = graph.friendlyText? id
  otherOutputs : ∀ value, (∀ rename ∈ renames, rename.site ≠ .output value) →
    after.output? value = graph.output? value

/-- The renames leave the name of the node, or put another in its place once. -/
def ReplacesName (graph : Graph) (renames : List Rename) (id : NodeId) : Prop :=
  renamesAt renames (.friendly id) = [] ∨ ∃ old new, old ≠ new ∧
    graph.friendlyText? id = some old ∧
      renamesAt renames (.friendly id) = [⟨.friendly id, old, new⟩]

/-- The renames leave the aliases of the value, or swap some of its own for others. -/
def ReplacesAliases (graph : Graph) (renames : List Rename) (value : Value) : Prop :=
  renamesAt renames (.output value) = [] ∨ graph.source value = value ∧
    ∃ output swaps, graph.output? value = some output ∧
      renamesAt renames (.output value) =
        swaps.map (fun swap => ⟨.output value, swap.1, swap.2⟩) ∧
      Replaced output.aliases swaps
        (swaps.foldl (fun names swap => names.replace swap.1 swap.2) output.aliases)

/-- Renames that put new names in the place of old ones tell exactly what they change. -/
theorem exactLog_renameAll (hf : ∀ id, graph.ReplacesName renames id)
    (ho : ∀ value, graph.ReplacesAliases renames value) :
    graph.ExactLog renames (graph.renameAll renames) where
  shape := shape_renameAll renames
  userNamed _ := isUserNamed_renameAll renames
  friendly rename hm id hsite := by
    have hat := mem_renamesAt.2 ⟨hm, hsite⟩
    rcases hf id with hnone | ⟨old, new, hne, htext, hone⟩
    · rw [hnone] at hat
      cases hat
    · obtain rfl := List.mem_singleton.1 (hone ▸ hat)
      refine ⟨htext, ?_, hne⟩
      rw [friendlyText?_renameAll, ← renamesAt, hone, htext]
      rfl
  once id := by
    rcases hf id with hnone | ⟨old, new, -, -, hone⟩
    · rw [hnone]
      exact Nat.zero_le _
    · rw [hone]
      exact Nat.le_refl _
  owned rename hm value hsite := by
    have hat := mem_renamesAt.2 ⟨hm, hsite⟩
    rcases ho value with hnone | ⟨hsource, output, swaps, houtput, -⟩
    · rw [hnone] at hat
      cases hat
    · exact ⟨by rw [houtput]; rfl, hsource⟩
  replaced value output houtput := by
    refine ⟨_, by rw [output?_renameAll, houtput, Option.map_some], ?_⟩
    rw [← renamesAt]
    rcases ho value with hnone | ⟨-, output', swaps, houtput', hswaps, hreplaced⟩
    · rw [hnone]
      exact .refl _
    · rw [houtput] at houtput'
      cases houtput'
      rw [hswaps, List.map_map, List.foldl_map]
      simpa [Rename.swap, Function.comp_def] using hreplaced
  otherNames _ := friendlyText?_renameAll_of_not_mem
  otherOutputs _ := output?_renameAll_of_not_mem

namespace ExactLog

variable (h : graph.ExactLog renames after)
include h

/-- What is renamed is different. -/
theorem ne_of_mem {rename : Rename} (hm : rename ∈ renames) : after ≠ graph := by
  rintro rfl
  cases hsite : rename.site with
  | friendly id =>
    obtain ⟨hold, hnew, hne⟩ := h.friendly rename hm id hsite
    exact hne (Option.some.inj (hold.symm.trans hnew))
  | output value =>
    obtain ⟨output, houtput⟩ := Option.isSome_iff_exists.1 (h.owned rename hm value hsite).1
    obtain ⟨names, hafter, hreplaced⟩ := h.replaced value output houtput
    rw [houtput, Option.some.injEq] at hafter
    have hsame : output.aliases = names := congrArg Output.aliases hafter
    have hgone := hreplaced.old rename.swap
      (List.mem_map_of_mem (mem_renamesAt.2 ⟨hm, hsite⟩))
    exact hgone.2 (hsame ▸ hgone.1)

theorem eq_iff : after = graph ↔ renames = [] := by
  constructor
  · intro hsame
    exact List.eq_nil_iff_forall_not_mem.2 fun rename hm => h.ne_of_mem hm hsame
  · rintro rfl
    exact eq_of_names h.shape (fun id => h.otherNames id nofun) h.userNamed
      fun value => h.otherOutputs value nofun

end ExactLog

/-! ## Every report -/

namespace WellFormed

variable (hg : graph.WellFormed)
include hg

theorem replacesName (h : graph.friendlyReport? config = some report) (id : NodeId) :
    graph.ReplacesName report.renames id := by
  by_cases hid : id ∈ graph.visited
  · obtain ⟨plan, hplan, hrenames⟩ := hg.exists_friendlyPlan h
    obtain ⟨leader, hl, name, he, hr⟩ := exists_friendlyEntry hplan.perm hid
    rw [ReplacesName, hrenames, renamesAt, filter_friendlyPlan hplan.perm hl he hr]
    split
    · exact .inl rfl
    · next hne => exact .inr ⟨_, name, Ne.symm hne, hg.friendlyText?_of_member hl hr, rfl⟩
  · exact .inl (renamesAt_eq_nil.2 fun _ hm hsite =>
      hid (hg.visited_of_friendlyRename h hm hsite))

theorem replacesAliases (h : graph.aliasReport? config = some report) (value : Value) :
    graph.ReplacesAliases report.renames value := by
  by_cases hv : graph.IsVisitedOutput value
  · obtain ⟨plan, last, hclasses, hplan, hrenames⟩ := hg.exists_aliasPlan h
    obtain ⟨leader, hl, hr⟩ := hg.exists_aliasLeader hv
    obtain ⟨swaps, he⟩ := exists_swaps hclasses hl
    obtain ⟨before, next, hsettles⟩ := hplan.settles _ he
    obtain ⟨-, node, hn, hresult, hindex⟩ := hv
    have hsource := source_of_not_result hn hresult
    have houtput : graph.output? value = some node.outputs[value.index] := by
      rw [output?, hn, Option.bind_eq_bind, Option.bind_some, List.getElem?_eq_getElem hindex]
    have haliases : (graph.aliases? value).getD ∅ = node.outputs[value.index].aliases := by
      rw [aliases?, hsource, houtput]
      rfl
    -- What the report says of the value are the swaps of its class, less those of aliases that it
    -- does not have.
    have hfilter := filter_plan hclasses hl he hr
    rw [haliases] at hfilter
    refine .inr ⟨hsource, _, _, houtput, by rw [hrenames, renamesAt, hfilter],
      hsettles.swapped.replaced fun name hname => ?_⟩
    exact mem_aliases_aliasClassOf.2 ⟨value, hr, by rwa [Holds, haliases]⟩
  · exact .inl (renamesAt_eq_nil.2 fun _ hm hsite =>
      hv (hg.isVisitedOutput_of_aliasRename h hm hsite))

theorem exactLog (h : graph.resolveNames? config = some (report, after)) :
    graph.ExactLog report.renames after := by
  obtain ⟨friendly, middle, aliases, hf, ha, rfl⟩ := resolveNames?_eq_some.1 h
  have hm := hg.of_shape (shape_resolveFriendlyNames? hf).symm
  obtain ⟨hfriendly, rfl⟩ := resolveFriendlyNames?_eq_some.1 hf
  obtain ⟨haliases, rfl⟩ := resolveAliases?_eq_some.1 ha
  rw [Report.renames_append, ← renameAll_append]
  refine exactLog_renameAll (fun id => ?_) fun value => ?_
  -- The two halves of the pass rename different things, so each log is as exact in the whole as
  -- alone.
  · have hnone : renamesAt aliases.renames (.friendly id) = [] :=
      renamesAt_eq_nil.2 fun _ hr => hm.aliasRename_ne_friendly haliases hr id
    rw [ReplacesName, renamesAt_append, hnone, List.append_nil]
    exact hg.replacesName hfriendly id
  · have hnone : renamesAt friendly.renames (.output value) = [] :=
      renamesAt_eq_nil.2 fun _ hr => hg.friendlyRename_ne_output hfriendly hr value
    have hmiddle := hm.replacesAliases haliases value
    rw [ReplacesAliases, source_renameAll,
      output?_renameAll_of_not_mem (renamesAt_eq_nil.1 hnone)] at hmiddle
    rw [ReplacesAliases, renamesAt_append, hnone, List.nil_append]
    exact hmiddle

end WellFormed

/-- A pass reports exactly what it changes, and it tells of a change only if there is one. It may
as well rename and log class by class as it goes along. There is an outcome on a graph with fewer
than `2 ^ 32 - 2` nodes and aliases. -/
theorem Reachable.report_exact (hr : graph.Reachable) (config : Config) :
    graph.settleNames? config = graph.resolveNames? config ∧
    (graph.nodes.size < 0xFFFFFFFE → graph.allAliases.length < 0xFFFFFFFE →
      ∃ report after, graph.resolveNames? config = some (report, after)) ∧
    ∀ report after, graph.resolveNames? config = some (report, after) →
      graph.ExactLog report.renames after ∧ (report.changed = true ↔ after ≠ graph) := by
  have hg := hr.wellFormed
  refine ⟨hg.settleNames?_eq config, fun hn ha => hg.exists_resolveNames? hn ha config,
    fun report after h => ?_⟩
  have hlog := hg.exactLog h
  refine ⟨hlog, ?_⟩
  rw [Ne, hlog.eq_iff, Report.changed, Bool.not_eq_true', List.isEmpty_eq_false_iff]

/-- In the conditional a pass replaces names of both kinds, under strict settings too, and reports
exactly these. -/
theorem report_exact_conditional : conditional.Reachable ∧
    ∀ config ∈ [({} : Config), { strict := true }],
      ∃ report after, conditional.settleNames? config = some (report, after) ∧
        (∃ rename ∈ report.renames, ∃ id, rename.site = .friendly id) ∧
        (∃ rename ∈ report.renames, ∃ value, rename.site = .output value) ∧
        conditional.ExactLog report.renames after ∧ after ≠ conditional := by
  refine ⟨reachable_conditional, fun config hconfig => ?_⟩
  have hkinds : ∀ config ∈ [({} : Config), { strict := true }],
      ∀ run ∈ conditional.resolveNames? config,
        (∃ rename ∈ run.1.renames,
          rename.site = .friendly ⟨0⟩ ∨ rename.site = .friendly ⟨10⟩) ∧
        ∃ rename ∈ run.1.renames, rename.site = .output ⟨⟨2⟩, 0⟩ := by
    decide +kernel
  obtain ⟨hnodes, haliases⟩ := few_conditional
  obtain ⟨hsettle, hexists, hexact⟩ := reachable_conditional.report_exact config
  obtain ⟨report, after, h⟩ := hexists hnodes haliases
  obtain ⟨⟨rename, hm, hsite⟩, ⟨rename', hm', hsite'⟩⟩ := hkinds config hconfig _ h
  obtain ⟨hlog, -⟩ := hexact report after h
  exact ⟨report, after, hsettle.trans h, ⟨rename, hm, hsite.elim (⟨_, ·⟩) (⟨_, ·⟩)⟩,
    ⟨rename', hm', _, hsite'⟩, hlog, hlog.ne_of_mem hm⟩

end Graph

end GraphNaming
