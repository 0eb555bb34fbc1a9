import GraphNaming.Proofs.AliasNames
import GraphNaming.Proofs.FriendlyNames

/-!
# What the reports are read off

A report hangs on the shape of the graph and on some of its names: that on friendly names on the
friendly names of the visited nodes and on who chose them, that on aliases on the aliases of the
visited outputs. Two graphs of one shape that have these in common have one report.

* `treeAfter_of_shape`: the scopes of a walk.
* `WellFormed.friendlyReport?_congr`: the report on friendly names.
* `WellFormed.aliasReport?_congr`: the report on aliases.
-/

namespace GraphNaming

/-- A class settles by the aliases of its members alone. -/
theorem AliasClass.assign?_congr {graph other : Graph} {cls : AliasClass}
    (h : ∀ value ∈ cls.members, other.aliases? value = graph.aliases? value) :
    cls.assign? other = cls.assign? graph := by
  have haliases : cls.aliases other = cls.aliases graph := by
    unfold aliases
    exact List.foldl_ext _ _ _ fun names value hv => by rw [h value hv]
  have hholders (name : String) : cls.holders other name = cls.holders graph name :=
    List.filter_congr fun value hv => by rw [h value hv]
  have hreplace : cls.replace? other = cls.replace? graph := by
    funext old space
    simp only [replace?, hholders]
  funext space
  simp only [assign?, haliases, hreplace]

namespace Graph

variable {graph other : Graph}

namespace WellFormed

variable (hg : graph.WellFormed) (hs : graph.shape = other.shape)
include hg hs

/-- The walk opens the same scopes. -/
theorem treeAfter_of_shape (scoping : Scoping) :
    other.treeAfter scoping graph.visited = graph.treeAfter scoping graph.visited := by
  have hwalk : other.walk? scoping = graph.walk? scoping := by
    rw [← walk?_shape, ← hs, walk?_shape]
  rw [hg.walk?_eq, (hg.of_shape hs).walk?_eq, visited_of_shape hs] at hwalk
  exact congrArg Walk.scopes (Option.some.inj hwalk)

/-! ## Friendly names -/

section FriendlyNames

variable (htext : ∀ id ∈ graph.visited, other.friendlyText? id = graph.friendlyText? id)
include htext

/-- What a shared binding joins, and what there is to tell of it, is seen from its two sides, which
are both visited. -/
theorem friendlyText?_of_sharedBinding {binding : InputBinding}
    (hb : binding ∈ graph.sharedBindings) :
    other.friendlyText? (other.source binding.outer).node =
      graph.friendlyText? (graph.source binding.outer).node ∧
    other.friendlyText? binding.inner = graph.friendlyText? binding.inner := by
  obtain ⟨owner, hv, region, hr, hmem, -⟩ := mem_sharedBindings.1 hb
  have hcross := hg.crosses_input hv hr hmem
  rw [source_of_shape hs]
  exact ⟨htext _ hcross.outer_visited, htext _ hcross.inner_visited⟩

theorem agrees_congr : ∀ binding ∈ graph.sharedBindings,
    other.agrees binding = graph.agrees binding := by
  intro binding hb
  obtain ⟨houter, hinner⟩ := hg.friendlyText?_of_sharedBinding hs htext hb
  rw [agrees, agrees, houter, hinner]

theorem divergences_congr : other.divergences = graph.divergences := by
  have hfilter := List.filter_congr fun binding hb =>
    congrArg not (hg.agrees_congr hs htext binding hb)
  rw [divergences, divergences, sharedBindings_of_shape hs, hfilter]
  refine List.map_congr_left fun binding hb => ?_
  obtain ⟨houter, hinner⟩ := hg.friendlyText?_of_sharedBinding hs htext (List.mem_of_mem_filter hb)
  rw [divergenceOf, divergenceOf, houter, hinner, source_of_shape hs]

theorem friendlyLeaders_congr : other.friendlyLeaders = graph.friendlyLeaders := by
  rw [friendlyLeaders, friendlyLeaders, friendlyPartition_of_agrees hs (hg.agrees_congr hs htext),
    visited_of_shape hs]

variable (huser : ∀ id ∈ graph.visited, other.isUserNamed id = graph.isUserNamed id)
include huser

/-- All members of the class of a visited node are visited. -/
theorem friendlyClassOf_congr {leader : NodeId} (hl : leader ∈ graph.friendlyLeaders) :
    other.friendlyClassOf leader = graph.friendlyClassOf leader := by
  have hpartition := friendlyPartition_of_agrees hs (hg.agrees_congr hs htext)
  have hv := friendlyLeader_visited hl
  have hchosen : (graph.friendlyPartition.classOf leader).any other.isUserNamed =
      (graph.friendlyPartition.classOf leader).any graph.isUserNamed := by
    rw [Bool.eq_iff_iff, List.any_eq_true, List.any_eq_true]
    refine exists_congr fun member => and_congr_right fun hm => ?_
    rw [huser member (hg.visited_of_friendly hv (valid_friendlyPartition.mem_classOf.1 hm))]
  rw [friendlyClassOf, friendlyClassOf, scopeOf_of_shape hs, modelOf_of_shape hs, htext leader hv,
    hpartition, hchosen]

/-- The report on friendly names hangs on the names of the visited nodes and on who chose them. -/
theorem friendlyReport?_congr (config : Config) :
    other.friendlyReport? config = graph.friendlyReport? config := by
  have hclasses : graph.friendlyLeaders.map other.friendlyClassOf =
      graph.friendlyLeaders.map graph.friendlyClassOf :=
    List.map_congr_left fun leader hl => hg.friendlyClassOf_congr hs htext huser hl
  rw [hg.friendlyReport?_eq_divergences, (hg.of_shape hs).friendlyReport?_eq_divergences,
    hg.friendlyLeaders_congr hs htext, hclasses, visited_of_shape hs, hg.treeAfter_of_shape hs,
    hg.divergences_congr hs htext]

end FriendlyNames

/-! ## Aliases -/

section Aliases

variable (houtput : ∀ value, graph.IsVisitedOutput value →
  other.output? value = graph.output? value)
include houtput

omit hg in
/-- A visited output is its own source. -/
theorem aliases?_congr {value : Value} (hv : graph.IsVisitedOutput value) :
    other.aliases? value = graph.aliases? value := by
  have hsource : graph.source value = value := by
    obtain ⟨-, node, hn, hr, -⟩ := id hv
    exact source_of_not_result hn hr
  rw [aliases?, aliases?, source_of_shape hs, hsource, houtput value hv]

theorem assign?_aliasClass_congr {leader : OutputVisit} (hl : leader ∈ graph.aliasLeaders) :
    (graph.aliasClassOf leader).assign? other = (graph.aliasClassOf leader).assign? graph := by
  refine AliasClass.assign?_congr fun value hv => aliases?_congr hs houtput ?_
  exact hg.isVisitedOutput_of_member hl (valid_aliasPartition.mem_classOf.1 hv)

/-- The report on aliases hangs on the aliases of the visited outputs. -/
theorem aliasReport?_congr (config : Config) :
    other.aliasReport? config = graph.aliasReport? config := by
  have horder : other.settlingOrder = graph.settlingOrder := by
    rw [settlingOrder, settlingOrder, aliasLeaders_of_shape hs]
  have hclass : other.aliasClassOf = graph.aliasClassOf := by
    funext leader
    rw [aliasClassOf, aliasClassOf, aliasPartition_of_shape hs]
  have hsteps : ∀ cls ∈ graph.settlingOrder.map graph.aliasClassOf, ∀ space,
      cls.assign? other space = cls.assign? graph space := by
    intro cls hc space
    obtain ⟨leader, hl, rfl⟩ := exists_leader_of_mem hc
    rw [hg.assign?_aliasClass_congr hs houtput hl]
  rw [hg.aliasReport?_eq, (hg.of_shape hs).aliasReport?_eq, horder, hclass, visited_of_shape hs,
    hg.treeAfter_of_shape hs, thread?_congr hsteps]

end Aliases

end WellFormed

end Graph

end GraphNaming
