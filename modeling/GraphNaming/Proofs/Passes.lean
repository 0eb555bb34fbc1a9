import GraphNaming.Proofs.AliasNames
import GraphNaming.Proofs.FriendlyNames

/-!
# What a pass leaves

The two halves of a pass do not touch each other's names, and neither joins or splits a class. So
what one of them makes unique stays so through the other.

* `output?_resolveFriendlyNames?`, `friendlyText?_resolveAliases?`: what each half leaves alone;
  `friendlyText?_of_not_visited`, `output?_of_not_visited`: what it does not visit.
* `Graph.SameClasses`: the links and the user's choices are the same.
* `WellFormed.sameClasses_resolveFriendlyNames?`, `sameClasses_resolveAliases?`: a pass keeps them.
* `WellFormed.friendlyDistinct_resolveFriendlyNames?`, `aliasesDistinct_resolveAliases?`: no names
  clash after a pass.
* `WellFormed.resolveNames?_fixed`: a pass that finds no clash changes nothing.
-/

namespace GraphNaming.Graph

variable {graph after : Graph} {config : Config} {report : Report}

/-- The two graphs have the same classes, named by the user or not. -/
structure SameClasses (graph other : Graph) : Prop where
  shape : graph.shape = other.shape
  friendly : other.friendlyPartition = graph.friendlyPartition
  userNamed : ∀ id, other.isUserNamed id = graph.isUserNamed id

section SameClasses

variable {other : Graph}

theorem SameClasses.trans (h : graph.SameClasses other) (h' : other.SameClasses after) :
    graph.SameClasses after where
  shape := h.shape.trans h'.shape
  friendly := h'.friendly.trans h.friendly
  userNamed id := (h'.userNamed id).trans (h.userNamed id)

theorem SameClasses.inUserClass (h : graph.SameClasses other) {id : NodeId}
    (hu : graph.InUserClass id) : other.InUserClass id := by
  obtain ⟨member, hm, hu⟩ := hu
  exact ⟨member, h.friendly ▸ hm, (h.userNamed member).trans hu⟩

theorem MayShareName.of_sameClasses (h : graph.SameClasses other) {a b : NodeId}
    (hm : graph.MayShareName config a b) : other.MayShareName config a b := by
  obtain ⟨hstrict, ⟨hscoping, halt⟩ | ⟨hu, hu'⟩⟩ := hm
  · refine ⟨hstrict, .inl ⟨hscoping, ?_⟩⟩
    rw [visited_of_shape h.shape, modelOf_of_shape h.shape, modelOf_of_shape h.shape]
    exact halt.of_shape h.shape
  · exact ⟨hstrict, .inr ⟨h.inUserClass hu, h.inUserClass hu'⟩⟩

theorem FriendlyDistinct.of_sameClasses (h : graph.SameClasses other)
    (hd : graph.FriendlyDistinct config after) : other.FriendlyDistinct config after := by
  intro a ha b hb hr hsame
  rw [visited_of_shape h.shape] at ha hb
  rw [h.friendly] at hr
  exact (hd a ha b hb hr hsame).of_sameClasses h

theorem AliasesDistinct.of_shape {scoping : Scoping} (h : graph.shape = other.shape)
    (hd : graph.AliasesDistinct scoping after) : other.AliasesDistinct scoping after := by
  intro leader hl leader' hl' hne u v name hu hv hun hvn
  rw [aliasLeaders_of_shape h] at hl hl'
  rw [aliasPartition_of_shape h] at hu hv
  obtain ⟨hscoping, halt⟩ := hd leader hl leader' hl' hne u v name hu hv hun hvn
  rw [visited_of_shape h, modelOf_of_shape h, modelOf_of_shape h]
  exact ⟨hscoping, halt.of_shape h⟩

end SameClasses

namespace WellFormed

variable (hg : graph.WellFormed)
include hg

/-! ## Friendly names -/

section FriendlyNames

variable (h : graph.resolveFriendlyNames? config = some (report, after))
include h

theorem output?_resolveFriendlyNames? (value : Value) :
    after.output? value = graph.output? value := by
  obtain ⟨hreport, rfl⟩ := resolveFriendlyNames?_eq_some.1 h
  exact output?_renameAll_of_not_mem fun _ hr => hg.friendlyRename_ne_output hreport hr value

theorem aliases?_resolveFriendlyNames? (value : Value) :
    after.aliases? value = graph.aliases? value := by
  rw [aliases?, hg.output?_resolveFriendlyNames? h,
    source_of_shape (shape_resolveFriendlyNames? h).symm, aliases?]

/-- Nodes that the walk does not visit keep their names. -/
theorem friendlyText?_of_not_visited {id : NodeId} (hv : id ∉ graph.visited) :
    after.friendlyText? id = graph.friendlyText? id := by
  obtain ⟨hreport, rfl⟩ := resolveFriendlyNames?_eq_some.1 h
  exact friendlyText?_renameAll_of_not_mem fun _ hr hsite =>
    hv (hg.visited_of_friendlyRename hreport hr hsite)

theorem holds_resolveFriendlyNames? (value : Value) (name : String) :
    after.Holds value name ↔ graph.Holds value name := by
  rw [Holds, Holds, hg.aliases?_resolveFriendlyNames? h]

theorem sameClasses_resolveFriendlyNames? : graph.SameClasses after where
  shape := (shape_resolveFriendlyNames? h).symm
  friendly := by
    have hs := (shape_resolveFriendlyNames? h).symm
    exact friendlyPartition_of_agrees hs fun _ => hg.agrees_after (hg.friendlyOutcome h) hs
  userNamed id := by
    obtain ⟨-, rfl⟩ := resolveFriendlyNames?_eq_some.1 h
    exact isUserNamed_renameAll _

/-- After a pass the friendly names are distinct. -/
theorem friendlyDistinct_resolveFriendlyNames? : after.FriendlyDistinct config after :=
  (hg.friendlyOutcome h).distinct.of_sameClasses (hg.sameClasses_resolveFriendlyNames? h)

/-- Aliases that are distinct stay so. -/
theorem aliasesDistinct_resolveFriendlyNames? {scoping : Scoping}
    (hd : graph.AliasesDistinct scoping graph) : after.AliasesDistinct scoping after := by
  refine AliasesDistinct.of_shape (shape_resolveFriendlyNames? h).symm ?_
  simpa only [AliasesDistinct, hg.holds_resolveFriendlyNames? h] using hd

end FriendlyNames

/-! ## Aliases -/

section Aliases

variable (h : graph.resolveAliases? config = some (report, after))
include h

theorem friendlyText?_resolveAliases? (id : NodeId) :
    after.friendlyText? id = graph.friendlyText? id := by
  obtain ⟨hreport, rfl⟩ := resolveAliases?_eq_some.1 h
  exact friendlyText?_renameAll_of_not_mem fun _ hr => hg.aliasRename_ne_friendly hreport hr id

/-- Values other than visited outputs keep their own aliases. -/
theorem output?_of_not_visited {value : Value} (hv : ¬ graph.IsVisitedOutput value) :
    after.output? value = graph.output? value := by
  obtain ⟨hreport, rfl⟩ := resolveAliases?_eq_some.1 h
  exact output?_renameAll_of_not_mem fun _ hr hsite =>
    hv (hg.isVisitedOutput_of_aliasRename hreport hr hsite)

theorem sameClasses_resolveAliases? : graph.SameClasses after where
  shape := (shape_resolveAliases? h).symm
  friendly := by
    have hs := (shape_resolveAliases? h).symm
    refine friendlyPartition_of_agrees hs fun binding _ => ?_
    simp only [agrees, source_of_shape hs, hg.friendlyText?_resolveAliases? h]
  userNamed id := by
    obtain ⟨-, rfl⟩ := resolveAliases?_eq_some.1 h
    exact isUserNamed_renameAll _

/-- After a pass the aliases are distinct. -/
theorem aliasesDistinct_resolveAliases? : after.AliasesDistinct config.scoping after :=
  (hg.aliasOutcome h).distinct.of_shape (shape_resolveAliases? h).symm

/-- Friendly names that are distinct stay so. -/
theorem friendlyDistinct_resolveAliases? {other : Config}
    (hd : graph.FriendlyDistinct other graph) : after.FriendlyDistinct other after := by
  refine FriendlyDistinct.of_sameClasses (hg.sameClasses_resolveAliases? h) ?_
  simpa only [FriendlyDistinct, hg.friendlyText?_resolveAliases? h] using hd

end Aliases

/-! ## Both -/

section Both

variable (h : graph.resolveNames? config = some (report, after))
include h

theorem sameClasses_resolveNames? : graph.SameClasses after := by
  obtain ⟨_, middle, _, hf, ha, -⟩ := resolveNames?_eq_some.1 h
  have hm := hg.of_shape (shape_resolveFriendlyNames? hf).symm
  exact (hg.sameClasses_resolveFriendlyNames? hf).trans (hm.sameClasses_resolveAliases? ha)

/-- A whole pass does to the aliases what the pass over aliases alone does. -/
theorem aliasOutcome_resolveNames? : graph.AliasOutcome config.scoping after := by
  obtain ⟨_, middle, _, hf, ha, -⟩ := resolveNames?_eq_some.1 h
  have hs := shape_resolveFriendlyNames? hf
  obtain ⟨himage, hdistinct⟩ := (hg.of_shape hs.symm).aliasOutcome ha
  refine ⟨?_, hdistinct.of_shape hs⟩
  simpa only [aliasLeaders_of_shape hs.symm, aliasPartition_of_shape hs.symm,
    hg.holds_resolveFriendlyNames? hf] using himage

/-- Values other than visited outputs keep their aliases. -/
theorem aliases?_resolveNames?_of_not_visited {value : Value}
    (hv : ¬ graph.IsVisitedOutput (graph.source value)) :
    after.aliases? value = graph.aliases? value := by
  obtain ⟨_, middle, _, hf, ha, -⟩ := resolveNames?_eq_some.1 h
  have hs := shape_resolveFriendlyNames? hf
  have hm := hg.of_shape hs.symm
  have hmiddle : ¬ middle.IsVisitedOutput (graph.source value) :=
    fun hv' => hv (isVisitedOutput_of_shape hs hv')
  rw [aliases?, aliases?, source_of_shape (shape_resolveNames? h).symm,
    hm.output?_of_not_visited ha hmiddle, hg.output?_resolveFriendlyNames? hf]

end Both

/-- A pass that finds no clash changes nothing. -/
theorem resolveNames?_fixed (hf : graph.FriendlyDistinct config graph)
    (ha : graph.AliasesDistinct config.scoping graph) :
    ∃ report, graph.resolveNames? config = some (report, graph) ∧ report.renames = [] := by
  obtain ⟨friendly, hfriendly, hnone⟩ := hg.resolveFriendlyNames?_fixed hf
  obtain ⟨aliases, haliases, hnone'⟩ := hg.resolveAliases?_fixed ha
  exact ⟨friendly ++ aliases, resolveNames?_eq_some.2 ⟨_, _, _, hfriendly, haliases, rfl⟩,
    by rw [Report.renames_append, hnone, hnone', List.append_nil]⟩

end WellFormed

end GraphNaming.Graph
