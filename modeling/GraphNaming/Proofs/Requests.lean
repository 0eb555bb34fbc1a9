import GraphNaming.Proofs.Sequencing
import GraphNaming.Proofs.WellFormed

/-!
# What a request must meet

When the checks pass that are made before a graph is changed, and the requests that change only
aliases.

* `requireLocal_eq_ok`: the value is an output of a node of the model.
* `requireRegions_eq_ok`: every region is `Acceptable`, and all are different.
* `modifyAliases_eq_ok`: aliases can be given to outputs that exist, and to no other values.
* `mem_withBoundValues`: the values that an owner takes.
-/

namespace GraphNaming.Graph

variable {graph after : Graph}

theorem requireModel_eq_ok {id : ModelId} {model : Model} :
    graph.requireModel id = .ok model ↔ graph.model? id = some model := by
  unfold requireModel
  cases graph.model? id <;> simp

theorem requireNode_eq_ok {id : NodeId} {node : Node} :
    graph.requireNode id = .ok node ↔ graph.node? id = some node := by
  unfold requireNode
  cases graph.node? id <;> simp

theorem requireProducer_eq_ok {value : Value} {node : Node} :
    graph.requireProducer value = .ok node ↔
      graph.node? value.node = some node ∧ value.index < node.outputs.length := by
  rw [requireProducer, bind_eq_ok]
  constructor
  · rintro ⟨producer, hp, h⟩
    split at h
    · cases h
      exact ⟨requireNode_eq_ok.1 hp, ‹_›⟩
    · cases h
  · rintro ⟨hn, hi⟩
    exact ⟨node, requireNode_eq_ok.2 hn, if_pos hi⟩

theorem requireLocal_eq_ok {model : ModelId} {value : Value} :
    graph.requireLocal model value = .ok () ↔ graph.Produces model value := by
  rw [requireLocal, bind_eq_ok]
  constructor
  · rintro ⟨producer, hp, h⟩
    obtain ⟨hn, hi⟩ := requireProducer_eq_ok.1 hp
    split at h
    · exact ⟨producer, hn, ‹_›, hi⟩
    · cases h
  · rintro ⟨node, hn, hm, hi⟩
    exact ⟨node, requireProducer_eq_ok.2 ⟨hn, hi⟩, if_pos hm⟩

/-! ## Regions -/

/-- A new node of `model` with `outputs` outputs can own `region`, whose model is `inner`, unless
it would lie in itself. -/
structure Acceptable (graph : Graph) (model : ModelId) (outputs : Nat) (region : Region)
    (inner : Model) : Prop where
  found : graph.model? region.model = some inner
  free : inner.owner = none
  input : ∀ binding ∈ region.inputs,
    graph.Produces model binding.outer ∧ binding.inner ∈ inner.parameters
  output : ∀ binding ∈ region.outputs,
    binding.inner ∈ inner.results ∧ binding.outer < outputs

theorem requireInput_eq_ok {model : ModelId} {inner : Model} {binding : InputBinding} :
    graph.requireInput model inner binding = .ok () ↔
      graph.Produces model binding.outer ∧ binding.inner ∈ inner.parameters := by
  rw [requireInput, bind_eq_ok]
  constructor
  · rintro ⟨_, hl, h⟩
    split at h
    · exact ⟨requireLocal_eq_ok.1 hl, ‹_›⟩
    · cases h
  · rintro ⟨hp, hi⟩
    exact ⟨(), requireLocal_eq_ok.2 hp, if_pos hi⟩

theorem requireOutput_eq_ok {inner : Model} {outputs : Nat} {binding : OutputBinding} :
    requireOutput inner outputs binding = .ok () ↔
      binding.inner ∈ inner.results ∧ binding.outer < outputs := by
  unfold requireOutput
  by_cases hi : binding.inner ∈ inner.results <;> by_cases ho : binding.outer < outputs <;>
    simp [hi, ho]

theorem requireRegion_eq_ok {model : ModelId} {outputs : Nat} {barred : List ModelId}
    {region : Region} :
    graph.requireRegion model outputs barred region = .ok () ↔
      region.model ∉ barred ∧ ∃ inner, graph.Acceptable model outputs region inner := by
  rw [requireRegion, bind_eq_ok]
  constructor
  · rintro ⟨inner, hm, h⟩
    split at h
    · cases h
    · next hb =>
      split at h
      · cases h
      · next hfree =>
        obtain ⟨_, hin, hout⟩ := bind_eq_ok.1 h
        exact ⟨hb, inner, requireModel_eq_ok.1 hm, hfree,
          fun b hb => requireInput_eq_ok.1 (forM_eq_ok.1 hin b hb),
          fun b hb => requireOutput_eq_ok.1 (forM_eq_ok.1 hout b hb)⟩
  · rintro ⟨hb, inner, ha⟩
    refine ⟨inner, requireModel_eq_ok.2 ha.found, ?_⟩
    rw [if_neg hb, ha.free]
    exact bind_eq_ok.2 ⟨(), forM_eq_ok.2 fun b hb => requireInput_eq_ok.2 (ha.input b hb),
      forM_eq_ok.2 fun b hb => requireOutput_eq_ok.2 (ha.output b hb)⟩

theorem requireRegions_eq_ok {model : ModelId} {outputs : Nat} {barred : List ModelId}
    {regions : List Region} :
    graph.requireRegions model outputs barred regions = .ok () ↔
      (∀ region ∈ regions, region.model ∉ barred ∧
        ∃ inner, graph.Acceptable model outputs region inner) ∧
      (regions.map (·.model)).Nodup := by
  induction regions generalizing barred with
  | nil => simp [requireRegions]
  | cons region regions ih =>
    rw [requireRegions, bind_eq_ok, List.map_cons, List.nodup_cons, List.forall_mem_cons]
    simp only [ih, List.mem_cons, not_or, List.mem_map, not_exists, not_and]
    constructor
    · rintro ⟨_, hr, hrest, hnodup⟩
      exact ⟨⟨requireRegion_eq_ok.1 hr, fun r h => ⟨(hrest r h).1.2, (hrest r h).2⟩⟩,
        fun r h => (hrest r h).1.1, hnodup⟩
    · rintro ⟨⟨hr, hrest⟩, hne, hnodup⟩
      exact ⟨(), requireRegion_eq_ok.2 hr,
        fun r h => ⟨⟨hne r h, (hrest r h).1⟩, (hrest r h).2⟩, hnodup⟩

/-! ## Aliases -/

section Aliases

variable {value : Value} {change : AliasSet → AliasSet}

/-- The requests are checked only for the value that they name. -/
theorem modifyAliases_eq_ok : (modifyAliases value change).run graph = .ok () after ↔
    (∃ model, graph.Produces model value) ∧
      after = graph.modifyOutput (graph.source value) fun output =>
        { output with aliases := change output.aliases } := by
  rw [modifyAliases, Request.check_bind_eq_ok]
  constructor
  · rintro ⟨node, hnode, h⟩
    cases h
    obtain ⟨hn, hi⟩ := requireProducer_eq_ok.1 hnode
    exact ⟨⟨node.model, node, hn, rfl, hi⟩, rfl⟩
  · rintro ⟨⟨model, node, hn, -, hi⟩, rfl⟩
    exact ⟨node, requireProducer_eq_ok.2 ⟨hn, hi⟩, rfl⟩

/-- A request is refused just when the value is no output of the graph. -/
theorem modifyAliases_refused :
    (∃ error after, (modifyAliases value change).run graph = .error error after) ↔
      ¬ ∃ model, graph.Produces model value := by
  cases hrun : (modifyAliases value change).run graph with
  | ok _ after =>
    have hvalid := (modifyAliases_eq_ok.1 hrun).1
    exact iff_of_false nofun (not_not.2 hvalid)
  | error error after =>
    refine iff_of_true ⟨error, after, rfl⟩ fun hvalid => ?_
    rw [modifyAliases_eq_ok.2 ⟨hvalid, rfl⟩] at hrun
    cases hrun

end Aliases

/-! ## Values bound to regions -/

theorem mem_withBoundValues {values : List Value} {regions : List Region} {value : Value} :
    value ∈ withBoundValues values regions ↔
      value ∈ values ∨ ∃ region ∈ regions, ∃ binding ∈ region.inputs, binding.outer = value := by
  have fold : ∀ (more values : List Value), value ∈ more.foldl
      (fun known value => if value ∈ known then known else known ++ [value]) values ↔
        value ∈ values ∨ value ∈ more := by
    intro more
    induction more with
    | nil => simp
    | cons first more ih =>
      intro values
      rw [List.foldl_cons, ih]
      split
      · next hf =>
        rw [List.mem_cons]
        exact ⟨fun h => h.imp_right .inr, fun h => h.elim .inl fun h => h.elim
          (fun he => .inl (he ▸ hf)) .inr⟩
      · simp [or_assoc]
  rw [withBoundValues, fold]
  simp [List.mem_flatMap, List.mem_map]

end GraphNaming.Graph
