import GraphNaming.Proofs.WellFormed
import Mathlib.Data.List.Perm.Subperm
import Mathlib.Logic.Relation

/-!
# Nested models

In a well-formed graph the models form a forest, and what a model lies in is a chain.

* `Graph.Within`: a model is another one or lies in it.
* `parent?_eq_some_iff`: the model around a region is that of the node that owns it.
* `not_within_of_parent?`, `within_total`, `sibling_unique`: no model lies in itself, of two models
  around a third one lies in the other, and a model lies in one region of each model at most.
* `mem_enclosing`, `enclosing_of_parent?`, `length_enclosing_le`: the list of all that a model lies
  in, which is never longer than there are models.
* `fuel_size`, `fuel_of_parent?`, `fuel_induct`: so a recursion on nested models does not run out
  of fuel.
-/

namespace GraphNaming.Graph

variable {graph : Graph}

/-- The model `inner` is `outer` or lies in it. -/
def Within (graph : Graph) (inner outer : ModelId) : Prop :=
  Relation.ReflTransGen (fun inner outer => graph.parent? inner = some outer) inner outer

theorem Within.refl (id : ModelId) : graph.Within id id := Relation.ReflTransGen.refl

theorem Within.trans {a b c : ModelId} (hab : graph.Within a b) (hbc : graph.Within b c) :
    graph.Within a c := Relation.ReflTransGen.trans hab hbc

theorem Within.of_parent? {inner outer : ModelId} (h : graph.parent? inner = some outer) :
    graph.Within inner outer := Relation.ReflTransGen.single h

/-- Of two models around a third, one lies in the other. -/
theorem within_total {a b c : ModelId} (hb : graph.Within a b) (hc : graph.Within a c) :
    graph.Within b c ∨ graph.Within c b :=
  Relation.ReflTransGen.total_of_right_unique
    (fun _ _ _ h h' => Option.some.inj (h.symm.trans h')) hb hc

/-- A model other than `outer` that lies in `outer` has a parent that does. -/
theorem Within.parent {inner outer : ModelId} (h : graph.Within inner outer) (hne : inner ≠ outer) :
    ∃ parent, graph.parent? inner = some parent ∧ graph.Within parent outer :=
  (Relation.ReflTransGen.cases_head h).resolve_left hne

/-! ## No model lies in itself -/

theorem Grounded.not_within {inner : ModelId} (hg : graph.Grounded inner) {outer : ModelId}
    (h : graph.parent? inner = some outer) : ¬ graph.Within outer inner := by
  induction hg generalizing outer with
  | intro inner _ ih =>
    intro hw
    by_cases he : outer = inner
    · subst he
      exact ih outer h h (.refl _)
    · obtain ⟨parent, hp, hw⟩ := hw.parent he
      exact ih outer h hp (hw.trans (.of_parent? h))

namespace WellFormed

variable (hg : graph.WellFormed)
include hg

theorem model_exists_of_owns {owner : NodeId} {id : ModelId} (h : graph.Owns owner id) :
    ∃ model, graph.model? id = some model := by
  obtain ⟨node, hn, hid⟩ := h
  obtain ⟨region, hr, rfl⟩ := List.mem_map.1 hid
  exact ((hg.node hn).region region hr).model

/-- A model has one owner at most. -/
theorem owner_unique {a b : NodeId} {id : ModelId} (ha : graph.Owns a id) (hb : graph.Owns b id) :
    a = b := by
  obtain ⟨model, hm⟩ := hg.model_exists_of_owns ha
  have ha := (hg.owner_iff hm a).2 ha
  rw [(hg.owner_iff hm b).2 hb] at ha
  exact (Option.some.inj ha).symm

theorem parent?_eq_some_iff {id outer : ModelId} :
    graph.parent? id = some outer ↔ ∃ owner, graph.Owns owner id ∧ graph.InModel owner outer := by
  constructor
  · intro h
    obtain ⟨model, hm, h⟩ := Option.bind_eq_some_iff.1 h
    obtain ⟨owner, ho, h⟩ := Option.bind_eq_some_iff.1 h
    obtain ⟨node, hn, h⟩ := Option.bind_eq_some_iff.1 h
    exact ⟨owner, (hg.owner_iff hm owner).1 ho, node, hn, Option.some.inj h⟩
  · rintro ⟨owner, ho, node, hn, rfl⟩
    obtain ⟨model, hm⟩ := hg.model_exists_of_owns ho
    simp [parent?, hm, (hg.owner_iff hm owner).2 ho, hn]

theorem parent?_of_region {id : NodeId} {node : Node} {region : Region}
    (hn : graph.node? id = some node) (hr : region ∈ node.regions) :
    graph.parent? region.model = some node.model :=
  hg.parent?_eq_some_iff.2 ⟨id, ⟨node, hn, List.mem_map_of_mem hr⟩, node, hn, rfl⟩

/-- The regions of a node have different models. -/
theorem nodup_regions {id : NodeId} {node : Node} (hn : graph.node? id = some node) :
    (node.regions.map (·.model)).Nodup := by
  have hmem : node ∈ graph.nodes.toList :=
    Array.mem_toList_iff.2 (Array.mem_of_getElem? hn)
  exact (List.nodup_flatMap.1 hg.once).1 node hmem

theorem model_exists_of_inModel {id : NodeId} {model : ModelId} (h : graph.InModel id model) :
    ∃ m, graph.model? model = some m := by
  obtain ⟨node, hn, rfl⟩ := h
  exact (hg.node hn).model

theorem model_exists_of_parent? {id outer : ModelId} (h : graph.parent? id = some outer) :
    (∃ model, graph.model? id = some model) ∧ ∃ model, graph.model? outer = some model := by
  obtain ⟨owner, ho, hm⟩ := hg.parent?_eq_some_iff.1 h
  exact ⟨hg.model_exists_of_owns ho, hg.model_exists_of_inModel hm⟩

theorem parent?_root : graph.parent? .root = none := by
  obtain ⟨model, hm⟩ := hg.hasRoot
  simp [parent?, hm, hg.root_free hm]

theorem not_owns_root (owner : NodeId) : ¬ graph.Owns owner .root := by
  intro ho
  obtain ⟨model, hm⟩ := hg.hasRoot
  have howner := (hg.owner_iff hm owner).2 ho
  rw [hg.root_free hm] at howner
  cases howner

theorem not_within_of_parent? {inner outer : ModelId} (h : graph.parent? inner = some outer) :
    ¬ graph.Within outer inner := by
  obtain ⟨⟨model, hm⟩, -⟩ := hg.model_exists_of_parent? h
  exact (hg.grounded hm).not_within h

/-- A model lies in one region at most of those with the parent `outer`. -/
theorem sibling_unique {a b outer inner : ModelId} (ha : graph.parent? a = some outer)
    (hb : graph.parent? b = some outer) (hia : graph.Within inner a)
    (hib : graph.Within inner b) : a = b := by
  -- One of the two lies in the other. If they were different, their parent would lie in one of its
  -- own regions.
  have below {a b : ModelId} (ha : graph.parent? a = some outer)
      (hb : graph.parent? b = some outer) (h : graph.Within a b) : a = b := by
    refine Classical.byContradiction fun hne => ?_
    obtain ⟨parent, hp, hw⟩ := h.parent hne
    rw [ha] at hp
    cases hp
    exact hg.not_within_of_parent? hb hw
  rcases within_total hia hib with h | h
  · exact below ha hb h
  · exact (below hb ha h).symm

end WellFormed

/-! ## All that a model lies in -/

/-- Different models of a graph are no more than it has. -/
theorem length_models_le {ids : List ModelId} (hn : ids.Nodup)
    (h : ∀ id ∈ ids, ∃ model, graph.model? id = some model) :
    ids.length ≤ graph.models.size := by
  have hsub : ids.map (·.number) ⊆ List.range graph.models.size := by
    intro number hnumber
    obtain ⟨id, hid, rfl⟩ := List.mem_map.1 hnumber
    obtain ⟨model, hm⟩ := h id hid
    exact List.mem_range.2 (Array.getElem?_eq_some_iff.1 hm).1
  have hnodup : (ids.map (·.number)).Nodup := hn.map fun ⟨_⟩ ⟨_⟩ hab => by cases hab; rfl
  simpa using (hnodup.subperm hsub).length_le

/-- `chain` is the model `id` with all that it lies in, the innermost first. -/
inductive Chain (graph : Graph) : ModelId → List ModelId → Prop
  | top {id} : graph.parent? id = none → Chain graph id [id]
  | inside {id outer chain} : graph.parent? id = some outer → Chain graph outer chain →
    Chain graph id (id :: chain)

theorem Grounded.exists_chain {id : ModelId} (h : graph.Grounded id) :
    ∃ chain, graph.Chain id chain := by
  induction h with
  | intro id _ ih =>
    cases hp : graph.parent? id with
    | none => exact ⟨_, .top hp⟩
    | some outer =>
      obtain ⟨chain, hc⟩ := ih outer hp
      exact ⟨_, .inside hp hc⟩

namespace Chain

variable {id : ModelId} {chain : List ModelId}

theorem mem_iff (h : graph.Chain id chain) {outer : ModelId} :
    outer ∈ chain ↔ graph.Within id outer := by
  induction h with
  | @top id hp =>
    rw [List.mem_singleton]
    refine ⟨fun h => h ▸ .refl _, fun h => ?_⟩
    refine Classical.byContradiction fun hne => ?_
    obtain ⟨parent, hparent, -⟩ := h.parent (Ne.symm hne)
    rw [hp] at hparent
    cases hparent
  | @inside id parent chain hp _ ih =>
    rw [List.mem_cons, ih]
    constructor
    · rintro (rfl | h)
      · exact .refl _
      · exact (Within.of_parent? hp).trans h
    · intro h
      by_cases he : outer = id
      · exact .inl he
      · obtain ⟨parent', hp', hw⟩ := h.parent (Ne.symm he)
        rw [hp] at hp'
        cases hp'
        exact .inr hw

theorem enclosingWithin (h : graph.Chain id chain) {fuel : Nat} (hf : chain.length ≤ fuel) :
    graph.enclosingWithin fuel id = chain := by
  induction h generalizing fuel with
  | top hp =>
    obtain ⟨fuel, rfl⟩ := Nat.exists_eq_succ_of_ne_zero (Nat.ne_of_gt hf)
    simp [Graph.enclosingWithin, hp]
  | inside hp _ ih =>
    rw [List.length_cons] at hf
    obtain ⟨fuel, rfl⟩ := Nat.exists_eq_succ_of_ne_zero (show fuel ≠ 0 by omega)
    simp only [Graph.enclosingWithin, hp, ih (show _ ≤ fuel by omega)]

variable (hg : graph.WellFormed)
include hg

theorem nodup (h : graph.Chain id chain) : chain.Nodup := by
  induction h with
  | top _ => exact List.nodup_singleton _
  | inside hp hc ih =>
    refine List.nodup_cons.2 ⟨fun hm => ?_, ih⟩
    exact hg.not_within_of_parent? hp (hc.mem_iff.1 hm)

theorem exists_of_mem (h : graph.Chain id chain) (hid : ∃ model, graph.model? id = some model) :
    ∀ outer ∈ chain, ∃ model, graph.model? outer = some model := by
  induction h with
  | top _ => simpa using hid
  | inside hp _ ih =>
    exact List.forall_mem_cons.2 ⟨hid, ih (hg.model_exists_of_parent? hp).2⟩

/-- The models of a chain are different, so there are no more of them than models. -/
theorem length_le (h : graph.Chain id chain) (hid : ∃ model, graph.model? id = some model) :
    chain.length ≤ graph.models.size :=
  length_models_le (h.nodup hg) (h.exists_of_mem hg hid)

end Chain

namespace WellFormed

variable (hg : graph.WellFormed)
include hg

theorem chain_enclosing {id : ModelId} (hid : ∃ model, graph.model? id = some model) :
    graph.Chain id (graph.enclosing id) := by
  obtain ⟨model, hm⟩ := hid
  obtain ⟨chain, hc⟩ := (hg.grounded hm).exists_chain
  rwa [enclosing, hc.enclosingWithin (hc.length_le hg ⟨model, hm⟩)]

theorem mem_enclosing {inner outer : ModelId} (hi : ∃ model, graph.model? inner = some model) :
    outer ∈ graph.enclosing inner ↔ graph.Within inner outer :=
  (hg.chain_enclosing hi).mem_iff

theorem length_enclosing_le {id : ModelId} (hid : ∃ model, graph.model? id = some model) :
    (graph.enclosing id).length ≤ graph.models.size :=
  (hg.chain_enclosing hid).length_le hg hid

theorem enclosing_of_parent? {id outer : ModelId} (h : graph.parent? id = some outer) :
    graph.enclosing id = id :: graph.enclosing outer := by
  obtain ⟨hid, ho⟩ := hg.model_exists_of_parent? h
  have hc := Chain.inside h (hg.chain_enclosing ho)
  rw [enclosing, hc.enclosingWithin (hc.length_le hg hid)]

theorem enclosing_root : graph.enclosing .root = [.root] := by
  have hc := Chain.top hg.parent?_root
  rw [enclosing, hc.enclosingWithin (hc.length_le hg hg.hasRoot)]

/-! ## Fuel that lasts -/

/-- As much fuel as there are models lasts for each of them. -/
theorem fuel_size {id : ModelId} (hid : ∃ model, graph.model? id = some model) :
    graph.models.size < graph.models.size + (graph.enclosing id).length := by
  have hpos := List.length_pos_of_mem ((hg.mem_enclosing hid).2 (.refl id))
  omega

theorem fuel_root : graph.models.size < graph.models.size + (graph.enclosing .root).length :=
  hg.fuel_size hg.hasRoot

/-- What lasts for a model lasts with one less for a model that lies directly in it. -/
theorem fuel_of_parent? {id outer : ModelId} {fuel : Nat} (h : graph.parent? id = some outer)
    (hf : graph.models.size < fuel + 1 + (graph.enclosing outer).length) :
    graph.models.size < fuel + (graph.enclosing id).length := by
  rw [hg.enclosing_of_parent? h, List.length_cons]
  omega

/-- What holds of a model with one more fuel than of the models directly in it holds of every
model with fuel that lasts. -/
theorem fuel_induct {P : Nat → ModelId → Prop}
    (step : ∀ fuel id model, graph.model? id = some model →
      (∀ inner, graph.parent? inner = some id → P fuel inner) → P (fuel + 1) id)
    {fuel : Nat} {id : ModelId} (hid : ∃ model, graph.model? id = some model)
    (hf : graph.models.size < fuel + (graph.enclosing id).length) : P fuel id := by
  induction fuel generalizing id with
  | zero =>
    have hle := hg.length_enclosing_le hid
    omega
  | succ fuel ih =>
    obtain ⟨model, hm⟩ := hid
    exact step fuel id model hm fun inner hp =>
      ih (hg.model_exists_of_parent? hp).1 (hg.fuel_of_parent? hp hf)

end WellFormed

end GraphNaming.Graph
