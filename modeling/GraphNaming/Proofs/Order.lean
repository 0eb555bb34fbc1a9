import GraphNaming.Proofs.Nesting
import GraphNaming.Proofs.Positions
import GraphNaming.Proofs.Sequencing

/-!
# The order of a model's nodes

`Graph.order?` finds an order for every model of a well-formed graph.

* `orderWithin?_eq_some`: what comes to an order for one node.
* `Graph.OrderedIn`: different nodes of one model, each after the nodes whose values it takes.
* `exists_order`: the order of a model is such a list, and has all its parameters and results.
-/

namespace GraphNaming

namespace Graph

variable {graph : Graph}

/-! ## Orders -/

/-- A node that is not in the order comes after all that it takes values of. -/
theorem orderWithin?_eq_some {fuel : Nat} {order next : List NodeId} {id : NodeId} :
    graph.orderWithin? (fuel + 1) order id = some next ↔ (id ∈ order ∧ order = next) ∨
      (id ∉ order ∧ ∃ node before, graph.node? id = some node ∧
        node.inputs.foldlM (fun order input => graph.orderWithin? fuel order input.node) order =
          some before ∧ before ++ [id] = next) := by
  rw [orderWithin?]
  by_cases hid : id ∈ order
  · simp [hid]
  · simp [hid, Option.bind_eq_some_iff]

/-- Different nodes of `model`, each after the nodes whose values it takes. -/
structure OrderedIn (graph : Graph) (model : ModelId) (order : List NodeId) : Prop where
  nodup : order.Nodup
  mem : ∀ id ∈ order, ∃ node, graph.node? id = some node ∧ node.model = model ∧
    ∀ value ∈ node.inputs, Before order value.node id

/-- A node comes to the end of an order that has the nodes whose values it takes. -/
theorem OrderedIn.concat {model : ModelId} {order : List NodeId} (ho : graph.OrderedIn model order)
    {id : NodeId} {node : Node} (hn : graph.node? id = some node) (hm : node.model = model)
    (hid : id ∉ order) (hinput : ∀ value ∈ node.inputs, value.node ∈ order) :
    graph.OrderedIn model (order ++ [id]) where
  nodup := List.nodup_append'.2 ⟨ho.nodup, by simp, by simpa using hid⟩
  mem other ho' := by
    rcases List.mem_append.1 ho' with ho' | ho'
    · obtain ⟨node, hn, hm, hb⟩ := ho.mem other ho'
      exact ⟨node, hn, hm, fun value hv => (hb value hv).mono (List.sublist_append_left _ _)⟩
    · rw [List.mem_singleton.1 ho']
      exact ⟨node, hn, hm, fun value hv => .append (hinput value hv) (List.mem_singleton.2 rfl)⟩

namespace WellFormed

variable (hg : graph.WellFormed)
include hg

/-- What is added for the node `id` has no greater number, so `id` itself comes in last and only
once. -/
theorem orderWithin?_spec {model : ModelId} {fuel : Nat} {order : List NodeId} {id : NodeId}
    (ho : graph.OrderedIn model order) (hid : graph.InModel id model) (hf : id.number < fuel) :
    ∃ next, graph.orderWithin? fuel order id = some next ∧
      (graph.OrderedIn model next ∧ ∀ other ∈ next, other ∈ order ∨ other.number ≤ id.number) ∧
      order <+: next ∧ id ∈ next := by
  induction fuel generalizing order id with
  | zero => omega
  | succ fuel ih =>
    rw [orderWithin?]
    by_cases hmem : id ∈ order
    · exact ⟨order, if_pos hmem, ⟨ho, fun _ h => .inl h⟩, List.prefix_rfl, hmem⟩
    obtain ⟨node, hn, hm⟩ := hid
    -- The values taken are produced by earlier nodes, so the fuel lasts, and all that they bring in
    -- has a smaller number than `id`.
    have step : ∀ value ∈ node.inputs, ∀ between,
        (graph.OrderedIn model between ∧
          ∀ other ∈ between, other ∈ order ∨ other.number < id.number) →
        ∃ next, graph.orderWithin? fuel between value.node = some next ∧
          (graph.OrderedIn model next ∧
            ∀ other ∈ next, other ∈ order ∨ other.number < id.number) ∧
          between <+: next ∧ value.node ∈ next := by
      rintro value hv between ⟨hb, hbetween⟩
      obtain ⟨hlt, producer, hp, hpm, -⟩ := (hg.node hn).input value hv
      obtain ⟨next, hnext, ⟨hno, hnew⟩, hpre, hin⟩ :=
        ih hb ⟨producer, hp, hpm.trans hm⟩ (by omega)
      refine ⟨next, hnext, ⟨hno, fun other ho => ?_⟩, hpre, hin⟩
      rcases hnew other ho with h | h
      · exact hbetween other h
      · exact .inr (by omega)
    obtain ⟨before, hbefore, ⟨hb, hnew⟩, hpre, hall⟩ :=
      foldlM_grows step ⟨ho, fun _ h => .inl h⟩
    have hlast : id ∉ before := fun h => (hnew id h).elim hmem (Nat.lt_irrefl _)
    refine ⟨before ++ [id], ?_, ⟨hb.concat hn hm hlast hall, fun other ho => ?_⟩,
      hpre.trans (List.prefix_append _ _), by simp⟩
    · rw [if_neg hmem, hn]
      simp [hbefore]
    · rcases List.mem_append.1 ho with h | h
      · exact (hnew other h).imp_right Nat.le_of_lt
      · rw [List.mem_singleton.1 h]
        exact .inr (Nat.le_refl _)

/-- The parameters of a model take no values, so they may come first. -/
theorem orderedIn_parameters {id : ModelId} {model : Model} (hm : graph.model? id = some model) :
    graph.OrderedIn id model.parameters where
  nodup := (hg.model hm).parameters ▸ hg.nodup_nodesOf id _
  mem n hn := by
    obtain ⟨node, hn, hmodel, hp⟩ := (hg.mem_parameters hm).1 hn
    refine ⟨node, hn, hmodel, ?_⟩
    rw [((hg.node hn).parameter hp).1]
    nofun

/-- Every model has an order, which has all its parameters and results. -/
theorem exists_order {id : ModelId} {model : Model} (hm : graph.model? id = some model) :
    ∃ order, graph.order? id = some order ∧ graph.OrderedIn id order ∧
      model.parameters <+: order ∧ ∀ result ∈ model.results, result ∈ order := by
  have step : ∀ result ∈ model.results, ∀ order, graph.OrderedIn id order →
      ∃ next, graph.orderWithin? (result.number + 1) order result = some next ∧
        graph.OrderedIn id next ∧ order <+: next ∧ result ∈ next := by
    intro result hr order ho
    obtain ⟨node, hn, hmodel, -⟩ := (hg.mem_results hm).1 hr
    obtain ⟨next, hnext, ⟨hno, -⟩, hpre, hin⟩ :=
      hg.orderWithin?_spec ho ⟨node, hn, hmodel⟩ (Nat.lt_succ_self _)
    exact ⟨next, hnext, hno, hpre, hin⟩
  obtain ⟨order, horder, ho, hpre, hall⟩ := foldlM_grows step (hg.orderedIn_parameters hm)
  exact ⟨order, by simpa [order?, hm] using horder, ho, hpre, hall⟩

end WellFormed

end Graph

end GraphNaming
