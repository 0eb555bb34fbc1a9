import GraphNaming.Graph.Search
import GraphNaming.Proofs.Placement

/-!
# The search finds the order

A search with a stack puts the nodes of a model in the same order as the recursion does, and the
order is what it should be.

* `drain?_frame`: what the search does until it is done with the node on top of the stack. The
  values of a node are of smaller nodes, so none of those that are left leads back to the stack.
* `searchOrder?_eq`: the search and the recursion find the same order.
* `Reachable.order_exact`: the order of a model of a graph with a history.
-/

namespace GraphNaming.Graph

variable {graph : Graph}

/-! ## The search and the recursion -/

theorem eraseDups_of_nodup {ids : List NodeId} (hn : ids.Nodup) : ids.eraseDups = ids := by
  induction ids with
  | nil => rfl
  | cons id ids ih =>
    obtain ⟨hid, hn⟩ := List.nodup_cons.1 hn
    have hkeep : ids.filter (fun other => !other == id) = ids := by
      refine List.filter_eq_self.2 fun other ho => ?_
      have hne : other ≠ id := fun heq => hid (heq ▸ ho)
      simpa using hne
    rw [List.eraseDups_cons, hkeep, ih hn]

section Drain

variable {met order : List NodeId} {id : NodeId} {value : Value} {inputs : List Value}
  {stack : List Frame}

theorem drain?_of_mem (hmet : value.node ∈ met) :
    graph.drain? met order (⟨id, value :: inputs⟩ :: stack) =
      graph.drain? met order (⟨id, inputs⟩ :: stack) := by
  rw [drain?, dif_pos hmet]

/-- A node that is met for the first time comes on the stack. -/
theorem drain?_push {node : Node} (hn : graph.node? value.node = some node)
    (hmet : value.node ∉ met) : graph.drain? met order (⟨id, value :: inputs⟩ :: stack) =
      graph.drain? (value.node :: met) order
        (⟨value.node, node.inputs⟩ :: ⟨id, inputs⟩ :: stack) := by
  rw [drain?, dif_neg hmet]
  split
  · next hnone => cases hn.symm.trans hnone
  · next node' hn' =>
    cases hn.symm.trans hn'
    rfl

end Drain

/-- Just the nodes in the order and on the stack were met. -/
def MetBy (met order : List NodeId) (stack : List Frame) : Prop :=
  ∀ id, id ∈ met ↔ id ∈ order ∨ id ∈ stack.map (·.id)

/-- The value is of a smaller node than all on the stack. -/
def Below (value : Value) (stack : List Frame) : Prop :=
  ∀ id ∈ stack.map (·.id), value.node.number < id.number

/-- If the search goes on with each value of the top node as the recursion does, it is done with
the node once it has followed them all. -/
theorem drain?_frame {fuel : Nat} {met order before : List NodeId} {id : NodeId}
    {values : List Value} {stack : List Frame}
    (follow : ∀ {met order next value inputs}, MetBy met order (⟨id, value :: inputs⟩ :: stack) →
      Below value (⟨id, inputs⟩ :: stack) →
      graph.orderWithin? fuel order value.node = some next →
      ∃ after, MetBy after next (⟨id, inputs⟩ :: stack) ∧
        graph.drain? met order (⟨id, value :: inputs⟩ :: stack) =
          graph.drain? after next (⟨id, inputs⟩ :: stack))
    (hmet : MetBy met order (⟨id, values⟩ :: stack))
    (hbelow : ∀ value ∈ values, Below value (⟨id, values⟩ :: stack))
    (h : values.foldlM (fun order value => graph.orderWithin? fuel order value.node) order =
      some before) :
    ∃ after, MetBy after (before ++ [id]) stack ∧
      graph.drain? met order (⟨id, values⟩ :: stack) =
        graph.drain? after (before ++ [id]) stack := by
  induction values generalizing met order with
  | nil =>
    cases h
    refine ⟨met, fun n => ?_, by rw [drain?]⟩
    rw [hmet n, List.map_cons, List.mem_cons, List.mem_append, List.mem_singleton, or_assoc]
  | cons value values ih =>
    obtain ⟨hvalue, hvalues⟩ := List.forall_mem_cons.1 hbelow
    rw [List.foldlM_cons] at h
    -- The search follows the first value, and comes back to the same frame with the others.
    obtain ⟨next, hnext, h⟩ := Option.bind_eq_some_iff.1 h
    obtain ⟨between, hbetween, hfollow⟩ := follow hmet hvalue hnext
    obtain ⟨after, hafter, hrest⟩ := ih hbetween hvalues h
    exact ⟨after, hafter, hfollow.trans hrest⟩

namespace WellFormed

variable (hg : graph.WellFormed)
include hg

/-- The search goes on with a value as the recursion does. -/
theorem drain?_value {fuel : Nat} {met order next : List NodeId} {id : NodeId} {value : Value}
    {inputs : List Value} {stack : List Frame}
    (hmet : MetBy met order (⟨id, value :: inputs⟩ :: stack))
    (hbelow : Below value (⟨id, inputs⟩ :: stack))
    (h : graph.orderWithin? fuel order value.node = some next) :
    ∃ after, MetBy after next (⟨id, inputs⟩ :: stack) ∧
      graph.drain? met order (⟨id, value :: inputs⟩ :: stack) =
        graph.drain? after next (⟨id, inputs⟩ :: stack) := by
  induction fuel generalizing met order next id value inputs stack with
  | zero => cases h
  | succ fuel ih =>
    obtain ⟨hin, rfl⟩ | ⟨hin, node, before, hn, hbefore, rfl⟩ := orderWithin?_eq_some.1 h
    · exact ⟨met, hmet, drain?_of_mem ((hmet _).2 (.inl hin))⟩
    · -- The node is not on the stack, as all nodes there are larger.
      have hnew : value.node ∉ met := fun hm =>
        ((hmet _).1 hm).elim hin fun hs => Nat.lt_irrefl _ (hbelow _ hs)
      rw [drain?_push hn hnew]
      refine drain?_frame ih (fun n => ?_) (fun input hi n hs => ?_) hbefore
      · simp only [List.map_cons, List.mem_cons, hmet n]
        exact or_left_comm
      · have hlt := ((hg.node hn).input input hi).1
        rcases List.mem_cons.1 hs with rfl | hs
        · exact hlt
        · exact hlt.trans (hbelow n hs)

/-- From a result the search finds what the recursion does. -/
theorem searchFrom?_eq {met order next : List NodeId} {result : NodeId} {fuel : Nat}
    (hmet : ∀ id, id ∈ met ↔ id ∈ order)
    (h : graph.orderWithin? (fuel + 1) order result = some next) :
    ∃ after, (∀ id, id ∈ after ↔ id ∈ next) ∧
      graph.searchFrom? (met, order) result = some (after, next) := by
  obtain ⟨hin, rfl⟩ | ⟨hin, node, before, hn, hbefore, rfl⟩ := orderWithin?_eq_some.1 h
  · exact ⟨met, hmet, if_pos ((hmet result).2 hin)⟩
  · have hframe : MetBy (result :: met) order [⟨result, node.inputs⟩] := fun n => by
      simp [hmet n, or_comm]
    have hbelow : ∀ input ∈ node.inputs, Below input [⟨result, node.inputs⟩] :=
      fun input hi n hs => List.mem_singleton.1 hs ▸ ((hg.node hn).input input hi).1
    obtain ⟨after, hafter, hdrain⟩ := drain?_frame hg.drain?_value hframe hbelow hbefore
    refine ⟨after, fun n => (hafter n).trans (by simp), ?_⟩
    rw [searchFrom?, if_neg (mt (hmet result).1 hin), hn]
    exact hdrain.trans (by rw [drain?])

theorem foldlM_searchFrom? {results met order last : List NodeId}
    (hmet : ∀ id, id ∈ met ↔ id ∈ order)
    (h : results.foldlM (fun order result => graph.orderWithin? (result.number + 1) order result)
      order = some last) :
    ∃ after, results.foldlM graph.searchFrom? (met, order) = some (after, last) := by
  induction results generalizing met order with
  | nil =>
    cases h
    exact ⟨met, rfl⟩
  | cons result results ih =>
    rw [List.foldlM_cons] at h
    obtain ⟨next, hnext, h⟩ := Option.bind_eq_some_iff.1 h
    obtain ⟨between, hbetween, hsearch⟩ := hg.searchFrom?_eq hmet hnext
    obtain ⟨after, hafter⟩ := ih hbetween h
    refine ⟨after, ?_⟩
    rw [List.foldlM_cons, hsearch]
    exact hafter

/-- The search and the recursion find the same order. -/
theorem searchOrder?_eq {id : ModelId} {order : List NodeId} (h : graph.order? id = some order) :
    graph.searchOrder? id = some order := by
  obtain ⟨model, hm, h⟩ := Option.bind_eq_some_iff.1 h
  obtain ⟨after, hafter⟩ := hg.foldlM_searchFrom? (fun _ => .rfl) h
  have hnodup : model.parameters.Nodup := (hg.orderedIn_parameters hm).nodup
  rw [searchOrder?, hm]
  simp [eraseDups_of_nodup hnodup, hafter]

end WellFormed

/-! ## What comes in the order -/

theorem HasParameter.not_hasResult {id : ModelId} {n : NodeId} (hp : graph.HasParameter id n) :
    ¬ graph.HasResult id n := by
  rintro ⟨node, hn, -, hr⟩
  obtain ⟨node', hn', -, hp⟩ := hp
  cases hn.symm.trans hn'
  rw [Node.isParameter_iff] at hp
  rw [Node.isResult_iff, hp] at hr
  cases hr

namespace OrderedIn

variable {id : ModelId} {order : List NodeId} (ho : graph.OrderedIn id order)
include ho

theorem before {giver taker : NodeId} (h : graph.Gives giver taker) (ht : taker ∈ order) :
    Before order giver taker := by
  obtain ⟨node, hn, value, hv, rfl⟩ := h
  obtain ⟨node', hn', -, hbefore⟩ := ho.mem taker ht
  cases hn.symm.trans hn'
  exact hbefore value hv

/-- An order has, with a node, all that feeds it. -/
theorem mem_of_feeds {first last : NodeId} (h : graph.Feeds first last) (hl : last ∈ order) :
    first ∈ order := by
  induction h using Relation.ReflTransGen.head_induction_on with
  | refl => exact hl
  | head hgives _ ih => exact (ho.before hgives ih).left_mem

end OrderedIn

namespace WellFormed

variable (hg : graph.WellFormed)
include hg

/-- What the search from a result adds has no greater number, so the results that are still to
come stay out of the order. -/
theorem foldlM_results_sublist {id : ModelId} {done results order last : List NodeId}
    (ho : graph.OrderedIn id order) (hresults : ∀ result ∈ results, graph.HasResult id result)
    (hascending : results.Pairwise (·.number < ·.number))
    (hout : ∀ result ∈ results, result ∉ order) (hdone : done.Sublist order)
    (h : results.foldlM (fun order result => graph.orderWithin? (result.number + 1) order result)
      order = some last) :
    (done ++ results).Sublist last := by
  induction results generalizing done order with
  | nil =>
    cases h
    rwa [List.append_nil]
  | cons result results ih =>
    obtain ⟨⟨node, hn, hmodel, -⟩, hrest⟩ := List.forall_mem_cons.1 hresults
    obtain ⟨hnot, hout⟩ := List.forall_mem_cons.1 hout
    obtain ⟨hless, hascending⟩ := List.pairwise_cons.1 hascending
    obtain ⟨next, hnext, ⟨hno, hnew⟩, ⟨more, rfl⟩, hin⟩ :=
      hg.orderWithin?_spec ho ⟨node, hn, hmodel⟩ (Nat.lt_succ_self _)
    have hmore : result ∈ more := (List.mem_append.1 hin).resolve_left hnot
    have hlater : ∀ other ∈ results, other ∉ order ++ more := fun other ho hmem =>
      (hnew other hmem).elim (hout other ho) fun hle => absurd (hless other ho) (by omega)
    rw [List.foldlM_cons, hnext] at h
    have hlast := ih hno hrest hascending hlater (hdone.append (List.singleton_sublist.2 hmore)) h
    rwa [List.append_assoc] at hlast

/-- The results come in the order in which the model lists them. -/
theorem results_sublist {id : ModelId} {model : Model} {order : List NodeId}
    (hm : graph.model? id = some model) (h : graph.order? id = some order) :
    model.results.Sublist order := by
  obtain ⟨_, hm', h⟩ := Option.bind_eq_some_iff.1 h
  cases hm.symm.trans hm'
  have hascending : model.results.Pairwise (·.number < ·.number) :=
    (hg.model hm).results ▸ hg.ascending_nodesOf id _
  have hout : ∀ result ∈ model.results, result ∉ model.parameters := fun result hr hp =>
    ((hg.mem_parameters hm).1 hp).not_hasResult ((hg.mem_results hm).1 hr)
  exact hg.foldlM_results_sublist (hg.orderedIn_parameters hm)
    (fun result hr => (hg.mem_results hm).1 hr) hascending hout (List.nil_sublist _) h

end WellFormed

/-- Every model of a graph with a history has an order, which the search finds. It has no node
twice and consists of the parameters, the results and the nodes of the model that a result depends
on. The parameters come first as they are declared, every node comes after the nodes whose values
it takes, and the results come in the order in which they were added. -/
theorem Reachable.order_exact (hr : graph.Reachable) {id : ModelId} {model : Model}
    (hm : graph.model? id = some model) :
    ∃ order, graph.searchOrder? id = some order ∧ graph.order? id = some order ∧ order.Nodup ∧
      (∀ n, n ∈ order ↔ graph.HasParameter id n ∨ graph.HasResult id n ∨
        graph.InModel n id ∧ ∃ result, graph.HasResult id result ∧ graph.Feeds n result) ∧
      model.parameters <+: order ∧
      (∀ taker ∈ order, ∀ giver, graph.Gives giver taker → Before order giver taker) ∧
      model.results.Sublist order ∧ model.results.Pairwise (·.number < ·.number) := by
  have hg := hr.wellFormed
  obtain ⟨order, horder, ho, hpre, hall⟩ := hg.exists_order hm
  refine ⟨order, hg.searchOrder?_eq horder, horder, ho.nodup, fun n => ⟨fun hn => ?_, ?_⟩, hpre,
    fun taker ht giver hgives => ho.before hgives ht, hg.results_sublist hm horder,
    (hg.model hm).results ▸ hg.ascending_nodesOf id _⟩
  · have hlive := hg.liveIn_of_mem_order? horder n hn
    exact hlive.imp_right fun hfeeds => .inr ⟨hg.inModel_of_liveIn hlive, hfeeds⟩
  · rintro (hp | hresult | ⟨-, result, hresult, hfeeds⟩)
    · exact hpre.subset ((hg.mem_parameters hm).2 hp)
    · exact hall n ((hg.mem_results hm).2 hresult)
    · exact ho.mem_of_feeds hfeeds (hall result ((hg.mem_results hm).2 hresult))

/-- A result of a result comes after it, and what only takes its value does not come at all. -/
theorem order_exact_conditional : ∃ after model,
    Call.runAll? [.addResult .root ⟨⟨11⟩, 0⟩, .addOperation .root "Copy" [⟨⟨12⟩, 0⟩] 1]
      conditional = some after ∧ after.model? .root = some model ∧
    after.searchOrder? .root = some [⟨0⟩, ⟨9⟩, ⟨10⟩, ⟨11⟩, ⟨12⟩] ∧
    Before [⟨0⟩, ⟨9⟩, ⟨10⟩, ⟨11⟩, ⟨12⟩] (⟨11⟩ : NodeId) ⟨12⟩ ∧ after.Gives ⟨12⟩ ⟨13⟩ ∧
    ¬ ∃ result, after.HasResult .root result ∧ after.Feeds ⟨13⟩ result := by
  have hrun : (Call.runAll? [.addResult .root ⟨⟨11⟩, 0⟩, .addOperation .root "Copy" [⟨⟨12⟩, 0⟩] 1]
      conditional).any fun after =>
        (∃ model ∈ after.model? .root, model.results = [⟨11⟩, ⟨12⟩]) ∧
        (∃ node ∈ after.node? ⟨12⟩, ⟨⟨11⟩, 0⟩ ∈ node.inputs) ∧
        (∃ node ∈ after.node? ⟨13⟩, node.model = .root ∧ ⟨⟨12⟩, 0⟩ ∈ node.inputs) ∧
        after.order? .root = some [⟨0⟩, ⟨9⟩, ⟨10⟩, ⟨11⟩, ⟨12⟩] := by
    decide +kernel
  obtain ⟨after, h, hfacts⟩ := (Option.any_eq_true _ _).1 hrun
  obtain ⟨⟨model, hm, -⟩, ⟨chained, hn, hin⟩, ⟨copy, hcopy, hmodel, hc⟩, horder⟩ :=
    of_decide_eq_true hfacts
  obtain ⟨order, hsearch, horder', -, hmem, -, hbefore, -⟩ :=
    (reachable_conditional.runAll? h).order_exact hm
  cases horder.symm.trans horder'
  refine ⟨after, model, h, hm, hsearch, hbefore ⟨12⟩ (by decide) ⟨11⟩ ⟨chained, hn, _, hin, rfl⟩,
    ⟨copy, hcopy, _, hc, rfl⟩, fun hfeeds => ?_⟩
  exact absurd ((hmem ⟨13⟩).2 (.inr (.inr ⟨⟨copy, hcopy, hmodel⟩, hfeeds⟩))) (by decide)

end GraphNaming.Graph
