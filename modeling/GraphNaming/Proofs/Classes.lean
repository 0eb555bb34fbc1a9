import GraphNaming.Proofs.Alternatives
import GraphNaming.Proofs.Links
import GraphNaming.Proofs.Renaming

/-!
# Classes of names

What the links of the visited nodes put into classes. Every class has a leader, the member visited
first, and all members lie in the leader's model.

* `WellFormed.friendlyLinks?_among`: what the bindings of any nodes join.
* `WellFormed.friendlyLinks?_eq`, `aliasLinks?_eq`: the joined pairs of the visited ones.
* `Graph.divergences`: what there is to tell of the pairs that are not joined.
* `Graph.friendlyLeaders`, `Graph.aliasLeaders`: the leaders.
* `WellFormed.friendlyMembers_perm`, `aliasMembers_perm`: the classes of the leaders share out what
  is visited.
* `WellFormed.within_friendlyLeader`, `within_aliasLeader`: where the members lie.
-/

namespace GraphNaming

section Images

variable {α β γ : Type} {items : List α} {images : List β}

/-- Images that agree with their items make up the same list. -/
theorem flatMap_of_forall₂ {f : α → List γ} {f' : β → List γ}
    (h : List.Forall₂ (fun item image => f item = f' image) items images) :
    items.flatMap f = images.flatMap f' := by
  induction h with
  | nil => rfl
  | cons hitem _ ih => rw [List.flatMap_cons, List.flatMap_cons, hitem, ih]

/-- Images that are kept when their items are make up the same list of those kept. -/
theorem map_filter_of_forall₂ {p : α → Bool} {p' : β → Bool} {f : α → γ} {f' : β → γ}
    (h : List.Forall₂ (fun item image => p' image = p item ∧ f' image = f item) items images) :
    (images.filter p').map f' = (items.filter p).map f := by
  induction h with
  | nil => rfl
  | cons hitem _ ih =>
    rw [List.filter_cons, List.filter_cons, hitem.1]
    split
    · rw [List.map_cons, List.map_cons, hitem.2, ih]
    · exact ih

end Images

namespace Graph

variable {graph : Graph}

/-! ## Joined pairs -/

/-- The shared input bindings of the visited nodes. -/
def sharedBindings (graph : Graph) : List InputBinding :=
  graph.visited.flatMap fun id => (graph.regionsOf id).flatMap Region.sharedInputs

/-- The shared input bindings of `nodes`. -/
def sharedBindingsAmong (graph : Graph) (nodes : List NodeId) : List InputBinding :=
  nodes.flatMap fun id => (graph.regionsOf id).flatMap Region.sharedInputs

/-- The friendly names on both sides of the binding are the same. -/
def agrees (graph : Graph) (binding : InputBinding) : Bool :=
  graph.friendlyText? (graph.source binding.outer).node = graph.friendlyText? binding.inner

/-- The nodes whose friendly names are linked. -/
def friendlyPairs (graph : Graph) : List (NodeId × NodeId) :=
  (graph.sharedBindings.filter graph.agrees).map fun binding =>
    ((graph.source binding.outer).node, binding.inner)

/-- What there is to tell of a shared binding whose two sides carry different friendly names. -/
def divergenceOf (graph : Graph) (binding : InputBinding) : Diagnostic where
  level := .warning
  message := "mirrored binding links '" ++
    (graph.friendlyText? (graph.source binding.outer).node).getD "" ++ "' to '" ++
    (graph.friendlyText? binding.inner).getD "" ++ "'; names differ, resolving separately"
  code := some .divergingNames
  related := [(graph.source binding.outer).node, binding.inner]

/-- What there is to tell of the bindings that link nothing. -/
def divergences (graph : Graph) : List Diagnostic :=
  (graph.sharedBindings.filter fun binding => !graph.agrees binding).map graph.divergenceOf

/-- The values whose aliases are linked. -/
def aliasPairs (graph : Graph) : List (Value × Value) :=
  graph.visited.flatMap fun id => (graph.regionsOf id).flatMap (graph.sharedValues id)

/-- The classes of nodes that share their friendly names. -/
def friendlyPartition (graph : Graph) : Partition NodeId :=
  Partition.empty.joinAll graph.friendlyPairs

/-- The classes of values that share their aliases. -/
def aliasPartition (graph : Graph) : Partition Value := Partition.empty.joinAll graph.aliasPairs

theorem valid_friendlyPartition : graph.friendlyPartition.Valid :=
  Partition.valid_empty.joinAll graph.friendlyPairs

theorem valid_aliasPartition : graph.aliasPartition.Valid :=
  Partition.valid_empty.joinAll graph.aliasPairs

theorem mem_sharedBindings {binding : InputBinding} :
    binding ∈ graph.sharedBindings ↔ ∃ owner ∈ graph.visited, ∃ region ∈ graph.regionsOf owner,
      binding ∈ region.inputs ∧ binding.link = .shared := by
  simp [sharedBindings, Region.sharedInputs]

theorem mem_aliasPairs {x y : Value} :
    (x, y) ∈ graph.aliasPairs ↔ ∃ owner ∈ graph.visited, ∃ region ∈ graph.regionsOf owner,
      (x, y) ∈ graph.sharedValues owner region := by
  simp [aliasPairs]

namespace WellFormed

variable (hg : graph.WellFormed)
include hg

/-- The two sides of a binding exist. -/
private theorem ends?_eq {owner : NodeId} {node : Node} {region : Region} {binding : InputBinding}
    (hn : graph.node? owner = some node) (hr : region ∈ node.regions)
    (hb : binding ∈ region.inputs) : ∃ ends, graph.ends? binding = some ends ∧
      (ends.1.name.text == ends.2.name.text) = graph.agrees binding ∧
      (ends.1.id, ends.2.id) = ((graph.source binding.outer).node, binding.inner) ∧
      divergence ends.1 ends.2 = graph.divergenceOf binding := by
  obtain ⟨hinput, inner, hi, -⟩ := ((hg.node hn).region region hr).input binding hb
  obtain ⟨outer, ho, -⟩ := hg.produces_source ((hg.node hn).input _ hinput).2
  have hid := (hg.node ho).id_eq
  have hid' := (hg.node hi).id_eq
  refine ⟨(outer, inner), by simp [ends?, ho, hi], ?_, by rw [hid, hid'], ?_⟩
  · simp [agrees, friendlyText?, ho, hi, Bool.beq_eq_decide_eq]
  · simp [divergence, divergenceOf, friendlyText?, ho, hi, hid, hid', Diagnostic.withCode,
      Diagnostic.about]

/-- The links of any nodes, and what there is to tell of the bindings that link nothing. -/
theorem friendlyLinks?_among {ids : List NodeId}
    (hids : ∀ id ∈ ids, ∃ node, graph.node? id = some node) : graph.friendlyLinks? ids =
      some (Partition.empty.joinAll (((graph.sharedBindingsAmong ids).filter graph.agrees).map
          fun binding => ((graph.source binding.outer).node, binding.inner)),
        ((graph.sharedBindingsAmong ids).filter fun binding => !graph.agrees binding).map
          graph.divergenceOf) := by
  have hfound : ∀ id ∈ ids, ∃ node, graph.node? id = some node ∧
      (graph.regionsOf id).flatMap Region.sharedInputs =
        node.regions.flatMap Region.sharedInputs := by
    intro id hid
    obtain ⟨node, hn⟩ := hids id hid
    exact ⟨node, hn, by rw [regionsOf_eq hn]⟩
  have hbound : ∀ binding ∈ graph.sharedBindingsAmong ids, ∃ ends,
      graph.ends? binding = some ends ∧
        (ends.1.name.text == ends.2.name.text) = graph.agrees binding ∧
        (ends.1.id, ends.2.id) = ((graph.source binding.outer).node, binding.inner) ∧
        divergence ends.1 ends.2 = graph.divergenceOf binding := by
    intro binding hb
    obtain ⟨owner, hid, hb⟩ := List.mem_flatMap.1 hb
    obtain ⟨region, hr, hb⟩ := List.mem_flatMap.1 hb
    obtain ⟨node, hn⟩ := hids owner hid
    rw [regionsOf_eq hn] at hr
    exact hg.ends?_eq hn hr (List.mem_of_mem_filter hb)
  -- All that the two loops look up is there. What they yield is then told binding by binding: a
  -- pair for each that agrees, and a finding for each that does not.
  obtain ⟨nodes, hnodes, hregions⟩ := mapM_forall₂ hfound
  obtain ⟨ends, hends, hsides⟩ := mapM_forall₂ hbound
  have hpairs : (ends.filter fun ends => ends.1.name.text == ends.2.name.text).map
      (fun ends => (ends.1.id, ends.2.id)) =
        ((graph.sharedBindingsAmong ids).filter graph.agrees).map
          fun binding => ((graph.source binding.outer).node, binding.inner) :=
    map_filter_of_forall₂ (hsides.imp fun _ _ h => ⟨h.1, h.2.1⟩)
  have hdiverging : (ends.filter fun ends => !(ends.1.name.text == ends.2.name.text)).map
      (fun ends => divergence ends.1 ends.2) =
        ((graph.sharedBindingsAmong ids).filter fun binding => !graph.agrees binding).map
          graph.divergenceOf :=
    map_filter_of_forall₂ (hsides.imp fun _ _ h => ⟨congrArg not h.1, h.2.2⟩)
  simp only [friendlyLinks?, sharedInputs?, hnodes, Option.bind_eq_bind, Option.bind_some,
    ← flatMap_of_forall₂ hregions]
  rw [← sharedBindingsAmong, hends, ← hpairs, ← hdiverging]
  rfl

/-- The links of the visited nodes, and what there is to tell of the bindings that link nothing. -/
theorem friendlyLinks?_eq_divergences : graph.friendlyLinks? graph.visited =
    some (graph.friendlyPartition, graph.divergences) :=
  hg.friendlyLinks?_among fun id hid =>
    let ⟨node, hn, _⟩ := hg.covers_visited.within id hid
    ⟨node, hn⟩

theorem friendlyLinks?_eq : ∃ diverging,
    graph.friendlyLinks? graph.visited = some (graph.friendlyPartition, diverging) :=
  ⟨_, hg.friendlyLinks?_eq_divergences⟩

theorem aliasLinks?_eq : graph.aliasLinks? graph.visited = some graph.aliasPartition := by
  have hvisited : ∀ id ∈ graph.visited, ∃ node, graph.node? id = some node ∧
      (graph.regionsOf id).flatMap (graph.sharedValues id) =
        node.regions.flatMap (graph.sharedValues node.id) := by
    intro id hv
    obtain ⟨node, hn, -⟩ := hg.covers_visited.within id hv
    exact ⟨node, hn, by rw [regionsOf_eq hn, (hg.node hn).id_eq]⟩
  obtain ⟨nodes, hnodes, hvalues⟩ := mapM_forall₂ hvisited
  simp only [aliasLinks?, hnodes, Option.bind_eq_bind, Option.bind_some]
  rw [aliasPartition, aliasPairs, flatMap_of_forall₂ hvalues]

end WellFormed

/-! ## Nodes -/

/-- Of each class of visited nodes the one visited first. -/
def friendlyLeaders (graph : Graph) : List NodeId :=
  graph.friendlyPartition.leaders id graph.visited

/-- Nodes that some bindings link have one friendly name. -/
theorem friendlyText?_of_joined {bindings : List InputBinding} {a b : NodeId}
    (h : (Partition.empty.joinAll ((bindings.filter graph.agrees).map fun binding =>
      ((graph.source binding.outer).node, binding.inner))).related a b = true) :
    graph.friendlyText? a = graph.friendlyText? b := by
  replace h := Partition.related_joinAll_empty.1 h
  induction h with
  | refl _ => rfl
  | symm x y _ ih => exact ih.symm
  | trans x y z _ _ ihx ihy => exact ihx.trans ihy
  | rel x y h =>
    obtain ⟨binding, hb, heq⟩ := List.mem_map.1 h
    cases heq
    exact of_decide_eq_true (List.mem_filter.1 hb).2

theorem friendlyText?_of_related {a b : NodeId} (h : graph.friendlyPartition.related a b = true) :
    graph.friendlyText? a = graph.friendlyText? b := friendlyText?_of_joined h

theorem exists_friendlyLeader {id : NodeId} (h : id ∈ graph.visited) :
    ∃ leader ∈ graph.friendlyLeaders, graph.friendlyPartition.related leader id = true := by
  obtain ⟨leader, hl, hr, -⟩ : ∃ leader ∈ graph.friendlyLeaders,
      graph.friendlyPartition.related leader id = true ∧
        (leader = id ∨ Before graph.visited leader id) := Partition.exists_leader h
  exact ⟨leader, hl, hr⟩

theorem friendlyLeader_visited {leader : NodeId} (h : leader ∈ graph.friendlyLeaders) :
    leader ∈ graph.visited := (Partition.leaders_sublist _).subset h

namespace WellFormed

variable (hg : graph.WellFormed)
include hg

private theorem crosses_of_friendlyPair {x y : NodeId} (h : (x, y) ∈ graph.friendlyPairs) :
    graph.Crosses x y := by
  obtain ⟨binding, hb, heq⟩ := List.mem_map.1 h
  cases heq
  obtain ⟨owner, hv, region, hr, hmem, -⟩ :=
    mem_sharedBindings.1 (List.mem_of_mem_filter hb)
  exact hg.crosses_input hv hr hmem

theorem visited_of_friendly {a b : NodeId} (ha : a ∈ graph.visited)
    (h : graph.friendlyPartition.related a b = true) : b ∈ graph.visited :=
  visited_of_linked id (fun _ _ => hg.crosses_of_friendlyPair) ha
    (Partition.related_joinAll_empty.1 h)

/-- The classes share out the visited nodes. -/
theorem friendlyMembers_perm :
    (graph.friendlyLeaders.flatMap graph.friendlyPartition.classOf).Perm graph.visited := by
  have hn : (graph.visited.map id).Nodup := by
    rw [List.map_id]
    exact hg.covers_visited.nodup
  have hperm := valid_friendlyPartition.flatMap_leaders_perm hn fun item hi other hr => by
    rw [List.map_id]
    exact hg.visited_of_friendly hi hr
  rwa [List.map_id] at hperm

/-- The leader is the member visited first. -/
theorem friendlyLeader_first {leader id : NodeId} (hl : leader ∈ graph.friendlyLeaders)
    (h : graph.friendlyPartition.related leader id = true) :
    leader = id ∨ Before graph.visited leader id :=
  Partition.leader_first hl (hg.visited_of_friendly (friendlyLeader_visited hl) h) h

theorem within_friendlyLeader {leader id : NodeId} (hl : leader ∈ graph.friendlyLeaders)
    (h : graph.friendlyPartition.related leader id = true) :
    graph.Within (graph.modelOf id) (graph.modelOf leader) := by
  have hv := friendlyLeader_visited hl
  refine within_of_linked hg (fun id => id) (fun _ _ => hg.crosses_of_friendlyPair) hv
    (fun other ho hb => ?_) (Partition.related_joinAll_empty.1 h)
  -- A member visited before its leader would have been the leader.
  have hnodup := hg.covers_visited.nodup
  rcases hg.friendlyLeader_first hl (Partition.related_joinAll_empty.2 ho) with rfl | hb'
  · exact Before.irrefl hnodup hb
  · exact hb.asymm hnodup hb'

end WellFormed

/-! ## Outputs -/

/-- `value` is an output of a visited node and has aliases of its own. -/
def IsVisitedOutput (graph : Graph) (value : Value) : Prop :=
  value.node ∈ graph.visited ∧ ∃ node, graph.node? value.node = some node ∧
    node.isResult = false ∧ value.index < node.outputs.length

/-- The visits of the outputs of a node that is no result. -/
def outputsOf (graph : Graph) (id : NodeId) : List OutputVisit :=
  match graph.node? id with
  | some node => if node.isResult then [] else
    node.outputs.map fun output =>
      ⟨id.output output.index, graph.scopeOf (graph.modelOf id), node.isParameter⟩
  | none => []

def outputVisits (graph : Graph) : List OutputVisit := graph.visited.flatMap graph.outputsOf

/-- Of each class of visited outputs the one visited first. -/
def aliasLeaders (graph : Graph) : List OutputVisit :=
  graph.aliasPartition.leaders (·.value) graph.outputVisits

namespace WellFormed

variable (hg : graph.WellFormed)
include hg

theorem outputVisits?_eq :
    graph.outputVisits? (graph.visited.map graph.visitOf) = some graph.outputVisits := by
  have hvisits : ∀ visit ∈ graph.visited.map graph.visitOf, (do
      let node ← graph.node? visit.node
      if node.isResult then some []
      else some (node.outputs.map fun output =>
        (⟨visit.node.output output.index, visit.scope, node.isParameter⟩ : OutputVisit))) =
      some (graph.outputsOf visit.node) := by
    intro visit hv
    obtain ⟨id, hid, rfl⟩ := List.mem_map.1 hv
    obtain ⟨node, hn, -⟩ := hg.covers_visited.within id hid
    simp only [visitOf, outputsOf, hn, Option.bind_eq_bind, Option.bind_some]
    split <;> rfl
  rw [outputVisits?, mapM_eq_some hvisits]
  simp [outputVisits, visitOf, List.flatMap_def, Function.comp_def]

theorem mem_outputsOf {id : NodeId} {visit : OutputVisit} (h : visit ∈ graph.outputsOf id) :
    visit.value.node = id ∧ visit.scope = graph.scopeOf (graph.modelOf id) ∧
      ∃ node, graph.node? id = some node ∧ node.isResult = false ∧
        visit.value.index < node.outputs.length := by
  unfold outputsOf at h
  split at h
  · next node hn =>
    split at h
    · cases h
    · next hr =>
      rw [Bool.not_eq_true] at hr
      obtain ⟨output, ho, rfl⟩ := List.mem_map.1 h
      have hindex := List.mem_map_of_mem (f := Output.index) ho
      rw [(hg.node hn).indices] at hindex
      exact ⟨rfl, rfl, node, hn, hr, List.mem_range.1 hindex⟩
  · cases h

theorem isVisitedOutput_of_mem {visit : OutputVisit} (h : visit ∈ graph.outputVisits) :
    graph.IsVisitedOutput visit.value := by
  obtain ⟨id, hv, h⟩ := List.mem_flatMap.1 h
  obtain ⟨rfl, -, hnode⟩ := hg.mem_outputsOf h
  exact ⟨hv, hnode⟩

theorem nodup_outputsOf (id : NodeId) : ((graph.outputsOf id).map (·.value)).Nodup := by
  unfold outputsOf
  split
  · next node hn =>
    split
    · exact List.nodup_nil
    · have hindices : (node.outputs.map (·.index)).Nodup := by
        rw [(hg.node hn).indices]
        exact List.nodup_range
      refine List.Nodup.of_map Value.index ?_
      simpa [NodeId.output, Function.comp_def] using hindices
  · exact List.nodup_nil

theorem nodup_outputValues : (graph.outputVisits.map (·.value)).Nodup := by
  rw [outputVisits, List.map_flatMap]
  refine List.nodup_flatMap.2 ⟨fun id _ => hg.nodup_outputsOf id, ?_⟩
  refine hg.covers_visited.nodup.imp fun hne value hv hv' => hne ?_
  obtain ⟨visit, hm, rfl⟩ := List.mem_map.1 hv
  obtain ⟨visit', hm', hvalue⟩ := List.mem_map.1 hv'
  rw [← (hg.mem_outputsOf hm).1, ← hvalue, (hg.mem_outputsOf hm').1]

theorem nodup_outputVisits : graph.outputVisits.Nodup := .of_map _ hg.nodup_outputValues

theorem scope_of_outputVisit {visit : OutputVisit} (h : visit ∈ graph.outputVisits) :
    visit.scope = graph.scopeOf (graph.modelOf visit.value.node) := by
  obtain ⟨id, -, h⟩ := List.mem_flatMap.1 h
  obtain ⟨rfl, hscope, -⟩ := hg.mem_outputsOf h
  exact hscope

theorem exists_outputVisit {value : Value} (h : graph.IsVisitedOutput value) :
    ∃ visit ∈ graph.outputVisits, visit.value = value := by
  obtain ⟨hv, node, hn, hr, hi⟩ := h
  have hindex : value.index ∈ node.outputs.map (·.index) := by
    rw [(hg.node hn).indices]
    exact List.mem_range.2 hi
  obtain ⟨output, ho, hindex⟩ := List.mem_map.1 hindex
  refine ⟨⟨value.node.output output.index, graph.scopeOf (graph.modelOf value.node),
    node.isParameter⟩, List.mem_flatMap.2 ⟨value.node, hv, ?_⟩, by simp [NodeId.output, hindex]⟩
  simp only [outputsOf, hn, hr, Bool.false_eq_true, if_false]
  exact List.mem_map_of_mem ho

theorem mem_outputValues_iff {value : Value} :
    value ∈ graph.outputVisits.map (·.value) ↔ graph.IsVisitedOutput value := by
  rw [List.mem_map]
  constructor
  · rintro ⟨visit, hv, rfl⟩
    exact hg.isVisitedOutput_of_mem hv
  · exact hg.exists_outputVisit

omit hg in
theorem aliasLeader_mem {leader : OutputVisit} (h : leader ∈ graph.aliasLeaders) :
    leader ∈ graph.outputVisits := (Partition.leaders_sublist _).subset h

theorem exists_aliasLeader {value : Value} (h : graph.IsVisitedOutput value) :
    ∃ leader ∈ graph.aliasLeaders, graph.aliasPartition.related leader.value value = true := by
  obtain ⟨visit, hv, rfl⟩ := hg.exists_outputVisit h
  obtain ⟨leader, hl, hr, -⟩ : ∃ leader ∈ graph.aliasLeaders,
      graph.aliasPartition.related leader.value visit.value = true ∧
        (leader = visit ∨ Before graph.outputVisits leader visit) := Partition.exists_leader hv
  exact ⟨leader, hl, hr⟩

/-- Both ends of a link of values are outputs of visited nodes. -/
theorem of_aliasPair {x y : Value} (h : (x, y) ∈ graph.aliasPairs) :
    graph.Crosses x.node y.node ∧ graph.IsVisitedOutput x ∧ graph.IsVisitedOutput y := by
  obtain ⟨owner, hv, region, hr, h⟩ := mem_aliasPairs.1 h
  obtain ⟨node, hn, -⟩ := hg.covers_visited.within owner hv
  have hjoins := (hg.node hn).region region (regionsOf_eq hn ▸ hr)
  have hsource {model : ModelId} {value : Value} (hp : graph.Produces model value)
      (hv : (graph.source value).node ∈ graph.visited) :
      graph.IsVisitedOutput (graph.source value) := by
    obtain ⟨producer, hproducer, hresult⟩ := hg.isResult_source hp
    obtain ⟨producer', hproducer', -, hi⟩ := hg.produces_source hp
    rw [hproducer] at hproducer'
    cases hproducer'
    exact ⟨hv, producer, hproducer, hresult, hi⟩
  -- An input binding links a source outside with the one output of a parameter, an output binding
  -- an output of the owner with the source of a result.
  rcases List.mem_append.1 h with h | h
  · obtain ⟨binding, hb, heq⟩ := List.mem_map.1 h
    cases heq
    have hb := List.mem_of_mem_filter hb
    have hcross := hg.crosses_input hv hr hb
    obtain ⟨hinput, inner, hi, -, hparameter⟩ := hjoins.input binding hb
    refine ⟨hcross, hsource ((hg.node hn).input _ hinput).2 hcross.outer_visited,
      hcross.inner_visited, inner, hi, ?_, ?_⟩
    · cases hkind : inner.kind <;> simp_all [Node.isParameter, Node.isResult]
    · rw [((hg.node hi).parameter hparameter).2]
      exact Nat.zero_lt_one
  · obtain ⟨binding, hb, heq⟩ := List.mem_map.1 h
    cases heq
    have hb := List.mem_of_mem_filter hb
    have hcross := hg.crosses_output hv hr hb
    obtain ⟨hindex, hresult⟩ := hjoins.output binding hb
    refine ⟨hcross, ⟨hv, node, hn, ?_, hindex⟩,
      hsource (hg.produces_of_result hresult) hcross.inner_visited⟩
    rw [regionsOf_eq hn] at hr
    cases hkind : node.kind <;> simp_all [Node.regions, Node.isResult]

/-- A value that is no visited output is linked with itself alone. -/
theorem eq_or_isVisitedOutput_of_related {u v : Value}
    (h : graph.aliasPartition.related u v = true) : v = u ∨ graph.IsVisitedOutput u := by
  have hlinked := Partition.related_joinAll_empty.1 h
  rw [← Relation.EqvGen.reflTransGen_symmGen] at hlinked
  rcases hlinked.cases_head with rfl | ⟨next, h | h, -⟩
  · exact .inl rfl
  · exact .inr (hg.of_aliasPair h).2.1
  · exact .inr (hg.of_aliasPair h).2.2

theorem isVisitedOutput_of_related {u v : Value} (hu : graph.IsVisitedOutput u)
    (h : graph.aliasPartition.related u v = true) : graph.IsVisitedOutput v := by
  have hlinked := Partition.related_joinAll_empty.1 h
  rw [← Relation.EqvGen.reflTransGen_symmGen] at hlinked
  induction hlinked with
  | refl => exact hu
  | tail hx hxy ih =>
    rcases hxy with h | h
    · exact (hg.of_aliasPair h).2.2
    · exact (hg.of_aliasPair h).2.1

theorem isVisitedOutput_of_member {leader : OutputVisit} {value : Value}
    (hl : leader ∈ graph.aliasLeaders)
    (h : graph.aliasPartition.related leader.value value = true) : graph.IsVisitedOutput value :=
  hg.isVisitedOutput_of_related (hg.isVisitedOutput_of_mem (aliasLeader_mem hl)) h

/-- The classes share out the visited outputs. -/
theorem aliasMembers_perm :
    (graph.aliasLeaders.flatMap fun leader => graph.aliasPartition.classOf leader.value).Perm
      (graph.outputVisits.map (·.value)) :=
  valid_aliasPartition.flatMap_leaders_perm hg.nodup_outputValues fun _ hv _ hr =>
    hg.mem_outputValues_iff.2 (hg.isVisitedOutput_of_related (hg.isVisitedOutput_of_mem hv) hr)

/-- The node of the leader is visited no later than that of any member. -/
theorem aliasLeader_first {leader : OutputVisit} {value : Value} (hl : leader ∈ graph.aliasLeaders)
    (h : graph.aliasPartition.related leader.value value = true) :
    leader.value.node = value.node ∨ Before graph.visited leader.value.node value.node := by
  obtain ⟨visit, hv, rfl⟩ := hg.exists_outputVisit (hg.isVisitedOutput_of_member hl h)
  rcases Partition.leader_first hl hv h with rfl | hb
  · exact .inl rfl
  · obtain ⟨a, -, b, -, ha, hb, hab⟩ := hb.of_flatMap
    obtain ⟨rfl, -⟩ := hg.mem_outputsOf ha
    obtain ⟨rfl, -⟩ := hg.mem_outputsOf hb
    exact hab

theorem within_aliasLeader {leader : OutputVisit} {value : Value} (hl : leader ∈ graph.aliasLeaders)
    (h : graph.aliasPartition.related leader.value value = true) :
    graph.Within (graph.modelOf value.node) (graph.modelOf leader.value.node) := by
  have hleader := hg.isVisitedOutput_of_mem (aliasLeader_mem hl)
  refine within_of_linked hg Value.node (fun _ _ h => (hg.of_aliasPair h).1)
    hleader.1 (fun other ho hb => ?_) (Partition.related_joinAll_empty.1 h)
  have hnodup := hg.covers_visited.nodup
  rcases hg.aliasLeader_first hl (Partition.related_joinAll_empty.2 ho) with hsame | hb'
  · exact Before.irrefl hnodup (hsame ▸ hb)
  · exact hb.asymm hnodup hb'

end WellFormed

/-! ## Changes of names -/

section Shape

variable {after : Graph} (h : graph.shape = after.shape)
include h

theorem sharedBindings_of_shape : after.sharedBindings = graph.sharedBindings := by
  simp only [sharedBindings, visited_of_shape h, regionsOf_of_shape h]

/-- The classes of values do not hang on names. -/
theorem aliasPartition_of_shape : after.aliasPartition = graph.aliasPartition := by
  have hvalues : after.sharedValues = graph.sharedValues := by
    rw [← sharedValues_shape graph, h, sharedValues_shape]
  simp only [aliasPartition, aliasPairs, visited_of_shape h, regionsOf_of_shape h, hvalues]

/-- The classes of nodes stay if the two sides of each shared binding agree as before. -/
theorem friendlyPartition_of_agrees
    (ha : ∀ binding ∈ graph.sharedBindings, after.agrees binding = graph.agrees binding) :
    after.friendlyPartition = graph.friendlyPartition := by
  rw [friendlyPartition, friendlyPartition, friendlyPairs, friendlyPairs,
    sharedBindings_of_shape h, List.filter_congr ha]
  simp only [source_of_shape h]

theorem outputsOf_of_shape (id : NodeId) : after.outputsOf id = graph.outputsOf id := by
  have shape (graph : Graph) : graph.outputsOf id = match graph.shape.node? id with
      | some node => if node.isResult then [] else (node.outputs.map Output.index).map fun index =>
        ⟨id.output index, graph.scopeOf (graph.modelOf id), node.isParameter⟩
      | none => [] := by
    rw [outputsOf, node?_shape]
    cases graph.node? id with
    | none => rfl
    | some node => simp [Function.comp_def]
  rw [shape after, shape graph, h, scopeOf_of_shape h, modelOf_of_shape h]

theorem outputVisits_of_shape : after.outputVisits = graph.outputVisits := by
  rw [outputVisits, outputVisits, visited_of_shape h, funext (outputsOf_of_shape h)]

theorem aliasLeaders_of_shape : after.aliasLeaders = graph.aliasLeaders := by
  rw [aliasLeaders, aliasLeaders, aliasPartition_of_shape h, outputVisits_of_shape h]

theorem isVisitedOutput_of_shape {value : Value} (hv : graph.IsVisitedOutput value) :
    after.IsVisitedOutput value := by
  obtain ⟨hv, node, hn, hr, hi⟩ := hv
  obtain ⟨node', hn', hs⟩ := node?_of_shape h hn
  exact ⟨visited_of_shape h ▸ hv, node', hn', (isResult_of_shape hs).trans hr,
    (outputs_length_of_shape hs).symm ▸ hi⟩

end Shape

end Graph

end GraphNaming
