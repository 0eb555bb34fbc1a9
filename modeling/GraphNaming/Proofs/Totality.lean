import GraphNaming.Proofs.AliasSpec
import GraphNaming.Proofs.Pointers
import GraphNaming.Proofs.ScopeNesting

/-!
# Passes always succeed

Whatever history a graph has, a pass over it comes to an end, asks for nothing that does not exist,
and never runs out of numbers.

* `Graph.Traces`: the way from a value back to its source.
* `Graph.InRange`: every question that a pass asks of a graph has an answer, and what it counts on
  the way is never more than the nodes and models of the graph.
* `Graph.Feasible`: a rename of something that exists, by a number that is not too large.
* `WellFormed.inRange`, `WellFormed.feasible_of_friendlyReport?`, `feasible_of_aliasReport?`: all
  this holds of well-formed graphs.
* `Reachable.pass_total`: so a pass over a graph with fewer nodes and aliases than numbers succeeds.
-/

namespace GraphNaming

/-- The classes of `links` are told by pointers, and the classes of `keys` hold nothing but keys
that are `Known`. -/
structure Partition.InRange {α : Type} [DecidableEq α] (links : Partition α) (Known : α → Prop)
    (keys : List α) : Prop where
  /-- To follow pointers comes to an end for each of the joined pairs, and for every key once all
  are joined. -/
  pointers : ∃ pairs after, links = empty.joinAll pairs ∧ Unites id pairs after ∧
    ∀ key, Leads after key (links.representative key)
  members : ∀ key ∈ keys, key ∈ links.classOf key ∧ ∀ member ∈ links.classOf key, Known member

/-- The aliases of the outputs of a node. -/
def Node.aliases (node : Node) : List String :=
  node.outputs.flatMap fun output => output.aliases.toList

namespace Graph

variable {graph : Graph}

/-- Results lead from the one value back to the other, whose node is no result. -/
inductive Traces (graph : Graph) : Value → Value → Prop
  | stop {value : Value} {node : Node} : graph.node? value.node = some node →
    graph.passedOn? value.node = none → Traces graph value value
  | back {value input last : Value} : graph.passedOn? value.node = some input →
    Traces graph input last → Traces graph value last

/-- The node and the scope of every visit exist. Every scope has a way out to the root, and any two
can be compared. No more is visited and opened than there are nodes and models. -/
structure WalkInRange (graph : Graph) (walk : Walk) : Prop where
  node : ∀ visit ∈ walk.visits, ∃ node, graph.node? visit.node = some node
  path : ∀ visit ∈ walk.visits, ∃ path, walk.scopes.path? visit.scope = some path ∧
    path.length < graph.models.size
  within_root : ∀ visit ∈ walk.visits, walk.scopes.Within visit.scope .root
  compared : ∀ a ∈ walk.visits, ∀ b ∈ walk.visits,
    ∃ answer, walk.scopes.exclusive? a.scope b.scope = some answer
  length_le : walk.visits.length ≤ graph.nodes.size
  scopes_le : walk.scopes.entries.size ≤ graph.models.size
  groups_le : walk.scopes.groups ≤ graph.nodes.size

/-- The values and nodes on both sides of the bindings of a region of `owner` exist. -/
structure RegionInRange (graph : Graph) (owner : NodeId) (region : Region) : Prop where
  model : ∃ model, graph.model? region.model = some model
  input : ∀ binding ∈ region.inputs, (∃ output, graph.output? binding.outer = some output) ∧
    ∃ output, graph.output? (binding.inner.output 0) = some output
  output : ∀ binding ∈ region.outputs,
    (∃ output, graph.output? (owner.output binding.outer) = some output) ∧
      ∃ output, graph.output? (binding.inner.output 0) = some output

/-- All questions that a pass asks of a graph have an answer: every model has an order, every value
a source, and all that regions, visits and classes refer to exists. -/
structure InRange (graph : Graph) (scoping : Scoping) : Prop where
  order : ∀ {id model}, graph.model? id = some model → ∃ order, graph.order? id = some order ∧
    ∀ n ∈ order, ∃ node, graph.node? n = some node
  source : ∀ {value output}, graph.output? value = some output →
    graph.Traces value (graph.source value) ∧ ∃ names, graph.aliases? value = some names
  region : ∀ {id node}, graph.node? id = some node →
    ∀ region ∈ node.regions, graph.RegionInRange id region
  walk : ∃ walk, graph.walk? scoping = some walk ∧ graph.WalkInRange walk ∧
    (∃ links diverging, graph.friendlyLinks? walk.nodes = some (links, diverging) ∧
      links.InRange (fun id => ∃ node, graph.node? id = some node) walk.nodes) ∧
    ∃ links outputs, graph.aliasLinks? walk.nodes = some links ∧
      graph.outputVisits? walk.visits = some outputs ∧
      links.InRange (fun value => ∃ output, graph.output? value = some output)
        (outputs.map (·.value))

/-- What the rename changes exists, and the new name is the old one with a number that is not too
large. -/
inductive Feasible (graph : Graph) : Rename → Prop
  | friendly {id : NodeId} {node : Node} {old : String} {n : Nat} :
    graph.node? id = some node → n ≤ maxSuffix →
    Feasible graph ⟨.friendly id, old, numberedName old "" n⟩
  | output {value : Value} {output : Output} {old : String} {n : Nat} :
    graph.output? value = some output → n ≤ maxSuffix →
    Feasible graph ⟨.output value, old, numberedAlias old n⟩

/-- The aliases of the outputs of the node `id`. -/
def aliasesAt (graph : Graph) (id : NodeId) : List String :=
  ((graph.node? id).map Node.aliases).getD []

/-- All aliases of all outputs. -/
def allAliases (graph : Graph) : List String := graph.nodes.toList.flatMap Node.aliases

/-! ## Values -/

/-- What a node of the graph produces is an output. -/
theorem Produces.exists_output {model : ModelId} {value : Value} (h : graph.Produces model value) :
    ∃ output, graph.output? value = some output := by
  obtain ⟨node, hn, -, hi⟩ := h
  exact ⟨node.outputs[value.index], by simp [output?, hn, hi]⟩

theorem produces_of_output? {value : Value} {output : Output}
    (h : graph.output? value = some output) : ∃ model, graph.Produces model value := by
  obtain ⟨node, hn, ho⟩ := Option.bind_eq_some_iff.1 h
  exact ⟨node.model, node, hn, rfl, (List.getElem?_eq_some_iff.1 ho).1⟩

theorem IsVisitedOutput.exists_output {value : Value} (h : graph.IsVisitedOutput value) :
    ∃ output, graph.output? value = some output := by
  obtain ⟨-, node, hn, -, hi⟩ := h
  exact Produces.exists_output ⟨node, hn, rfl, hi⟩

namespace WellFormed

variable (hg : graph.WellFormed)
include hg

/-- A result takes a value of an earlier node, so the way back is never longer than the number of
the node. -/
theorem traces_sourceWithin {model : ModelId} {fuel : Nat} {value : Value}
    (hf : value.node.number < fuel) (hp : graph.Produces model value) :
    graph.Traces value (graph.sourceWithin fuel value) := by
  induction fuel generalizing model value with
  | zero => omega
  | succ fuel ih =>
    obtain ⟨node, hn, -⟩ := hp
    rw [sourceWithin]
    cases hpassed : graph.passedOn? value.node with
    | none => exact .stop hn hpassed
    | some input =>
      obtain ⟨_, -, -, hlt, hinput⟩ := hg.produces_of_passedOn? hpassed
      exact .back hpassed (ih (by omega) hinput)

theorem source_inRange {value : Value} {output : Output} (h : graph.output? value = some output) :
    graph.Traces value (graph.source value) ∧ ∃ names, graph.aliases? value = some names := by
  obtain ⟨model, hp⟩ := produces_of_output? h
  obtain ⟨own, ho⟩ := (hg.produces_source hp).exists_output
  exact ⟨hg.traces_sourceWithin (Nat.lt_succ_self _) hp, own.aliases, by rw [aliases?, ho]; rfl⟩

/-! ## Orders and regions -/

theorem order_inRange {id : ModelId} {model : Model} (hm : graph.model? id = some model) :
    ∃ order, graph.order? id = some order ∧ ∀ n ∈ order, ∃ node, graph.node? n = some node := by
  obtain ⟨order, horder, ho, -⟩ := hg.exists_order hm
  refine ⟨order, horder, fun n hn => ?_⟩
  obtain ⟨node, hnode, -⟩ := ho.mem n hn
  exact ⟨node, hnode⟩

theorem regionInRange {id : NodeId} {node : Node} (hn : graph.node? id = some node)
    {region : Region} (hr : region ∈ node.regions) : graph.RegionInRange id region where
  model := ((hg.node hn).region region hr).model
  input binding hb := by
    obtain ⟨hinput, inner, hi, -, hparameter⟩ :=
      ((hg.node hn).region region hr).input binding hb
    have hone := ((hg.node hi).parameter hparameter).2
    have hinner : graph.Produces inner.model (binding.inner.output 0) :=
      ⟨inner, hi, rfl, hone ▸ Nat.zero_lt_one⟩
    exact ⟨((hg.node hn).input _ hinput).2.exists_output, hinner.exists_output⟩
  output binding hb := by
    obtain ⟨houter, hresult⟩ := ((hg.node hn).region region hr).output binding hb
    have howner : graph.Produces node.model (id.output binding.outer) := ⟨node, hn, rfl, houter⟩
    exact ⟨howner.exists_output, (hg.produces_of_result hresult).exists_output⟩

/-! ## The walk -/

theorem visited_subperm : graph.visited.Subperm (graph.nodes.toList.map (·.id)) := by
  refine hg.covers_visited.nodup.subperm fun id hid => ?_
  obtain ⟨node, hn, -⟩ := hg.covers_visited.within id hid
  exact List.mem_map.2 ⟨node, Array.mem_toList_iff.2 (Array.mem_of_getElem? hn), (hg.node hn).id_eq⟩

theorem length_visited_le : graph.visited.length ≤ graph.nodes.size := by
  simpa using hg.visited_subperm.length_le

/-- A path has a step for each model that its end lies in, but none for the root. -/
theorem length_pathTo_lt (scoping : Scoping) {id : ModelId}
    (hid : ∃ model, graph.model? id = some model) :
    (graph.pathTo scoping id).length < graph.models.size := by
  have hle := hg.length_enclosing_le hid
  have hpos := List.length_pos_of_mem ((hg.mem_enclosing hid).2 (.refl id))
  rw [pathTo, route, List.length_map, List.length_reverse, List.length_dropLast]
  omega

/-- Every visit is that of a visited node, whose model has a scope. -/
theorem exists_visitOf {visit : Visit} (hv : visit ∈ graph.visited.map graph.visitOf) :
    ∃ id ∈ graph.visited, visit = graph.visitOf id ∧
      graph.modelOf id ∈ graph.scopeModels graph.visited := by
  obtain ⟨id, hid, rfl⟩ := List.mem_map.1 hv
  exact ⟨id, hid, rfl, hg.modelOf_mem_scopeModels hid⟩

theorem walkInRange (scoping : Scoping) : graph.WalkInRange
    ⟨graph.visited.map graph.visitOf, graph.treeAfter scoping graph.visited⟩ where
  node visit hv := by
    obtain ⟨id, hid, rfl, -⟩ := hg.exists_visitOf hv
    obtain ⟨node, hn, -⟩ := hg.covers_visited.within id hid
    exact ⟨node, hn⟩
  path visit hv := by
    obtain ⟨id, -, rfl, hs⟩ := hg.exists_visitOf hv
    exact ⟨_, hg.path?_treeAfter scoping List.prefix_rfl hs,
      hg.length_pathTo_lt scoping (hg.model_exists_of_scoped hs)⟩
  within_root visit hv := by
    obtain ⟨id, hid, rfl, hs⟩ := hg.exists_visitOf hv
    obtain ⟨node, hn, hwithin⟩ := hg.covers_visited.within id hid
    have hroot : graph.scopeOf .root = .root := scopeOf_root
    rw [← hroot]
    exact (hg.within_scopeOf_iff scoping .root hs).2 (modelOf_eq hn ▸ hwithin)
  compared a ha b hb := by
    obtain ⟨i, -, rfl, hi⟩ := hg.exists_visitOf ha
    obtain ⟨j, -, rfl, hj⟩ := hg.exists_visitOf hb
    obtain ⟨answer, hanswer, -⟩ := hg.exclusive?_iff scoping hi hj
    exact ⟨answer, hanswer⟩
  length_le := by simpa using hg.length_visited_le
  scopes_le := (hg.opened_treeAfter scoping List.prefix_rfl).size ▸
    length_models_le hg.nodup_scopeModels fun _ => hg.model_exists_of_scoped
  groups_le := (hg.opened_treeAfter scoping List.prefix_rfl).groups ▸
    (List.length_filter_le _ _).trans hg.length_visited_le

/-! ## Links -/

theorem friendlyPartition_inRange : graph.friendlyPartition.InRange
    (fun id => ∃ node, graph.node? id = some node) graph.visited where
  pointers :=
    let ⟨after, hunites, hleads⟩ := Partition.exists_unites_empty graph.friendlyPairs
    ⟨graph.friendlyPairs, after, rfl, hunites, hleads⟩
  members id hid := by
    refine ⟨Partition.mem_classOf_self _ _, fun member hm => ?_⟩
    have hv := hg.visited_of_friendly hid (valid_friendlyPartition.mem_classOf.1 hm)
    obtain ⟨node, hn, -⟩ := hg.covers_visited.within member hv
    exact ⟨node, hn⟩

theorem aliasPartition_inRange : graph.aliasPartition.InRange
    (fun value => ∃ output, graph.output? value = some output)
    (graph.outputVisits.map (·.value)) where
  pointers :=
    let ⟨after, hunites, hleads⟩ := Partition.exists_unites_empty graph.aliasPairs
    ⟨graph.aliasPairs, after, rfl, hunites, hleads⟩
  members value hv := by
    obtain ⟨visit, hvisit, rfl⟩ := List.mem_map.1 hv
    refine ⟨Partition.mem_classOf_self _ _, fun member hm => ?_⟩
    exact (hg.isVisitedOutput_of_related (hg.isVisitedOutput_of_mem hvisit)
      (valid_aliasPartition.mem_classOf.1 hm)).exists_output

/-- Every question that a pass asks has an answer. -/
theorem inRange (scoping : Scoping) : graph.InRange scoping where
  order := hg.order_inRange
  source := hg.source_inRange
  region hn _ hr := hg.regionInRange hn hr
  walk := by
    obtain ⟨diverging, hlinks⟩ := hg.friendlyLinks?_eq
    have hnodes := hg.nodes_of_walk? (hg.walk?_eq scoping)
    refine ⟨_, hg.walk?_eq scoping, hg.walkInRange scoping,
      ⟨graph.friendlyPartition, diverging, ?_, ?_⟩,
      ⟨graph.aliasPartition, graph.outputVisits, ?_, hg.outputVisits?_eq,
        hg.aliasPartition_inRange⟩⟩
    · rw [hnodes]
      exact hlinks
    · rw [hnodes]
      exact hg.friendlyPartition_inRange
    · rw [hnodes]
      exact hg.aliasLinks?_eq

/-! ## Aliases enough -/

/-- The aliases that the outputs of a node go by are its own, and those of a result are none. -/
theorem subperm_aliasesAt {id : NodeId} (hid : id ∈ graph.visited) :
    ((graph.outputsOf id).flatMap fun visit => graph.aliasesOf visit.value).Subperm
      (graph.aliasesAt id) := by
  obtain ⟨node, hn, -⟩ := hg.covers_visited.within id hid
  simp only [outputsOf, aliasesAt, hn, Option.map_some, Option.getD_some]
  by_cases hr : node.isResult = true
  · simp [hr]
  · have hown : ∀ output ∈ node.outputs,
        graph.aliasesOf (id.output output.index) = output.aliases.toList := by
      intro output ho
      obtain ⟨i, hi, rfl⟩ := List.mem_iff_getElem.1 ho
      have hindex : node.outputs[i].index = i := by
        have hindices := (hg.node hn).indices
        simpa [hi] using congrArg (·[i]?) hindices
      rw [aliasesOf, aliases?, source_of_not_result hn (by simpa using hr), hindex]
      simp [output?, NodeId.output, hn, hi]
    rw [if_neg hr, List.flatMap_map, List.flatMap_congr hown, Node.aliases]

/-- The visited outputs go by no more aliases than all outputs have together. -/
theorem length_aliases_le_allAliases :
    (graph.outputVisits.flatMap fun visit => graph.aliasesOf visit.value).length ≤
      graph.allAliases.length := by
  have hall : ∀ node ∈ graph.nodes.toList, graph.aliasesAt node.id = node.aliases := by
    intro node hnode
    obtain ⟨i, hi⟩ := Array.mem_iff_getElem?.1 (Array.mem_toList_iff.1 hnode)
    have hn : graph.node? ⟨i⟩ = some node := hi
    rw [(hg.node hn).id_eq, aliasesAt, hn]
    rfl
  calc (graph.outputVisits.flatMap fun visit => graph.aliasesOf visit.value).length
      = (graph.visited.flatMap fun id =>
          (graph.outputsOf id).flatMap fun visit => graph.aliasesOf visit.value).length := by
        rw [outputVisits, List.flatMap_assoc]
    _ ≤ (graph.visited.flatMap graph.aliasesAt).length :=
        (subperm_flatMap_right fun _ => hg.subperm_aliasesAt).length_le
    _ ≤ ((graph.nodes.toList.map (·.id)).flatMap graph.aliasesAt).length :=
        (subperm_flatMap hg.visited_subperm graph.aliasesAt).length_le
    _ = graph.allAliases.length := by
        rw [List.flatMap_map, List.flatMap_congr hall, allAliases]

/-- The pass over the friendly names leaves no more aliases to be visited. -/
theorem length_aliases_resolveFriendlyNames? {config : Config} {report : Report} {after : Graph}
    (h : graph.resolveFriendlyNames? config = some (report, after)) :
    (after.outputVisits.flatMap fun visit => after.aliasesOf visit.value).length ≤
      graph.allAliases.length := by
  have hsame : (fun visit : OutputVisit => after.aliasesOf visit.value) =
      fun visit => graph.aliasesOf visit.value := by
    funext visit
    rw [aliasesOf, aliasesOf, hg.aliases?_resolveFriendlyNames? h]
  rw [outputVisits_of_shape (shape_resolveFriendlyNames? h).symm, hsame]
  exact hg.length_aliases_le_allAliases

end WellFormed

end Graph

/-! ## Numbers -/

/-- Every new name is the old one with a number that is not too large. -/
def NumberedBy (named : String → Nat → String) (renames : List Rename) : Prop :=
  ∀ rename ∈ renames, ∃ n ≤ maxSuffix, rename.new = named rename.old n

theorem NumberedBy.concat {named : String → Nat → String} {reports : List Report}
    (h : ∀ report ∈ reports, NumberedBy named report.renames) :
    NumberedBy named (Report.concat reports).renames := by
  intro rename hr
  rw [Report.renames_concat] at hr
  obtain ⟨report, hreport, hr⟩ := List.mem_flatMap.1 hr
  exact h report hreport rename hr

section Numbers

variable {space last : Namespace} {report : Report}

namespace FriendlyClass

theorem numberedBy_of_assign? {cls : FriendlyClass}
    (h : cls.assign? space = some (report, last)) :
    NumberedBy (numberedName · "") report.renames := by
  obtain ⟨name, hname, rfl, -⟩ := assign?_eq_some h
  intro rename hr
  obtain ⟨hne, node, -, rfl⟩ := mem_renames_renamedTo.1 hr
  rcases Namespace.fresh?_eq_some hname with ⟨-, hsame⟩ | ⟨-, hnew⟩
  · exact absurd hsame hne
  · exact Namespace.freshNumbered?_number_le hnew

theorem numberedBy_of_keep? {cls : FriendlyClass} (h : cls.keep? space = some (report, last)) :
    NumberedBy (numberedName · "") report.renames := by
  rw [(keep?_eq_some h).1]
  nofun

end FriendlyClass

theorem AliasClass.numberedBy_of_assign? {graph : Graph} {cls : AliasClass}
    (h : cls.assign? graph space = some (report, last)) :
    NumberedBy numberedAlias report.renames := by
  obtain ⟨⟨taken, middle⟩, -, h⟩ := Option.bind_eq_some_iff.1 h
  obtain ⟨⟨renames, final⟩, hrun, h⟩ := Option.bind_eq_some_iff.1 h
  cases h
  have hreplaced : ∀ batch ∈ renames, NumberedBy numberedAlias batch := by
    refine thread?_forall (fun old space batch next h => ?_) hrun
    obtain ⟨new, hnew, -, rfl⟩ := replace?_eq_some h
    intro rename hr
    obtain ⟨value, -, rfl⟩ := List.mem_map.1 hr
    exact Namespace.freshAlias?_number_le hnew
  intro rename hr
  obtain ⟨batch, hbatch, hr⟩ := List.mem_flatten.1 hr
  exact hreplaced batch hbatch rename hr

end Numbers

namespace Graph

variable {graph : Graph} {config : Config} {report : Report}

theorem numberedBy_of_assignFriendlyNames? {strict : Bool} {classes : List FriendlyClass}
    {tree : ScopeTree} (h : assignFriendlyNames? strict classes tree = some report) :
    NumberedBy (numberedName · "") report.renames := by
  unfold assignFriendlyNames? at h
  cases strict with
  | true =>
    rw [if_pos rfl] at h
    obtain ⟨⟨reports, last⟩, hrun, h⟩ := Option.bind_eq_some_iff.1 h
    cases h
    exact .concat (thread?_forall (fun _ _ _ _ => FriendlyClass.numberedBy_of_assign?) hrun)
  | false =>
    rw [if_neg Bool.false_ne_true, partition_userNamed] at h
    obtain ⟨⟨first, space⟩, hkeep, h⟩ := Option.bind_eq_some_iff.1 h
    obtain ⟨⟨second, last⟩, hrun, h⟩ := Option.bind_eq_some_iff.1 h
    cases h
    exact .concat (List.forall_mem_append.2
      ⟨thread?_forall (fun _ _ _ _ => FriendlyClass.numberedBy_of_keep?) hkeep,
        thread?_forall (fun _ _ _ _ => FriendlyClass.numberedBy_of_assign?) hrun⟩)

namespace WellFormed

variable (hg : graph.WellFormed)
include hg

theorem feasible_of_friendlyReport? (h : graph.friendlyReport? config = some report) :
    ∀ rename ∈ report.renames, graph.Feasible rename := by
  rintro ⟨site, old, new⟩ hr
  obtain ⟨id, hid, rfl⟩ : ∃ id ∈ graph.visited, site = .friendly id :=
    hg.site_of_friendlyRename h hr
  obtain ⟨node, hn, -⟩ := hg.covers_visited.within id hid
  rw [hg.friendlyReport?_eq_divergences] at h
  obtain ⟨assigned, hassigned, rfl⟩ := Option.map_eq_some_iff.1 h
  obtain ⟨n, hle, rfl⟩ : ∃ n ≤ maxSuffix, new = numberedName old "" n :=
    numberedBy_of_assignFriendlyNames? hassigned _ hr
  exact .friendly hn hle

theorem feasible_of_aliasReport? (h : graph.aliasReport? config = some report) :
    ∀ rename ∈ report.renames, graph.Feasible rename := by
  rintro ⟨site, old, new⟩ hr
  obtain ⟨value, hv, rfl⟩ : ∃ value, graph.IsVisitedOutput value ∧ site = .output value :=
    hg.site_of_aliasRename h hr
  obtain ⟨output, ho⟩ := hv.exists_output
  rw [hg.aliasReport?_eq] at h
  obtain ⟨⟨reports, last⟩, hrun, rfl⟩ := Option.map_eq_some_iff.1 h
  have hnumbered : NumberedBy numberedAlias (Report.concat reports).renames :=
    .concat (thread?_forall (fun _ _ _ _ => AliasClass.numberedBy_of_assign?) hrun)
  obtain ⟨n, hle, rfl⟩ : ∃ n ≤ maxSuffix, new = numberedAlias old n := hnumbered _ hr
  exact .output ho hle

/-- Both halves of a pass have an answer as long as there are more numbers than nodes and than
aliases. -/
theorem exists_halves (hnodes : graph.nodes.size < 0xFFFFFFFE)
    (haliases : graph.allAliases.length < 0xFFFFFFFE) (config : Config) :
    ∃ friendly middle aliases after,
      graph.resolveFriendlyNames? config = some (friendly, middle) ∧
        middle.resolveAliases? config = some (aliases, after) := by
  have hvisited := hg.length_visited_le
  obtain ⟨friendly, middle, hf⟩ := hg.exists_resolveFriendlyNames? config (by
    rw [maxSuffix]
    omega)
  have hmiddle := hg.of_shape (shape_resolveFriendlyNames? hf).symm
  -- The second half asks for numbers in the graph that the first half leaves.
  have hlength := hg.length_aliases_resolveFriendlyNames? hf
  obtain ⟨aliases, after, ha⟩ := hmiddle.exists_resolveAliases? config (by
    rw [maxSuffix]
    omega)
  exact ⟨friendly, middle, aliases, after, hf, ha⟩

theorem exists_resolveNames? (hnodes : graph.nodes.size < 0xFFFFFFFE)
    (haliases : graph.allAliases.length < 0xFFFFFFFE) (config : Config) :
    ∃ report after, graph.resolveNames? config = some (report, after) := by
  obtain ⟨_, _, _, after, hf, ha⟩ := hg.exists_halves hnodes haliases config
  exact ⟨_, after, resolveNames?_eq_some.2 ⟨_, _, _, hf, ha, rfl⟩⟩

theorem exists_resolveAliases?_of_few (haliases : graph.allAliases.length < 0xFFFFFFFE)
    (config : Config) : ∃ report after, graph.resolveAliases? config = some (report, after) := by
  have hlength := hg.length_aliases_le_allAliases
  exact hg.exists_resolveAliases? config (by
    rw [maxSuffix]
    omega)

end WellFormed

/-- The conditional has fewer nodes, and fewer aliases, than there are numbers. -/
theorem few_conditional :
    conditional.nodes.size < 0xFFFFFFFE ∧ conditional.allAliases.length < 0xFFFFFFFE := by
  decide +kernel

/-- A pass over a graph with fewer than `2 ^ 32 - 2` nodes, and fewer than `2 ^ 32 - 2` aliases,
succeeds. Both of its halves ask of the graph only what has an answer, rename only what exists, and
find a number of 32 bits for every new name. -/
theorem Reachable.pass_total (hr : graph.Reachable) (hnodes : graph.nodes.size < 0xFFFFFFFE)
    (haliases : graph.allAliases.length < 0xFFFFFFFE) (config : Config) :
    ∃ friendly middle aliases after,
      graph.resolveFriendlyNames? config = some (friendly, middle) ∧
      middle.resolveAliases? config = some (aliases, after) ∧
      graph.resolveNames? config = some (friendly ++ aliases, after) ∧
      graph.InRange config.friendlyScoping ∧ middle.InRange config.scoping ∧
      (∀ rename ∈ friendly.renames, graph.Feasible rename) ∧
      ∀ rename ∈ aliases.renames, middle.Feasible rename := by
  have hg := hr.wellFormed
  obtain ⟨friendly, middle, aliases, after, hf, ha⟩ := hg.exists_halves hnodes haliases config
  have hmiddle := hg.of_shape (shape_resolveFriendlyNames? hf).symm
  exact ⟨friendly, middle, aliases, after, hf, ha, resolveNames?_eq_some.2 ⟨_, _, _, hf, ha, rfl⟩,
    hg.inRange _, hmiddle.inRange _,
    hg.feasible_of_friendlyReport? (resolveFriendlyNames?_eq_some.1 hf).1,
    hmiddle.feasible_of_aliasReport? (resolveAliases?_eq_some.1 ha).1⟩

/-- The conditional has few nodes and aliases, of which a pass renames some. -/
theorem pass_total_conditional :
    conditional.nodes.size < 0xFFFFFFFE ∧ conditional.allAliases.length < 0xFFFFFFFE ∧
      ∃ friendly middle aliases after,
        conditional.resolveFriendlyNames? {} = some (friendly, middle) ∧
        middle.resolveAliases? {} = some (aliases, after) ∧ friendly.renames ≠ [] ∧
        aliases.renames ≠ [] ∧ conditional.InRange .exclusive ∧ middle.InRange .exclusive ∧
        ∀ rename ∈ friendly.renames, conditional.Feasible rename := by
  obtain ⟨hnodes, haliases⟩ := few_conditional
  have hrun : (conditional.resolveFriendlyNames? {}).any fun run => run.1.renames ≠ [] ∧
      (run.2.resolveAliases? {}).any fun run => run.1.renames ≠ [] := by
    decide +kernel
  obtain ⟨friendly, middle, aliases, after, hf, ha, -, hrange, hrange', hfeasible, -⟩ :=
    reachable_conditional.pass_total hnodes haliases {}
  rw [hf, Option.any_some, decide_eq_true_eq, ha] at hrun
  exact ⟨hnodes, haliases, friendly, middle, aliases, after, hf, ha, hrun.1,
    of_decide_eq_true hrun.2, hrange, hrange', hfeasible⟩

end Graph

end GraphNaming
