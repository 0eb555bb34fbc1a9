import GraphNaming.Graph.Printer
import GraphNaming.Proofs.Liveness

/-!
# What is written, line by line

Each line of the written form stands for a model or for a node. Here these *entries* are told apart
from their text and from the fuel that the writing takes, so that their order can be compared with
that of the visits.

* `Graph.lineOf`: the line that stands for an entry.
* `Graph.entriesOf`: the entries of a model with all that lies in it.
* `WellFormed.entriesOf_eq`: a header, and then the nodes of the model, each with its regions.
* `WellFormed.filter_belongsTo`: the entries of a model are those that belong to it.
* `WellFormed.text?_eq`: the written form is made of the lines of the root model's entries.
-/

namespace GraphNaming

/-- What a line of the written form stands for. -/
inductive Entry where
  | model (id : ModelId)
  | node (id : NodeId)
  deriving DecidableEq

namespace Entry

/-- The node of a line that stands for one. -/
def node? : Entry → Option NodeId
  | model _ => none
  | node id => some id

/-- The model of a line that stands for one. -/
def model? : Entry → Option ModelId
  | model id => some id
  | node _ => none

@[simp] theorem node?_eq_some {entry : Entry} {id : NodeId} :
    entry.node? = some id ↔ entry = .node id := by
  cases entry <;> simp [node?]

@[simp] theorem model?_eq_some {entry : Entry} {id : ModelId} :
    entry.model? = some id ↔ entry = .model id := by
  cases entry <;> simp [model?]

/-- Lines are all different if those of nodes and those of models are. -/
theorem nodup_of_filterMap {entries : List Entry} (hn : (entries.filterMap node?).Nodup)
    (hm : (entries.filterMap model?).Nodup) : entries.Nodup := by
  induction entries with
  | nil => exact .nil
  | cons entry entries ih =>
    cases entry with
    | model id =>
      obtain ⟨hfirst, hm⟩ := List.nodup_cons.1 hm
      exact List.nodup_cons.2 ⟨fun h => hfirst (List.mem_filterMap.2 ⟨_, h, rfl⟩), ih hn hm⟩
    | node id =>
      obtain ⟨hfirst, hn⟩ := List.nodup_cons.1 hn
      exact List.nodup_cons.2 ⟨fun h => hfirst (List.mem_filterMap.2 ⟨_, h, rfl⟩), ih hn hm⟩

end Entry

/-! ## Lines -/

/-- The outputs of which the aliases are shown, each in ascending order: those that have any, unless
the node is a result. -/
def Node.shownOutputs (node : Node) : List Output :=
  if node.isResult then [] else node.outputs.filter fun output => !output.aliases.isEmpty

/-- Outputs without aliases are passed over. -/
theorem join_map_text (outputs : List Output) : String.join (outputs.map (·.text)) =
    String.join ((outputs.filter fun output => !output.aliases.isEmpty).map fun output =>
      " [" ++ output.index.repr ++ ": " ++ ", ".intercalate output.aliases.toList ++ "]") := by
  induction outputs with
  | nil => rfl
  | cons output outputs ih =>
    rw [List.map_cons, List.filter_cons, String.join_cons, ih]
    cases hempty : output.aliases.isEmpty <;> simp [Output.text, hempty, String.join_cons]

theorem Node.aliasText_eq (node : Node) : node.aliasText =
    String.join (node.shownOutputs.map fun output =>
      " [" ++ output.index.repr ++ ": " ++ ", ".intercalate output.aliases.toList ++ "]") := by
  rw [aliasText, shownOutputs]
  split
  · rfl
  · exact join_map_text node.outputs

namespace Graph

/-- How many regions enclose what is in the model. -/
def depthOf (graph : Graph) (id : ModelId) : Nat := (graph.route id).length

/-- The line that stands for an entry. A header is moved in by four blanks for each region around
it, and the line of a node by two more. -/
def lineOf (graph : Graph) : Entry → String
  | .model id =>
    match graph.model? id with
    | some model => indented (2 * graph.depthOf id) ("model '" ++ model.name ++ "'")
    | none => ""
  | .node id =>
    match graph.node? id with
    | some node => indented (2 * graph.depthOf node.model + 1)
        (id.text ++ " " ++ node.type ++ " '" ++ node.name.text ++ "'" ++
          (if node.isUserNamed then " (user)" else "") ++
          String.join (node.shownOutputs.map fun output =>
            " [" ++ output.index.repr ++ ": " ++ ", ".intercalate output.aliases.toList ++ "]"))
    | none => ""

/-- The model that a header announces, or that a node is in. -/
def modelIn (graph : Graph) : Entry → ModelId
  | .model id => id
  | .node id => graph.modelOf id

/-- The entry belongs to `outer` or to a region inside it. -/
def belongsTo (graph : Graph) (outer : ModelId) (entry : Entry) : Bool :=
  outer ∈ graph.enclosing (graph.modelIn entry)

/-- The header of the model `id`, and the nodes of the model, each followed by all of its regions,
which are nested at most `fuel` deep. -/
def entriesWithin (graph : Graph) : Nat → ModelId → List Entry
  | 0, _ => []
  | fuel + 1, id => .model id :: ((graph.order? id).getD []).flatMap fun node =>
    .node node :: (graph.regionsOf node).flatMap fun region =>
      graph.entriesWithin fuel region.model

/-- The entries of the model `id` with all that lies in it. -/
def entriesOf (graph : Graph) (id : ModelId) : List Entry :=
  graph.entriesWithin graph.models.size id

/-- A node, followed by the entries of its regions. -/
def entryBlock (graph : Graph) (id : NodeId) : List Entry :=
  .node id :: (graph.regionsOf id).flatMap fun region => graph.entriesOf region.model

variable {graph : Graph}

theorem filterMap_node?_entriesWithin (fuel : Nat) (id : ModelId) :
    (graph.entriesWithin fuel id).filterMap Entry.node? = graph.nodesWithin fuel id := by
  induction fuel generalizing id with
  | zero => rfl
  | succ fuel ih =>
    simp [entriesWithin, nodesWithin, List.filterMap_cons, List.filterMap_flatMap, Entry.node?, ih]

theorem node_mem_entriesOf {id : ModelId} {n : NodeId} :
    .node n ∈ graph.entriesOf id ↔ n ∈ graph.nodesWithin graph.models.size id := by
  rw [← filterMap_node?_entriesWithin, List.mem_filterMap]
  simp [entriesOf]

/-- The entries of each region stand among those of its owner. -/
theorem entriesOf_infix_entryBlock {id : NodeId} {region : Region}
    (hr : region ∈ graph.regionsOf id) :
    graph.entriesOf region.model <:+: graph.entryBlock id := by
  have hregions : graph.entriesOf region.model <:+:
      (graph.regionsOf id).flatMap fun region => graph.entriesOf region.model :=
    infix_flatMap (fun region => graph.entriesOf region.model) hr
  exact List.infix_cons hregions

namespace WellFormed

variable (hg : graph.WellFormed)
include hg

/-! ## Without fuel -/

/-- What holds of a model once it holds of the models directly in it holds of every model. -/
theorem model_induct {P : ModelId → Prop}
    (step : ∀ id model, graph.model? id = some model →
      (∀ inner, graph.parent? inner = some id → P inner) → P id)
    {id : ModelId} (hid : ∃ model, graph.model? id = some model) : P id :=
  hg.fuel_induct (fun _ => step) hid (hg.fuel_size hid)

/-- Any fuel that lasts gives the same entries. -/
theorem entriesWithin_eq {fuel fuel' : Nat} {id : ModelId}
    (hid : ∃ model, graph.model? id = some model)
    (hf : graph.models.size < fuel + (graph.enclosing id).length)
    (hf' : graph.models.size < fuel' + (graph.enclosing id).length) :
    graph.entriesWithin fuel id = graph.entriesWithin fuel' id := by
  refine hg.fuel_induct (P := fun fuel id => ∀ fuel',
    graph.models.size < fuel' + (graph.enclosing id).length →
      graph.entriesWithin fuel id = graph.entriesWithin fuel' id) ?_ hid hf fuel' hf'
  intro fuel id model hm ih fuel' hf'
  have hle := hg.length_enclosing_le ⟨model, hm⟩
  obtain ⟨fuel', rfl⟩ := Nat.exists_eq_succ_of_ne_zero (show fuel' ≠ 0 by omega)
  obtain ⟨order, horder, ho, -⟩ := hg.exists_order hm
  rw [entriesWithin, entriesWithin, horder, Option.getD_some]
  congr 1
  refine List.flatMap_congr fun n hn => congrArg _ (List.flatMap_congr fun region hr => ?_)
  have hp := parent?_of_mem hg ho hn hr
  exact ih region.model hp fuel' (hg.fuel_of_parent? hp hf')

/-- The header comes first, and then the blocks of the nodes. -/
theorem entriesOf_eq {id : ModelId} {model : Model} (hm : graph.model? id = some model) :
    ∃ order, graph.order? id = some order ∧ graph.OrderedIn id order ∧
      graph.entriesOf id = .model id :: order.flatMap graph.entryBlock := by
  obtain ⟨order, horder, ho, -⟩ := hg.exists_order hm
  refine ⟨order, horder, ho, ?_⟩
  have hsize := hg.fuel_size ⟨model, hm⟩
  have hmore : graph.models.size < graph.models.size + 1 + (graph.enclosing id).length := by omega
  rw [entriesOf, hg.entriesWithin_eq ⟨model, hm⟩ hsize hmore, entriesWithin, horder,
    Option.getD_some]
  rfl

/-! ## Which entries there are -/

/-- The headers are those of the model and of the regions of its nodes. -/
theorem filterMap_model?_perm {id : ModelId} (hid : ∃ model, graph.model? id = some model) :
    ((graph.entriesOf id).filterMap Entry.model?).Perm
      (id :: (graph.nodesWithin graph.models.size id).flatMap fun n =>
        (graph.regionsOf n).map (·.model)) := by
  refine hg.model_induct (P := fun id => ((graph.entriesOf id).filterMap Entry.model?).Perm
    (id :: (graph.nodesWithin graph.models.size id).flatMap fun n =>
      (graph.regionsOf n).map (·.model))) ?_ hid
  intro id model hm ih
  obtain ⟨order, horder, ho, hentries⟩ := hg.entriesOf_eq hm
  rw [← filterMap_node?_entriesWithin, ← entriesOf, hentries]
  simp only [List.filterMap_cons, Entry.model?, Entry.node?, List.filterMap_flatMap,
    List.flatMap_assoc, entryBlock, List.flatMap_cons]
  refine (List.Perm.flatMap_left order fun n hn => ?_).cons id
  refine List.Perm.trans ?_ (List.map_append_flatMap_perm _ _ _).symm
  refine List.Perm.flatMap_left _ fun region hr => ?_
  rw [entriesOf, filterMap_node?_entriesWithin]
  exact ih region.model (parent?_of_mem hg ho hn hr)

theorem model_mem_entriesOf {id m : ModelId} (hid : ∃ model, graph.model? id = some model) :
    .model m ∈ graph.entriesOf id ↔
      m = id ∨ ∃ owner ∈ graph.nodesWithin graph.models.size id, graph.Owns owner m := by
  have hmem := (hg.filterMap_model?_perm hid).mem_iff (a := m)
  simpa [List.mem_filterMap, owns_iff] using hmem

theorem nodup_entries : (graph.entriesOf .root).Nodup := by
  refine Entry.nodup_of_filterMap ?_ ?_
  · rw [entriesOf, filterMap_node?_entriesWithin]
    exact hg.covers_visited.nodup
  · exact (hg.filterMap_model?_perm hg.hasRoot).nodup_iff.2 hg.nodup_scopeModels

theorem model_mem_entries {id : ModelId} :
    .model id ∈ graph.entriesOf .root ↔ graph.Walked id := by
  rw [hg.model_mem_entriesOf hg.hasRoot, hg.walked_iff]
  rfl

/-! ## Where entries stand -/

/-- Somewhere in the entries of a model stands every node with the entries of its regions. -/
theorem entryBlock_infix {id : ModelId} (hid : ∃ model, graph.model? id = some model) :
    ∀ n, .node n ∈ graph.entriesOf id → graph.entryBlock n <:+: graph.entriesOf id := by
  refine hg.model_induct (P := fun id => ∀ n, .node n ∈ graph.entriesOf id →
    graph.entryBlock n <:+: graph.entriesOf id) ?_ hid
  intro id model hm ih n hn
  obtain ⟨order, -, ho, hentries⟩ := hg.entriesOf_eq hm
  rw [hentries] at hn ⊢
  obtain ⟨m, hm, hn⟩ := List.mem_flatMap.1 ((List.mem_cons.1 hn).resolve_left nofun)
  have hblock : graph.entryBlock m <:+: .model id :: order.flatMap graph.entryBlock :=
    List.infix_cons (infix_flatMap _ hm)
  -- The node heads the block, or stands in a region of it, where its own block is found by
  -- induction.
  rcases List.mem_cons.1 hn with heq | hn
  · cases heq
    exact hblock
  · obtain ⟨region, hr, hn⟩ := List.mem_flatMap.1 hn
    have hinner := ih region.model (parent?_of_mem hg ho hm hr) n hn
    exact (hinner.trans (entriesOf_infix_entryBlock hr)).trans hblock

theorem entriesOf_infix {id : ModelId} (hw : graph.Walked id) :
    graph.entriesOf id <:+: graph.entriesOf .root := by
  rcases hg.walked_iff.1 hw with rfl | ⟨owner, hv, ho⟩
  · exact List.infix_rfl
  · obtain ⟨region, hr, rfl⟩ := owns_iff.1 ho
    exact (entriesOf_infix_entryBlock hr).trans
      (hg.entryBlock_infix hg.hasRoot owner (node_mem_entriesOf.2 hv))

theorem model?_of_walked {id : ModelId} (hw : graph.Walked id) :
    ∃ model, graph.model? id = some model := by
  rcases hg.walked_iff.1 hw with rfl | ⟨owner, -, ho⟩
  · exact hg.hasRoot
  · exact hg.model_exists_of_owns ho

/-- The nodes of a walked model and of its regions, as they are visited. -/
theorem nodesWithin_eq_filter {id : ModelId} (hw : graph.Walked id) :
    graph.nodesWithin graph.models.size id = graph.visited.filter (graph.liesIn id) := by
  have hid := hg.model?_of_walked hw
  refine hg.eq_filter_of_covers (hg.covers_nodesWithin hid (hg.fuel_size hid)) ?_
  have hsub := (hg.entriesOf_infix hw).sublist.filterMap Entry.node?
  rwa [entriesOf, entriesOf, filterMap_node?_entriesWithin, filterMap_node?_entriesWithin] at hsub

/-- The entries that belong to a walked model, in their order. -/
theorem filter_belongsTo {id : ModelId} (hw : graph.Walked id) :
    (graph.entriesOf .root).filter (graph.belongsTo id) = graph.entriesOf id := by
  have hid := hg.model?_of_walked hw
  refine (eq_filter_of_sublist hg.nodup_entries (hg.entriesOf_infix hw).sublist
    fun entry he => ?_).symm
  cases entry with
  | node n =>
    have hv : n ∈ graph.visited := node_mem_entriesOf.1 he
    rw [node_mem_entriesOf, hg.nodesWithin_eq_filter hw, List.mem_filter, and_iff_right hv]
    rfl
  | model inner =>
    have hinner := hg.model_mem_entries.1 he
    rw [hg.model_mem_entriesOf hid, hg.nodesWithin_eq_filter hw, belongsTo, decide_eq_true_iff,
      modelIn, hg.mem_enclosing (hg.model?_of_walked hinner)]
    constructor
    · rintro (rfl | ⟨owner, ho, howns⟩)
      · exact .refl _
      · obtain ⟨hv, hlies⟩ := List.mem_filter.1 ho
        obtain ⟨node, hn, -⟩ := hg.covers_visited.within owner hv
        have hp := hg.parent?_eq_some_iff.2 ⟨owner, howns, node, hn, rfl⟩
        exact (Within.of_parent? hp).trans ((hg.liesIn_iff hn).1 hlies)
    · intro hwithin
      refine or_iff_not_imp_left.2 fun hne => ?_
      obtain ⟨outer, hp, hwithin⟩ := hwithin.parent hne
      obtain ⟨owner, howns, node, hn, rfl⟩ := hg.parent?_eq_some_iff.1 hp
      refine ⟨owner, List.mem_filter.2 ⟨?_, (hg.liesIn_iff hn).2 hwithin⟩, howns⟩
      rcases hg.walked_iff.1 hinner with rfl | ⟨owner', hv, howns'⟩
      · exact absurd howns (hg.not_owns_root owner)
      · exact hg.owner_unique howns howns' ▸ hv

/-- Of what is visited in a model with its regions, only its order is in the model itself. -/
theorem mem_order_of_modelOf {id : ModelId} {order : List NodeId} {walk : Region → List NodeId}
    (ho : graph.OrderedIn id order)
    (hw : ∀ m ∈ order, ∀ region ∈ graph.regionsOf m, graph.Covers region.model (walk region))
    {n : NodeId} (hn : n ∈ order.flatMap (graph.block walk)) (hmodel : graph.modelOf n = id) :
    n ∈ order := by
  obtain ⟨m, hm, hn⟩ := List.mem_flatMap.1 hn
  rcases mem_block.1 hn with rfl | ⟨region, hr, hn⟩
  · exact hm
  · obtain ⟨node, hnode, hwithin⟩ := (hw m hm region hr).within n hn
    rw [← modelOf_eq hnode, hmodel] at hwithin
    exact absurd hwithin (hg.not_within_of_parent? (parent?_of_mem hg ho hm hr))

/-- The visited nodes of a walked model come in the order of the model. -/
theorem order?_of_walked {id : ModelId} (hw : graph.Walked id) :
    graph.order? id = some (graph.visited.filter (graph.modelOf · = id)) := by
  obtain ⟨model, hm⟩ := hg.model?_of_walked hw
  obtain ⟨order, horder, ho, hentries⟩ := hg.entriesOf_eq hm
  -- The nodes of the model with its regions, once as those visited that lie in it and once as its
  -- blocks.
  have hnodes : graph.visited.filter (graph.liesIn id) =
      order.flatMap (graph.block fun region =>
        graph.nodesWithin graph.models.size region.model) := by
    rw [← hg.nodesWithin_eq_filter hw, ← filterMap_node?_entriesWithin, ← entriesOf, hentries]
    simp only [entryBlock, entriesOf, List.filterMap_cons, List.filterMap_flatMap, Entry.node?,
      filterMap_node?_entriesWithin]
    rfl
  have hcovers : ∀ n ∈ order, ∀ region ∈ graph.regionsOf n,
      graph.Covers region.model (graph.nodesWithin graph.models.size region.model) := by
    intro n hn region hr
    have hinner := (hg.model_exists_of_parent? (parent?_of_mem hg ho hn hr)).1
    exact hg.covers_nodesWithin hinner (hg.fuel_size hinner)
  have hsub : order.Sublist (graph.visited.filter (graph.liesIn id)) := hnodes ▸ order_sublist
  rw [horder, Option.some.injEq]
  refine eq_filter_of_sublist hg.covers_visited.nodup (hsub.trans List.filter_sublist)
    fun n hv => ?_
  rw [decide_eq_true_iff]
  constructor
  · intro hmem
    obtain ⟨node, hn, hmodel, -⟩ := ho.mem n hmem
    exact (modelOf_eq hn).trans hmodel
  · intro hmodel
    obtain ⟨node, hn, -⟩ := hg.covers_visited.within n hv
    have hlies : graph.liesIn id n = true := by
      rw [hg.liesIn_iff hn, ← modelOf_eq hn, hmodel]
      exact .refl id
    exact hg.mem_order_of_modelOf ho hcovers (hnodes ▸ List.mem_filter.2 ⟨hv, hlies⟩) hmodel

/-- A region of a visited node is walked. -/
theorem walked_of_region {n : NodeId} (hv : n ∈ graph.visited) {region : Region}
    (hr : region ∈ graph.regionsOf n) : graph.Walked region.model :=
  hg.walked_iff.2 (.inr ⟨n, hv, owns_iff.2 ⟨region, hr, rfl⟩⟩)

/-- The entries that belong to a walked model are its header and its visited nodes, each followed
by the entries that belong to its regions. -/
theorem filter_belongsTo_eq {id : ModelId} (hw : graph.Walked id) :
    (graph.entriesOf .root).filter (graph.belongsTo id) =
      .model id :: (graph.visited.filter (graph.modelOf · = id)).flatMap fun n =>
        .node n :: (graph.regionsOf n).flatMap fun region =>
          (graph.entriesOf .root).filter (graph.belongsTo region.model) := by
  obtain ⟨model, hm⟩ := hg.model?_of_walked hw
  obtain ⟨order, horder, -, hentries⟩ := hg.entriesOf_eq hm
  obtain rfl := Option.some.inj (horder.symm.trans (hg.order?_of_walked hw))
  rw [hg.filter_belongsTo hw, hentries]
  refine congrArg _ (List.flatMap_congr fun n hn => ?_)
  refine congrArg _ (List.flatMap_congr fun region hr => ?_)
  exact (hg.filter_belongsTo (hg.walked_of_region (List.mem_of_mem_filter hn) hr)).symm

/-! ## The text -/

theorem depthOf_of_parent? {id outer : ModelId} (h : graph.parent? id = some outer) :
    graph.depthOf id = graph.depthOf outer + 1 := by
  rw [depthOf, hg.route_of_parent? h, List.length_append]
  rfl

theorem linesWithin?_eq {fuel : Nat} {id : ModelId} (hid : ∃ model, graph.model? id = some model)
    (hf : graph.models.size < fuel + (graph.enclosing id).length) :
    graph.linesWithin? fuel (2 * graph.depthOf id) id =
      some ((graph.entriesWithin fuel id).map graph.lineOf) := by
  refine hg.fuel_induct (P := fun fuel id => graph.linesWithin? fuel (2 * graph.depthOf id) id =
    some ((graph.entriesWithin fuel id).map graph.lineOf)) ?_ hid hf
  intro fuel id model hm ih
  obtain ⟨order, horder, ho, -⟩ := hg.exists_order hm
  have hnodes : ∀ n ∈ order,
      graph.nodeLines? (graph.linesWithin? fuel) (2 * graph.depthOf id + 1) n =
        some (graph.lineOf (.node n) :: ((graph.regionsOf n).flatMap fun region =>
          graph.entriesWithin fuel region.model).map graph.lineOf) := by
    intro n hn
    obtain ⟨node, hnode, rfl, -⟩ := ho.mem n hn
    have hregions : node.regions.mapM (fun region =>
        graph.linesWithin? fuel (2 * graph.depthOf node.model + 1 + 1) region.model) =
          some (node.regions.map fun region =>
            (graph.entriesWithin fuel region.model).map graph.lineOf) := by
      refine mapM_eq_some fun region hr => ?_
      have hp := hg.parent?_of_region hnode hr
      rw [← ih region.model hp, hg.depthOf_of_parent? hp]
      rfl
    have hline : indented (2 * graph.depthOf node.model + 1) node.line =
        graph.lineOf (.node n) := by
      simp only [lineOf, hnode, Node.line, Node.aliasText_eq, (hg.node hnode).id_eq]
    rw [nodeLines?, hnode, Option.bind_eq_bind, Option.bind_some, hregions, Option.bind_eq_bind,
      Option.bind_some, hline, regionsOf_eq hnode, List.map_flatMap]
    rfl
  have hheader : indented (2 * graph.depthOf id) model.line = graph.lineOf (.model id) := by
    simp only [lineOf, hm, Model.line]
  rw [linesWithin?, hm, Option.bind_eq_bind, Option.bind_some, horder, Option.bind_eq_bind,
    Option.bind_some, mapM_eq_some hnodes, Option.bind_eq_bind, Option.bind_some, hheader,
    entriesWithin, horder, Option.getD_some, List.map_cons, List.map_flatMap]
  rfl

theorem text?_eq :
    graph.text? = some (String.join ((graph.entriesOf .root).map graph.lineOf)) := by
  have hdepth : graph.depthOf .root = 0 := by simp [depthOf, route, hg.enclosing_root]
  have hlines := hg.linesWithin?_eq hg.hasRoot hg.fuel_root
  rw [hdepth] at hlines
  rw [text?, hlines]
  rfl

end WellFormed

end Graph

end GraphNaming
