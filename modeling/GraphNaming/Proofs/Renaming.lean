import GraphNaming.Proofs.Shape

/-!
# What renaming does to names

* `Graph.friendlyText?`, `Graph.isUserNamed`: what is known of a node's friendly name.
* `friendlyText?_renameAll`: the friendly name of a node with its renames carried out.
* `output?_renameAll`, `aliases?_renameAll`: an output, and the aliases of a value, with the renames
  of its source carried out.
* `isUserNamed_renameAll`: who chose a friendly name.
* `node?_renameAll_congr`, `node?_renameAll_of_not_mem`: what renames do to one node hangs on that
  node alone, and those of others do nothing to it.
* `eq_of_names`: a graph is its shape and its names.
-/

namespace GraphNaming

namespace Report

@[simp] theorem renames_append (first second : Report) :
    (first ++ second).renames = first.renames ++ second.renames := rfl

@[simp] theorem renames_concat (reports : List Report) :
    (concat reports).renames = reports.flatMap (·.renames) := by
  induction reports with
  | nil => rfl
  | cons report reports ih =>
    rw [List.flatMap_cons, ← ih]
    rfl

end Report

/-- The node that a name belongs to. -/
def NameSite.node : NameSite → NodeId
  | friendly node => node
  | output value => value.node

/-- A friendly name is its text and who chose it. -/
theorem Node.name_eq {node node' : Node} (htext : node'.name.text = node.name.text)
    (huser : node'.isUserNamed = node.isUserNamed) : node'.name = node.name := by
  obtain ⟨id, model, type, kind, inputs, outputs, text, origin⟩ := node
  obtain ⟨id', model', type', kind', inputs', outputs', text', origin'⟩ := node'
  obtain rfl : text' = text := htext
  cases origin <;> cases origin' <;> first | rfl | cases huser

/-- A node is its shape and its names. -/
theorem Node.eq_of_names {node node' : Node} (hs : node'.shape = node.shape)
    (htext : node'.name.text = node.name.text) (huser : node'.isUserNamed = node.isUserNamed)
    (houtputs : node'.outputs = node.outputs) : node' = node := by
  have hname := Node.name_eq htext huser
  cases node
  cases node'
  simp_all [Node.shape]

namespace Graph

variable {graph : Graph} {id : NodeId} {value : Value}

/-- The text of a node's friendly name. -/
def friendlyText? (graph : Graph) (id : NodeId) : Option String :=
  (graph.node? id).map (·.name.text)

/-- The user chose the friendly name of the node. -/
def isUserNamed (graph : Graph) (id : NodeId) : Bool := (graph.node? id).any Node.isUserNamed

/-- A node has one friendly name in two graphs if its text and who chose it are the same. -/
theorem name_eq_of_node? {other : Graph} {node node' : Node} (hn : graph.node? id = some node)
    (hn' : other.node? id = some node') (htext : other.friendlyText? id = graph.friendlyText? id)
    (huser : other.isUserNamed id = graph.isUserNamed id) : node'.name = node.name := by
  simp only [friendlyText?, isUserNamed, hn, hn', Option.map_some, Option.some.injEq,
    Option.any_some] at htext huser
  exact Node.name_eq htext huser

/-! ## One rename -/

theorem friendlyText?_rename (rename : Rename) : (graph.rename rename).friendlyText? id =
    if rename.site = .friendly id then (graph.friendlyText? id).map fun _ => rename.new
    else graph.friendlyText? id := by
  obtain ⟨site, old, new⟩ := rename
  cases site with
  | friendly node =>
    simp only [Graph.rename, friendlyText?, node?_modifyNode, NameSite.friendly.injEq]
    split <;> cases graph.node? id <;> rfl
  | output value =>
    simp only [Graph.rename, modifyOutput, friendlyText?, node?_modifyNode, reduceCtorEq, if_false]
    split <;> cases graph.node? id <;> rfl

theorem isUserNamed_rename (rename : Rename) :
    (graph.rename rename).isUserNamed id = graph.isUserNamed id := by
  obtain ⟨site, old, new⟩ := rename
  cases site with
  | friendly node =>
    simp only [Graph.rename, isUserNamed, node?_modifyNode]
    split <;> cases graph.node? id <;> rfl
  | output value =>
    simp only [Graph.rename, modifyOutput, isUserNamed, node?_modifyNode]
    split <;> cases graph.node? id <;> rfl

theorem output?_rename (rename : Rename) : (graph.rename rename).output? value =
    if rename.site = .output value then
      (graph.output? value).map fun output =>
        { output with aliases := output.aliases.replace rename.old rename.new }
    else graph.output? value := by
  obtain ⟨site, old, new⟩ := rename
  cases site with
  | friendly node =>
    simp only [Graph.rename, output?, node?_modifyNode, reduceCtorEq, if_false]
    split <;> cases graph.node? value.node <;> rfl
  | output other =>
    simp only [Graph.rename, output?_modifyOutput, NameSite.output.injEq]

theorem node?_rename_congr {other : Graph} (h : other.node? id = graph.node? id)
    (rename : Rename) : (other.rename rename).node? id = (graph.rename rename).node? id := by
  obtain ⟨site, old, new⟩ := rename
  cases site with
  | friendly node => simp only [Graph.rename, node?_modifyNode, h]
  | output value => simp only [Graph.rename, modifyOutput, node?_modifyNode, h]

theorem node?_rename_of_ne {rename : Rename} (h : rename.site.node ≠ id) :
    (graph.rename rename).node? id = graph.node? id := by
  obtain ⟨site, old, new⟩ := rename
  cases site with
  | friendly node => exact (node?_modifyNode ..).trans (if_neg h)
  | output value => exact (node?_modifyNode ..).trans (if_neg h)

/-! ## All renames -/

variable {renames : List Rename}

theorem renameAll_cons (rename : Rename) (renames : List Rename) :
    graph.renameAll (rename :: renames) = (graph.rename rename).renameAll renames := rfl

theorem renameAll_append (renames more : List Rename) :
    graph.renameAll (renames ++ more) = (graph.renameAll renames).renameAll more :=
  List.foldl_append

theorem friendlyText?_renameAll (renames : List Rename) :
    (graph.renameAll renames).friendlyText? id = (graph.friendlyText? id).map fun text =>
      (renames.filter fun rename => rename.site = .friendly id).foldl
        (fun _ rename => rename.new) text := by
  induction renames generalizing graph with
  | nil => simp [renameAll]
  | cons rename renames ih =>
    rw [renameAll_cons, ih, friendlyText?_rename]
    by_cases hsite : rename.site = .friendly id
    · simp [hsite, Function.comp_def]
    · simp [hsite]

/-- Renames of other nodes and of aliases leave a friendly name as it was. -/
theorem friendlyText?_renameAll_of_not_mem
    (h : ∀ rename ∈ renames, rename.site ≠ .friendly id) :
    (graph.renameAll renames).friendlyText? id = graph.friendlyText? id := by
  have hnone : renames.filter (fun rename => rename.site = .friendly id) = [] :=
    List.filter_eq_nil_iff.2 fun rename hr => by simpa using h rename hr
  rw [friendlyText?_renameAll, hnone]
  simp

theorem isUserNamed_renameAll (renames : List Rename) :
    (graph.renameAll renames).isUserNamed id = graph.isUserNamed id := by
  induction renames generalizing graph with
  | nil => rfl
  | cons rename renames ih => rw [renameAll_cons, ih, isUserNamed_rename]

theorem output?_renameAll (renames : List Rename) : (graph.renameAll renames).output? value =
    (graph.output? value).map fun output => { output with
      aliases := (renames.filter fun rename => rename.site = .output value).foldl
        (fun names rename => names.replace rename.old rename.new) output.aliases } := by
  induction renames generalizing graph with
  | nil => simp [renameAll]
  | cons rename renames ih =>
    rw [renameAll_cons, ih, output?_rename]
    by_cases hsite : rename.site = .output value
    · simp [hsite, Function.comp_def]
    · simp [hsite]

/-- Renames of friendly names and of other outputs leave an output as it was. -/
theorem output?_renameAll_of_not_mem (h : ∀ rename ∈ renames, rename.site ≠ .output value) :
    (graph.renameAll renames).output? value = graph.output? value := by
  have hnone : renames.filter (fun rename => rename.site = .output value) = [] :=
    List.filter_eq_nil_iff.2 fun rename hr => by simpa using h rename hr
  rw [output?_renameAll, hnone]
  simp

theorem node?_renameAll_congr {other : Graph} (h : other.node? id = graph.node? id)
    (renames : List Rename) :
    (other.renameAll renames).node? id = (graph.renameAll renames).node? id := by
  induction renames generalizing graph other with
  | nil => exact h
  | cons rename renames ih => exact ih (node?_rename_congr h rename)

/-- Renames of other nodes leave a node as it was. -/
theorem node?_renameAll_of_not_mem (h : ∀ rename ∈ renames, rename.site.node ≠ id) :
    (graph.renameAll renames).node? id = graph.node? id := by
  induction renames generalizing graph with
  | nil => rfl
  | cons rename renames ih =>
    obtain ⟨hfirst, hrest⟩ := List.forall_mem_cons.1 h
    rw [renameAll_cons, ih hrest, node?_rename_of_ne hfirst]

theorem source_renameAll (renames : List Rename) (value : Value) :
    (graph.renameAll renames).source value = graph.source value := by
  rw [← source_shape, shape_renameAll, source_shape]

theorem aliases?_renameAll (renames : List Rename) : (graph.renameAll renames).aliases? value =
    (graph.aliases? value).map fun names =>
      (renames.filter fun rename => rename.site = .output (graph.source value)).foldl
        (fun names rename => names.replace rename.old rename.new) names := by
  rw [aliases?, source_renameAll, output?_renameAll, aliases?]
  simp [Function.comp_def]

/-! ## All that names are -/

/-- Graphs of one shape are equal if all names are. -/
theorem eq_of_names {after : Graph} (hs : after.shape = graph.shape)
    (htext : ∀ id, after.friendlyText? id = graph.friendlyText? id)
    (huser : ∀ id, after.isUserNamed id = graph.isUserNamed id)
    (houtput : ∀ value, after.output? value = graph.output? value) : after = graph := by
  have hnode (id : NodeId) : after.node? id = graph.node? id := by
    have hshape : (after.node? id).map Node.shape = (graph.node? id).map Node.shape := by
      rw [← node?_shape, hs, node?_shape]
    have htext := htext id
    have huser := huser id
    have houtput (index : Nat) := houtput (id.output index)
    simp only [friendlyText?, isUserNamed, output?, NodeId.output] at htext huser houtput
    cases hn : graph.node? id with
    | none => simpa [hn] using hshape
    | some node =>
      obtain ⟨node', hn', -⟩ := node?_of_shape hs.symm hn
      simp only [hn, hn', Option.map_some, Option.some.injEq, Option.any_some, Option.bind_eq_bind,
        Option.bind_some] at hshape htext huser houtput ⊢
      exact Node.eq_of_names hshape htext huser (List.ext_getElem? houtput)
  have hnodes : after.nodes = graph.nodes := Array.ext_getElem? fun i => hnode ⟨i⟩
  have hmodels : after.models = graph.models := by rw [← shape_models, hs, shape_models]
  have hids : after.ids = graph.ids := by rw [after.ids_eq, graph.ids_eq, hnodes, hmodels]
  cases after
  cases graph
  simp_all

end Graph

end GraphNaming
