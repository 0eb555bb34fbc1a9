import GraphNaming.Proofs.Growth
import GraphNaming.Resolution.Pass

/-!
# Histories

A graph comes about by calls: requests to add something, new names, and the passes that make names
unique.

* `Call.run?`: the graph after a call.
* `Graph.Reachable`: the graphs that some history of calls leads to.
* `Reachable.wellFormed`: all of them are well formed.
* `Graph.conditional`: a graph with two branches that take one value and give two.
-/

namespace GraphNaming

/-- What can be asked of a graph that changes it. -/
inductive Call where
  | addModel (name : String)
  | addParameter (model : ModelId)
  | addSharedParameter (model : ModelId) (outer : Value)
  | addOperation (model : ModelId) (type : String) (inputs : List Value) (outputs : Nat)
  | addResult (model : ModelId) (source : Value)
  | addOwner (model : ModelId) (type : String) (inputs : List Value) (regions : List Region)
    (exclusive : Bool) (outputs : Nat)
  | setFriendlyName (node : NodeId) (name : String)
  | setAliases (value : Value) (names : List String)
  | addAliases (value : Value) (names : List String)
  | resolveFriendlyNames (config : Config)
  | resolveAliases (config : Config)

namespace Call

/-- The graph after the call. Only a pass may have no answer. -/
def run? (graph : Graph) : Call → Option Graph
  | addModel name => some (graph.addModel name).2
  | addParameter model => some (graph.afterRequest (Graph.addParameter model))
  | addSharedParameter model outer =>
    some (graph.afterRequest (Graph.addSharedParameter model outer))
  | addOperation model type inputs outputs =>
    some (graph.afterRequest (Graph.addOperation model type inputs outputs))
  | addResult model source => some (graph.afterRequest (Graph.addResult model source))
  | addOwner model type inputs regions exclusive outputs =>
    some (graph.afterRequest (Graph.addOwner model type inputs regions exclusive outputs))
  | setFriendlyName node name => some (graph.afterRequest (Graph.setFriendlyName node name))
  | setAliases value names => some (graph.afterRequest (Graph.setAliases value names))
  | addAliases value names => some (graph.afterRequest (Graph.addAliases value names))
  | resolveFriendlyNames config => (graph.resolveFriendlyNames? config).map (·.2)
  | resolveAliases config => (graph.resolveAliases? config).map (·.2)

/-- The graph after all calls, one after the other. -/
def runAll? (calls : List Call) (graph : Graph) : Option Graph :=
  calls.foldlM (fun graph call => call.run? graph) graph

end Call

namespace Graph

/-- Some history of calls leads to the graph. -/
inductive Reachable : Graph → Prop
  | new (name : String) : Reachable (new name)
  | call {graph after : Graph} (call : Call) : Reachable graph → call.run? graph = some after →
    Reachable after

variable {graph after : Graph}

/-! ## Passes -/

theorem resolveFriendlyNames?_eq_some {config : Config} {report : Report} :
    graph.resolveFriendlyNames? config = some (report, after) ↔
      graph.friendlyReport? config = some report ∧ after = graph.renameAll report.renames := by
  simp only [resolveFriendlyNames?, Option.bind_eq_bind, Option.bind_eq_some_iff, Option.some.injEq,
    Prod.mk.injEq]
  constructor
  · rintro ⟨_, h, rfl, rfl⟩
    exact ⟨h, rfl⟩
  · rintro ⟨h, rfl⟩
    exact ⟨_, h, rfl, rfl⟩

theorem resolveAliases?_eq_some {config : Config} {report : Report} :
    graph.resolveAliases? config = some (report, after) ↔
      graph.aliasReport? config = some report ∧ after = graph.renameAll report.renames := by
  simp only [resolveAliases?, Option.bind_eq_bind, Option.bind_eq_some_iff, Option.some.injEq,
    Prod.mk.injEq]
  constructor
  · rintro ⟨_, h, rfl, rfl⟩
    exact ⟨h, rfl⟩
  · rintro ⟨h, rfl⟩
    exact ⟨_, h, rfl, rfl⟩

/-- A pass makes friendly names unique and then aliases. -/
theorem resolveNames?_eq_some {config : Config} {report : Report} :
    graph.resolveNames? config = some (report, after) ↔
      ∃ friendly middle aliases, graph.resolveFriendlyNames? config = some (friendly, middle) ∧
        middle.resolveAliases? config = some (aliases, after) ∧ report = friendly ++ aliases := by
  simp only [resolveNames?, Option.bind_eq_bind, Option.bind_eq_some_iff, Option.some.injEq,
    Prod.mk.injEq, Prod.exists]
  constructor
  · rintro ⟨friendly, middle, hf, aliases, _, ha, rfl, rfl⟩
    exact ⟨friendly, middle, aliases, hf, ha, rfl⟩
  · rintro ⟨friendly, middle, aliases, hf, ha, rfl⟩
    exact ⟨friendly, middle, hf, aliases, _, ha, rfl, rfl⟩

theorem shape_resolveFriendlyNames? {config : Config} {report : Report}
    (h : graph.resolveFriendlyNames? config = some (report, after)) :
    after.shape = graph.shape := by
  rw [(resolveFriendlyNames?_eq_some.1 h).2, shape_renameAll]

theorem shape_resolveAliases? {config : Config} {report : Report}
    (h : graph.resolveAliases? config = some (report, after)) : after.shape = graph.shape := by
  rw [(resolveAliases?_eq_some.1 h).2, shape_renameAll]

theorem shape_resolveNames? {config : Config} {report : Report}
    (h : graph.resolveNames? config = some (report, after)) : after.shape = graph.shape := by
  obtain ⟨_, middle, _, hf, ha, -⟩ := resolveNames?_eq_some.1 h
  rw [shape_resolveAliases? ha, shape_resolveFriendlyNames? hf]

/-! ## What every history keeps -/

/-- A call keeps a graph well formed. -/
theorem WellFormed.run? (hg : graph.WellFormed) {call : Call} (h : call.run? graph = some after) :
    after.WellFormed := by
  cases call with
  | addModel name => cases h; exact hg.addModel name
  | addParameter model =>
    cases h
    exact (harmless_addParameter _).keeps hg fun _ _ h => hg.addParameter h
  | addSharedParameter model outer =>
    cases h
    exact (harmless_addSharedParameter _ _).keeps hg fun _ _ h => hg.addSharedParameter h
  | addOperation model type inputs outputs =>
    cases h
    exact (harmless_addOperation _ _ _ _).keeps hg fun _ _ h => hg.addOperation h
  | addResult model source =>
    cases h
    exact (harmless_addResult _ _).keeps hg fun _ _ h => hg.addResult h
  | addOwner model type inputs regions exclusive outputs =>
    cases h
    exact (harmless_addOwner _ _ _ _ _ _).keeps hg fun _ _ h => hg.addOwner h
  | setFriendlyName node name =>
    cases h
    exact (harmless_setFriendlyName _ _).keeps hg fun _ _ h =>
      hg.of_shape (shape_setFriendlyName h).symm
  | setAliases value names =>
    cases h
    exact (harmless_modifyAliases _ _).keeps hg fun _ _ h =>
      hg.of_shape (shape_modifyAliases h).symm
  | addAliases value names =>
    cases h
    exact (harmless_modifyAliases _ _).keeps hg fun _ _ h =>
      hg.of_shape (shape_modifyAliases h).symm
  | resolveFriendlyNames config =>
    obtain ⟨⟨report, last⟩, hrun, rfl⟩ := Option.map_eq_some_iff.1 h
    exact hg.of_shape (shape_resolveFriendlyNames? hrun).symm
  | resolveAliases config =>
    obtain ⟨⟨report, last⟩, hrun, rfl⟩ := Option.map_eq_some_iff.1 h
    exact hg.of_shape (shape_resolveAliases? hrun).symm

namespace Reachable

theorem wellFormed (h : graph.Reachable) : graph.WellFormed := by
  induction h with
  | new name => exact .new name
  | call call _ hrun ih => exact ih.run? hrun

/-- A whole pass is two calls. -/
theorem resolveNames? (h : graph.Reachable) {config : Config} {report : Report}
    (hrun : graph.resolveNames? config = some (report, after)) : after.Reachable := by
  obtain ⟨_, middle, _, hf, ha, -⟩ := resolveNames?_eq_some.1 hrun
  have hm : middle.Reachable := h.call (.resolveFriendlyNames config) (by simp [Call.run?, hf])
  exact hm.call (.resolveAliases config) (by simp [Call.run?, ha])

theorem runAll? (h : graph.Reachable) {calls : List Call}
    (hrun : Call.runAll? calls graph = some after) : after.Reachable := by
  induction calls generalizing graph with
  | nil =>
    cases hrun
    exact h
  | cons call calls ih =>
    rw [Call.runAll?, List.foldlM_cons] at hrun
    obtain ⟨next, hnext, hrun⟩ := Option.bind_eq_some_iff.1 hrun
    exact ih (h.call call hnext) hrun

end Reachable

/-! ## A conditional -/

/-- A branch of the conditional: an operation with two outputs on the one value that comes in. Its
first output shares its names with that of the conditional. -/
private def branch (model : ModelId) (input operation : NodeId) (results : NodeId × NodeId) :
    List Call × Region :=
  ([.addSharedParameter model ⟨⟨0⟩, 0⟩, .addOperation model "Split" [input.output 0] 2,
    .addResult model (operation.output 0), .addResult model (operation.output 1)],
   { model, inputs := [⟨⟨⟨0⟩, 0⟩, input, .shared⟩],
     outputs := [⟨results.1, 0, .shared⟩, ⟨results.2, 1, .independent⟩] })

/-- Two branches, of which one is run. Some names clash from one branch to the other, and some
with names around the conditional. -/
def conditionalCalls : List Call :=
  let first := branch ⟨1⟩ ⟨1⟩ ⟨2⟩ (⟨3⟩, ⟨4⟩)
  let second := branch ⟨2⟩ ⟨5⟩ ⟨6⟩ (⟨7⟩, ⟨8⟩)
  [.addModel "then", .addModel "else", .addParameter .root] ++ first.1 ++ second.1 ++
  [.addOwner .root "If" [⟨⟨0⟩, 0⟩] [first.2, second.2] true 2,
    .addOperation .root "Concat" [⟨⟨9⟩, 0⟩, ⟨⟨9⟩, 1⟩] 1, .addResult .root ⟨⟨10⟩, 0⟩,
    .setFriendlyName ⟨2⟩ "Split_6", .setFriendlyName ⟨10⟩ "Parameter_0",
    .setAliases ⟨⟨0⟩, 0⟩ ["x", "y"], .setAliases ⟨⟨1⟩, 0⟩ ["x"], .setAliases ⟨⟨2⟩, 0⟩ ["y"],
    .setAliases ⟨⟨2⟩, 1⟩ ["z:0"], .setAliases ⟨⟨6⟩, 1⟩ ["z:0"], .setAliases ⟨⟨10⟩, 0⟩ ["z:0"]]

def conditional : Graph := (Call.runAll? conditionalCalls (.new "main")).getD (.new "main")

theorem reachable_conditional : conditional.Reachable := by
  unfold conditional
  cases hrun : Call.runAll? conditionalCalls (.new "main") with
  | none => exact .new "main"
  | some graph => exact (Reachable.new "main").runAll? hrun

end Graph

end GraphNaming
