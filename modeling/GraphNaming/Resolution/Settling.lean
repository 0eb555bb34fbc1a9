import GraphNaming.Resolution.Pass

/-!
# Settling names in place

The same passes as they go along: each class is settled on the graph as it stands by then, its
members are renamed at once, and every rename is logged as it is made.

* `Settling`: how far a pass has come.
* `FriendlyClass.settle?`, `AliasClass.settle?`: one class gets its names.
* `Graph.settleFriendlyNames?`, `Graph.settleAliases?`, `Graph.settleNames?`: the passes.
-/

namespace GraphNaming

/-- The graph as it has been renamed so far, the names taken so far, and the report on both. -/
structure Settling where
  graph : Graph
  space : Namespace
  report : Report := {}

namespace Settling

/-- Carries out a rename and logs it. -/
def rename (state : Settling) (rename : Rename) : Settling :=
  { state with
    graph := state.graph.rename rename
    report := state.report ++ { renames := [rename] } }

def tell (state : Settling) (finding : Diagnostic) : Settling :=
  { state with report := state.report ++ { diagnostics := [finding] } }

/-- Takes a name, and tells whether it was free. -/
def take? (state : Settling) (scope : ScopeId) (name : String) : Option (Bool × Settling) :=
  (state.space.take? scope name).map fun (free, space) => (free, { state with space })

end Settling

/-! ## Friendly names -/

namespace FriendlyClass

/-- The class takes its name, free or not. -/
def reserve? (cls : FriendlyClass) (state : Settling) : Option Settling := do
  let (free, state) ← state.take? cls.scope cls.name
  some (if free then state else state.tell cls.repeated)

/-- The members get `name` one after the other. -/
def renameMembers (cls : FriendlyClass) (name : String) (state : Settling) : Settling :=
  cls.members.foldl (fun state node => state.rename ⟨.friendly node, cls.name, name⟩) state

/-- The class takes its name if it is free, and else the next one that is, which its members get. -/
def settle? (cls : FriendlyClass) (state : Settling) : Option Settling := do
  let name ← state.space.fresh? cls.scope cls.name
  let renamed :=
    if name = cls.name then state
    else if cls.userNamed then (cls.renameMembers name state).tell (cls.replaced name)
    else cls.renameMembers name state
  let (_, settled) ← renamed.take? cls.scope name
  some settled

end FriendlyClass

/-! ## Aliases -/

namespace Settling

/-- Puts `new` in the place of the alias `old` of `value`, if it has that. -/
def replaceAlias (old new : String) (state : Settling) (value : Value) : Settling :=
  if old ∈ ((state.graph.output? value).map (·.aliases)).getD ∅ then
    state.rename ⟨.output value, old, new⟩
  else state

end Settling

namespace AliasClass

/-- The alias `old` makes way for a free name, in every member that has it by then. -/
def settleAlias? (cls : AliasClass) (state : Settling) (old : String) : Option Settling := do
  let new ← state.space.freshAlias? cls.scope old
  let (_, settled) ← (cls.members.foldl (Settling.replaceAlias old new) state).take? cls.scope new
  some settled

/-- The class takes its free aliases, and gets new ones for the others, in ascending order. -/
def settle? (cls : AliasClass) (state : Settling) : Option Settling := do
  let (taken, space) ← state.space.takeFree? cls.scope (cls.aliases state.graph).toList
  taken.foldlM cls.settleAlias? { state with space }

end AliasClass

/-! ## Passes -/

/-- How the classes get their names. -/
def settleFriendlyClasses? (strict : Bool) (classes : List FriendlyClass) (start : Settling) :
    Option Settling :=
  if strict then classes.foldlM (fun state cls => cls.settle? state) start
  else do
    let (kept, others) := classes.partition (·.userNamed)
    let reserved ← kept.foldlM (fun state cls => cls.reserve? state) start
    others.foldlM (fun state cls => cls.settle? state) reserved

namespace Graph

def settleFriendlyNames? (graph : Graph) (config : Config) : Option (Report × Graph) := do
  let walk ← graph.walk? config.friendlyScoping
  let (links, diverging) ← graph.friendlyLinks? walk.nodes
  let classes ← graph.friendlyClasses? links walk.visits
  let settled ← settleFriendlyClasses? config.strict classes {
    graph
    space := .ofScopes walk.scopes (if config.strict then 1 else 2)
    report := { diagnostics := diverging } }
  some (settled.report, settled.graph)

def settleAliases? (graph : Graph) (config : Config) : Option (Report × Graph) := do
  let walk ← graph.walk? config.scoping
  let links ← graph.aliasLinks? walk.nodes
  let classes ← graph.aliasClasses? links walk.visits
  let settled ← classes.foldlM (fun state cls => cls.settle? state)
    { graph, space := .ofScopes walk.scopes 1 }
  some (settled.report, settled.graph)

/-- Friendly names and then aliases. -/
def settleNames? (graph : Graph) (config : Config) : Option (Report × Graph) := do
  let (friendly, graph) ← graph.settleFriendlyNames? config
  let (aliases, graph) ← graph.settleAliases? config
  some (friendly ++ aliases, graph)

end Graph

end GraphNaming
