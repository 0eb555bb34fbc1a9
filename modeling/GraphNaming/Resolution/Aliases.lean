import GraphNaming.Linking.Shared
import GraphNaming.Name.IndexedAlias
import GraphNaming.Name.Namespace
import GraphNaming.Resolution.Config
import GraphNaming.Resolution.Report

/-!
# Unique aliases

The outputs of the visited nodes, other than results, fall into classes that share their aliases.
The classes take their aliases from a namespace one after the other, those that start at a
parameter before all others. An alias that is taken makes way for another, in every member of the
class that has it; the rest of the class's aliases stay.

* `Graph.aliasClasses?`: the classes.
* `Graph.aliasReport?`: what is to be renamed.
* `Graph.resolveAliases?`: the report, carried out.
-/

namespace GraphNaming

/-- Outputs that share their aliases. -/
structure AliasClass where
  /-- The scope of the first visit. -/
  scope : ScopeId
  members : List Value
  deriving DecidableEq

/-- The free name that takes the place of `name`: a number follows the base of an indexed alias,
or else the whole name. -/
def Namespace.freshAlias? (space : Namespace) (scope : ScopeId) (name : String) : Option String :=
  match IndexedAlias.split? name with
  | some parts => space.freshNumbered? scope parts.base parts.tail
  | none => space.freshNumbered? scope name ""

/-- Takes those of `names` that are free, and lists the others. All are judged before any is
taken. -/
def Namespace.takeFree? (space : Namespace) (scope : ScopeId) (names : List String) :
    Option (List String × Namespace) := do
  let judged ← names.mapM fun name => (space.isFree? scope name).map (name, ·)
  let (free, taken) := judged.partition (·.2)
  let (_, space) ← thread? (fun name space => space.take? scope name) (free.map (·.1)) space
  some (taken.map (·.1), space)

namespace AliasClass

/-- The aliases of all members. -/
def aliases (cls : AliasClass) (graph : Graph) : AliasSet :=
  cls.members.foldl (fun names value => names.union ((graph.aliases? value).getD ∅)) ∅

/-- The members that have the alias `name`. -/
def holders (cls : AliasClass) (graph : Graph) (name : String) : List Value :=
  cls.members.filter fun value => name ∈ (graph.aliases? value).getD ∅

/-- The alias `old` makes way for a free name, which is taken. -/
def replace? (cls : AliasClass) (graph : Graph) (old : String) (space : Namespace) :
    Option (List Rename × Namespace) := do
  let new ← space.freshAlias? cls.scope old
  let (_, space) ← space.take? cls.scope new
  some ((cls.holders graph old).map fun value => ⟨.output value, old, new⟩, space)

/-- The class takes its free aliases, and gets new ones for the others, in ascending order. -/
def assign? (cls : AliasClass) (graph : Graph) (space : Namespace) :
    Option (Report × Namespace) := do
  let (taken, space) ← space.takeFree? cls.scope (cls.aliases graph).toList
  let (renames, space) ← thread? (cls.replace? graph) taken space
  some ({ renames := renames.flatten }, space)

end AliasClass

namespace Graph

/-- A visited output of a node that is not a result. -/
structure OutputVisit where
  value : Value
  scope : ScopeId
  /-- The node is a parameter. -/
  atParameter : Bool

/-- The outputs of the visited nodes other than results. -/
def outputVisits? (graph : Graph) (visits : List Visit) : Option (List OutputVisit) := do
  let outputs ← visits.mapM fun visit => do
    let node ← graph.node? visit.node
    if node.isResult then some []
    else some (node.outputs.map fun output =>
      ⟨visit.node.output output.index, visit.scope, node.isParameter⟩)
  some outputs.flatten

/-- The classes of the visited outputs in the order of their first visits, those first whose first
visit is to a parameter. -/
def aliasClasses? (graph : Graph) (links : Partition Value) (visits : List Visit) :
    Option (List AliasClass) := do
  let outputs ← graph.outputVisits? visits
  let (entries, others) := (links.leaders (·.value) outputs).partition (·.atParameter)
  some ((entries ++ others).map fun visit => ⟨visit.scope, links.classOf visit.value⟩)

def aliasReport? (graph : Graph) (config : Config) : Option Report := do
  let walk ← graph.walk? config.scoping
  let links ← graph.aliasLinks? walk.nodes
  let classes ← graph.aliasClasses? links walk.visits
  let (reports, _) ← thread? (fun cls => cls.assign? graph) classes (.ofScopes walk.scopes 1)
  some (.concat reports)

/-- Makes aliases unique. -/
def resolveAliases? (graph : Graph) (config : Config) : Option (Report × Graph) := do
  let report ← graph.aliasReport? config
  some (report, graph.renameAll report.renames)

end Graph

end GraphNaming
