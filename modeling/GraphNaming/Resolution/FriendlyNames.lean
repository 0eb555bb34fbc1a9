import GraphNaming.Linking.Shared
import GraphNaming.Name.Namespace
import GraphNaming.Resolution.Config
import GraphNaming.Resolution.Report

/-!
# Unique friendly names

The visited nodes fall into classes that share one name. The classes take their names from a
namespace one after the other, and one that finds its name taken gets another.

Strict settings treat all classes alike, in the order of their first visits, and number new names
from 1. Otherwise the names that the user set are taken first and stay, even where they collide,
and only the other classes give way, with numbers from 2.

* `Graph.friendlyClasses?`: the classes.
* `Graph.friendlyReport?`: what is to be renamed, and what there is to tell.
* `Graph.resolveFriendlyNames?`: the report, carried out.
-/

namespace GraphNaming

/-- Nodes that share one friendly name. -/
structure FriendlyClass where
  /-- The scope of the first visit. -/
  scope : ScopeId
  name : String
  members : List NodeId
  /-- The user set the name of some member. -/
  userNamed : Bool
  deriving DecidableEq

namespace FriendlyClass

/-- The finding that the name of the class was set for another one before. -/
def repeated (cls : FriendlyClass) : Diagnostic :=
  let message := "friendly name '" ++ cls.name ++ "' was set more than once"
  ({ level := .warning, message } : Diagnostic).withCode .repeatedUserName
    |>.withHint "enable resolve_all_names to renumber user-set names"
    |>.about cls.members

/-- The finding that the name that the user set made way for `name`. -/
def replaced (cls : FriendlyClass) (name : String) : Diagnostic :=
  let message := "user-set friendly name '" ++ cls.name ++ "' renamed to '" ++ name ++ "'"
  ({ level := .note, message } : Diagnostic).withCode .userNameReplaced
    |>.about (cls.members.take 1)

/-- What there is to report when the class gets `name`. -/
def renamedTo (cls : FriendlyClass) (name : String) : Report :=
  if name = cls.name then {}
  else {
    renames := cls.members.map fun node => ⟨.friendly node, cls.name, name⟩
    diagnostics := if cls.userNamed then [cls.replaced name] else [] }

/-- The class takes its name, free or not. -/
def keep? (cls : FriendlyClass) (space : Namespace) : Option (Report × Namespace) := do
  let (free, space) ← space.take? cls.scope cls.name
  some ({ diagnostics := if free then [] else [cls.repeated] }, space)

/-- The class takes its name if it is free, and else the next one that is. -/
def assign? (cls : FriendlyClass) (space : Namespace) : Option (Report × Namespace) := do
  let name ← space.fresh? cls.scope cls.name
  let (_, space) ← space.take? cls.scope name
  some (cls.renamedTo name, space)

end FriendlyClass

namespace Graph

/-- The class of a visited node. -/
def friendlyClass? (graph : Graph) (links : Partition NodeId) (visit : Visit) :
    Option FriendlyClass := do
  let node ← graph.node? visit.node
  let members := links.classOf visit.node
  some {
    scope := visit.scope
    name := node.name.text
    members
    userNamed := members.any fun id => (graph.node? id).any (·.isUserNamed) }

/-- The classes of the visited nodes, in the order of their first visits. -/
def friendlyClasses? (graph : Graph) (links : Partition NodeId) (visits : List Visit) :
    Option (List FriendlyClass) :=
  (links.leaders (·.node) visits).mapM (graph.friendlyClass? links)

/-- How the classes get their names. -/
def assignFriendlyNames? (strict : Bool) (classes : List FriendlyClass) (scopes : ScopeTree) :
    Option Report := do
  if strict then
    let (reports, _) ← thread? FriendlyClass.assign? classes (.ofScopes scopes 1)
    some (.concat reports)
  else
    let (kept, others) := classes.partition (·.userNamed)
    let (first, space) ← thread? FriendlyClass.keep? kept (.ofScopes scopes 2)
    let (second, _) ← thread? FriendlyClass.assign? others space
    some (.concat (first ++ second))

def friendlyReport? (graph : Graph) (config : Config) : Option Report := do
  let walk ← graph.walk? config.friendlyScoping
  let (links, diverging) ← graph.friendlyLinks? walk.nodes
  let classes ← graph.friendlyClasses? links walk.visits
  let report ← assignFriendlyNames? config.strict classes walk.scopes
  some ({ diagnostics := diverging } ++ report)

/-- Makes friendly names unique. -/
def resolveFriendlyNames? (graph : Graph) (config : Config) : Option (Report × Graph) := do
  let report ← graph.friendlyReport? config
  some (report, graph.renameAll report.renames)

end Graph

end GraphNaming
