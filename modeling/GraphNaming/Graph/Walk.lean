import GraphNaming.Graph.Order
import GraphNaming.Name.Scope

/-!
# Walking a graph

A walk visits the nodes of the root model in order. After an owner of regions come at once the
walks of its regions, one after the other. Every region has a scope of its own inside that of its
owner.

* `Scoping`: whether the regions of an exclusive owner are alternatives.
* `Graph.walk?`: the visits, and the scopes opened on the way.
* `Walk.exclusivePairs`: the scopes that may use each other's names.
-/

namespace GraphNaming

/-- How regions share a namespace. -/
inductive Scoping where
  /-- All regions are in one namespace with the whole graph. -/
  | flattened
  /-- The regions of an exclusive owner may use each other's names. -/
  | exclusive
  deriving DecidableEq

/-- A node, and the scope of the region that it lies in. -/
structure Visit where
  node : NodeId
  scope : ScopeId
  deriving DecidableEq

/-- The visits of a walk in order, and the scopes that it opened. -/
structure Walk where
  visits : List Visit
  scopes : ScopeTree
  deriving DecidableEq

/-- Opens a scope for each region of `owner`: alternatives if only one of several regions is run
and the scoping heeds that. -/
def ScopeTree.addRegions? (tree : ScopeTree) (scoping : Scoping) (scope : ScopeId) (owner : Node) :
    Option (List ScopeId × ScopeTree) :=
  let count := owner.regions.length
  if scoping = .exclusive ∧ owner.isExclusive ∧ 1 < count then tree.addAlternatives? scope count
  else tree.addChildren? scope count

namespace Graph

/-- The visit of the node `id` in `scope`, and those of its regions, as `walkModel` has them. -/
def walkNode? (graph : Graph) (scoping : Scoping)
    (walkModel : ModelId → ScopeId → ScopeTree → Option (List Visit × ScopeTree))
    (scope : ScopeId) (id : NodeId) (tree : ScopeTree) : Option (List Visit × ScopeTree) := do
  let node ← graph.node? id
  let (opened, tree) ← tree.addRegions? scoping scope node
  let (inner, tree) ← thread? (fun (region, scope) tree => walkModel region.model scope tree)
    (node.regions.zip opened) tree
  some (⟨id, scope⟩ :: inner.flatten, tree)

/-- The visits of the model `id` in `scope`, with regions nested at most `fuel` deep. -/
def walkWithin? (graph : Graph) (scoping : Scoping) :
    Nat → ModelId → ScopeId → ScopeTree → Option (List Visit × ScopeTree)
  | 0, _, _, _ => none
  | fuel + 1, id, scope, tree => do
    let order ← graph.order? id
    let (visits, tree) ←
      thread? (graph.walkNode? scoping (graph.walkWithin? scoping fuel) scope) order tree
    some (visits.flatten, tree)

/-- The walk of the whole graph. Regions are never nested deeper than there are models. -/
def walk? (graph : Graph) (scoping : Scoping) : Option Walk :=
  (graph.walkWithin? scoping graph.models.size .root .root .root).map fun (visits, scopes) =>
    ⟨visits, scopes⟩

end Graph

namespace Walk

/-- The nodes in the order of their visits. -/
def nodes (walk : Walk) : List NodeId := walk.visits.map (·.node)

/-- The scopes in the order of the first visit in each. -/
def visitedScopes (walk : Walk) : List ScopeId := (walk.visits.map (·.scope)).eraseDups

/-- The pairs of `scopes`, the earlier first, that are exclusive. -/
def exclusiveAmong (tree : ScopeTree) : List ScopeId → List (ScopeId × ScopeId)
  | [] => []
  | a :: rest =>
    (rest.filter fun b => tree.exclusive? a b == some true).map (a, ·) ++ exclusiveAmong tree rest

/-- The pairs of scopes, the one visited earlier first, of which each may use the names of the
other. -/
def exclusivePairs (walk : Walk) : List (ScopeId × ScopeId) :=
  exclusiveAmong walk.scopes walk.visitedScopes

end Walk

end GraphNaming
