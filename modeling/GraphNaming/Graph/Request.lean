import GraphNaming.Graph.Basic
import GraphNaming.Graph.Error

/-!
# Requests

A request changes a graph in steps, and any step may stop it. The graph then stays as the steps
before have left it: nothing is taken back.

* `Request.check`: a step that looks at the graph and may stop the request.
* `Graph.afterRequest`: the graph that a request leaves, granted or refused.
* `Graph.granted?`: the answer as well, of a request that is granted.
-/

namespace GraphNaming

variable {α : Type}

/-- Changes a graph and answers, or gives the error that stopped it and the graph as it then is. -/
abbrev Request (α : Type) := EStateM BuildError Graph α

/-- Looks at the graph. -/
def Request.check (test : Graph → Except BuildError α) : Request α := fun graph =>
  match test graph with
  | .ok answer => .ok answer graph
  | .error error => .error error graph

/-- The graph that a request leaves, be it granted or refused. -/
def Graph.afterRequest (graph : Graph) (request : Request α) : Graph :=
  match request.run graph with
  | .ok _ after => after
  | .error _ after => after

/-- The answer of a request that is granted, and the graph that it leaves. -/
def Graph.granted? (graph : Graph) (request : Request α) : Option (α × Graph) :=
  match request.run graph with
  | .ok answer after => some (answer, after)
  | .error _ _ => none

end GraphNaming
