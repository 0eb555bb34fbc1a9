import GraphNaming.Resolution.Aliases
import GraphNaming.Resolution.FriendlyNames

/-!
# Passes

A pass changes a graph and tells whether it did. A pipeline runs its passes one after the other.

* `Graph.resolveNames?`: friendly names and then aliases.
* `Pass.resolveNames`: the same as a pass.
* `Pipeline.run?`: all passes, with what each of them told.
-/

namespace GraphNaming

/-- Makes friendly names and then aliases unique. -/
def Graph.resolveNames? (graph : Graph) (config : Config) : Option (Report × Graph) := do
  let (friendly, graph) ← graph.resolveFriendlyNames? config
  let (aliases, graph) ← graph.resolveAliases? config
  some (friendly ++ aliases, graph)

structure Pass where
  name : String
  /-- Whether the pass changed the graph, and the graph after it. -/
  run? : Graph → Option (Bool × Graph)

namespace Pass

def resolveNames (config : Config) : Pass where
  name := "resolve_name_collisions"
  run? graph := (graph.resolveNames? config).map fun (report, graph) => (report.changed, graph)

end Pass

/-- What a pass told. -/
structure PassOutcome where
  name : String
  changed : Bool
  deriving DecidableEq

/-- Passes in the order in which they run. -/
structure Pipeline where
  passes : List Pass := []

namespace Pipeline

/-- The pipeline with `pass` at its end. -/
def push (pipeline : Pipeline) (pass : Pass) : Pipeline := ⟨pipeline.passes ++ [pass]⟩

def length (pipeline : Pipeline) : Nat := pipeline.passes.length

def isEmpty (pipeline : Pipeline) : Bool := pipeline.passes.isEmpty

/-- Runs all passes. Tells the outcome of each, and the graph after the last. -/
def run? (pipeline : Pipeline) (graph : Graph) : Option (List PassOutcome × Graph) :=
  thread? (fun pass graph => do
    let (changed, graph) ← pass.run? graph
    some (⟨pass.name, changed⟩, graph)) pipeline.passes graph

/-- Some pass changed the graph. -/
def anyChanged (outcomes : List PassOutcome) : Bool := outcomes.any (·.changed)

end Pipeline

end GraphNaming
