import GraphNaming.Diagnostic
import GraphNaming.Graph.Basic

/-!
# Reports

A report lists the names that are replaced and the findings made on the way.

* `Graph.rename`, `Graph.renameAll`: carry out what a report lists.
* `Report.append`, `Report.concat`: reports one after the other.
-/

namespace GraphNaming

/-- What a name belongs to. -/
inductive NameSite where
  /-- The friendly name of a node. -/
  | friendly (node : NodeId)
  /-- An alias of an output. -/
  | output (value : Value)
  deriving DecidableEq

/-- At `site`, the name `old` makes way for `new`. -/
structure Rename where
  site : NameSite
  old : String
  new : String
  deriving DecidableEq

structure Report where
  renames : List Rename := []
  diagnostics : List Diagnostic := []
  deriving DecidableEq

namespace Report

/-- Some name is replaced. -/
def changed (report : Report) : Bool := !report.renames.isEmpty

protected def append (first second : Report) : Report :=
  ⟨first.renames ++ second.renames, first.diagnostics ++ second.diagnostics⟩

instance : Append Report := ⟨Report.append⟩

def concat (reports : List Report) : Report := reports.foldr (· ++ ·) {}

end Report

namespace Graph

/-- Puts the new name in the place of the old one. Who chose a friendly name is kept: a name that
makes way has not become the user's choice, nor lost it. -/
def rename (graph : Graph) (rename : Rename) : Graph :=
  match rename.site with
  | .friendly node => graph.modifyNode node fun node =>
    { node with name := { node.name with text := rename.new } }
  | .output value => graph.modifyOutput value fun output =>
    { output with aliases := output.aliases.replace rename.old rename.new }

def renameAll (graph : Graph) (renames : List Rename) : Graph := renames.foldl rename graph

end Graph

end GraphNaming
