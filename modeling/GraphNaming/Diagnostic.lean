import GraphNaming.Identifier

/-!
# Diagnostics

Naming never fails on a finding: what a reader should know is reported as a `Diagnostic`, which
`Diagnostic.text` writes out as `level[code]: message`, with the hint on a line of its own.
-/

namespace GraphNaming

inductive Level where
  | warning
  | note
  deriving DecidableEq

def Level.text : Level → String
  | .warning => "warning"
  | .note => "note"

/-- A short stable label of one kind of finding. -/
structure DiagnosticCode where
  text : String
  deriving DecidableEq

namespace DiagnosticCode

/-- Two friendly names set by the user collide and both stay. -/
def repeatedUserName : DiagnosticCode := ⟨"W0101"⟩

/-- The two sides of a shared binding already carry different friendly names. -/
def divergingNames : DiagnosticCode := ⟨"W0102"⟩

/-- A friendly name set by the user was replaced. -/
def userNameReplaced : DiagnosticCode := ⟨"N0103"⟩

end DiagnosticCode

/-- A finding, with the nodes that it is about. -/
structure Diagnostic where
  level : Level
  message : String
  code : Option DiagnosticCode := none
  hint : Option String := none
  related : List NodeId := []
  deriving DecidableEq

namespace Diagnostic

def withCode (finding : Diagnostic) (code : DiagnosticCode) : Diagnostic :=
  { finding with code := some code }

def withHint (finding : Diagnostic) (hint : String) : Diagnostic :=
  { finding with hint := some hint }

/-- Adds `nodes` after those already named. -/
def about (finding : Diagnostic) (nodes : List NodeId) : Diagnostic :=
  { finding with related := finding.related ++ nodes }

/-- The label in front of the message: the level, and the code in brackets if there is one. -/
def label (finding : Diagnostic) : String :=
  match finding.code with
  | some code => finding.level.text ++ "[" ++ code.text ++ "]"
  | none => finding.level.text

def text (finding : Diagnostic) : String :=
  let head := finding.label ++ ": " ++ finding.message
  match finding.hint with
  | some hint => head ++ "\n  hint: " ++ hint
  | none => head

end Diagnostic

end GraphNaming
