import GraphNaming.Graph.Walk
import GraphNaming.Text.Json

/-!
# Settings

* `Config`: which names may be replaced, and which regions may use each other's.
* `Config.ofText?`: settings from a JSON document.
-/

namespace GraphNaming

structure Config where
  /-- Friendly names set by the user are replaced too where they collide. -/
  strict : Bool := false
  scoping : Scoping := .exclusive
  deriving DecidableEq

namespace Config

/-- The scoping of friendly names. Strict settings leave no name twice, so they use one namespace
for the whole graph. -/
def friendlyScoping (config : Config) : Scoping :=
  if config.strict then .flattened else config.scoping

end Config

/-! ## Settings from text -/

def Scoping.text : Scoping → String
  | .flattened => "flattened"
  | .exclusive => "exclusive"

def Scoping.ofText? (word : String) : Option Scoping :=
  [Scoping.flattened, .exclusive].find? (·.text == word)

/-- A scoping is its word, or an object whose one member has the word as its key and no value. -/
def Scoping.ofJson? : Json → Option Scoping
  | .string (some word) => ofText? word
  | .object [(some word, .null)] => ofText? word
  | _ => none

namespace Config

/-- The settings read so far. -/
structure Draft where
  strict : Option Bool := none
  scoping : Option Scoping := none
  deriving DecidableEq

/-- Adds one member of the document. A key that is not a setting is passed over, but none may have
an unreadable key, and no setting may be given twice. -/
def Draft.read? (settings : Draft) : Option String × Json → Option Draft
  | (none, _) => none
  | (some "resolve_all_names", value) =>
    match settings.strict, value with
    | none, .bool strict => some { settings with strict := some strict }
    | _, _ => none
  | (some "scoping", value) =>
    match settings.scoping, Scoping.ofJson? value with
    | none, some scoping => some { settings with scoping := some scoping }
    | _, _ => none
  | (some _, _) => some settings

/-- The settings read, and the usual ones for the rest. -/
def Draft.complete (settings : Draft) : Config :=
  { strict := settings.strict.getD false, scoping := settings.scoping.getD .exclusive }

def ofJson? : Json → Option Config
  | .object members => (members.foldlM Draft.read? {}).map Draft.complete
  | _ => none

def ofText? (text : String) : Option Config := (Json.parse? text).bind ofJson?

end Config

end GraphNaming
