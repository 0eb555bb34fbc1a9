/-!
# Indexed aliases

An alias may end in a colon and a decimal number, as in `input:1`. When such an alias is replaced,
only its base changes.

* `IndexedAlias.split?`: the two parts of an alias of that form.
* `IndexedAlias.text`: the parts joined again.
* `IndexedAlias.splitAtColon?`: the same parts, found from the last colon on and judged by their
  bytes.
-/

namespace GraphNaming

/-- The parts of an alias `base:index`. -/
structure IndexedAlias where
  base : String
  index : String
  deriving DecidableEq

namespace IndexedAlias

/-- The colon with the index after it. -/
def tail (parts : IndexedAlias) : String := ":" ++ parts.index

def text (parts : IndexedAlias) : String := parts.base ++ parts.tail

/-- Splits at the last colon. The base holds at least one character, and the index at least one
and nothing but the digits `0` to `9`. -/
def split? (name : String) : Option IndexedAlias :=
  let reversed := name.toList.reverse
  let digits := reversed.takeWhile Char.isDigit
  match reversed.dropWhile Char.isDigit with
  | ':' :: base =>
    if digits = [] ∨ base = [] then none
    else some ⟨String.ofList base.reverse, String.ofList digits.reverse⟩
  | _ => none

/-! ## From the last colon on -/

/-- What stands before the last `stop`, and what stands after it. -/
def cutLast? (stop : Char) : List Char → Option (List Char × List Char)
  | [] => none
  | c :: rest =>
    match cutLast? stop rest with
    | some (before, after) => some (c :: before, after)
    | none => if c = stop then some ([], rest) else none

/-- The bytes of the text are those of the digits `0` to `9`. -/
def hasDigitBytes (text : String) : Bool :=
  text.toUTF8.data.all fun byte => 48 ≤ byte && byte ≤ 57

/-- Splits at the last colon, and only then looks at what the parts are. -/
def splitAtColon? (name : String) : Option IndexedAlias := do
  let (before, after) ← cutLast? ':' name.toList
  let parts : IndexedAlias := ⟨String.ofList before, String.ofList after⟩
  if parts.base = "" ∨ parts.index = "" ∨ hasDigitBytes parts.index = false then none
  else some parts

end IndexedAlias

end GraphNaming
