import GraphNaming.Name.Scope

/-!
# Namespaces

A `Namespace` records which names are taken in which scopes. A name taken in one scope is blocked
in every other one that may be live at the same time.

* `Namespace.openScope?`, `Namespace.openAlternatives?`: new scopes.
* `Namespace.isFree?`: the name is blocked by none of its holders.
* `Namespace.take?`: takes a name, free or not, and tells which.
* `Namespace.fresh?`, `Namespace.freshNumbered?`: a free name made from another by a number.

Where a scope would have to be looked up that was never opened, all of these are `none`. So is
`openAlternatives?` once `maxGroups` groups have been opened, and so are the last two where every
number up to `maxSuffix` is in use.
-/

namespace GraphNaming

/-- The largest number that is put into a name: numbers have 32 bits. -/
def maxSuffix : Nat := 0xFFFFFFFF

/-- How many groups of alternatives can be opened: their counter has 32 bits. -/
def maxGroups : Nat := 0xFFFFFFFF

/-- The name `base_n`, with `tail` after it. -/
def numberedName (base tail : String) (n : Nat) : String := base ++ "_" ++ n.repr ++ tail

/-- A name and a scope in which it was taken. -/
structure Holding where
  name : String
  scope : ScopeId
  deriving DecidableEq

structure Namespace where
  scopes : ScopeTree
  /-- What has been taken, the latest first. -/
  holdings : List Holding
  /-- The first number tried for a new name. -/
  firstSuffix : Nat
  deriving DecidableEq

namespace Namespace

/-- Nothing is taken in the scopes of `tree`. -/
def ofScopes (tree : ScopeTree) (firstSuffix : Nat) : Namespace := ⟨tree, [], firstSuffix⟩

/-- One scope, in which nothing is taken. -/
def empty (firstSuffix : Nat) : Namespace := ofScopes .root firstSuffix

/-! ## Opening scopes -/

def openScope? (space : Namespace) (parent : ScopeId) : Option (ScopeId × Namespace) :=
  (space.scopes.addChild? parent).map fun (scope, scopes) => (scope, { space with scopes })

/-- The counter of groups is at its end after `maxGroups` calls. It does not start again, which
would put the alternatives of two calls into one group: the next call fails. -/
def openAlternatives? (space : Namespace) (parent : ScopeId) (count : Nat) :
    Option (List ScopeId × Namespace) :=
  if space.scopes.groups < maxGroups then
    (space.scopes.addAlternatives? parent count).map fun (opened, scopes) =>
      (opened, { space with scopes })
  else none

/-! ## Taking names -/

/-- No one of `holdings` holds `name` in a scope that may be live together with `scope`. The
earliest holder is asked first, and the first one that blocks the name settles the question. -/
def unblocked? (tree : ScopeTree) (scope : ScopeId) (name : String) :
    List Holding → Option Bool
  | [] => some true
  | latest :: earlier => do
    let free ← unblocked? tree scope name earlier
    if free && latest.name == name then tree.exclusive? latest.scope scope else some free

/-- The name may be used in `scope`. -/
def isFree? (space : Namespace) (scope : ScopeId) (name : String) : Option Bool :=
  unblocked? space.scopes scope name space.holdings

/-- Takes `name` in `scope`, and tells whether it was free. -/
def take? (space : Namespace) (scope : ScopeId) (name : String) : Option (Bool × Namespace) := do
  let free ← space.isFree? scope name
  some (free, { space with holdings := ⟨name, scope⟩ :: space.holdings })

/-! ## New names -/

/-- The first free name among those with the numbers `n`, `n + 1`, … of which `count` are tried. -/
def searchFrom? (space : Namespace) (scope : ScopeId) (base tail : String) (n : Nat) :
    Nat → Option String
  | 0 => none
  | count + 1 => do
    if ← space.isFree? scope (numberedName base tail n) then some (numberedName base tail n)
    else space.searchFrom? scope base tail (n + 1) count

/-- The free name `base_n` followed by `tail`, for the smallest possible `n`. -/
def freshNumbered? (space : Namespace) (scope : ScopeId) (base tail : String) : Option String :=
  space.searchFrom? scope base tail space.firstSuffix (maxSuffix + 1 - space.firstSuffix)

/-- The name `base` itself if it is free, else `base_n` for the smallest possible `n`. -/
def fresh? (space : Namespace) (scope : ScopeId) (base : String) : Option String := do
  if ← space.isFree? scope base then some base else space.freshNumbered? scope base ""

end Namespace

end GraphNaming
