import GraphNaming.Threading

/-!
# Scopes

A namespace is divided into nested scopes. Sibling scopes may be opened together as alternatives:
of those, at most one is ever live. What is kept of a scope is the one around it, how deep it lies,
and the group of alternatives that it is one of. Two scopes are compared by going up from both of
them until the ways meet.

* `ScopeTree`: the scopes opened so far, each one level below the one around it.
* `ScopeTree.addChild?`, `ScopeTree.addAlternatives?`: new scopes, numbered as they are opened.
* `ScopeTree.climbTo?`, `ScopeTree.meet?`: the ways up.
* `ScopeTree.exclusive?`: the ways meet where two alternatives of one group part.

What is asked about a scope number that the tree has not handed out is `none`.
-/

namespace GraphNaming

/-- A scope's number. -/
structure ScopeId where
  number : Nat
  deriving DecidableEq

/-- The outermost scope. -/
def ScopeId.root : ScopeId := ⟨0⟩

structure Scope where
  /-- The scope in which it was opened. -/
  parent : Option ScopeId
  /-- How many scopes it lies in. -/
  depth : Nat
  /-- The group of alternatives that it is one of, if any. -/
  group : Option Nat
  deriving DecidableEq

/-- The scope is the first one, or it was opened after the one around it and lies one level below
that. -/
def Scope.Placed (scopes : Array Scope) (number : Nat) (scope : Scope) : Prop :=
  match scope.parent with
  | none => number = 0 ∧ scope.depth = 0
  | some parent => parent.number < number ∧
    ∃ outer, scopes[parent.number]? = some outer ∧ scope.depth = outer.depth + 1

/-- The scopes opened so far. -/
structure ScopeTree where
  /-- The scopes by number. -/
  entries : Array Scope
  /-- How many groups of alternatives have been opened. -/
  groups : Nat
  placed : ∀ (number : Nat) (scope : Scope), entries[number]? = some scope →
    scope.Placed entries number
  deriving DecidableEq

namespace ScopeTree

/-- The tree of the root alone. -/
def root : ScopeTree where
  entries := #[⟨none, 0, none⟩]
  groups := 0
  placed number scope h := by
    obtain ⟨hlt, rfl⟩ := Array.getElem?_eq_some_iff.1 h
    have hzero : number = 0 := Nat.lt_one_iff.1 hlt
    subst hzero
    exact ⟨rfl, rfl⟩

def scope? (tree : ScopeTree) (id : ScopeId) : Option Scope := tree.entries[id.number]?

/-! ## Opening scopes -/

/-- The tree with one more scope, in `parent`. -/
def push (tree : ScopeTree) (parent : ScopeId) (outer : Scope)
    (hparent : tree.scope? parent = some outer) (group : Option Nat) : ScopeTree where
  entries := tree.entries.push ⟨some parent, outer.depth + 1, group⟩
  groups := tree.groups
  placed number scope h := by
    have hlt : parent.number < tree.entries.size := (Array.getElem?_eq_some_iff.1 hparent).1
    rw [Array.getElem?_push] at h
    split at h
    · next hnumber =>
      cases h
      refine ⟨hnumber ▸ hlt, outer, ?_, rfl⟩
      rw [Array.getElem?_push_lt hlt, ← Array.getElem?_eq_getElem hlt]
      exact hparent
    · have hplaced := tree.placed number scope h
      unfold Scope.Placed at hplaced ⊢
      split at hplaced
      · exact hplaced
      · obtain ⟨hbefore, around, haround, hdepth⟩ := hplaced
        have hsize := (Array.getElem?_eq_some_iff.1 haround).1
        refine ⟨hbefore, around, ?_, hdepth⟩
        rw [Array.getElem?_push_lt hsize, ← Array.getElem?_eq_getElem hsize]
        exact haround

/-- Opens a scope in `parent`, as one of `group` if there is one. -/
def add? (tree : ScopeTree) (parent : ScopeId) (group : Option Nat) :
    Option (ScopeId × ScopeTree) :=
  match hparent : tree.scope? parent with
  | none => none
  | some outer => some (⟨tree.entries.size⟩, tree.push parent outer hparent group)

/-- Opens `count` scopes in `parent`. -/
def addMany? (tree : ScopeTree) (parent : ScopeId) (group : Option Nat) (count : Nat) :
    Option (List ScopeId × ScopeTree) :=
  thread? (fun () tree => tree.add? parent group) (List.replicate count ()) tree

/-- Opens a scope that is live together with all others in `parent`. -/
def addChild? (tree : ScopeTree) (parent : ScopeId) : Option (ScopeId × ScopeTree) :=
  tree.add? parent none

/-- Opens `count` scopes that are live together with all others in `parent`. -/
def addChildren? (tree : ScopeTree) (parent : ScopeId) (count : Nat) :
    Option (List ScopeId × ScopeTree) :=
  tree.addMany? parent none count

/-- Opens `count` scopes in `parent` of which at most one is live. -/
def addAlternatives? (tree : ScopeTree) (parent : ScopeId) (count : Nat) :
    Option (List ScopeId × ScopeTree) :=
  { tree with groups := tree.groups + 1 }.addMany? parent (some tree.groups) count

end ScopeTree

/-! ## Going up -/

/-- A place on the way up. -/
structure Climb where
  scope : ScopeId
  /-- The scope that the last step left, if there was one. -/
  below : Option ScopeId
  deriving DecidableEq

namespace ScopeTree

/-- One step up. The root has nothing around it, and is not left. -/
def step? (tree : ScopeTree) (climb : Climb) : Option Climb := do
  let scope ← tree.scope? climb.scope
  some ⟨scope.parent.getD climb.scope, some climb.scope⟩

/-- Goes up as long as the scope is deeper than `depth`. A scope has a larger number than the one
around it, so there are fewer steps than scopes. -/
def climbTo? (tree : ScopeTree) (depth : Nat) : Nat → Climb → Option Climb
  | 0, _ => none
  | fuel + 1, climb => do
    let scope ← tree.scope? climb.scope
    if depth < scope.depth then tree.climbTo? depth fuel (← tree.step? climb) else some climb

/-- Goes up on both ways, step by step, until they are at one scope. -/
def meet? (tree : ScopeTree) : Nat → Climb → Climb → Option (Climb × Climb)
  | 0, _, _ => none
  | fuel + 1, a, b =>
    if a.scope = b.scope then some (a, b)
    else do tree.meet? fuel (← tree.step? a) (← tree.step? b)

/-- The two scopes are different alternatives of one group. -/
def parted? (tree : ScopeTree) (a b : ScopeId) : Option Bool := do
  let scopeA ← tree.scope? a
  let scopeB ← tree.scope? b
  some (a ≠ b && scopeA.group.isSome && scopeA.group == scopeB.group)

/-- Two scopes are exclusive if they are, or lie in, two alternatives of one group. From the deeper
one the way goes up to the level of the other, and from there on both ways go up together. They
meet in the innermost scope around both: if one of them never moved, it encloses the other. -/
def exclusive? (tree : ScopeTree) (a b : ScopeId) : Option Bool := do
  let scopeB ← tree.scope? b
  let a ← tree.climbTo? scopeB.depth tree.entries.size ⟨a, none⟩
  let scopeA ← tree.scope? a.scope
  let b ← tree.climbTo? scopeA.depth tree.entries.size ⟨b, none⟩
  let (a, b) ← tree.meet? tree.entries.size a b
  match a.below, b.below with
  | some x, some y => tree.parted? x y
  | _, _ => some false

end ScopeTree

end GraphNaming
