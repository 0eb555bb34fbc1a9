import GraphNaming.Name.Scope
import Mathlib.Data.List.Basic
import Mathlib.Data.List.Induction
import Mathlib.Data.List.TakeDrop

/-!
# Paths to scopes

Every scope is reached from the root by a path that goes one level down with each step. Where two
scopes are compared by going up from both of them, the same is seen from above: their paths have a
part in common, and part at two alternatives of one group or do not.

* `ScopeTree.path?`: the path to a scope.
* `ScopePath.exclusive`: two paths part at two alternatives of one group.
* `ScopeTree.Stands`: how far a way up has come, told on the path.
* `ScopeTree.exclusive?_eq`: two scopes are exclusive just when their paths are.
* `ScopeTree.Grown`, `ScopeTree.exists_addMany?`: what opening scopes does to the paths.
-/

namespace GraphNaming

/-- One step down from a scope to a child, and the group of alternatives that the child is one
of, if any. -/
structure ScopeStep where
  scope : ScopeId
  group : Option Nat
  deriving DecidableEq

/-- The steps from the root to a scope. -/
abbrev ScopePath := List ScopeStep

namespace ScopePath

/-- Two paths are exclusive if the first steps in which they differ lead to two alternatives of
one group. A path and one that it begins are not: one scope encloses the other. -/
def exclusive : ScopePath → ScopePath → Bool
  | a :: rest, b :: rest' =>
    if a.scope = b.scope then exclusive rest rest' else a.group.isSome && a.group == b.group
  | _, _ => false

/-- No path is exclusive with itself. -/
theorem exclusive_self (path : ScopePath) : exclusive path path = false := by
  induction path with
  | nil => rfl
  | cons step rest ih => simpa [exclusive] using ih

theorem exclusive_comm (p q : ScopePath) : exclusive p q = exclusive q p := by
  induction p generalizing q with
  | nil => cases q <;> rfl
  | cons a p ih =>
    cases q with
    | nil => rfl
    | cons b q =>
      simp only [exclusive, ih q, eq_comm (a := a.scope)]
      split
      · rfl
      · rw [Bool.eq_iff_iff]
        simp only [Bool.and_eq_true, beq_iff_eq]
        exact ⟨fun ⟨h, e⟩ => ⟨e ▸ h, e.symm⟩, fun ⟨h, e⟩ => ⟨e ▸ h, e.symm⟩⟩

/-- What two paths have in common does not matter. -/
theorem exclusive_append (common p q : ScopePath) :
    exclusive (common ++ p) (common ++ q) = exclusive p q := by
  induction common with
  | nil => rfl
  | cons step common ih => simpa [exclusive] using ih

end ScopePath

namespace ScopeTree

variable {tree after : ScopeTree} {id parent : ScopeId} {scope outer : Scope} {path : ScopePath}

/-! ## The path to a scope -/

/-- The path to the scope `id`, at most `fuel` levels deep. -/
def pathWithin? (tree : ScopeTree) : Nat → ScopeId → Option ScopePath
  | 0, _ => none
  | fuel + 1, id => do
    let scope ← tree.scope? id
    match scope.parent with
    | none => some []
    | some parent => (tree.pathWithin? fuel parent).map (· ++ [⟨id, scope.group⟩])

/-- The path to the scope `id`. Scopes around it have smaller numbers. -/
def path? (tree : ScopeTree) (id : ScopeId) : Option ScopePath :=
  tree.pathWithin? (id.number + 1) id

/-- Paths do not hang on the number of groups. -/
@[simp] theorem path?_groups (tree : ScopeTree) (groups : Nat) (id : ScopeId) :
    ScopeTree.path? { tree with groups } id = tree.path? id := by
  have hwithin (fuel : Nat) (id : ScopeId) :
      ScopeTree.pathWithin? { tree with groups } fuel id = tree.pathWithin? fuel id := by
    induction fuel generalizing id with
    | zero => rfl
    | succ fuel ih =>
      simp only [pathWithin?, ih]
      rfl
  exact hwithin _ id

theorem number_lt (h : tree.scope? id = some scope) : id.number < tree.entries.size :=
  (Array.getElem?_eq_some_iff.1 h).1

/-- The only scope that lies in none is the root. -/
theorem placed_root (h : tree.scope? id = some scope) (hp : scope.parent = none) :
    id = .root ∧ scope.depth = 0 := by
  have hplaced := tree.placed id.number scope h
  rw [Scope.Placed, hp] at hplaced
  exact ⟨congrArg ScopeId.mk hplaced.1, hplaced.2⟩

theorem placed_in (h : tree.scope? id = some scope) (hp : scope.parent = some parent) :
    parent.number < id.number ∧
      ∃ outer, tree.scope? parent = some outer ∧ scope.depth = outer.depth + 1 := by
  have hplaced := tree.placed id.number scope h
  rwa [Scope.Placed, hp] at hplaced

theorem depth_le (h : tree.scope? id = some scope) : scope.depth ≤ id.number := by
  induction hn : id.number using Nat.strongRecOn generalizing id scope with
  | _ n ih =>
    cases hp : scope.parent with
    | none => simp [(placed_root h hp).2]
    | some parent =>
      obtain ⟨hlt, outer, houter, hdepth⟩ := placed_in h hp
      have hle := ih parent.number (hn ▸ hlt) houter rfl
      omega

/-- More fuel than the number of the scope makes no difference. -/
theorem pathWithin?_eq {fuel : Nat} (hf : id.number < fuel) :
    tree.pathWithin? fuel id = tree.path? id := by
  induction hn : id.number using Nat.strongRecOn generalizing id fuel with
  | _ n ih =>
    obtain ⟨fuel, rfl⟩ := Nat.exists_eq_succ_of_ne_zero (show fuel ≠ 0 by omega)
    rw [path?, pathWithin?, pathWithin?]
    cases h : tree.scope? id with
    | none => rfl
    | some scope =>
      cases hp : scope.parent with
      | none => simp [hp]
      | some parent =>
        obtain ⟨hlt, -⟩ := placed_in h hp
        have hfuel : tree.pathWithin? fuel parent = tree.path? parent :=
          ih parent.number (hn ▸ hlt) (by omega) rfl
        have hnumber : tree.pathWithin? id.number parent = tree.path? parent :=
          ih parent.number (hn ▸ hlt) hlt rfl
        simp [hp, hfuel, hnumber]

theorem path?_of_root (h : tree.scope? id = some scope) (hp : scope.parent = none) :
    tree.path? id = some [] := by simp [path?, pathWithin?, h, hp]

theorem path?_of_parent (h : tree.scope? id = some scope) (hp : scope.parent = some parent) :
    tree.path? id = (tree.path? parent).map (· ++ [⟨id, scope.group⟩]) := by
  obtain ⟨hlt, -⟩ := placed_in h hp
  rw [path?, pathWithin?]
  simp [h, hp, pathWithin?_eq hlt]

theorem path?_eq_none (h : tree.scope? id = none) : tree.path? id = none := by
  simp [path?, pathWithin?, h]

/-- Every scope has a path, which is as long as the scope is deep. -/
theorem exists_path (h : tree.scope? id = some scope) :
    ∃ path, tree.path? id = some path ∧ path.length = scope.depth := by
  induction hn : id.number using Nat.strongRecOn generalizing id scope with
  | _ n ih =>
    cases hp : scope.parent with
    | none => exact ⟨[], path?_of_root h hp, (placed_root h hp).2.symm⟩
    | some parent =>
      obtain ⟨hlt, outer, houter, hdepth⟩ := placed_in h hp
      obtain ⟨front, hfront, hlength⟩ := ih parent.number (hn ▸ hlt) houter rfl
      refine ⟨front ++ [⟨id, scope.group⟩], ?_, ?_⟩
      · rw [path?_of_parent h hp, hfront]
        rfl
      · simp [hlength, hdepth]

theorem exists_scope (h : tree.path? id = some path) :
    ∃ scope, tree.scope? id = some scope ∧ scope.depth = path.length := by
  cases hs : tree.scope? id with
  | none =>
    rw [path?_eq_none hs] at h
    cases h
  | some scope =>
    obtain ⟨found, hfound, hlength⟩ := exists_path hs
    rw [h] at hfound
    cases hfound
    exact ⟨scope, rfl, hlength.symm⟩

theorem length_lt (h : tree.path? id = some path) : path.length < tree.entries.size := by
  obtain ⟨scope, hs, hdepth⟩ := exists_scope h
  exact hdepth ▸ Nat.lt_of_le_of_lt (depth_le hs) (number_lt hs)

theorem exists_path_iff :
    (∃ path, tree.path? id = some path) ↔ ∃ scope, tree.scope? id = some scope := by
  constructor
  · rintro ⟨path, h⟩
    obtain ⟨scope, hs, -⟩ := exists_scope h
    exact ⟨scope, hs⟩
  · rintro ⟨scope, h⟩
    obtain ⟨path, hp, -⟩ := exists_path h
    exact ⟨path, hp⟩

/-- Only the root has no steps to it. -/
theorem of_path?_nil (h : tree.path? id = some []) :
    id = .root ∧ ∃ scope, tree.scope? id = some scope ∧ scope.parent = none := by
  obtain ⟨scope, hs, -⟩ := exists_scope h
  cases hp : scope.parent with
  | none => exact ⟨(placed_root hs hp).1, scope, hs, hp⟩
  | some parent =>
    rw [path?_of_parent hs hp, Option.map_eq_some_iff] at h
    obtain ⟨front, -, heq⟩ := h
    simp at heq

/-- The last step leads from the scope around a scope to it. -/
theorem of_path?_append {front : ScopePath} {step : ScopeStep}
    (h : tree.path? id = some (front ++ [step])) :
    step.scope = id ∧ ∃ scope parent, tree.scope? id = some scope ∧ scope.parent = some parent ∧
      scope.group = step.group ∧ tree.path? parent = some front := by
  obtain ⟨scope, hs, -⟩ := exists_scope h
  cases hp : scope.parent with
  | none =>
    rw [path?_of_root hs hp] at h
    simp at h
  | some parent =>
    rw [path?_of_parent hs hp, Option.map_eq_some_iff] at h
    obtain ⟨found, hfound, heq⟩ := h
    obtain ⟨rfl, rfl⟩ := List.append_singleton_inj.1 heq
    exact ⟨rfl, scope, parent, hs, hp, rfl, hfound⟩

/-- Each scope has a path of its own. -/
theorem path?_inj {a b : ScopeId} (ha : tree.path? a = some path) (hb : tree.path? b = some path) :
    a = b := by
  rcases List.eq_nil_or_concat path with rfl | ⟨front, step, rfl⟩
  · exact (of_path?_nil ha).1.trans (of_path?_nil hb).1.symm
  · rw [List.concat_eq_append] at ha hb
    exact (of_path?_append ha).1.symm.trans (of_path?_append hb).1

/-- Every step of a path leads to a scope by the steps before it. -/
theorem path?_of_front {front : ScopePath} {step : ScopeStep} (h : tree.path? id = some path)
    (hstep : front ++ [step] <+: path) : tree.path? step.scope = some (front ++ [step]) := by
  induction path using List.reverseRecOn generalizing id with
  | nil => simp at hstep
  | append_singleton path last ih =>
    obtain ⟨rfl, -, parent, -, -, -, hparent⟩ := of_path?_append h
    rcases List.prefix_concat_iff.1 hstep with heq | hstep
    · obtain ⟨rfl, rfl⟩ := List.append_singleton_inj.1 heq
      exact h
    · exact ih hparent hstep

/-- So the steps up to `level` lead to the scope of the last of them. -/
theorem path?_take {level : Nat} (h : tree.path? id = some path) (hl : level < path.length) :
    tree.path? path[level].scope = some (path.take (level + 1)) := by
  have hstep : path.take level ++ [path[level]] <+: path := by
    rw [← List.take_succ_eq_append_getElem hl]
    exact List.take_prefix _ _
  rw [path?_of_front h hstep, List.take_succ_eq_append_getElem hl]

/-! ## Going up -/

/-- The way up from the scope with the given path has come to the scope to which the first `level`
steps lead. -/
structure Stands (tree : ScopeTree) (path : ScopePath) (level : Nat) (climb : Climb) : Prop where
  scope : tree.path? climb.scope = some (path.take level)
  below : climb.below = path[level]?.map (·.scope)

namespace Stands

variable {level : Nat} {climb : Climb}

theorem start (h : tree.path? id = some path) : tree.Stands path path.length ⟨id, none⟩ where
  scope := by rw [List.take_length, h]
  below := by simp

/-- The scope where the way stands is as deep as the way is long. -/
theorem exists_scope (h : tree.Stands path level climb) (hl : level ≤ path.length) :
    ∃ scope, tree.scope? climb.scope = some scope ∧ scope.depth = level := by
  obtain ⟨scope, hs, hdepth⟩ := ScopeTree.exists_scope h.scope
  exact ⟨scope, hs, by rw [hdepth, List.length_take, Nat.min_eq_left hl]⟩

/-- A step up leaves the last of the steps down. -/
theorem step? (h : tree.Stands path (level + 1) climb) (hl : level < path.length) :
    ∃ next, tree.step? climb = some next ∧ tree.Stands path level next := by
  have hlast := h.scope
  rw [List.take_succ_eq_append_getElem hl] at hlast
  obtain ⟨hscope, scope, parent, hs, hp, -, hparent⟩ := of_path?_append hlast
  refine ⟨⟨parent, some climb.scope⟩, ?_, hparent, ?_⟩
  · simp [ScopeTree.step?, hs, hp]
  · rw [List.getElem?_eq_getElem hl]
    simp [hscope]

/-- The way up ends at the level looked for, or where it starts if that is not deeper. -/
theorem climbTo? (h : tree.Stands path level climb) (depth : Nat) {fuel : Nat}
    (hl : level ≤ path.length) (hf : level < fuel) :
    ∃ last, tree.climbTo? depth fuel climb = some last ∧
      tree.Stands path (min level depth) last := by
  induction fuel generalizing level climb with
  | zero => omega
  | succ fuel ih =>
    obtain ⟨scope, hs, hdepth⟩ := h.exists_scope hl
    rw [ScopeTree.climbTo?, hs]
    by_cases hdeep : depth < level
    · obtain ⟨level, rfl⟩ := Nat.exists_eq_succ_of_ne_zero (show level ≠ 0 by omega)
      obtain ⟨next, hnext, hstands⟩ := h.step? hl
      obtain ⟨last, hlast, hend⟩ := ih hstands (by omega) (by omega)
      refine ⟨last, ?_, ?_⟩
      · simp [hdepth, hdeep, hnext, hlast]
      · rwa [show min (level + 1) depth = min level depth by omega]
    · refine ⟨climb, by simp [hdepth, hdeep], ?_⟩
      rwa [show min level depth = level by omega]

/-- The group of a scope that the way has left. -/
theorem exists_below (h : tree.path? id = some path) (hl : level < path.length) :
    ∃ scope, tree.scope? path[level].scope = some scope ∧ scope.group = path[level].group := by
  have hpath := path?_take h hl
  rw [List.take_succ_eq_append_getElem hl] at hpath
  obtain ⟨-, scope, parent, hs, -, hgroup, -⟩ := of_path?_append hpath
  exact ⟨scope, hs, hgroup⟩

end Stands

/-! ## Where two ways meet -/

section Meeting

variable {a b : ScopeId} {p q : ScopePath} {level : Nat} {climbA climbB : Climb}

/-- The two ways have come from scopes below which they were apart, or from their very ends. -/
def Apart (p q : ScopePath) (level : Nat) : Prop :=
  (level = p.length ∨ level = q.length) ∨ p.take (level + 1) ≠ q.take (level + 1)

/-- Where the two ways are at one scope, the scopes below tell whether the paths are exclusive. -/
theorem parted_eq (ha : tree.path? a = some p) (hb : tree.path? b = some q)
    (hA : tree.Stands p level climbA) (hB : tree.Stands q level climbB)
    (hapart : Apart p q level) (hmeet : climbA.scope = climbB.scope) :
    (match climbA.below, climbB.below with
      | some x, some y => tree.parted? x y
      | _, _ => some false) = some (ScopePath.exclusive p q) := by
  have hcommon : p.take level = q.take level := by
    have hscope := hA.scope
    rw [hmeet, hB.scope] at hscope
    exact (Option.some.inj hscope).symm
  have hexclusive : ScopePath.exclusive p q =
      ScopePath.exclusive (p.drop level) (q.drop level) := by
    conv_lhs => rw [← List.take_append_drop level p, ← List.take_append_drop level q, hcommon]
    exact ScopePath.exclusive_append _ _ _
  rw [hexclusive, hA.below, hB.below]
  rcases Nat.lt_or_ge level p.length with hltp | hgep
  swap
  · rw [List.drop_eq_nil_of_le hgep, List.getElem?_eq_none hgep]
    rfl
  rcases Nat.lt_or_ge level q.length with hltq | hgeq
  swap
  · rw [List.drop_eq_nil_of_le hgeq, List.getElem?_eq_none hgeq]
    cases p.drop level <;> cases p[level]? <;> rfl
  -- Both moved, so the two scopes below are different children of one scope.
  obtain ⟨scopeX, hx, hgroupX⟩ := Stands.exists_below ha hltp
  obtain ⟨scopeY, hy, hgroupY⟩ := Stands.exists_below hb hltq
  have hne : p[level].scope ≠ q[level].scope := by
    intro heq
    have htake := path?_take ha hltp
    rw [heq, path?_take hb hltq] at htake
    rcases hapart with hend | hne
    · omega
    · exact hne (Option.some.inj htake).symm
  rw [List.drop_eq_getElem_cons hltp, List.drop_eq_getElem_cons hltq,
    List.getElem?_eq_getElem hltp, List.getElem?_eq_getElem hltq]
  simp [parted?, ScopePath.exclusive, hx, hy, hgroupX, hgroupY, hne]

/-- Two ways that stand at one level meet, and tell whether the paths are exclusive. -/
theorem exists_meet? {fuel : Nat} (ha : tree.path? a = some p) (hb : tree.path? b = some q)
    (hA : tree.Stands p level climbA) (hB : tree.Stands q level climbB)
    (hp : level ≤ p.length) (hq : level ≤ q.length) (hapart : Apart p q level)
    (hf : level < fuel) :
    ∃ lastA lastB, tree.meet? fuel climbA climbB = some (lastA, lastB) ∧
      (match lastA.below, lastB.below with
        | some x, some y => tree.parted? x y
        | _, _ => some false) = some (ScopePath.exclusive p q) := by
  induction fuel generalizing level climbA climbB with
  | zero => omega
  | succ fuel ih =>
    unfold meet?
    by_cases hmeet : climbA.scope = climbB.scope
    · exact ⟨climbA, climbB, if_pos hmeet, parted_eq ha hb hA hB hapart hmeet⟩
    · have htake : p.take level ≠ q.take level := by
        intro heq
        have hscope := hA.scope
        rw [heq] at hscope
        exact hmeet (path?_inj hscope hB.scope)
      obtain ⟨level, rfl⟩ := Nat.exists_eq_succ_of_ne_zero (show level ≠ 0 by
        rintro rfl
        exact htake (by rw [List.take_zero, List.take_zero]))
      obtain ⟨nextA, hnextA, hA'⟩ := hA.step? hp
      obtain ⟨nextB, hnextB, hB'⟩ := hB.step? hq
      obtain ⟨lastA, lastB, hlast, hanswer⟩ :=
        ih hA' hB' (by omega) (by omega) (.inr htake) (by omega)
      refine ⟨lastA, lastB, ?_, hanswer⟩
      simp [hmeet, hnextA, hnextB, hlast]

/-- Going up from two scopes tells whether their paths are exclusive. -/
theorem exclusive?_eq (ha : tree.path? a = some p) (hb : tree.path? b = some q) :
    tree.exclusive? a b = some (ScopePath.exclusive p q) := by
  obtain ⟨scopeB, hscopeB, hdepthB⟩ := exists_scope hb
  have hlengthA := length_lt ha
  obtain ⟨climbA, hclimbA, hA⟩ :=
    (Stands.start ha).climbTo? scopeB.depth (Nat.le_refl _) hlengthA
  obtain ⟨levelA, hlevelA, hdepth⟩ := hA.exists_scope (Nat.min_le_left _ _)
  obtain ⟨climbB, hclimbB, hB⟩ :=
    (Stands.start hb).climbTo? levelA.depth (Nat.le_refl _) (length_lt hb)
  have hlevel : min q.length levelA.depth = min p.length scopeB.depth := by omega
  rw [hlevel] at hB
  obtain ⟨lastA, lastB, hlast, hanswer⟩ := exists_meet? ha hb hA hB (by omega) (by omega)
    (.inl (by omega)) (show min p.length scopeB.depth < tree.entries.size by omega)
  unfold exclusive?
  simp only [hscopeB, hclimbA, hlevelA, hclimbB, hlast, Option.bind_eq_bind, Option.bind_some]
  exact hanswer

end Meeting

/-- Only scopes of the tree can be compared. -/
theorem exclusive?_eq_some {a b : ScopeId} {answer : Bool}
    (h : tree.exclusive? a b = some answer) :
    ∃ p q, tree.path? a = some p ∧ tree.path? b = some q ∧
      answer = ScopePath.exclusive p q := by
  obtain ⟨scopeB, hb, hrest⟩ := Option.bind_eq_some_iff.1 h
  obtain ⟨climb, hclimb, -⟩ := Option.bind_eq_some_iff.1 hrest
  have hpos : tree.entries.size ≠ 0 := by
    have := number_lt hb
    omega
  obtain ⟨fuel, hfuel⟩ := Nat.exists_eq_succ_of_ne_zero hpos
  rw [hfuel, climbTo?] at hclimb
  obtain ⟨scopeA, ha, -⟩ := Option.bind_eq_some_iff.1 hclimb
  obtain ⟨p, hp, -⟩ := exists_path ha
  obtain ⟨q, hq, -⟩ := exists_path hb
  rw [exclusive?_eq hp hq, Option.some.injEq] at h
  exact ⟨p, q, hp, hq, h.symm⟩

/-- No scope is exclusive with itself. -/
theorem not_exclusive?_self (tree : ScopeTree) (id : ScopeId) :
    tree.exclusive? id id ≠ some true := by
  intro h
  obtain ⟨p, q, hp, hq, htrue⟩ := exclusive?_eq_some h
  rw [hp] at hq
  cases hq
  rw [ScopePath.exclusive_self] at htrue
  cases htrue

theorem exclusive?_comm (tree : ScopeTree) (a b : ScopeId) :
    tree.exclusive? a b = tree.exclusive? b a := by
  apply Option.ext
  intro answer
  constructor <;>
  · intro h
    obtain ⟨p, q, hp, hq, rfl⟩ := exclusive?_eq_some h
    rw [exclusive?_eq hq hp, ScopePath.exclusive_comm]

/-! ## Opening scopes -/

/-- `after` is the tree with `count` more scopes, all one step on from `path`. -/
structure Grown (tree : ScopeTree) (path : ScopePath) (group : Option Nat) (count : Nat)
    (after : ScopeTree) : Prop where
  size : after.entries.size = tree.entries.size + count
  groups : after.groups = tree.groups
  old : ∀ {id}, id.number < tree.entries.size → after.path? id = tree.path? id
  new : ∀ {id}, tree.entries.size ≤ id.number → id.number < tree.entries.size + count →
    after.path? id = some (path ++ [⟨id, group⟩])

theorem scope?_eq_none_iff : tree.scope? id = none ↔ tree.entries.size ≤ id.number :=
  Array.getElem?_eq_none_iff

theorem path?_eq_none_iff : tree.path? id = none ↔ tree.entries.size ≤ id.number := by
  rw [← scope?_eq_none_iff, Option.eq_none_iff_forall_ne_some, Option.eq_none_iff_forall_ne_some,
    ← not_exists, ← not_exists]
  exact not_congr exists_path_iff

theorem path?_lt (h : tree.path? id = some path) : id.number < tree.entries.size := by
  obtain ⟨scope, hs, -⟩ := exists_scope h
  exact number_lt hs

/-- No path to an older scope changes. -/
theorem Grown.keeps {group : Option Nat} {count : Nat} (h : tree.Grown path group count after)
    {found : ScopePath} (hp : tree.path? id = some found) : after.path? id = some found :=
  (h.old (path?_lt hp)).trans hp

theorem grown_push (hparent : tree.scope? parent = some outer) (hp : tree.path? parent = some path)
    (group : Option Nat) : tree.Grown path group 1 (tree.push parent outer hparent group) := by
  have hold {id : ScopeId} (hlt : id.number < tree.entries.size) :
      (tree.push parent outer hparent group).scope? id = tree.scope? id := by
    rw [scope?, push, Array.getElem?_push_lt hlt, scope?, Array.getElem?_eq_getElem hlt]
  have hpath {id : ScopeId} (hlt : id.number < tree.entries.size) :
      (tree.push parent outer hparent group).path? id = tree.path? id := by
    obtain ⟨scope, hs⟩ : ∃ scope, tree.scope? id = some scope := ⟨_, Array.getElem?_eq_getElem hlt⟩
    induction hn : id.number using Nat.strongRecOn generalizing id scope with
    | _ n ih =>
      have hs' := (hold hlt).trans hs
      cases hparent' : scope.parent with
      | none => rw [path?_of_root hs hparent', path?_of_root hs' hparent']
      | some around =>
        obtain ⟨hbefore, found, hfound, -⟩ := placed_in hs hparent'
        rw [path?_of_parent hs hparent', path?_of_parent hs' hparent',
          ih around.number (hn ▸ hbefore) (number_lt hfound) found hfound rfl]
  refine ⟨by simp [push], rfl, hpath, fun {id} hge hlt => ?_⟩
  obtain rfl : id = ⟨tree.entries.size⟩ := congrArg ScopeId.mk (show id.number = _ by omega)
  have hnew : (tree.push parent outer hparent group).scope? ⟨tree.entries.size⟩ =
      some ⟨some parent, outer.depth + 1, group⟩ := by simp [scope?, push]
  rw [path?_of_parent hnew rfl, hpath (number_lt hparent), hp]
  rfl

theorem Grown.trans {group : Option Nat} {count more : Nat} {last : ScopeTree}
    (h : tree.Grown path group count after) (h' : after.Grown path group more last) :
    tree.Grown path group (count + more) last where
  size := by rw [h'.size, h.size, Nat.add_assoc]
  groups := h'.groups.trans h.groups
  old hlt := (h'.old (by rw [h.size]; omega)).trans (h.old hlt)
  new {id} hge hlt := by
    have hsize := h.size
    rcases Nat.lt_or_ge id.number (tree.entries.size + count) with hlt' | hge'
    · exact (h'.old (by omega)).trans (h.new hge hlt')
    · exact h'.new (by omega) (by omega)

theorem exists_add? (hp : tree.path? parent = some path) (group : Option Nat) :
    ∃ after, tree.add? parent group = some (⟨tree.entries.size⟩, after) ∧
      tree.Grown path group 1 after := by
  obtain ⟨outer, houter, -⟩ := exists_scope hp
  refine ⟨tree.push parent outer houter group, ?_, grown_push houter hp group⟩
  unfold add?
  split
  · next hnone =>
    rw [houter] at hnone
    cases hnone
  · next found hfound =>
    obtain rfl : found = outer := Option.some.inj (hfound.symm.trans houter)
    rfl

/-- Scopes opened together have the numbers that come next. -/
theorem exists_addMany? (hp : tree.path? parent = some path) (group : Option Nat) (count : Nat) :
    ∃ after, tree.addMany? parent group count =
        some ((List.range' tree.entries.size count).map ScopeId.mk, after) ∧
      tree.Grown path group count after := by
  induction count generalizing tree with
  | zero => exact ⟨tree, rfl, by simp, rfl, fun _ => rfl, fun _ _ => by omega⟩
  | succ count ih =>
    obtain ⟨next, hnext, hgrown⟩ := exists_add? hp group
    obtain ⟨after, hafter, hrest⟩ := ih (hgrown.keeps hp)
    refine ⟨after, ?_, Nat.add_comm 1 count ▸ hgrown.trans hrest⟩
    unfold addMany? at hafter ⊢
    rw [List.replicate_succ, thread?_cons, hnext, Option.bind_some, hafter]
    simp [List.range'_succ, hgrown.size]

end ScopeTree

end GraphNaming
