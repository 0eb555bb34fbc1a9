import GraphNaming.Proofs.ScopePaths
import GraphNaming.Resolution.Aliases

/-!
# Free names

A name is free in a scope if all its holders are in scopes that are never live together with it.

* `Namespace.Free`: the name is free.
* `Namespace.hold`, `Namespace.holdAll`: the namespace once a name is taken, or several.
* `isFree?_iff`, `take?_eq_some`, `fresh?_eq_some`: what the operations find.
* `Namespace.Knows`: scopes of which every question has an answer.
-/

namespace GraphNaming

namespace Namespace

variable {space : Namespace} {scope scope' : ScopeId} {name name' : String}

/-- No holder of `name` blocks it in `scope`. -/
def Free (space : Namespace) (scope : ScopeId) (name : String) : Prop :=
  ∀ holding ∈ space.holdings, holding.name = name →
    space.scopes.exclusive? holding.scope scope = some true

/-- The namespace once `name` is taken in `scope`. -/
def hold (space : Namespace) (scope : ScopeId) (name : String) : Namespace :=
  { space with holdings := ⟨name, scope⟩ :: space.holdings }

@[simp] theorem scopes_hold (space : Namespace) (scope : ScopeId) (name : String) :
    (space.hold scope name).scopes = space.scopes := rfl

@[simp] theorem free_hold : (space.hold scope name).Free scope' name' ↔
    (name = name' → space.scopes.exclusive? scope scope' = some true) ∧
      space.Free scope' name' := by
  simp [Free, hold]

theorem free_ofScopes (tree : ScopeTree) (firstSuffix : Nat) (scope : ScopeId) (name : String) :
    (ofScopes tree firstSuffix).Free scope name := nofun

/-- The namespace once all of `holdings` are taken, one after the other. -/
def holdAll (space : Namespace) (holdings : List Holding) : Namespace :=
  { space with holdings := holdings.reverse ++ space.holdings }

@[simp] theorem scopes_holdAll (space : Namespace) (holdings : List Holding) :
    (space.holdAll holdings).scopes = space.scopes := rfl

theorem holdAll_cons (space : Namespace) (holding : Holding) (holdings : List Holding) :
    space.holdAll (holding :: holdings) =
      (space.hold holding.scope holding.name).holdAll holdings := by
  simp [holdAll, hold]

theorem free_holdAll {holdings : List Holding} : (space.holdAll holdings).Free scope name ↔
    (∀ holding ∈ holdings, holding.name = name →
      space.scopes.exclusive? holding.scope scope = some true) ∧ space.Free scope name := by
  simp only [Free, holdAll, List.mem_append, List.mem_reverse, or_imp, forall_and]

/-! ## Asking -/

theorem unblocked?_iff {tree : ScopeTree} {holdings : List Holding} {answer : Bool}
    (h : unblocked? tree scope name holdings = some answer) :
    answer = true ↔ ∀ holding ∈ holdings, holding.name = name →
      tree.exclusive? holding.scope scope = some true := by
  induction holdings generalizing answer with
  | nil =>
    cases h
    simp
  | cons latest earlier ih =>
    obtain ⟨free, hfree, h⟩ := Option.bind_eq_some_iff.1 h
    rw [List.forall_mem_cons, ← ih hfree]
    by_cases hname : latest.name = name
    · cases free with
      | false =>
        cases h
        simp
      | true =>
        simp only [Bool.true_and, beq_iff_eq, hname, if_true] at h
        simp [h, hname]
    · have hne : (latest.name == name) = false := by simpa using hname
      simp only [hne, Bool.and_false, Bool.false_eq_true, if_false, Option.some.injEq] at h
      simp [h, hname]

theorem isFree?_iff {answer : Bool} (h : space.isFree? scope name = some answer) :
    answer = true ↔ space.Free scope name := unblocked?_iff h

/-- Taking a name has an answer whenever asking has. -/
theorem take?_eq_some {free : Bool} {next : Namespace} :
    space.take? scope name = some (free, next) ↔
      space.isFree? scope name = some free ∧ next = space.hold scope name := by
  simp only [take?, Option.bind_eq_bind, Option.bind_eq_some_iff, Option.some.injEq, Prod.mk.injEq]
  constructor
  · rintro ⟨_, h, rfl, rfl⟩
    exact ⟨h, rfl⟩
  · rintro ⟨h, rfl⟩
    exact ⟨_, h, rfl, rfl⟩

/-! ## New names -/

/-- The search finds the first free name. -/
theorem searchFrom?_eq_some {base tail new : String} {n count : Nat}
    (h : space.searchFrom? scope base tail n count = some new) :
    ∃ k, n ≤ k ∧ new = numberedName base tail k ∧ space.Free scope new ∧
      ∀ j, n ≤ j → j < k → ¬ space.Free scope (numberedName base tail j) := by
  induction count generalizing n with
  | zero => cases h
  | succ count ih =>
    obtain ⟨free, hfree, h⟩ := Option.bind_eq_some_iff.1 h
    have hiff := isFree?_iff hfree
    cases free with
    | true =>
      cases h
      exact ⟨n, Nat.le_refl n, rfl, hiff.1 rfl, fun j hj hlt => by omega⟩
    | false =>
      obtain ⟨k, hk, hnew, hf, hmin⟩ := ih h
      refine ⟨k, by omega, hnew, hf, fun j hj hlt => ?_⟩
      by_cases hjn : j = n
      · rw [hjn]
        exact fun hfree => absurd (hiff.2 hfree) Bool.false_ne_true
      · exact hmin j (by omega) hlt

theorem freshNumbered?_eq_some {base tail new : String}
    (h : space.freshNumbered? scope base tail = some new) :
    ∃ k, space.firstSuffix ≤ k ∧ new = numberedName base tail k ∧ space.Free scope new ∧
      ∀ j, space.firstSuffix ≤ j → j < k → ¬ space.Free scope (numberedName base tail j) :=
  searchFrom?_eq_some h

/-- A free name stays, and another makes way for a numbered one. -/
theorem fresh?_eq_some {base new : String} (h : space.fresh? scope base = some new) :
    (space.Free scope base ∧ new = base) ∨
      (¬ space.Free scope base ∧ space.freshNumbered? scope base "" = some new) := by
  obtain ⟨free, hfree, h⟩ := Option.bind_eq_some_iff.1 h
  have hiff := isFree?_iff hfree
  cases free with
  | true =>
    cases h
    exact .inl ⟨hiff.1 rfl, rfl⟩
  | false => exact .inr ⟨fun hf => absurd (hiff.2 hf) Bool.false_ne_true, h⟩

theorem free_of_freshNumbered? {base tail new : String}
    (h : space.freshNumbered? scope base tail = some new) : space.Free scope new := by
  obtain ⟨_, -, -, hfree, -⟩ := freshNumbered?_eq_some h
  exact hfree

theorem free_of_fresh? {base new : String} (h : space.fresh? scope base = some new) :
    space.Free scope new := by
  rcases fresh?_eq_some h with ⟨hfree, rfl⟩ | ⟨-, h⟩
  · exact hfree
  · exact free_of_freshNumbered? h

/-! ## Known scopes -/

/-- The scope has been opened, and all holders are in scopes that have been. -/
structure Knows (space : Namespace) (scope : ScopeId) : Prop where
  scope : ∃ path, space.scopes.path? scope = some path
  held : ∀ holding ∈ space.holdings, ∃ path, space.scopes.path? holding.scope = some path

namespace Knows

theorem hold (h : space.Knows scope) (h' : space.Knows scope') (name : String) :
    (space.hold scope name).Knows scope' where
  scope := h'.scope
  held := List.forall_mem_cons.2 ⟨h.scope, h.held⟩

theorem holdAll (h : space.Knows scope) {holdings : List Holding}
    (hk : ∀ holding ∈ holdings, space.Knows holding.scope) :
    (space.holdAll holdings).Knows scope where
  scope := h.scope
  held holding hm := by
    rcases List.mem_append.1 hm with hm | hm
    · exact (hk holding (List.mem_reverse.1 hm)).scope
    · exact h.held holding hm

theorem exists_isFree? (h : space.Knows scope) (name : String) :
    ∃ answer, space.isFree? scope name = some answer := by
  obtain ⟨⟨path, hpath⟩, hheld⟩ := h
  unfold isFree?
  generalize space.holdings = holdings at hheld
  induction holdings with
  | nil => exact ⟨true, rfl⟩
  | cons latest earlier ih =>
    obtain ⟨⟨path', hpath'⟩, hheld⟩ := List.forall_mem_cons.1 hheld
    obtain ⟨free, hfree⟩ := ih hheld
    simp only [unblocked?, hfree, Option.bind_eq_bind, Option.bind_some]
    split
    · exact ⟨ScopePath.exclusive path' path, ScopeTree.exclusive?_eq hpath' hpath⟩
    · exact ⟨free, rfl⟩

theorem isFree?_of_free (h : space.Knows scope) (hfree : space.Free scope name) :
    space.isFree? scope name = some true := by
  obtain ⟨answer, ha⟩ := h.exists_isFree? name
  rw [ha, (isFree?_iff ha).2 hfree]

theorem take?_eq (h : space.Knows scope) (name : String) :
    ∃ free, space.take? scope name = some (free, space.hold scope name) := by
  obtain ⟨free, hfree⟩ := h.exists_isFree? name
  exact ⟨free, take?_eq_some.2 ⟨hfree, rfl⟩⟩

theorem fresh?_of_free (h : space.Knows scope) (hfree : space.Free scope name) :
    space.fresh? scope name = some name := by
  rw [fresh?, h.isFree?_of_free hfree]
  rfl

end Knows

end Namespace

end GraphNaming
