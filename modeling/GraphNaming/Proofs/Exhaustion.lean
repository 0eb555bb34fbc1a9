import GraphNaming.Proofs.Blocking
import GraphNaming.Proofs.Numbering

/-!
# When the numbers run out

A name that is blocked gets a number of 32 bits. The smallest one that makes it free is found
whatever calls were made before, and none is found only if every number leads to a name that is
blocked. That takes at least as many different names as there are numbers.

* `NameLog.names`: the names that the calls have taken.
* `Logged.exists_freshNumbered?`: as long as there are fewer of them than numbers, one is found.
* `Logged.smallest_free_number`: what a search for a name finds in any namespace.
-/

namespace GraphNaming

namespace NameLog

/-- The different names that some call took. -/
def names : NameLog → Finset String
  | [] => ∅
  | .opened _ _ _ :: log => names log
  | .took _ name _ :: log => insert name (names log)

theorem mem_names {log : NameLog} {name : String} :
    name ∈ log.names ↔ ∃ scope free, .took scope name free ∈ log := by
  induction log with
  | nil => simp [names]
  | cons event log ih =>
    cases event with
    | opened parent scopes alternatives => simp [names, ih]
    | took scope other free =>
      rw [names, Finset.mem_insert, ih]
      simp only [List.mem_cons, NameEvent.took.injEq]
      constructor
      · rintro (rfl | ⟨holder, found, hmem⟩)
        · exact ⟨scope, free, .inl ⟨rfl, rfl, rfl⟩⟩
        · exact ⟨holder, found, .inr hmem⟩
      · rintro ⟨holder, found, ⟨-, rfl, -⟩ | hmem⟩
        · exact .inl rfl
        · exact .inr ⟨holder, found, hmem⟩

end NameLog

namespace Namespace

variable {firstSuffix : Nat} {log : NameLog} {space : Namespace} {scope : ScopeId} {name : String}

namespace Logged

/-- No call changes where the numbers start. -/
theorem firstSuffix_eq (h : Logged firstSuffix log space) : space.firstSuffix = firstSuffix := by
  induction h with
  | start => rfl
  | openScope hbefore hparent hopen ih =>
    obtain ⟨path, hpath⟩ := hbefore.records.handedOut_iff.1 hparent
    exact (openScope?_opens hpath hopen).firstSuffix.trans ih
  | openAlternatives hbefore hparent hopen ih =>
    obtain ⟨path, hpath⟩ := hbefore.records.handedOut_iff.1 hparent
    exact (openAlternatives?_opens hpath hopen).2.firstSuffix.trans ih
  | take _ _ htake ih =>
    obtain ⟨-, rfl⟩ := take?_eq_some.1 htake
    exact ih

/-- With more numbers than names that were taken, the search has a result. -/
theorem exists_freshNumbered? (h : Logged firstSuffix log space) (hs : log.HandedOut scope)
    (hfew : log.names.card < 2 ^ 32 - firstSuffix) (base tail : String) :
    ∃ new, space.freshNumbered? scope base tail = some new := by
  refine (h.knows hs).exists_freshNumbered? (fun holding hm => ?_) (h.firstSuffix_eq ▸ hfew) _ _
  obtain ⟨free, htook⟩ := h.mem_holdings.1 hm
  exact NameLog.mem_names.2 ⟨holding.scope, free, htook⟩

/-- The search for a name with a number finds the smallest number of 32 bits that makes it free in
the scope, and fails just when there is none. So it succeeds whenever fewer different names were
taken than there are numbers to try. A name that is free needs no number, one that is blocked gets
one, and whatever is found is free. -/
theorem smallest_free_number (h : Logged firstSuffix log space) (hs : log.HandedOut scope)
    (base tail : String) :
    (∀ new, space.freshNumbered? scope base tail = some new ↔
      ∃ n, firstSuffix ≤ n ∧ n < 2 ^ 32 ∧ new = numberedName base tail n ∧
        space.isFree? scope new = some true ∧ ∀ k, firstSuffix ≤ k → k < n →
          space.isFree? scope (numberedName base tail k) = some false) ∧
    (space.freshNumbered? scope base tail = none ↔ ∀ n, firstSuffix ≤ n → n < 2 ^ 32 →
      space.isFree? scope (numberedName base tail n) = some false) ∧
    (log.names.card < 2 ^ 32 - firstSuffix →
      ∃ new, space.freshNumbered? scope base tail = some new) ∧
    (∃ free, space.isFree? scope base = some free ∧ space.fresh? scope base =
      if free then some base else space.freshNumbered? scope base "") ∧
    ∀ new, space.fresh? scope base = some new → space.isFree? scope new = some true := by
  have hk := h.knows hs
  refine ⟨fun new => ?_, ?_, fun hfew => h.exists_freshNumbered? hs hfew base tail, ?_, ?_⟩
  · rw [hk.freshNumbered?_eq_some_iff, h.firstSuffix_eq]
  · rw [hk.freshNumbered?_eq_none_iff, h.firstSuffix_eq]
  · obtain ⟨free, hfree⟩ := hk.exists_isFree? base
    refine ⟨free, hfree, ?_⟩
    rw [fresh?, hfree]
    rfl
  · exact fun new hnew => hk.isFree?_of_free (free_of_fresh? hnew)

end Logged

/-- The smaller of the last two numbers is taken at the root, then two alternatives are opened, and
the first takes the larger one. -/
def scarce : NameLog :=
  [.took ⟨1⟩ "x_4294967295" true, .opened .root [⟨1⟩, ⟨2⟩] true, .took .root "x_4294967294" true]

/-- With two numbers to try and one name taken, a number is found. Once an alternative has the
other one too, the search still finds it for the second alternative, and nothing for the root. -/
theorem smallest_free_number_scarce :
    (∃ space, Logged 0xFFFFFFFE (scarce.drop 2) space ∧
      (NameLog.names (scarce.drop 2)).card < 2 ^ 32 - 0xFFFFFFFE ∧
      ∃ new, space.freshNumbered? .root "x" "" = some new) ∧
    ∃ space, Logged 0xFFFFFFFE scarce space ∧ scarce.HandedOut .root ∧ scarce.HandedOut ⟨2⟩ ∧
      space.freshNumbered? ⟨2⟩ "x" "" = some "x_4294967295" ∧
      space.freshNumbered? .root "x" "" = none := by
  have hfirst : Logged 0xFFFFFFFE (scarce.drop 2)
      ⟨.root, [⟨"x_4294967294", .root⟩], 0xFFFFFFFE⟩ :=
    .take .start (.inl rfl) (take?_eq_some.2 ⟨rfl, rfl⟩)
  have hopened : Logged 0xFFFFFFFE (scarce.drop 1) _ :=
    hfirst.openAlternatives (.inl rfl) (show openAlternatives?
      ⟨.root, [⟨"x_4294967294", .root⟩], 0xFFFFFFFE⟩ .root 2 = some (_, _) from rfl)
  have htaken : Logged 0xFFFFFFFE scarce _ :=
    hopened.take (.inr ⟨.root, [⟨1⟩, ⟨2⟩], true, by decide, by decide⟩)
      (take?_eq_some.2 ⟨rfl, rfl⟩)
  have hscope : scarce.HandedOut ⟨2⟩ := .inr ⟨.root, [⟨1⟩, ⟨2⟩], true, by decide, by decide⟩
  have hfew : (NameLog.names (scarce.drop 2)).card < 2 ^ 32 - 0xFFFFFFFE := by decide
  obtain ⟨-, -, hexists, -⟩ := hfirst.smallest_free_number (.inl rfl) "x" ""
  obtain ⟨hfound, -⟩ := htaken.smallest_free_number hscope "x" ""
  obtain ⟨-, hnone, -⟩ := htaken.smallest_free_number (.inl rfl) "x" ""
  refine ⟨⟨_, hfirst, hfew, hexists hfew⟩, _, htaken, .inl rfl, hscope, ?_, ?_⟩
  · refine (hfound _).2 ⟨0xFFFFFFFF, by decide, by decide, rfl, rfl, fun k hle hlt => ?_⟩
    obtain rfl : k = 0xFFFFFFFE := by omega
    rfl
  · refine hnone.2 fun n hle hlt => ?_
    obtain rfl | rfl : n = 0xFFFFFFFE ∨ n = 0xFFFFFFFF := by omega
    · rfl
    · rfl

end Namespace

end GraphNaming
