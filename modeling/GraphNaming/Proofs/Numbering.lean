import GraphNaming.Proofs.Namespace
import GraphNaming.Proofs.Positions
import Mathlib.Data.List.Nodup
import Mathlib.Data.Set.Insert
import Mathlib.Order.Interval.Finset.Nat

/-!
# Names with the smallest possible number

Which name an operation of a namespace finds, told by the set of names that are taken.

* `FirstNumbered`: the smallest number whose name is not taken; `FirstName`: the name itself if it
  is not.
* `numberedAlias`: an alias with a number.
* `Namespace.taken`: the names that are taken in a scope.
* `firstName_of_fresh?`, `firstNumbered_of_freshAlias?`: what a namespace gives out.
* `Namespace.blockedFor`: what is blocked for one of several that take names in turn.
* `freshNumbered?_number_le`: the number in a name that it gives out is never too large.
* `Knows.freshNumbered?_eq_some_iff`, `Knows.freshNumbered?_eq_none_iff`: the first free name is
  found, and none is found only if all are blocked.
* `Knows.exists_fresh?`, `Knows.exists_freshAlias?`: a name is given out unless too many are held.
-/

namespace GraphNaming

variable {first : Nat} {blocked : Set String} {name new new' : String}

/-! ## Numbers -/

/-- `new` is the one of `named first`, `named (first + 1)`, … with the smallest number that is not
blocked. -/
def FirstNumbered (named : Nat → String) (first : Nat) (blocked : Set String) (new : String) :
    Prop :=
  ∃ n, first ≤ n ∧ new = named n ∧ named n ∉ blocked ∧ ∀ k, first ≤ k → k < n → named k ∈ blocked

namespace FirstNumbered

variable {named : Nat → String}

theorem not_mem (h : FirstNumbered named first blocked new) : new ∉ blocked := by
  obtain ⟨n, -, rfl, hn, -⟩ := h
  exact hn

theorem unique (h : FirstNumbered named first blocked new)
    (h' : FirstNumbered named first blocked new') : new = new' := by
  obtain ⟨n, hle, rfl, hn, hmin⟩ := h
  obtain ⟨n', hle', rfl, hn', hmin'⟩ := h'
  rcases Nat.lt_trichotomy n n' with hlt | rfl | hlt
  · exact absurd (hmin' n hle hlt) hn
  · rfl
  · exact absurd (hmin n' hle' hlt) hn'

end FirstNumbered

/-- A name that is not blocked stays. Another makes way for the first `name_n` that is not. -/
def FirstName (first : Nat) (blocked : Set String) (name new : String) : Prop :=
  name ∉ blocked ∧ new = name ∨
    name ∈ blocked ∧ FirstNumbered (numberedName name "") first blocked new

theorem FirstName.unique (h : FirstName first blocked name new)
    (h' : FirstName first blocked name new') : new = new' := by
  rcases h with ⟨hn, rfl⟩ | ⟨hn, h⟩ <;> rcases h' with ⟨hn', rfl⟩ | ⟨hn', h'⟩
  · rfl
  · exact absurd hn' hn
  · exact absurd hn hn'
  · exact h.unique h'

theorem FirstName.eq_iff (h : FirstName first blocked name new) : new = name ↔ name ∉ blocked := by
  rcases h with ⟨hn, rfl⟩ | ⟨hn, h⟩
  · exact iff_of_true rfl hn
  · refine iff_of_false ?_ (not_not.2 hn)
    rintro rfl
    exact h.not_mem hn

/-- What makes way gets a number. -/
theorem FirstName.numbered (h : FirstName first blocked name new) (hne : new ≠ name) :
    FirstNumbered (numberedName name "") first blocked new :=
  h.resolve_left (fun hkept => hne hkept.2) |>.2

/-! ## Aliases -/

/-- The alias with a number: after its base if it is indexed, else after the whole of it. -/
def numberedAlias (name : String) : Nat → String :=
  match IndexedAlias.split? name with
  | some parts => numberedName parts.base parts.tail
  | none => numberedName name ""

namespace Namespace

variable {space : Namespace} {scope : ScopeId}

/-! ## What a namespace gives out -/

/-- The names that are blocked in a scope. -/
def taken (space : Namespace) (scope : ScopeId) : Set String := {name | ¬ space.Free scope name}

theorem not_mem_taken : name ∉ space.taken scope ↔ space.Free scope name := not_not

theorem taken_ofScopes (tree : ScopeTree) (first : Nat) (scope : ScopeId) :
    (ofScopes tree first).taken scope = ∅ :=
  Set.eq_empty_of_forall_notMem fun name => not_mem_taken.2 (free_ofScopes tree first scope name)

theorem mem_taken_hold {scope' : ScopeId} : name ∈ (space.hold scope' new).taken scope ↔
    (new = name ∧ space.scopes.exclusive? scope' scope ≠ some true) ∨ name ∈ space.taken scope := by
  simp only [taken, Set.mem_ofPred_eq, free_hold]
  grind

/-- In the scope itself nothing but the name is added to what is blocked. -/
theorem taken_hold_self :
    (space.hold scope name).taken scope = insert name (space.taken scope) := by
  ext other
  rw [mem_taken_hold, Set.mem_insert_iff, eq_comm]
  exact or_congr_left (and_iff_left (ScopeTree.not_exclusive?_self _ _))

theorem firstNumbered_of_freshNumbered? {base tail : String}
    (h : space.freshNumbered? scope base tail = some new) :
    FirstNumbered (numberedName base tail) space.firstSuffix (space.taken scope) new := by
  obtain ⟨n, hle, rfl, hfree, hmin⟩ := freshNumbered?_eq_some h
  exact ⟨n, hle, rfl, not_mem_taken.2 hfree, hmin⟩

theorem firstName_of_fresh? (h : space.fresh? scope name = some new) :
    FirstName space.firstSuffix (space.taken scope) name new :=
  (fresh?_eq_some h).imp (fun ⟨hfree, hnew⟩ => ⟨not_mem_taken.2 hfree, hnew⟩)
    fun ⟨hfree, hnew⟩ => ⟨hfree, firstNumbered_of_freshNumbered? hnew⟩

theorem firstNumbered_of_freshAlias? (h : space.freshAlias? scope name = some new) :
    FirstNumbered (numberedAlias name) space.firstSuffix (space.taken scope) new := by
  unfold numberedAlias
  unfold freshAlias? at h
  cases hsplit : IndexedAlias.split? name with
  | some parts => exact firstNumbered_of_freshNumbered? (by simpa only [hsplit] using h)
  | none => exact firstNumbered_of_freshNumbered? (by simpa only [hsplit] using h)

/-! ## One after the other -/

section Turns

variable {α : Type} {scopeOf : α → ScopeId} {holds : α → Set String} {plan : List α}
  {entry rival : α}

/-- The names that are blocked for an entry of `plan` when its turn comes: those taken from the
start, and those that the entries before it hold. -/
def blockedFor (space : Namespace) (scopeOf : α → ScopeId) (holds : α → Set String) (plan : List α)
    (entry : α) : Set String :=
  {name | name ∈ space.taken (scopeOf entry) ∨ ∃ rival, Before plan rival entry ∧
    name ∈ holds rival ∧ space.scopes.exclusive? (scopeOf rival) (scopeOf entry) ≠ some true}

theorem blockedFor_first (hn : (entry :: plan).Nodup) :
    space.blockedFor scopeOf holds (entry :: plan) entry = space.taken (scopeOf entry) := by
  ext name
  simp [blockedFor, Before.not_first hn]

/-- Once the first entry holds its names, the turns of the others go on from there. -/
theorem blockedFor_cons {next : Namespace} (hscopes : next.scopes = space.scopes)
    (hnext : ∀ scope name, name ∈ next.taken scope ↔
      (name ∈ holds rival ∧ space.scopes.exclusive? (scopeOf rival) scope ≠ some true) ∨
        name ∈ space.taken scope)
    (he : entry ∈ plan) : space.blockedFor scopeOf holds (rival :: plan) entry =
      next.blockedFor scopeOf holds plan entry := by
  ext name
  simp only [blockedFor, Set.mem_ofPred_eq, Before.cons_iff, hnext, hscopes]
  constructor
  · rintro (ht | ⟨other, ⟨rfl, -⟩ | hb, hname, hex⟩)
    · exact .inl (.inr ht)
    · exact .inl (.inl ⟨hname, hex⟩)
    · exact .inr ⟨other, hb, hname, hex⟩
  · rintro ((⟨hname, hex⟩ | ht) | ⟨other, hb, hname, hex⟩)
    · exact .inr ⟨rival, .inl ⟨rfl, he⟩, hname, hex⟩
    · exact .inl ht
    · exact .inr ⟨other, .inr hb, hname, hex⟩

end Turns

/-! ## Numbers enough -/

theorem numberedName_injective (base tail : String) :
    Function.Injective (numberedName base tail) := by
  intro m n h
  have hrepr : m.repr = n.repr := (String.append_right_inj _).1 ((String.append_left_inj _).1 h)
  have hdigits : Nat.toDigits 10 m = Nat.toDigits 10 n := by
    rw [← Nat.toList_repr, hrepr, Nat.toList_repr]
  simpa using congrArg (Nat.ofDigitChars 10 · 0) hdigits

/-- The search stops before the numbers run out. -/
theorem searchFrom?_number_lt {base tail : String} {n count : Nat}
    (h : space.searchFrom? scope base tail n count = some new) :
    ∃ k < n + count, new = numberedName base tail k := by
  induction count generalizing n with
  | zero => cases h
  | succ count ih =>
    obtain ⟨free, -, h⟩ := Option.bind_eq_some_iff.1 h
    cases free with
    | true =>
      cases h
      exact ⟨n, by omega, rfl⟩
    | false =>
      obtain ⟨k, hk, hnew⟩ := ih h
      exact ⟨k, by omega, hnew⟩

theorem freshNumbered?_number_le {base tail : String}
    (h : space.freshNumbered? scope base tail = some new) :
    ∃ k ≤ maxSuffix, new = numberedName base tail k := by
  obtain ⟨k, hk, hnew⟩ := searchFrom?_number_lt h
  by_cases hfirst : space.firstSuffix ≤ maxSuffix
  · exact ⟨k, by omega, hnew⟩
  · rw [freshNumbered?, Nat.sub_eq_zero_of_le (by omega)] at h
    cases h

theorem freshAlias?_number_le {name : String} (h : space.freshAlias? scope name = some new) :
    ∃ k ≤ maxSuffix, new = numberedAlias name k := by
  unfold numberedAlias
  unfold freshAlias? at h
  cases hsplit : IndexedAlias.split? name with
  | some parts => exact freshNumbered?_number_le (by simpa only [hsplit] using h)
  | none => exact freshNumbered?_number_le (by simpa only [hsplit] using h)

namespace Knows

theorem isFree?_eq_false_iff (hk : space.Knows scope) :
    space.isFree? scope name = some false ↔ space.isFree? scope name ≠ some true := by
  obtain ⟨free, hfree⟩ := hk.exists_isFree? name
  rw [hfree]
  cases free <;> simp

/-- The search gives out the name with the first number that makes it free. -/
theorem searchFrom?_eq (hk : space.Knows scope) (base tail : String) (n count : Nat) :
    space.searchFrom? scope base tail n count =
      ((List.range' n count).find? fun k =>
        space.isFree? scope (numberedName base tail k) = some true).map
          (numberedName base tail) := by
  induction count generalizing n with
  | zero => rfl
  | succ count ih =>
    obtain ⟨free, hfree⟩ := hk.exists_isFree? (numberedName base tail n)
    rw [searchFrom?, hfree, List.range'_succ, List.find?_cons]
    cases free with
    | true => simp [hfree]
    | false => simpa [hfree] using ih (n + 1)

/-- Only numbers of 32 bits are tried. -/
private theorem mem_tried_iff {first n : Nat} (hle : first ≤ n) :
    n < first + (maxSuffix + 1 - first) ↔ n < 2 ^ 32 := by
  have hmax : maxSuffix + 1 = 2 ^ 32 := rfl
  omega

theorem freshNumbered?_eq_some_iff (hk : space.Knows scope) {base tail : String} :
    space.freshNumbered? scope base tail = some new ↔
      ∃ n, space.firstSuffix ≤ n ∧ n < 2 ^ 32 ∧ new = numberedName base tail n ∧
        space.isFree? scope new = some true ∧ ∀ k, space.firstSuffix ≤ k → k < n →
          space.isFree? scope (numberedName base tail k) = some false := by
  rw [freshNumbered?, hk.searchFrom?_eq, Option.map_eq_some_iff]
  refine exists_congr fun n => ?_
  rw [List.find?_range'_eq_some, List.mem_range'_1]
  simp only [decide_eq_true_eq, Bool.not_eq_true', decide_eq_false_iff_not,
    hk.isFree?_eq_false_iff, ← ne_eq]
  constructor
  · rintro ⟨⟨hfree, ⟨hle, hlt⟩, hmin⟩, rfl⟩
    exact ⟨hle, (mem_tried_iff hle).1 hlt, rfl, hfree, hmin⟩
  · rintro ⟨hle, hlt, rfl, hfree, hmin⟩
    exact ⟨⟨hfree, ⟨hle, (mem_tried_iff hle).2 hlt⟩, hmin⟩, rfl⟩

theorem freshNumbered?_eq_none_iff (hk : space.Knows scope) {base tail : String} :
    space.freshNumbered? scope base tail = none ↔ ∀ n, space.firstSuffix ≤ n → n < 2 ^ 32 →
      space.isFree? scope (numberedName base tail n) = some false := by
  rw [freshNumbered?, hk.searchFrom?_eq, Option.map_eq_none_iff, List.find?_range'_eq_none]
  simp only [Bool.not_eq_true', decide_eq_false_iff_not, hk.isFree?_eq_false_iff, ← ne_eq]
  exact forall_congr' fun n => forall_congr' fun hle => imp_congr_left (mem_tried_iff hle)

/-- A blocked name is held by somebody. -/
theorem exists_holding (hk : space.Knows scope) (h : space.isFree? scope name = some false) :
    ∃ holding ∈ space.holdings, holding.name = name := by
  refine Classical.byContradiction fun hnone => ?_
  rw [hk.isFree?_of_free fun holding hm hname => absurd ⟨holding, hm, hname⟩ hnone] at h
  cases h

/-- A number can be found as long as there are more numbers than different names held. -/
theorem exists_freshNumbered? (hk : space.Knows scope) {names : Finset String}
    (hnames : ∀ holding ∈ space.holdings, holding.name ∈ names)
    (hfew : names.card < 2 ^ 32 - space.firstSuffix) (base tail : String) :
    ∃ new, space.freshNumbered? scope base tail = some new := by
  refine Option.isSome_iff_exists.1 (Option.isSome_iff_ne_none.2 fun hnone => ?_)
  have hblocked := hk.freshNumbered?_eq_none_iff.1 hnone
  have hcard : (Finset.Ico space.firstSuffix (2 ^ 32)).card ≤ names.card := by
    refine Finset.card_le_card_of_injOn (numberedName base tail) (fun n hn => ?_)
      (numberedName_injective base tail).injOn
    obtain ⟨hle, hlt⟩ := Finset.mem_Ico.1 (Finset.mem_coe.1 hn)
    obtain ⟨holding, hm, hname⟩ := hk.exists_holding (hblocked n hle hlt)
    exact hname ▸ hnames holding hm
  rw [Nat.card_Ico] at hcard
  omega

/-- The different names held are no more than the holdings. -/
theorem exists_freshNumbered?_of_length (hk : space.Knows scope)
    (hfew : space.holdings.length + space.firstSuffix ≤ maxSuffix) (base tail : String) :
    ∃ new, space.freshNumbered? scope base tail = some new := by
  have hnames : ∀ holding ∈ space.holdings,
      holding.name ∈ (space.holdings.map (·.name)).toFinset := fun holding hm =>
    List.mem_toFinset.2 (List.mem_map_of_mem hm)
  have hcard := (space.holdings.map (·.name)).toFinset_card_le
  have hmax : maxSuffix + 1 = 2 ^ 32 := rfl
  rw [List.length_map] at hcard
  exact hk.exists_freshNumbered? hnames (by omega) base tail

theorem exists_fresh? (hk : space.Knows scope)
    (hfew : space.holdings.length + space.firstSuffix ≤ maxSuffix) (name : String) :
    ∃ new, space.fresh? scope name = some new := by
  obtain ⟨free, hfree⟩ := hk.exists_isFree? name
  rw [fresh?, hfree, Option.bind_eq_bind, Option.bind_some]
  cases free with
  | true => exact ⟨name, rfl⟩
  | false => exact hk.exists_freshNumbered?_of_length hfew name ""

theorem exists_freshAlias? (hk : space.Knows scope)
    (hfew : space.holdings.length + space.firstSuffix ≤ maxSuffix) (name : String) :
    ∃ new, space.freshAlias? scope name = some new := by
  unfold freshAlias?
  split
  · exact hk.exists_freshNumbered?_of_length hfew _ _
  · exact hk.exists_freshNumbered?_of_length hfew _ _

end Knows

end Namespace

end GraphNaming
