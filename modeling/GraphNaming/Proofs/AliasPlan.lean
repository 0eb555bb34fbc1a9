import GraphNaming.Proofs.Positions
import GraphNaming.Proofs.Renaming
import GraphNaming.Proofs.Sequencing
import GraphNaming.Proofs.Swaps

/-!
# How a class of outputs gets its aliases

A class keeps its free aliases and swaps the others for new ones.

* `Namespace.holdNames`, `Namespace.Splits`: the free ones of several names are taken.
* `AliasClass.Settles`: how a class comes to its aliases.
* `AliasClass.SettleAll`: how all classes do, one after the other; `SettleAll.swapsFor`: which
  aliases each of them has to swap.
-/

namespace GraphNaming

namespace Namespace

/-! ## Several names in one scope -/

variable {space next : Namespace} {scope scope' : ScopeId} {names taken : List String}

/-- The namespace once all `names` are taken in `scope`. -/
def holdNames (space : Namespace) (scope : ScopeId) (names : List String) : Namespace :=
  space.holdAll (names.map (⟨·, scope⟩))

@[simp] theorem scopes_holdNames : (space.holdNames scope names).scopes = space.scopes := rfl

@[simp] theorem firstSuffix_holdNames :
    (space.holdNames scope names).firstSuffix = space.firstSuffix := rfl

@[simp] theorem length_holdNames :
    (space.holdNames scope names).holdings.length = names.length + space.holdings.length := by
  simp [holdNames, holdAll]

theorem holdNames_cons : space.holdNames scope (name :: names) =
    (space.hold scope name).holdNames scope names := by
  rw [holdNames, List.map_cons, holdAll_cons, holdNames]

theorem holdNames_append {more : List String} : (space.holdNames scope names).holdNames scope more =
    space.holdNames scope (names ++ more) := by
  simp [holdNames, holdAll]

theorem free_holdNames : (space.holdNames scope names).Free scope' name ↔
    (name ∈ names → space.scopes.exclusive? scope scope' = some true) ∧
      space.Free scope' name := by
  rw [holdNames, free_holdAll, List.forall_mem_map]
  refine and_congr_left fun _ => ?_
  exact ⟨fun h hn => h name hn rfl, fun h other ho hname => h (hname ▸ ho)⟩

/-- In the scope itself the names are added to what is blocked. -/
theorem taken_holdNames_self :
    (space.holdNames scope names).taken scope = space.taken scope ∪ {name | name ∈ names} := by
  induction names generalizing space with
  | nil => simp [holdNames, holdAll]
  | cons name names ih =>
    rw [holdNames_cons, ih, taken_hold_self]
    ext other
    simp [or_assoc, or_left_comm]

theorem knows_holdNames (h : space.Knows scope) (h' : space.Knows scope') :
    (space.holdNames scope names).Knows scope' := by
  refine h'.holdAll fun holding hm => ?_
  obtain ⟨name, -, rfl⟩ := List.mem_map.1 hm
  exact h

theorem thread?_take?_eq_some {answers : List Bool}
    (h : thread? (fun name space => space.take? scope name) names space = some (answers, next)) :
    next = space.holdNames scope names := by
  induction names generalizing space answers with
  | nil =>
    cases h
    rfl
  | cons name names ih =>
    rw [thread?_cons] at h
    obtain ⟨⟨free, taken⟩, hfirst, h⟩ := Option.bind_eq_some_iff.1 h
    obtain ⟨⟨answers, last⟩, hrest, h⟩ := Option.map_eq_some_iff.1 h
    cases h
    obtain ⟨-, rfl⟩ := take?_eq_some.1 hfirst
    rw [holdNames_cons]
    exact ih hrest

theorem thread?_take?_knows (h : space.Knows scope) (names : List String) :
    ∃ answers, thread? (fun name space => space.take? scope name) names space =
      some (answers, space.holdNames scope names) := by
  induction names generalizing space with
  | nil => exact ⟨[], rfl⟩
  | cons name names ih =>
    obtain ⟨free, htake⟩ := h.take?_eq name
    obtain ⟨answers, hrest⟩ := ih (h.hold h name)
    exact ⟨free :: answers, by simp [thread?_cons, htake, hrest, holdNames_cons]⟩

private theorem judged_spec {judged : List (String × Bool)}
    (h : names.mapM (fun name => (space.isFree? scope name).map (name, ·)) = some judged) :
    judged.map (·.1) = names ∧ ∀ entry ∈ judged, entry.2 = true ↔ space.Free scope entry.1 := by
  replace h := forall₂_of_mapM h
  induction h with
  | nil => exact ⟨rfl, nofun⟩
  | cons hfirst _ ih =>
    obtain ⟨answer, hanswer, rfl⟩ := Option.map_eq_some_iff.1 hfirst
    obtain ⟨hnames, hjudge⟩ := ih
    exact ⟨by rw [List.map_cons, hnames], List.forall_mem_cons.2 ⟨isFree?_iff hanswer, hjudge⟩⟩

/-- Of `names` the free ones are `kept`, and the others are `taken`. -/
structure Splits (space : Namespace) (scope : ScopeId) (names kept taken : List String) : Prop where
  kept_sub : kept.Sublist names
  taken_sub : taken.Sublist names
  all : ∀ name ∈ names, name ∈ kept ∨ name ∈ taken
  free : ∀ name ∈ kept, space.Free scope name
  blocked : ∀ name ∈ taken, ¬ space.Free scope name

theorem Splits.mem_kept_iff {kept : List String} (h : space.Splits scope names kept taken) :
    name ∈ kept ↔ name ∈ names ∧ name ∉ space.taken scope := by
  constructor
  · exact fun hk => ⟨h.kept_sub.subset hk, not_mem_taken.2 (h.free name hk)⟩
  · rintro ⟨hn, hb⟩
    exact (h.all name hn).resolve_right fun ht => hb (h.blocked name ht)

theorem Splits.mem_taken_iff {kept : List String} (h : space.Splits scope names kept taken) :
    name ∈ taken ↔ name ∈ names ∧ name ∈ space.taken scope := by
  constructor
  · exact fun ht => ⟨h.taken_sub.subset ht, h.blocked name ht⟩
  · rintro ⟨hn, hb⟩
    exact (h.all name hn).resolve_left fun hk => hb (h.free name hk)

private theorem splits_judged {judged : List (String × Bool)}
    (h : ∀ entry ∈ judged, entry.2 = true ↔ space.Free scope entry.1) :
    space.Splits scope (judged.map (·.1)) ((judged.filter (·.2)).map (·.1))
      ((judged.filter fun entry => !entry.2).map (·.1)) where
  kept_sub := List.filter_sublist.map _
  taken_sub := List.filter_sublist.map _
  all name hn := by
    obtain ⟨entry, he, rfl⟩ := List.mem_map.1 hn
    cases hfree : entry.2 with
    | true => exact .inl (List.mem_map_of_mem (List.mem_filter.2 ⟨he, hfree⟩))
    | false => exact .inr (List.mem_map_of_mem (List.mem_filter.2 ⟨he, by simp [hfree]⟩))
  free name hn := by
    obtain ⟨entry, he, rfl⟩ := List.mem_map.1 hn
    obtain ⟨he, hfree⟩ := List.mem_filter.1 he
    exact (h entry he).1 hfree
  blocked name hn := by
    obtain ⟨entry, he, rfl⟩ := List.mem_map.1 hn
    obtain ⟨he, htaken⟩ := List.mem_filter.1 he
    intro hfree
    simp [(h entry he).2 hfree] at htaken

/-- The free ones of `names` are taken, and the others come out. -/
theorem takeFree?_eq_some (h : space.takeFree? scope names = some (taken, next)) :
    ∃ kept, space.Splits scope names kept taken ∧ next = space.holdNames scope kept := by
  obtain ⟨judged, hjudged, h⟩ := Option.bind_eq_some_iff.1 h
  obtain ⟨hnames, hjudge⟩ := judged_spec hjudged
  rw [List.partition_eq_filter_filter] at h
  obtain ⟨⟨answers, last⟩, hrun, h⟩ := Option.bind_eq_some_iff.1 h
  cases h
  exact ⟨_, hnames ▸ splits_judged hjudge, thread?_take?_eq_some hrun⟩

/-- The names can be told apart in a known scope. -/
theorem takeFree?_knows (hk : space.Knows scope) (names : List String) :
    ∃ kept taken, space.takeFree? scope names = some (taken, space.holdNames scope kept) ∧
      kept.length + taken.length = names.length := by
  obtain ⟨judged, hjudged, hlength⟩ : ∃ judged : List (String × Bool),
      names.mapM (fun name => (space.isFree? scope name).map (name, ·)) = some judged ∧
        List.Forall₂ (fun _ _ => True) names judged := by
    refine mapM_forall₂ fun name _ => ?_
    obtain ⟨answer, hanswer⟩ := hk.exists_isFree? name
    exact ⟨(name, answer), by rw [hanswer]; rfl, trivial⟩
  obtain ⟨answers, hrun⟩ := thread?_take?_knows hk ((judged.filter (·.2)).map (·.1))
  refine ⟨(judged.filter (·.2)).map (·.1), (judged.filter fun entry => !entry.2).map (·.1), ?_, ?_⟩
  · rw [takeFree?, hjudged, Option.bind_eq_bind, Option.bind_some, List.partition_eq_filter_filter]
    simp only [hrun, Option.bind_eq_bind, Option.bind_some]
    rfl
  · have hsplit := (List.filter_append_perm (·.2) judged).length_eq
    rw [List.length_append] at hsplit
    rw [List.length_map, List.length_map, hsplit, hlength.length_eq]

/-- Names that are all free are all taken. -/
theorem takeFree?_of_free (hk : space.Knows scope) (hfree : ∀ name ∈ names, space.Free scope name) :
    space.takeFree? scope names = some ([], space.holdNames scope names) := by
  have hjudged : names.mapM (fun name => (space.isFree? scope name).map (name, ·)) =
      some (names.map (·, true)) := mapM_eq_some fun name hn => by
    rw [hk.isFree?_of_free (hfree name hn)]
    rfl
  obtain ⟨answers, hrun⟩ := thread?_take?_knows hk names
  have hkept : (names.map (·, true)).filter (·.2) = names.map (·, true) :=
    List.filter_eq_self.2 (by simp)
  rw [takeFree?, hjudged, Option.bind_eq_bind, Option.bind_some, List.partition_eq_filter_filter,
    hkept]
  simp [hrun, List.filter_map, Function.comp_def]

end Namespace

namespace AliasClass

variable {graph : Graph} {cls : AliasClass} {space last : Namespace}
  {swaps : List (String × String)}

/-- The value goes by the alias `name`. -/
theorem mem_aliases {name : String} :
    name ∈ cls.aliases graph ↔ ∃ value ∈ cls.members, name ∈ (graph.aliases? value).getD ∅ := by
  have union (members : List Value) (names : AliasSet) :
      name ∈ members.foldl (fun names value => names.union ((graph.aliases? value).getD ∅)) names ↔
        name ∈ names ∨ ∃ value ∈ members, name ∈ (graph.aliases? value).getD ∅ := by
    induction members generalizing names with
    | nil => simp
    | cons value members ih =>
      rw [List.foldl_cons, ih, AliasSet.mem_union, List.exists_mem_cons_iff, or_assoc]
  rw [aliases, union]
  simp

/-! ## One class -/

/-- The old names of `swaps` make way for its new ones, each the first that is free. -/
inductive Replaces (scope : ScopeId) : Namespace → List (String × String) → Namespace → Prop
  | nil {space : Namespace} : Replaces scope space [] space
  | cons {space last : Namespace} {old new : String} {swaps : List (String × String)} :
    space.freshAlias? scope old = some new → Replaces scope (space.hold scope new) swaps last →
    Replaces scope space ((old, new) :: swaps) last

/-- The renames that carry out `swaps` in all members. -/
def renamesOf (cls : AliasClass) (graph : Graph) (swaps : List (String × String)) : List Rename :=
  swaps.flatMap fun swap =>
    (cls.holders graph swap.1).map fun value => ⟨.output value, swap.1, swap.2⟩

theorem replace?_eq_some {old : String} {renames : List Rename}
    (h : cls.replace? graph old space = some (renames, last)) :
    ∃ new, space.freshAlias? cls.scope old = some new ∧ last = space.hold cls.scope new ∧
      renames = (cls.holders graph old).map fun value => ⟨.output value, old, new⟩ := by
  obtain ⟨new, hnew, h⟩ := Option.bind_eq_some_iff.1 h
  obtain ⟨⟨free, next⟩, htake, h⟩ := Option.bind_eq_some_iff.1 h
  obtain ⟨-, rfl⟩ := Namespace.take?_eq_some.1 htake
  cases h
  exact ⟨new, hnew, rfl, rfl⟩

theorem exists_replaces {taken : List String} {renames : List (List Rename)}
    (h : thread? (cls.replace? graph) taken space = some (renames, last)) :
    ∃ swaps, Replaces cls.scope space swaps last ∧ swaps.map (·.1) = taken ∧
      renames.flatten = cls.renamesOf graph swaps := by
  induction taken generalizing space renames with
  | nil =>
    cases h
    exact ⟨[], .nil, rfl, rfl⟩
  | cons old taken ih =>
    rw [thread?_cons] at h
    obtain ⟨⟨first, next⟩, hfirst, h⟩ := Option.bind_eq_some_iff.1 h
    obtain ⟨⟨rest, last⟩, hrest, h⟩ := Option.map_eq_some_iff.1 h
    cases h
    obtain ⟨new, hnew, rfl, rfl⟩ := replace?_eq_some hfirst
    obtain ⟨swaps, hswaps, rfl, hrenames⟩ := ih hrest
    exact ⟨(old, new) :: swaps, .cons hnew hswaps, rfl, by
      rw [List.flatten_cons, hrenames, renamesOf, renamesOf, List.flatMap_cons]⟩

namespace Replaces

variable {scope : ScopeId}

theorem chosenInTurn (h : Replaces scope space swaps last) :
    ChosenInTurn space.firstSuffix (space.taken scope) swaps := by
  induction h with
  | nil => exact trivial
  | cons hnew _ ih =>
    rw [Namespace.taken_hold_self] at ih
    exact ⟨Namespace.firstNumbered_of_freshAlias? hnew, ih⟩

theorem last_eq (h : Replaces scope space swaps last) :
    last = space.holdNames scope (swaps.map (·.2)) := by
  induction h with
  | nil => rfl
  | cons _ _ ih =>
    rw [List.map_cons, Namespace.holdNames_cons]
    exact ih

/-- Once the free names are kept, those that replace the others have the smallest numbers. -/
theorem swapsFor {names : AliasSet} {kept : List String}
    (hsplit : space.Splits scope names.toList kept (swaps.map (·.1)))
    (h : Replaces scope (space.holdNames scope kept) swaps last) :
    SwapsFor space.firstSuffix (space.taken scope) {name | name ∈ names} swaps where
  ascending := names.sorted.sublist hsplit.taken_sub
  olds _ := hsplit.mem_taken_iff
  chosen := by
    have hkept : {name | name ∈ kept} = {name | name ∈ names ∧ name ∉ space.taken scope} :=
      Set.ext fun _ => hsplit.mem_kept_iff
    have hchosen := h.chosenInTurn
    rw [Namespace.taken_holdNames_self, hkept] at hchosen
    exact hchosen

end Replaces

/-- In `space` the class settles by `swaps`, which leaves `last`. -/
structure Settles (graph : Graph) (cls : AliasClass) (space : Namespace)
    (swaps : List (String × String)) (last : Namespace) : Prop where
  swapped : SwapsFor space.firstSuffix (space.taken cls.scope) {name | name ∈ cls.aliases graph}
    swaps
  scopes : last.scopes = space.scopes
  firstSuffix : last.firstSuffix = space.firstSuffix
  held : ∀ {scope name}, last.Free scope name ↔
    ((∃ other ∈ cls.aliases graph, substitute swaps other = name) →
      space.scopes.exclusive? cls.scope scope = some true) ∧ space.Free scope name

theorem Settles.free (h : cls.Settles graph space swaps last) :
    ∀ name ∈ cls.aliases graph, space.Free cls.scope (substitute swaps name) :=
  fun _ hn => Namespace.not_mem_taken.1 (h.swapped.not_blocked hn)

theorem exists_settles {report : Report} (h : cls.assign? graph space = some (report, last)) :
    ∃ swaps, cls.Settles graph space swaps last ∧ report.renames = cls.renamesOf graph swaps := by
  obtain ⟨⟨taken, middle⟩, htaken, h⟩ := Option.bind_eq_some_iff.1 h
  obtain ⟨⟨renames, final⟩, hrun, h⟩ := Option.bind_eq_some_iff.1 h
  cases h
  obtain ⟨kept, hsplit, rfl⟩ := Namespace.takeFree?_eq_some htaken
  obtain ⟨swaps, hreplaces, rfl, hrenames⟩ := exists_replaces hrun
  have hswaps := hreplaces.swapsFor hsplit
  refine ⟨swaps, ⟨hswaps, ?_, ?_, ?_⟩, hrenames⟩
  · rw [hreplaces.last_eq, Namespace.scopes_holdNames, Namespace.scopes_holdNames]
  · rw [hreplaces.last_eq]
    rfl
  -- What is held afterwards, kept names and new ones, are the aliases after the substitution.
  · intro scope name
    rw [hreplaces.last_eq, Namespace.free_holdNames, Namespace.free_holdNames,
      Namespace.scopes_holdNames, ← and_assoc, ← or_imp, hsplit.mem_kept_iff]
    exact and_congr_left fun _ => imp_congr_left hswaps.exists_substitute_iff.symm

/-- A class whose aliases are all free keeps them. -/
theorem assign?_of_free (hk : space.Knows cls.scope)
    (hfree : ∀ name ∈ cls.aliases graph, space.Free cls.scope name) :
    cls.assign? graph space =
      some ({}, space.holdNames cls.scope (cls.aliases graph).toList) := by
  rw [assign?, Namespace.takeFree?_of_free hk hfree]
  rfl

/-- The names are replaced as long as there are numbers enough. -/
theorem thread?_replace?_knows (graph : Graph) {taken : List String} (hk : space.Knows cls.scope)
    (hfew : space.holdings.length + taken.length + space.firstSuffix ≤ maxSuffix + 1) :
    ∃ renames news, thread? (cls.replace? graph) taken space =
      some (renames, space.holdNames cls.scope news) ∧ news.length = taken.length := by
  induction taken generalizing space with
  | nil => exact ⟨[], [], rfl, rfl⟩
  | cons old taken ih =>
    rw [List.length_cons] at hfew
    obtain ⟨new, hnew⟩ := hk.exists_freshAlias? (by omega) old
    obtain ⟨free, htake⟩ := hk.take?_eq new
    obtain ⟨renames, news, hrest, hlength⟩ := ih (hk.hold hk new) (by
      simp only [Namespace.hold, List.length_cons]
      omega)
    rw [← Namespace.holdNames_cons] at hrest
    exact ⟨(cls.holders graph old).map (⟨.output ·, old, new⟩) :: renames, new :: news,
      by simp [thread?_cons, replace?, hnew, htake, hrest], by simp [hlength]⟩

/-- A class gets its aliases as long as there are numbers enough. -/
theorem assign?_knows (graph : Graph) (hk : space.Knows cls.scope)
    (hfew : space.holdings.length + (cls.aliases graph).toList.length + space.firstSuffix ≤
      maxSuffix + 1) :
    ∃ report held, cls.assign? graph space = some (report, space.holdNames cls.scope held) ∧
      held.length = (cls.aliases graph).toList.length := by
  obtain ⟨kept, taken, htake, hsplit⟩ :=
    Namespace.takeFree?_knows hk (cls.aliases graph).toList
  have hfew' : (space.holdNames cls.scope kept).holdings.length + taken.length +
      (space.holdNames cls.scope kept).firstSuffix ≤ maxSuffix + 1 := by
    rw [Namespace.length_holdNames, Namespace.firstSuffix_holdNames]
    omega
  obtain ⟨renames, news, hrun, hlength⟩ :=
    thread?_replace?_knows graph (Namespace.knows_holdNames hk hk) hfew'
  rw [Namespace.holdNames_append] at hrun
  refine ⟨{ renames := renames.flatten }, kept ++ news, ?_, by simp [hlength, hsplit]⟩
  simp [assign?, htake, hrun]

/-! ## All classes -/

section Classes

variable {classes : List AliasClass} {plan : List (AliasClass × List (String × String))}
  {reports : List Report}

/-- If two classes come to one alias, they are in exclusive scopes. -/
def Compatible (graph : Graph) (tree : ScopeTree)
    (entry entry' : AliasClass × List (String × String)) : Prop :=
  ∀ name ∈ entry.1.aliases graph, ∀ name' ∈ entry'.1.aliases graph,
    substitute entry.2 name = substitute entry'.2 name' →
    tree.exclusive? entry.1.scope entry'.1.scope = some true

theorem Compatible.symm {tree : ScopeTree} {entry entry' : AliasClass × List (String × String)}
    (h : Compatible graph tree entry entry') : Compatible graph tree entry' entry := by
  intro name hn name' hn' hsame
  rw [tree.exclusive?_comm]
  exact h name' hn' name hn hsame.symm

/-- The classes of `plan` settle one after the other, each by the swaps next to it. -/
inductive SettleAll (graph : Graph) :
    Namespace → List (AliasClass × List (String × String)) → Namespace → Prop
  | nil {space : Namespace} : SettleAll graph space [] space
  | cons {space middle last : Namespace} {cls : AliasClass} {swaps : List (String × String)}
    {plan : List (AliasClass × List (String × String))} : cls.Settles graph space swaps middle →
    SettleAll graph middle plan last → SettleAll graph space ((cls, swaps) :: plan) last

theorem exists_settleAll
    (h : thread? (fun cls space => cls.assign? graph space) classes space = some (reports, last)) :
    ∃ plan, SettleAll graph space plan last ∧ plan.map (·.1) = classes ∧
      reports.flatMap (·.renames) = plan.flatMap fun entry => entry.1.renamesOf graph entry.2 := by
  induction classes generalizing space reports with
  | nil =>
    cases h
    exact ⟨[], .nil, rfl, rfl⟩
  | cons cls classes ih =>
    rw [thread?_cons] at h
    obtain ⟨⟨report, next⟩, hfirst, h⟩ := Option.bind_eq_some_iff.1 h
    obtain ⟨⟨reports, last⟩, hrest, h⟩ := Option.map_eq_some_iff.1 h
    cases h
    obtain ⟨swaps, hsettles, hreport⟩ := exists_settles hfirst
    obtain ⟨plan, hplan, rfl, hreports⟩ := ih hrest
    exact ⟨(cls, swaps) :: plan, .cons hsettles hplan, rfl, by
      rw [List.flatMap_cons, List.flatMap_cons, hreport, hreports]⟩

namespace SettleAll

theorem settles (h : SettleAll graph space plan last) : ∀ entry ∈ plan,
    ∃ before after, entry.1.Settles graph before entry.2 after := by
  induction h with
  | nil => nofun
  | cons hfirst _ ih => exact List.forall_mem_cons.2 ⟨⟨_, _, hfirst⟩, ih⟩

/-- What is blocked for a class when its turn comes. -/
def blocked (graph : Graph) (space : Namespace) (plan : List (AliasClass × List (String × String)))
    (entry : AliasClass × List (String × String)) : Set String :=
  space.blockedFor (fun entry => entry.1.scope)
    (fun entry => {name | ∃ other ∈ entry.1.aliases graph, substitute entry.2 other = name}) plan
    entry

/-- Each class swaps the names that are blocked when its turn comes. -/
theorem swapsFor (h : SettleAll graph space plan last) (hn : plan.Nodup) : ∀ entry ∈ plan,
    SwapsFor space.firstSuffix (blocked graph space plan entry)
      {name | name ∈ entry.1.aliases graph} entry.2 := by
  induction h with
  | nil => nofun
  | @cons space middle last cls swaps plan hfirst _ ih =>
    have hmiddle (scope : ScopeId) (name : String) : name ∈ middle.taken scope ↔
        ((∃ other ∈ cls.aliases graph, substitute swaps other = name) ∧
          space.scopes.exclusive? cls.scope scope ≠ some true) ∨ name ∈ space.taken scope := by
      simp only [Namespace.taken, Set.mem_ofPred_eq, hfirst.held, not_and_or, Classical.not_imp]
    refine List.forall_mem_cons.2 ⟨?_, fun entry he => ?_⟩
    · rw [blocked, Namespace.blockedFor_first hn]
      exact hfirst.swapped
    · rw [blocked, Namespace.blockedFor_cons hfirst.scopes hmiddle he, ← hfirst.firstSuffix]
      exact ih (List.nodup_cons.1 hn).2 entry he

theorem free (h : SettleAll graph space plan last) : ∀ entry ∈ plan,
    ∀ name ∈ entry.1.aliases graph, space.Free entry.1.scope (substitute entry.2 name) := by
  induction h with
  | nil => nofun
  | cons hfirst _ ih =>
    exact List.forall_mem_cons.2 ⟨hfirst.free,
      fun entry he name hn => (hfirst.held.1 (ih entry he name hn)).2⟩

theorem pairwise (h : SettleAll graph space plan last) :
    plan.Pairwise (Compatible graph space.scopes) := by
  induction h with
  | nil => exact .nil
  | cons hfirst hplan ih =>
    refine List.pairwise_cons.2 ⟨fun entry he name hn name' hn' hsame => ?_, ?_⟩
    · exact (hfirst.held.1 (hplan.free entry he name' hn')).1 ⟨name, hn, hsame⟩
    · rwa [hfirst.scopes] at ih

end SettleAll

/-- The classes get their aliases as long as there are numbers enough. -/
theorem thread?_assign?_knows (graph : Graph) (hk : ∀ cls ∈ classes, space.Knows cls.scope)
    (hfew : space.holdings.length + (classes.flatMap fun cls => (cls.aliases graph).toList).length +
      space.firstSuffix ≤ maxSuffix + 1) :
    ∃ reports last, thread? (fun cls space => cls.assign? graph space) classes space =
      some (reports, last) := by
  induction classes generalizing space with
  | nil => exact ⟨[], space, rfl⟩
  | cons cls classes ih =>
    obtain ⟨hcls, hclasses⟩ := List.forall_mem_cons.1 hk
    rw [List.flatMap_cons, List.length_append] at hfew
    obtain ⟨report, held, hfirst, hlength⟩ := assign?_knows graph hcls (by omega)
    have hfew' : (space.holdNames cls.scope held).holdings.length +
        (classes.flatMap fun cls => (cls.aliases graph).toList).length +
        (space.holdNames cls.scope held).firstSuffix ≤ maxSuffix + 1 := by
      rw [Namespace.length_holdNames, Namespace.firstSuffix_holdNames, hlength]
      omega
    obtain ⟨reports, last, hrest⟩ :=
      ih (fun other ho => Namespace.knows_holdNames hcls (hclasses other ho)) hfew'
    exact ⟨report :: reports, last, by simp [thread?_cons, hfirst, hrest]⟩

/-- Classes whose aliases do not clash keep them. -/
theorem thread?_assign?_fixed (hk : ∀ cls ∈ classes, space.Knows cls.scope)
    (hfree : ∀ cls ∈ classes, ∀ name ∈ cls.aliases graph, space.Free cls.scope name)
    (hpair : classes.Pairwise fun cls cls' => ∀ name ∈ cls.aliases graph,
      name ∈ cls'.aliases graph → space.scopes.exclusive? cls.scope cls'.scope = some true) :
    ∃ reports last, thread? (fun cls space => cls.assign? graph space) classes space =
      some (reports, last) ∧ reports.flatMap (·.renames) = [] := by
  induction classes generalizing space with
  | nil => exact ⟨[], space, rfl, rfl⟩
  | cons cls classes ih =>
    obtain ⟨hcls, hclasses⟩ := List.forall_mem_cons.1 hk
    obtain ⟨hfirst, hothers⟩ := List.forall_mem_cons.1 hfree
    obtain ⟨hclash, hpair⟩ := List.pairwise_cons.1 hpair
    obtain ⟨reports, last, hrest, hnone⟩ := ih
      (fun other ho => Namespace.knows_holdNames hcls (hclasses other ho))
      (fun other ho name hn => Namespace.free_holdNames.2
        ⟨fun hm => hclash other ho name hm hn, hothers other ho name hn⟩)
      (by simpa only [Namespace.scopes_holdNames] using hpair)
    exact ⟨{} :: reports, last, by simp [thread?_cons, assign?_of_free hcls hfirst, hrest],
      by simp [hnone]⟩

end Classes

end AliasClass

end GraphNaming
