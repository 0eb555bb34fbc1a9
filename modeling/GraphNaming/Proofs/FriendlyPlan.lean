import GraphNaming.Proofs.Numbering
import GraphNaming.Proofs.Positions
import GraphNaming.Proofs.Renaming
import Mathlib.Data.List.Pairwise

/-!
# How classes of nodes get their names

* `FriendlyClass.Assigns`: classes that get free names one after the other.
* `FriendlyClass.Compatible`: two classes whose new names do not clash, or clash by the user's
  choice.
* `FriendlyClass.Plans`: which names all classes get.
* `FriendlyClass.userPlan`, `FriendlyClass.userSpace`: the names of the user's choice, which stay
  unless the settings are strict.
* `assignFriendlyNames?_eq_some`, `exists_assignFriendlyNames?`: the names follow such a plan, and
  there are some.
* `assignFriendlyNames?_fixed`: compatible names stay.
-/

namespace GraphNaming

namespace FriendlyClass

theorem mem_renames_renamedTo {cls : FriendlyClass} {name : String} {rename : Rename} :
    rename ∈ (cls.renamedTo name).renames ↔
      name ≠ cls.name ∧ ∃ node ∈ cls.members, rename = ⟨.friendly node, cls.name, name⟩ := by
  unfold renamedTo
  split
  · next h => simp [h]
  · next h => simp [h, eq_comm]

/-- A member gets the name once, unless it is the name that it has. -/
theorem filter_renamedTo {cls : FriendlyClass} {name : String} {id : NodeId}
    (hn : cls.members.Nodup) (hid : id ∈ cls.members) :
    (cls.renamedTo name).renames.filter (fun rename => rename.site = .friendly id) =
      if name = cls.name then [] else [⟨.friendly id, cls.name, name⟩] := by
  unfold renamedTo
  split
  · rfl
  · rw [List.filter_map]
    simp only [Function.comp_def, NameSite.friendly.injEq, filter_eq_singleton hn hid]
    rfl

/-! ## Free names -/

/-- The classes of `plan` get its names, each the first that is free. -/
inductive Assigns : Namespace → List (FriendlyClass × String) → Namespace → Prop
  | nil {space} : Assigns space [] space
  | cons {space last cls name plan} : space.fresh? cls.scope cls.name = some name →
    Assigns (space.hold cls.scope name) plan last → Assigns space ((cls, name) :: plan) last

variable {classes : List FriendlyClass} {plan : List (FriendlyClass × String)}
  {space last : Namespace} {reports : List Report}

theorem assign?_eq_some {cls : FriendlyClass} {report : Report}
    (h : cls.assign? space = some (report, last)) :
    ∃ name, space.fresh? cls.scope cls.name = some name ∧ report = cls.renamedTo name ∧
      last = space.hold cls.scope name := by
  obtain ⟨name, hname, h⟩ := Option.bind_eq_some_iff.1 h
  obtain ⟨⟨free, next⟩, htake, h⟩ := Option.bind_eq_some_iff.1 h
  obtain ⟨-, rfl⟩ := Namespace.take?_eq_some.1 htake
  cases h
  exact ⟨name, hname, rfl, rfl⟩

theorem exists_assigns (h : thread? assign? classes space = some (reports, last)) :
    ∃ plan, Assigns space plan last ∧ plan.map (·.1) = classes ∧
      reports = plan.map fun entry => entry.1.renamedTo entry.2 := by
  induction classes generalizing space reports with
  | nil =>
    cases h
    exact ⟨[], .nil, rfl, rfl⟩
  | cons cls classes ih =>
    rw [thread?_cons] at h
    obtain ⟨⟨report, next⟩, hfirst, h⟩ := Option.bind_eq_some_iff.1 h
    obtain ⟨⟨reports, last⟩, hrest, h⟩ := Option.map_eq_some_iff.1 h
    cases h
    obtain ⟨name, hname, rfl, rfl⟩ := assign?_eq_some hfirst
    obtain ⟨plan, hplan, rfl, rfl⟩ := ih hrest
    exact ⟨(cls, name) :: plan, .cons hname hplan, rfl, rfl⟩

namespace Assigns

/-- What a class gets was free from the start. -/
theorem free (h : Assigns space plan last) :
    ∀ entry ∈ plan, space.Free entry.1.scope entry.2 := by
  induction h with
  | nil => nofun
  | cons hname _ ih =>
    exact List.forall_mem_cons.2 ⟨Namespace.free_of_fresh? hname,
      fun entry he => (Namespace.free_hold.1 (ih entry he)).2⟩

theorem pairwise (h : Assigns space plan last) : plan.Pairwise fun entry entry' =>
    entry.2 = entry'.2 → space.scopes.exclusive? entry.1.scope entry'.1.scope = some true := by
  induction h with
  | nil => exact .nil
  | cons _ hplan ih =>
    exact List.pairwise_cons.2 ⟨fun entry he => (Namespace.free_hold.1 (hplan.free entry he)).1, ih⟩

/-- What is blocked for a class when its turn comes. -/
def blocked (space : Namespace) (plan : List (FriendlyClass × String))
    (entry : FriendlyClass × String) : Set String :=
  space.blockedFor (fun entry => entry.1.scope) (fun entry => {name | entry.2 = name}) plan entry

theorem firstName (h : Assigns space plan last) (hn : plan.Nodup) : ∀ entry ∈ plan,
    FirstName space.firstSuffix (blocked space plan entry) entry.1.name entry.2 := by
  induction h with
  | nil => nofun
  | @cons space last cls name plan hname _ ih =>
    refine List.forall_mem_cons.2 ⟨?_, fun entry he => ?_⟩
    · rw [blocked, Namespace.blockedFor_first hn]
      exact Namespace.firstName_of_fresh? hname
    · rw [blocked, Namespace.blockedFor_cons (Namespace.scopes_hold space cls.scope name)
        (fun _ _ => Namespace.mem_taken_hold) he]
      exact ih (List.nodup_cons.1 hn).2 entry he

end Assigns

/-- Classes get names as long as there are numbers enough. -/
theorem thread?_assign?_knows (hk : ∀ cls ∈ classes, space.Knows cls.scope)
    (hfew : space.holdings.length + classes.length + space.firstSuffix ≤ maxSuffix + 1) :
    ∃ reports last, thread? assign? classes space = some (reports, last) := by
  induction classes generalizing space with
  | nil => exact ⟨[], space, rfl⟩
  | cons cls classes ih =>
    obtain ⟨hcls, hclasses⟩ := List.forall_mem_cons.1 hk
    rw [List.length_cons] at hfew
    obtain ⟨name, hname⟩ := hcls.exists_fresh? (by omega) cls.name
    obtain ⟨free, htake⟩ := hcls.take?_eq name
    have hfew' : (space.hold cls.scope name).holdings.length + classes.length +
        (space.hold cls.scope name).firstSuffix ≤ maxSuffix + 1 := by
      simp only [Namespace.hold, List.length_cons]
      omega
    obtain ⟨reports, last, hrest⟩ := ih (fun other ho => hcls.hold (hclasses other ho) name) hfew'
    exact ⟨cls.renamedTo name :: reports, last, by
      simp [thread?_cons, assign?, hname, htake, hrest]⟩

/-! ## Kept names -/

/-- The class holds the name that it has. -/
def holding (cls : FriendlyClass) : Holding := ⟨cls.name, cls.scope⟩

theorem keep?_eq_some {cls : FriendlyClass} {report : Report}
    (h : cls.keep? space = some (report, last)) :
    report.renames = [] ∧ last = space.hold cls.scope cls.name := by
  obtain ⟨⟨free, next⟩, htake, h⟩ := Option.bind_eq_some_iff.1 h
  obtain ⟨-, rfl⟩ := Namespace.take?_eq_some.1 htake
  cases h
  exact ⟨rfl, rfl⟩

theorem thread?_keep?_eq_some (h : thread? keep? classes space = some (reports, last)) :
    reports.flatMap (·.renames) = [] ∧ last = space.holdAll (classes.map holding) := by
  induction classes generalizing space reports with
  | nil =>
    cases h
    exact ⟨rfl, rfl⟩
  | cons cls classes ih =>
    rw [thread?_cons] at h
    obtain ⟨⟨report, next⟩, hfirst, h⟩ := Option.bind_eq_some_iff.1 h
    obtain ⟨⟨reports, last⟩, hrest, h⟩ := Option.map_eq_some_iff.1 h
    cases h
    obtain ⟨hreport, rfl⟩ := keep?_eq_some hfirst
    obtain ⟨hreports, rfl⟩ := ih hrest
    refine ⟨by rw [List.flatMap_cons, hreport, hreports, List.append_nil], ?_⟩
    rw [List.map_cons, Namespace.holdAll_cons]
    rfl

/-! ## Names that stay -/

theorem thread?_keep?_knows (hk : ∀ cls ∈ classes, space.Knows cls.scope) :
    ∃ reports last, thread? keep? classes space = some (reports, last) := by
  induction classes generalizing space with
  | nil => exact ⟨[], space, rfl⟩
  | cons cls classes ih =>
    obtain ⟨hcls, hclasses⟩ := List.forall_mem_cons.1 hk
    obtain ⟨free, htake⟩ := hcls.take?_eq cls.name
    obtain ⟨reports, last, hrest⟩ := ih fun other ho => hcls.hold (hclasses other ho) cls.name
    refine ⟨{ diagnostics := if free then [] else [cls.repeated] } :: reports, last, ?_⟩
    simp [thread?_cons, keep?, htake, hrest]

/-- Classes whose names are free and do not clash keep them. -/
theorem thread?_assign?_fixed (hk : ∀ cls ∈ classes, space.Knows cls.scope)
    (hfree : ∀ cls ∈ classes, space.Free cls.scope cls.name)
    (hpair : classes.Pairwise fun cls cls' => cls.name = cls'.name →
      space.scopes.exclusive? cls.scope cls'.scope = some true) :
    ∃ reports last, thread? assign? classes space = some (reports, last) ∧
      reports.flatMap (·.renames) = [] := by
  induction classes generalizing space with
  | nil => exact ⟨[], space, rfl, rfl⟩
  | cons cls classes ih =>
    obtain ⟨hcls, hclasses⟩ := List.forall_mem_cons.1 hk
    obtain ⟨hfirst, hothers⟩ := List.forall_mem_cons.1 hfree
    obtain ⟨hclash, hpair⟩ := List.pairwise_cons.1 hpair
    obtain ⟨free, htake⟩ := hcls.take?_eq cls.name
    obtain ⟨reports, last, hrest, hnone⟩ := ih
      (fun other ho => hcls.hold (hclasses other ho) cls.name)
      (fun other ho => Namespace.free_hold.2 ⟨hclash other ho, hothers other ho⟩) hpair
    refine ⟨{} :: reports, last, ?_, by simp [hnone]⟩
    simp [thread?_cons, assign?, hcls.fresh?_of_free hfirst, htake, hrest, renamedTo]

/-! ## All classes -/

/-- If two classes get one name, they are in exclusive scopes, or the user chose it for both. -/
def Compatible (tree : ScopeTree) (strict : Bool) (entry entry' : FriendlyClass × String) : Prop :=
  entry.2 = entry'.2 → tree.exclusive? entry.1.scope entry'.1.scope = some true ∨
    strict = false ∧ entry.1.userNamed = true ∧ entry'.1.userNamed = true

theorem Compatible.symm {tree : ScopeTree} {strict : Bool} {entry entry' : FriendlyClass × String}
    (h : Compatible tree strict entry entry') : Compatible tree strict entry' entry := by
  intro hname
  rw [tree.exclusive?_comm]
  exact (h hname.symm).imp_right fun ⟨hs, hu, hu'⟩ => ⟨hs, hu', hu⟩

/-- The names that stand in the way of a class: those that classes before it get and, if the user's
names stay, those of all classes that the user named. The class may use a name of an exclusive
scope. -/
def rivalNames (tree : ScopeTree) (strict : Bool) (classes : List FriendlyClass)
    (plan : List (FriendlyClass × String)) (cls : FriendlyClass) : Set String :=
  {name | ∃ rival ∈ plan, rival.2 = name ∧
    (strict = false ∧ rival.1.userNamed = true ∨ Before classes rival.1 cls) ∧
    tree.exclusive? rival.1.scope cls.scope ≠ some true}

/-- How all classes come by their names. -/
structure Plans (tree : ScopeTree) (strict : Bool) (classes : List FriendlyClass)
    (plan : List (FriendlyClass × String)) : Prop where
  perm : (plan.map (·.1)).Perm classes
  /-- The user's names stay unless the settings are strict. -/
  kept : strict = false → ∀ entry ∈ plan, entry.1.userNamed = true → entry.2 = entry.1.name
  /-- All other names give way where they have to. -/
  named : ∀ entry ∈ plan, (strict = false → entry.1.userNamed = false) →
    FirstName (if strict then 1 else 2) (rivalNames tree strict classes plan entry.1) entry.1.name
      entry.2
  compatible : plan.Pairwise (Compatible tree strict)

/-! ## The user's names -/

/-- The classes that the user named, each with its name. -/
def userPlan (classes : List FriendlyClass) : List (FriendlyClass × String) :=
  (classes.filter (·.userNamed)).map fun cls => (cls, cls.name)

/-- The namespace once the user's names are taken. -/
def userSpace (tree : ScopeTree) (classes : List FriendlyClass) : Namespace :=
  (Namespace.ofScopes tree 2).holdAll ((classes.filter (·.userNamed)).map holding)

variable {tree : ScopeTree} {scope : ScopeId} {name : String} {entry : FriendlyClass × String}

theorem mem_userPlan : entry ∈ userPlan classes ↔
    entry.1 ∈ classes ∧ entry.1.userNamed = true ∧ entry.2 = entry.1.name := by
  rw [userPlan, List.mem_map]
  constructor
  · rintro ⟨cls, hc, rfl⟩
    exact ⟨(List.mem_filter.1 hc).1, (List.mem_filter.1 hc).2, rfl⟩
  · rintro ⟨hc, hu, hname⟩
    exact ⟨entry.1, List.mem_filter.2 ⟨hc, hu⟩, Prod.ext rfl hname.symm⟩

theorem free_userSpace : (userSpace tree classes).Free scope name ↔
    ∀ cls ∈ classes, cls.userNamed = true → cls.name = name →
      tree.exclusive? cls.scope scope = some true := by
  rw [userSpace, Namespace.free_holdAll, List.forall_mem_map]
  simp only [List.mem_filter, and_imp, holding, Namespace.free_ofScopes, and_true]
  rfl

theorem mem_taken_userSpace : name ∈ (userSpace tree classes).taken scope ↔
    ∃ cls ∈ classes, cls.userNamed = true ∧ cls.name = name ∧
      tree.exclusive? cls.scope scope ≠ some true := by
  simp only [Namespace.taken, Set.mem_ofPred_eq, free_userSpace, not_forall, exists_prop]

theorem knows_ofScopes (hk : ∀ cls ∈ classes, ∃ path, tree.path? cls.scope = some path)
    (firstSuffix : Nat) :
    ∀ cls ∈ classes, (Namespace.ofScopes tree firstSuffix).Knows cls.scope :=
  fun cls hc => ⟨hk cls hc, nofun⟩

theorem knows_userSpace (hk : ∀ cls ∈ classes, ∃ path, tree.path? cls.scope = some path) :
    ∀ cls ∈ classes, (userSpace tree classes).Knows cls.scope := by
  refine fun cls hc => (knows_ofScopes hk 2 cls hc).holdAll fun held hm => ?_
  obtain ⟨other, ho, rfl⟩ := List.mem_map.1 hm
  exact knows_ofScopes hk 2 other (List.mem_of_mem_filter ho)

end FriendlyClass

namespace Graph

open FriendlyClass

variable {classes : List FriendlyClass} {tree : ScopeTree} {strict : Bool} {report : Report}

theorem partition_userNamed (classes : List FriendlyClass) :
    classes.partition (·.userNamed) =
      (classes.filter (·.userNamed), classes.filter fun cls => !cls.userNamed) := by
  rw [List.partition_eq_filter_filter]
  rfl

/-- The user's names stay, and no other class gets one of them where it counts. -/
private theorem compatible_userPlan {plan : List (FriendlyClass × String)} {last : Namespace}
    (hplan : Assigns (userSpace tree classes) plan last) :
    (userPlan classes ++ plan).Pairwise (Compatible tree false) := by
  refine List.pairwise_append.2 ⟨?_, ?_, ?_⟩
  · refine List.pairwise_of_forall_mem_list fun entry he entry' he' _ => ?_
    exact .inr ⟨rfl, (mem_userPlan.1 he).2.1, (mem_userPlan.1 he').2.1⟩
  · exact hplan.pairwise.imp fun hpair hname => .inl (hpair hname)
  · intro entry he entry' he' hname
    obtain ⟨hc, hu, hkept⟩ := mem_userPlan.1 he
    exact .inl (free_userSpace.1 (hplan.free entry' he') entry.1 hc hu (hkept.symm.trans hname))

private theorem plans_of_strict {plan : List (FriendlyClass × String)} {last : Namespace}
    (hn : (plan.map (·.1)).Nodup) (hplan : Assigns (.ofScopes tree 1) plan last) :
    Plans tree true (plan.map (·.1)) plan where
  perm := .refl _
  kept := nofun
  named entry he _ := by
    have hblocked : Assigns.blocked (.ofScopes tree 1) plan entry =
        rivalNames tree true (plan.map (·.1)) plan entry.1 := by
      ext name
      simp only [Assigns.blocked, Namespace.blockedFor, rivalNames, Namespace.taken_ofScopes,
        Set.mem_ofPred_eq, Set.mem_empty_iff_false, false_or, Bool.true_eq_false, false_and]
      constructor
      · rintro ⟨rival, hb, hname, hex⟩
        exact ⟨rival, hb.left_mem, hname, hb.map (·.1), hex⟩
      · rintro ⟨rival, hr, hname, hb, hex⟩
        exact ⟨rival, (Before.map_iff hn hr he).1 hb, hname, hex⟩
    exact hblocked ▸ hplan.firstName (.of_map _ hn) entry he
  compatible := hplan.pairwise.imp fun hpair hname => .inl (hpair hname)

section Lenient

variable {plan : List (FriendlyClass × String)} {last : Namespace}
  (hclasses : plan.map (·.1) = classes.filter fun cls => !cls.userNamed)
include hclasses

private theorem userNamed_of_mem {entry : FriendlyClass × String} (he : entry ∈ plan) :
    entry.1.userNamed = false := by
  have hmem := hclasses ▸ List.mem_map_of_mem (f := Prod.fst) he
  simpa using (List.mem_filter.1 hmem).2

/-- What is blocked once the user's names are taken are the names that stand in the way. -/
private theorem blocked_eq_rivalNames (hn : classes.Nodup) {entry : FriendlyClass × String}
    (he : entry ∈ plan) : Assigns.blocked (userSpace tree classes) plan entry =
      rivalNames tree false classes (userPlan classes ++ plan) entry.1 := by
  ext name
  simp only [Assigns.blocked, Namespace.blockedFor, rivalNames, Set.mem_ofPred_eq,
    mem_taken_userSpace, List.mem_append, mem_userPlan, true_and]
  constructor
  · rintro (⟨cls, hc, hu, hname, hex⟩ | ⟨rival, hb, hname, hex⟩)
    -- A name that is taken at the start is the user's; one taken later is that of an earlier class
    -- of the plan, which also comes earlier among all classes.
    · exact ⟨(cls, cls.name), .inl ⟨hc, hu, rfl⟩, hname, .inl hu, hex⟩
    · have hbefore := hclasses ▸ hb.map Prod.fst
      exact ⟨rival, .inr hb.left_mem, hname, .inr (hbefore.mono List.filter_sublist), hex⟩
  · rintro ⟨rival, ⟨hc, hu, hkept⟩ | hr, hname, hturn, hex⟩
    · exact .inl ⟨rival.1, hc, hu, hkept.symm.trans hname, hex⟩
    · have hgenerated := userNamed_of_mem hclasses hr
      have hbefore : Before classes rival.1 entry.1 := hturn.resolve_left (by simp [hgenerated])
      have hnodup : (plan.map (·.1)).Nodup := hclasses ▸ hn.filter _
      have hfilter : Before (classes.filter fun cls => !cls.userNamed) rival.1 entry.1 :=
        Before.filter_iff.2
          ⟨by simpa using hgenerated, by simpa using userNamed_of_mem hclasses he, hbefore⟩
      exact .inr ⟨rival, (Before.map_iff hnodup hr he).1 (hclasses ▸ hfilter), hname, hex⟩

private theorem plans_of_lenient (hn : classes.Nodup)
    (hplan : Assigns (userSpace tree classes) plan last) :
    Plans tree false classes (userPlan classes ++ plan) where
  perm := by
    rw [List.map_append, userPlan, List.map_map, hclasses]
    simpa [Function.comp_def] using List.filter_append_perm (·.userNamed) classes
  kept _ entry he huser := by
    rcases List.mem_append.1 he with he | he
    · exact (mem_userPlan.1 he).2.2
    · rw [userNamed_of_mem hclasses he] at huser
      cases huser
  named entry he hgenerated := by
    rcases List.mem_append.1 he with he | he
    · have huser := (mem_userPlan.1 he).2.1
      rw [hgenerated rfl] at huser
      cases huser
    · have hnodup : (plan.map (·.1)).Nodup := hclasses ▸ hn.filter _
      exact blocked_eq_rivalNames hclasses hn he ▸ hplan.firstName (.of_map _ hnodup) entry he
  compatible := compatible_userPlan hplan

end Lenient

theorem assignFriendlyNames?_eq_some (hn : classes.Nodup)
    (h : assignFriendlyNames? strict classes tree = some report) :
    ∃ plan, Plans tree strict classes plan ∧
      report.renames = plan.flatMap fun entry => (entry.1.renamedTo entry.2).renames := by
  unfold assignFriendlyNames? at h
  cases strict with
  | true =>
    rw [if_pos rfl] at h
    obtain ⟨⟨reports, last⟩, hrun, h⟩ := Option.bind_eq_some_iff.1 h
    cases h
    obtain ⟨plan, hplan, rfl, rfl⟩ := exists_assigns hrun
    exact ⟨plan, plans_of_strict hn hplan, by simp [List.flatMap_map]⟩
  | false =>
    rw [if_neg Bool.false_ne_true, partition_userNamed] at h
    obtain ⟨⟨first, space⟩, hkeep, h⟩ := Option.bind_eq_some_iff.1 h
    obtain ⟨⟨second, last⟩, hrun, h⟩ := Option.bind_eq_some_iff.1 h
    cases h
    obtain ⟨hfirst, rfl⟩ := thread?_keep?_eq_some hkeep
    obtain ⟨plan, hplan, hothers, rfl⟩ := exists_assigns hrun
    refine ⟨_, plans_of_lenient hothers hn hplan, ?_⟩
    simp [hfirst, userPlan, List.flatMap_append, List.flatMap_map, renamedTo]

/-- If the user's names stay, the other classes find them taken. -/
private theorem lenient_eq (hk : ∀ cls ∈ classes, ∃ path, tree.path? cls.scope = some path) :
    ∃ first : List Report, first.flatMap (·.renames) = [] ∧
      assignFriendlyNames? false classes tree = (thread? assign?
        (classes.filter fun cls => !cls.userNamed) (userSpace tree classes)).map
          fun run => .concat (first ++ run.1) := by
  have hkept : ∀ cls ∈ classes.filter (·.userNamed),
      (Namespace.ofScopes tree 2).Knows cls.scope :=
    fun cls hc => knows_ofScopes hk 2 cls (List.mem_of_mem_filter hc)
  obtain ⟨first, space, hkeep⟩ := thread?_keep?_knows hkept
  obtain ⟨hfirst, rfl⟩ := thread?_keep?_eq_some hkeep
  refine ⟨first, hfirst, ?_⟩
  rw [assignFriendlyNames?, if_neg Bool.false_ne_true, partition_userNamed]
  simp only [hkeep, Option.bind_eq_bind, Option.bind_some, Option.map_eq_bind]
  rfl

/-- The classes get names as long as there are numbers enough. -/
theorem exists_assignFriendlyNames? (strict : Bool)
    (hk : ∀ cls ∈ classes, ∃ path, tree.path? cls.scope = some path)
    (hfew : classes.length < maxSuffix) :
    ∃ report, assignFriendlyNames? strict classes tree = some report := by
  cases strict with
  | true =>
    obtain ⟨reports, last, hrun⟩ := thread?_assign?_knows (knows_ofScopes hk 1)
      (by simp only [Namespace.ofScopes, List.length_nil]; omega)
    exact ⟨.concat reports, by simp [assignFriendlyNames?, hrun]⟩
  | false =>
    obtain ⟨first, -, heq⟩ := lenient_eq hk
    -- The user's classes hold one name each, so names held and classes to come are as many as all
    -- classes.
    have hsplit := (List.filter_append_perm (·.userNamed) classes).length_eq
    rw [List.length_append] at hsplit
    have hothers : ∀ cls ∈ classes.filter fun cls => !cls.userNamed,
        (userSpace tree classes).Knows cls.scope :=
      fun cls hc => knows_userSpace hk cls (List.mem_of_mem_filter hc)
    obtain ⟨second, last, hrun⟩ := thread?_assign?_knows hothers (by
      simp only [userSpace, Namespace.holdAll, Namespace.ofScopes, List.append_nil,
        List.length_reverse, List.length_map]
      omega)
    exact ⟨.concat (first ++ second), by rw [heq, hrun]; rfl⟩

section Fixed

variable (hk : ∀ cls ∈ classes, ∃ path, tree.path? cls.scope = some path) (hnodup : classes.Nodup)
  (hall : ∀ cls ∈ classes, ∀ cls' ∈ classes, cls ≠ cls' →
    Compatible tree strict (cls, cls.name) (cls', cls'.name))
include hk hnodup hall

private theorem fixed_of_strict (hstrict : strict = true) : ∃ report,
    assignFriendlyNames? strict classes tree = some report ∧ report.renames = [] := by
  subst hstrict
  have hpair := hnodup.imp_of_mem fun hc hc' hne hname =>
    (hall _ hc _ hc' hne hname).resolve_right fun h => Bool.false_ne_true h.1.symm
  obtain ⟨reports, last, hrun, hnone⟩ := thread?_assign?_fixed (knows_ofScopes hk 1)
    (fun cls _ => Namespace.free_ofScopes tree 1 cls.scope cls.name) hpair
  exact ⟨.concat reports, by simp [assignFriendlyNames?, hrun], by simpa using hnone⟩

private theorem fixed_of_lenient (hstrict : strict = false) : ∃ report,
    assignFriendlyNames? strict classes tree = some report ∧ report.renames = [] := by
  subst hstrict
  have hothers : ∀ cls ∈ classes.filter fun cls => !cls.userNamed,
      cls ∈ classes ∧ cls.userNamed = false := by simp
  have hexclusive {cls cls' : FriendlyClass} (hc : cls ∈ classes)
      (hc' : cls' ∈ classes.filter fun cls => !cls.userNamed) (hne : cls ≠ cls')
      (hname : cls.name = cls'.name) : tree.exclusive? cls.scope cls'.scope = some true := by
    obtain ⟨hmem, hgenerated⟩ := hothers cls' hc'
    refine (hall cls hc cls' hmem hne hname).resolve_right fun h => ?_
    rw [hgenerated] at h
    exact Bool.false_ne_true h.2.2
  obtain ⟨first, hfirst, heq⟩ := lenient_eq hk
  have hfree : ∀ cls ∈ classes.filter fun cls => !cls.userNamed,
      (userSpace tree classes).Free cls.scope cls.name := by
    refine fun cls hc => free_userSpace.2 fun cls' hc' hu hname => hexclusive hc' hc ?_ hname
    rintro rfl
    rw [(hothers _ hc).2] at hu
    cases hu
  obtain ⟨second, last, hrun, hsecond⟩ := thread?_assign?_fixed
    (fun cls hc => knows_userSpace hk cls (hothers cls hc).1)
    hfree ((hnodup.filter _).imp_of_mem fun hc hc' hne hname =>
      hexclusive (hothers _ hc).1 hc' hne hname)
  exact ⟨.concat (first ++ second), by rw [heq, hrun]; rfl, by simp [hfirst, hsecond]⟩

/-- Names that are compatible stay. -/
theorem assignFriendlyNames?_fixed : ∃ report,
    assignFriendlyNames? strict classes tree = some report ∧ report.renames = [] := by
  by_cases hstrict : strict = true
  · exact fixed_of_strict hk hnodup hall hstrict
  · exact fixed_of_lenient hk hnodup hall (by simpa using hstrict)

end Fixed

end Graph

end GraphNaming
