import GraphNaming.Proofs.Alternatives
import GraphNaming.Proofs.Namespace
import Mathlib.Data.List.Induction

/-!
# Scopes as they were opened

What was asked of a namespace tells which scopes there are, which lie in which, and which are
alternatives. The paths that a tree of scopes keeps say the same.

* `NameEvent`, `NameLog`: the calls, each with what it gave.
* `NameLog.HandedOut`, `NameLog.Within`, `NameLog.Apart`: what the calls tell of scopes.
* `NameLog.groups`: how many groups of alternatives they opened.
* `ScopeTree.Opens`: what opening scopes leaves of the others.
* `ScopeTree.Records`: the tree agrees with the calls; `Records.openScopes`: it still does after
  one more.
* `Records.exclusive?_eq`: two scopes are exclusive just when one call set them apart.
-/

namespace GraphNaming

/-- A call to a namespace, and what it gave. -/
inductive NameEvent where
  /-- One call opened the scopes in `parent`. -/
  | opened (parent : ScopeId) (scopes : List ScopeId) (alternatives : Bool)
  /-- The name was taken, and had been free or not. -/
  | took (scope : ScopeId) (name : String) (free : Bool)
  deriving DecidableEq

/-- The calls to a namespace, the latest first. -/
abbrev NameLog := List NameEvent

namespace NameLog

variable {log : NameLog} {parent scope inner outer a b : ScopeId} {scopes : List ScopeId}
  {alternatives : Bool}

/-! ## What calls tell of scopes -/

/-- A call opened `inner` in `outer`. -/
def OpenedIn (log : NameLog) (inner outer : ScopeId) : Prop :=
  ∃ scopes alternatives, .opened outer scopes alternatives ∈ log ∧ inner ∈ scopes

/-- The scope is the one that every namespace starts with, or a call gave it. -/
def HandedOut (log : NameLog) (scope : ScopeId) : Prop :=
  scope = .root ∨ ∃ parent, log.OpenedIn scope parent

/-- The scope `inner` is `outer` or one of its descendants. -/
def Within (log : NameLog) (inner outer : ScopeId) : Prop :=
  Relation.ReflTransGen log.OpenedIn inner outer

/-- One call opened both as alternatives. -/
def Together (log : NameLog) (a b : ScopeId) : Prop :=
  ∃ parent scopes, .opened parent scopes true ∈ log ∧ a ∈ scopes ∧ b ∈ scopes

/-- One call opened two different alternatives, and `a` lies in one of them and `b` in the
other. -/
def Apart (log : NameLog) (a b : ScopeId) : Prop :=
  ∃ u v, u ≠ v ∧ log.Together u v ∧ log.Within a u ∧ log.Within b v

/-- How many calls opened alternatives. -/
def groups (log : NameLog) : Nat :=
  log.countP fun
    | .opened _ _ alternatives => alternatives
    | .took _ _ _ => false

@[simp] theorem groups_took {name : String} {free : Bool} :
    groups (.took scope name free :: log) = log.groups := List.countP_cons_of_neg nofun

theorem Together.symm (h : log.Together a b) : log.Together b a := by
  obtain ⟨parent, scopes, hmem, ha, hb⟩ := h
  exact ⟨parent, scopes, hmem, hb, ha⟩

theorem Apart.symm (h : log.Apart a b) : log.Apart b a := by
  obtain ⟨u, v, hne, hgroup, ha, hb⟩ := h
  exact ⟨v, u, hne.symm, hgroup.symm, hb, ha⟩

/-- What lies in scopes that are apart is apart. -/
theorem Apart.mono {a' b' : ScopeId} (h : log.Apart a b) (ha : log.Within a' a)
    (hb : log.Within b' b) : log.Apart a' b' := by
  obtain ⟨u, v, hne, hgroup, hau, hbv⟩ := h
  exact ⟨u, v, hne, hgroup, ha.trans hau, hb.trans hbv⟩

theorem openedIn_cons : OpenedIn (.opened parent scopes alternatives :: log) inner outer ↔
    (outer = parent ∧ inner ∈ scopes) ∨ log.OpenedIn inner outer := by
  simp only [OpenedIn, List.mem_cons, NameEvent.opened.injEq, or_and_right, exists_or]
  refine or_congr_left ⟨?_, ?_⟩
  · rintro ⟨_, _, ⟨rfl, rfl, rfl⟩, hmem⟩
    exact ⟨rfl, hmem⟩
  · rintro ⟨rfl, hmem⟩
    exact ⟨scopes, alternatives, ⟨rfl, rfl, rfl⟩, hmem⟩

theorem together_cons : Together (.opened parent scopes alternatives :: log) a b ↔
    (alternatives = true ∧ a ∈ scopes ∧ b ∈ scopes) ∨ log.Together a b := by
  simp only [Together, List.mem_cons, NameEvent.opened.injEq, or_and_right, exists_or]
  refine or_congr_left ⟨?_, ?_⟩
  · rintro ⟨_, _, ⟨rfl, rfl, rfl⟩, hmem⟩
    exact ⟨rfl, hmem⟩
  · rintro ⟨rfl, hmem⟩
    exact ⟨parent, scopes, ⟨rfl, rfl, rfl⟩, hmem⟩

@[simp] theorem openedIn_took {name : String} {free : Bool} :
    OpenedIn (.took scope name free :: log) inner outer ↔ log.OpenedIn inner outer := by
  simp [OpenedIn]

@[simp] theorem together_took {name : String} {free : Bool} :
    Together (.took scope name free :: log) a b ↔ log.Together a b := by
  simp [Together]

/-- Two alternatives that one call opened were opened in one scope. -/
theorem Together.openedIn (h : log.Together a b) :
    ∃ parent, log.OpenedIn a parent ∧ log.OpenedIn b parent := by
  obtain ⟨parent, scopes, hmem, ha, hb⟩ := h
  exact ⟨parent, ⟨scopes, true, hmem, ha⟩, ⟨scopes, true, hmem, hb⟩⟩

end NameLog

namespace ScopeTree

variable {tree after : ScopeTree} {parent scope : ScopeId} {scopes : List ScopeId}
  {alternatives : Bool}

/-! ## Opening scopes -/

/-- `after` is the tree once `scopes` are opened in `parent`, as alternatives or not. -/
structure Opens (tree : ScopeTree) (parent : ScopeId) (scopes : List ScopeId)
    (alternatives : Bool) (after : ScopeTree) : Prop where
  /-- The new paths go one step on from that of `parent`, in a group that was not there. -/
  paths : ∃ path, tree.path? parent = some path ∧ ∀ scope ∈ scopes,
    after.path? scope = some (path ++ [⟨scope, if alternatives then some tree.groups else none⟩])
  fresh : ∀ scope ∈ scopes, tree.path? scope = none
  others : ∀ scope, scope ∉ scopes → after.path? scope = tree.path? scope
  groups : after.groups = if alternatives then tree.groups + 1 else tree.groups

/-- No path to an older scope changes. -/
theorem Opens.keeps (h : tree.Opens parent scopes alternatives after) {path : ScopePath}
    (hpath : tree.path? scope = some path) : after.path? scope = some path := by
  rw [h.others scope fun hmem => ?_, hpath]
  rw [h.fresh scope hmem] at hpath
  cases hpath

/-- A path to an older scope was there before. -/
theorem Opens.path_old (h : tree.Opens parent scopes alternatives after) (hmem : scope ∉ scopes)
    {path : ScopePath} (hpath : after.path? scope = some path) : tree.path? scope = some path :=
  (h.others scope hmem).symm.trans hpath

/-- The new scopes are in a new group, or in none. -/
theorem Opens.group_eq (h : tree.Opens parent scopes alternatives after) (hmem : scope ∈ scopes)
    {front : ScopePath} {group : Option Nat}
    (hpath : after.path? scope = some (front ++ [⟨scope, group⟩])) :
    group = if alternatives then some tree.groups else none := by
  obtain ⟨path, -, hpaths⟩ := h.paths
  have heq := (hpaths scope hmem).symm.trans hpath
  simp only [Option.some.injEq, List.append_singleton_inj, ScopeStep.mk.injEq, true_and] at heq
  exact heq.2.symm

/-- What is opened in a group of its own, or in none, is opened so. -/
theorem Grown.opens {path : ScopePath} {count groups : Nat}
    (h : Grown { tree with groups } path (if alternatives then some tree.groups else none) count
      after)
    (hp : tree.path? parent = some path)
    (hgroups : groups = if alternatives then tree.groups + 1 else tree.groups) :
    tree.Opens parent ((List.range' tree.entries.size count).map ScopeId.mk) alternatives
      after := by
  have hnew (id : ScopeId) : id ∈ (List.range' tree.entries.size count).map ScopeId.mk ↔
      tree.entries.size ≤ id.number ∧ id.number < tree.entries.size + count := by
    obtain ⟨number⟩ := id
    simp [List.mem_range'_1]
  refine ⟨⟨path, hp, fun id hid => ?_⟩, fun id hid => ?_, fun id hid => ?_, h.groups.trans hgroups⟩
  · obtain ⟨hle, hlt⟩ := (hnew id).1 hid
    exact h.new hle hlt
  · exact path?_eq_none_iff.2 ((hnew id).1 hid).1
  · rw [hnew, not_and_or, Nat.not_le, Nat.not_lt] at hid
    rcases hid with hlt | hge
    · rw [h.old hlt, path?_groups]
    · rw [path?_eq_none_iff.2 (show tree.entries.size ≤ id.number by omega), path?_eq_none_iff,
        h.size]
      exact hge

/-- A scope can be opened in every one that there is. -/
theorem exists_addChild? {path : ScopePath} (hp : tree.path? parent = some path) :
    ∃ after, tree.addChild? parent = some (⟨tree.entries.size⟩, after) ∧
      tree.Opens parent [⟨tree.entries.size⟩] false after := by
  obtain ⟨after, hafter, hgrown⟩ := exists_add? hp none
  have hopens : tree.Opens parent ((List.range' tree.entries.size 1).map ScopeId.mk) false after :=
    Grown.opens hgrown hp rfl
  exact ⟨after, hafter, hopens⟩

theorem exists_addAlternatives? {path : ScopePath} (hp : tree.path? parent = some path)
    (count : Nat) :
    ∃ after, tree.addAlternatives? parent count =
        some ((List.range' tree.entries.size count).map ScopeId.mk, after) ∧
      tree.Opens parent ((List.range' tree.entries.size count).map ScopeId.mk) true after := by
  have hp' : ScopeTree.path? { tree with groups := tree.groups + 1 } parent = some path :=
    (path?_groups tree _ parent).trans hp
  obtain ⟨after, hafter, hgrown⟩ := exists_addMany? hp' (some tree.groups) count
  exact ⟨after, hafter, Grown.opens hgrown hp rfl⟩

/-! ## The tree and the calls -/

/-- The tree holds what the calls tell of scopes. -/
structure Records (tree : ScopeTree) (log : NameLog) : Prop where
  root : tree.path? .root = some []
  /-- A path goes one step on from that of the scope around. -/
  opened : ∀ {scope parent}, log.OpenedIn scope parent → ∃ front group,
    tree.path? parent = some front ∧ tree.path? scope = some (front ++ [⟨scope, group⟩])
  /-- There are no other paths. -/
  path : ∀ {scope path}, tree.path? scope = some path → (scope = .root ∧ path = []) ∨
    ∃ parent front group, log.OpenedIn scope parent ∧ tree.path? parent = some front ∧
      path = front ++ [⟨scope, group⟩]
  group_lt : ∀ {scope front group}, tree.path? scope = some (front ++ [⟨scope, some group⟩]) →
    group < tree.groups
  /-- A group is made up of what one call opened. -/
  together : ∀ {a b frontA frontB groupA groupB},
    tree.path? a = some (frontA ++ [⟨a, groupA⟩]) → tree.path? b = some (frontB ++ [⟨b, groupB⟩]) →
      ((∃ group, groupA = some group ∧ groupB = some group) ↔ log.Together a b)

namespace Records

variable {log : NameLog}

private theorem path?_root {path : ScopePath} (h : ScopeTree.root.path? scope = some path) :
    scope = .root ∧ path = [] := by
  obtain rfl : scope = .root := congrArg ScopeId.mk (Nat.lt_one_iff.1 (path?_lt h))
  exact ⟨rfl, (Option.some.inj h).symm⟩

theorem start : ScopeTree.root.Records [] where
  root := rfl
  opened := by simp [NameLog.OpenedIn]
  path h := .inl (path?_root h)
  group_lt h := by simpa using (path?_root h).2
  together h := by simpa using (path?_root h).2

theorem took (h : tree.Records log) (scope : ScopeId) (name : String) (free : Bool) :
    tree.Records (.took scope name free :: log) where
  root := h.root
  opened ho := h.opened (NameLog.openedIn_took.1 ho)
  path hp := by simpa using h.path hp
  group_lt := h.group_lt
  together ha hb := (h.together ha hb).trans NameLog.together_took.symm

/-- No older scope is in the group of a new one. -/
private theorem group_ne (h : tree.Records log) (ho : tree.Opens parent scopes alternatives after)
    {a b : ScopeId} {frontA frontB : ScopePath} {group : Nat} (hmemA : a ∈ scopes)
    (hmemB : b ∉ scopes) (ha : after.path? a = some (frontA ++ [⟨a, some group⟩])) :
    after.path? b ≠ some (frontB ++ [⟨b, some group⟩]) := by
  intro hb
  have hlt := h.group_lt (ho.path_old hmemB hb)
  have hgroup := ho.group_eq hmemA ha
  cases alternatives with
  | false => cases hgroup
  | true =>
    cases hgroup
    exact Nat.lt_irrefl _ hlt

/-- No earlier call gave one of the new scopes. -/
private theorem not_together (h : tree.Records log)
    (ho : tree.Opens parent scopes alternatives after) {a b : ScopeId} (hmem : a ∈ scopes) :
    ¬ log.Together a b := by
  intro ht
  obtain ⟨_, hopened, -⟩ := ht.openedIn
  obtain ⟨_, _, -, ha⟩ := h.opened hopened
  rw [ho.fresh a hmem] at ha
  cases ha

private theorem together_openScopes (h : tree.Records log)
    (ho : tree.Opens parent scopes alternatives after) {a b : ScopeId} {frontA frontB : ScopePath}
    {groupA groupB : Option Nat} (ha : after.path? a = some (frontA ++ [⟨a, groupA⟩]))
    (hb : after.path? b = some (frontB ++ [⟨b, groupB⟩])) :
    (∃ group, groupA = some group ∧ groupB = some group) ↔
      NameLog.Together (.opened parent scopes alternatives :: log) a b := by
  rw [NameLog.together_cons]
  by_cases hmemA : a ∈ scopes <;> by_cases hmemB : b ∈ scopes
  · -- Both are new, and in the new group if there is one.
    obtain rfl := ho.group_eq hmemA ha
    obtain rfl := ho.group_eq hmemB hb
    have hnot : ¬ log.Together a b := h.not_together ho hmemA
    cases alternatives <;> simp [hmemA, hmemB, hnot]
  · have hnot : ¬ log.Together a b := h.not_together ho hmemA
    simp only [hmemB, and_false, hnot, or_false, iff_false]
    rintro ⟨group, rfl, rfl⟩
    exact h.group_ne ho hmemA hmemB ha hb
  · have hnot : ¬ log.Together a b := fun ht => h.not_together ho hmemB ht.symm
    simp only [hmemA, false_and, and_false, hnot, or_false, iff_false]
    rintro ⟨group, rfl, rfl⟩
    exact h.group_ne ho hmemB hmemA hb ha
  · rw [h.together (ho.path_old hmemA ha) (ho.path_old hmemB hb)]
    simp [hmemA]

/-- A tree that agrees with the calls still does once more scopes are opened. -/
theorem openScopes (h : tree.Records log) (ho : tree.Opens parent scopes alternatives after) :
    after.Records (.opened parent scopes alternatives :: log) := by
  obtain ⟨path, hparent, hpaths⟩ := ho.paths
  constructor
  case root => exact ho.keeps h.root
  case opened =>
    intro scope outer hscope
    rcases NameLog.openedIn_cons.1 hscope with ⟨rfl, hmem⟩ | hscope
    · exact ⟨path, _, ho.keeps hparent, hpaths scope hmem⟩
    · obtain ⟨front, group, hfront, hs⟩ := h.opened hscope
      exact ⟨front, group, ho.keeps hfront, ho.keeps hs⟩
  -- Every path is to a new scope, one step on from its parent, or was there before.
  case path =>
    intro scope found hs
    by_cases hmem : scope ∈ scopes
    · rw [hpaths scope hmem] at hs
      cases hs
      exact .inr ⟨parent, path, _, NameLog.openedIn_cons.2 (.inl ⟨rfl, hmem⟩),
        ho.keeps hparent, rfl⟩
    · rcases h.path (ho.path_old hmem hs) with hroot | ⟨outer, front, group, hopened, hfront, rfl⟩
      · exact .inl hroot
      · exact .inr ⟨outer, front, group, NameLog.openedIn_cons.2 (.inr hopened),
          ho.keeps hfront, rfl⟩
  case group_lt =>
    intro scope front group hs
    rw [ho.groups]
    by_cases hmem : scope ∈ scopes
    · have hgroup := ho.group_eq hmem hs
      cases alternatives with
      | false => cases hgroup
      | true =>
        cases hgroup
        exact Nat.lt_succ_self _
    · have hlt := h.group_lt (ho.path_old hmem hs)
      split <;> omega
  case together => exact h.together_openScopes ho

/-! ## What the paths say -/

section

variable (h : tree.Records log)
include h

theorem handedOut_iff : log.HandedOut scope ↔ ∃ path, tree.path? scope = some path := by
  constructor
  · rintro (rfl | ⟨parent, ho⟩)
    · exact ⟨[], h.root⟩
    · obtain ⟨front, group, -, hpath⟩ := h.opened ho
      exact ⟨_, hpath⟩
  · rintro ⟨path, hpath⟩
    rcases h.path hpath with ⟨rfl, -⟩ | ⟨parent, _, _, ho, -⟩
    · exact .inl rfl
    · exact .inr ⟨parent, ho⟩

/-- The path to a scope goes by those around it. -/
theorem path_of_within {inner outer : ScopeId} {path : ScopePath}
    (hpath : tree.path? inner = some path) (hw : log.Within inner outer) :
    ∃ front, tree.path? outer = some front ∧ front <+: path := by
  induction hw with
  | refl => exact ⟨path, hpath, List.prefix_rfl⟩
  | tail _ ho ih =>
    obtain ⟨middle, hmiddle, hprefix⟩ := ih
    obtain ⟨front, group, hfront, hpath'⟩ := h.opened ho
    rw [hmiddle] at hpath'
    cases hpath'
    exact ⟨front, hfront, (List.prefix_append _ _).trans hprefix⟩

/-- Every step on the path to a scope leads to one around it. -/
theorem within_of_step {inner : ScopeId} {path front : ScopePath} {step : ScopeStep}
    (hpath : tree.path? inner = some path) (hstep : front ++ [step] <+: path) :
    log.Within inner step.scope ∧ tree.path? step.scope = some (front ++ [step]) := by
  induction path using List.reverseRecOn generalizing inner with
  | nil => simp at hstep
  | append_singleton path last ih =>
    rcases h.path hpath with ⟨-, hnil⟩ | ⟨parent, middle, group, ho, hmiddle, heq⟩
    · simp at hnil
    · obtain ⟨rfl, rfl⟩ := List.append_singleton_inj.1 heq
      rcases List.prefix_concat_iff.1 hstep with heq | hstep
      · obtain ⟨rfl, rfl⟩ := List.append_singleton_inj.1 heq
        exact ⟨.refl, hpath⟩
      · obtain ⟨hw, hfound⟩ := ih hmiddle hstep
        exact ⟨.head ho hw, hfound⟩

/-- Two paths are exclusive just when one call set their scopes apart. -/
theorem exclusive_iff {a b : ScopeId} {pathA pathB : ScopePath}
    (ha : tree.path? a = some pathA) (hb : tree.path? b = some pathB) :
    ScopePath.exclusive pathA pathB = true ↔ log.Apart a b := by
  -- A step names the scope that it leads to, and a scope has one path, so its last step is told by
  -- the scope.
  have hinj : ∀ x ∈ pathA, ∀ y ∈ pathB, x.scope = y.scope → x = y := by
    intro x hx y hy hxy
    obtain ⟨front, rest, rfl⟩ := List.append_of_mem hx
    obtain ⟨front', rest', rfl⟩ := List.append_of_mem hy
    obtain ⟨-, hfound⟩ := h.within_of_step ha (List.prefix_append_right_inj _ |>.2 ⟨rest, rfl⟩)
    obtain ⟨-, hfound'⟩ := h.within_of_step hb (List.prefix_append_right_inj _ |>.2 ⟨rest', rfl⟩)
    rw [hxy, hfound'] at hfound
    exact (List.append_singleton_inj.1 (Option.some.inj hfound)).2.symm
  have hmap := @ScopePath.exclusive_map ScopeStep id pathA pathB hinj
  simp only [List.map_id, id_eq] at hmap
  rw [hmap]
  constructor
  · rintro ⟨common, x, y, hx, hy, hne, hsome, hgroup⟩
    obtain ⟨hwa, hfa⟩ := h.within_of_step ha hx
    obtain ⟨hwb, hfb⟩ := h.within_of_step hb hy
    obtain ⟨group, hxg⟩ := Option.isSome_iff_exists.1 hsome
    refine ⟨x.scope, y.scope, fun heq => hne ?_, (h.together hfa hfb).1 ⟨group, hxg, ?_⟩, hwa, hwb⟩
    · rw [heq, hfb] at hfa
      exact (List.append_singleton_inj.1 (Option.some.inj hfa)).2.symm
    · exact hgroup.symm.trans hxg
  -- What one call opened has a path in common but for the last step, and the paths below go on from
  -- there.
  · rintro ⟨u, v, hne, htogether, hwa, hwb⟩
    obtain ⟨parent, hu, hv⟩ := htogether.openedIn
    obtain ⟨common, groupU, hcommon, hpathU⟩ := h.opened hu
    obtain ⟨common', groupV, hcommon', hpathV⟩ := h.opened hv
    obtain rfl : common = common' := Option.some.inj (hcommon.symm.trans hcommon')
    obtain ⟨group, rfl, rfl⟩ := (h.together hpathU hpathV).2 htogether
    obtain ⟨frontU, hfrontU, hprefixU⟩ := h.path_of_within ha hwa
    obtain ⟨frontV, hfrontV, hprefixV⟩ := h.path_of_within hb hwb
    obtain rfl := Option.some.inj (hpathU.symm.trans hfrontU)
    obtain rfl := Option.some.inj (hpathV.symm.trans hfrontV)
    exact ⟨common, ⟨u, some group⟩, ⟨v, some group⟩, hprefixU, hprefixV,
      fun heq => hne (congrArg ScopeStep.scope heq), rfl, rfl⟩

theorem exclusive?_eq {a b : ScopeId} (ha : log.HandedOut a) (hb : log.HandedOut b) :
    ∃ answer, tree.exclusive? a b = some answer ∧ (answer = true ↔ log.Apart a b) := by
  obtain ⟨pathA, hpathA⟩ := h.handedOut_iff.1 ha
  obtain ⟨pathB, hpathB⟩ := h.handedOut_iff.1 hb
  exact ⟨_, ScopeTree.exclusive?_eq hpathA hpathB, h.exclusive_iff hpathA hpathB⟩

end

end Records

end ScopeTree

end GraphNaming
