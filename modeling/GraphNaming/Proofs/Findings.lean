import GraphNaming.Proofs.FriendlySpec
import GraphNaming.Proofs.Totality

/-!
# What a pass has to tell

The findings of a pass are a function of the walk and the links on entry, and of the names after it:
they are listed here in full and in order.

* `Graph.findings`: what is found, binding by binding and class by class.
* `WellFormed.diagnostics_resolveFriendlyNames?`: the report of a pass lists that and no more.
* `Reachable.diagnostics_exact`: the same for every graph with a history, and what it implies: no
  clash that a pass leaves in place and no user's name that it replaces goes untold.
-/

namespace GraphNaming

namespace Report

@[simp] theorem diagnostics_append (first second : Report) :
    (first ++ second).diagnostics = first.diagnostics ++ second.diagnostics := rfl

@[simp] theorem diagnostics_concat (reports : List Report) :
    (concat reports).diagnostics = reports.flatMap (·.diagnostics) := by
  induction reports with
  | nil => rfl
  | cons report reports ih =>
    rw [List.flatMap_cons, ← ih]
    rfl

end Report

/-! ## Classes -/

namespace FriendlyClass

variable {α : Type} {items : List α} {classOf : α → FriendlyClass} {space last : Namespace}
  {reports : List Report}

/-- A class that keeps its name is told of if the name is taken. -/
theorem diagnostics_keep? {cls : FriendlyClass} {report : Report} {taken : Bool}
    (htaken : taken = true ↔ cls.name ∈ space.taken cls.scope)
    (h : cls.keep? space = some (report, last)) :
    report.diagnostics = if taken then [cls.repeated] else [] := by
  obtain ⟨⟨free, next⟩, htake, h⟩ := Option.bind_eq_some_iff.1 h
  obtain ⟨hfree, -⟩ := Namespace.take?_eq_some.1 htake
  cases h
  have hiff := Namespace.isFree?_iff hfree
  rw [← Namespace.not_mem_taken, ← htaken] at hiff
  have hnot : free = !taken := by
    rw [Bool.eq_iff_iff, hiff]
    simp
  rw [hnot]
  cases taken <;> rfl

/-- What is blocked for the class of an item if those of all items keep their names in turn. -/
def blockedByKept (space : Namespace) (classOf : α → FriendlyClass) (items : List α) (item : α) :
    Set String :=
  space.blockedFor (fun item => (classOf item).scope) (fun item => {name |
    (classOf item).name = name}) items item

/-- Once the first class holds its name, the turns of the others go on from there. -/
theorem blockedByKept_cons {item other : α} (ho : other ∈ items) :
    blockedByKept space classOf (item :: items) other =
      blockedByKept (space.hold (classOf item).scope (classOf item).name) classOf items other :=
  Namespace.blockedFor_cons (Namespace.scopes_hold _ _ _) (fun _ _ => Namespace.mem_taken_hold) ho

/-- If nothing is taken from the start, what is blocked are the names of the items before it. -/
theorem mem_blockedByKept_ofScopes {tree : ScopeTree} {firstSuffix : Nat} {item : α}
    {name : String} : name ∈ blockedByKept (.ofScopes tree firstSuffix) classOf items item ↔
      ∃ rival, Before items rival item ∧ (classOf rival).name = name ∧
        tree.exclusive? (classOf rival).scope (classOf item).scope ≠ some true := by
  simp only [blockedByKept, Namespace.blockedFor, Namespace.taken_ofScopes, Set.mem_ofPred_eq,
    Set.mem_empty_iff_false, false_or]
  rfl

/-- Of the classes that keep their names one after the other, those are told of that find theirs
taken, from the start or by one before them. -/
theorem diagnostics_thread?_keep? (hn : items.Nodup) {clashes : α → Bool}
    (hclashes : ∀ item ∈ items, clashes item = true ↔
      (classOf item).name ∈ blockedByKept space classOf items item)
    (h : thread? keep? (items.map classOf) space = some (reports, last)) :
    reports.flatMap (·.diagnostics) =
      (items.filter clashes).map fun item => (classOf item).repeated := by
  induction items generalizing space reports with
  | nil =>
    cases h
    rfl
  | cons item items ih =>
    rw [List.map_cons, thread?_cons] at h
    obtain ⟨⟨report, next⟩, hfirst, h⟩ := Option.bind_eq_some_iff.1 h
    obtain ⟨⟨reports, last⟩, hrest, h⟩ := Option.map_eq_some_iff.1 h
    cases h
    obtain ⟨hitem, hitems⟩ := List.forall_mem_cons.1 hclashes
    rw [blockedByKept, Namespace.blockedFor_first hn] at hitem
    have hreport := diagnostics_keep? hitem hfirst
    obtain ⟨-, rfl⟩ := keep?_eq_some hfirst
    have hreports := ih (List.nodup_cons.1 hn).2
      (fun other ho => (hitems other ho).trans (by rw [blockedByKept_cons ho])) hrest
    rw [List.flatMap_cons, hreport, hreports, List.filter_cons]
    by_cases hclash : clashes item = true <;> simp [hclash]

theorem diagnostics_renamedTo (cls : FriendlyClass) (name : String) :
    (cls.renamedTo name).diagnostics =
      if cls.userNamed = true ∧ name ≠ cls.name then [cls.replaced name] else [] := by
  unfold renamedTo
  by_cases hname : name = cls.name <;> cases cls.userNamed <;> simp [hname]

/-- Of the classes that get names, those are told of that lose one of the user's choice. -/
theorem flatMap_diagnostics_renamedTo (items : List α) (name : α → String) :
    items.flatMap (fun item => ((classOf item).renamedTo (name item)).diagnostics) =
      ((items.filter fun item => (classOf item).userNamed).filter fun item =>
        name item ≠ (classOf item).name).map fun item => (classOf item).replaced (name item) := by
  induction items with
  | nil => rfl
  | cons item items ih =>
    rw [List.flatMap_cons, ih, diagnostics_renamedTo, List.filter_cons]
    by_cases hu : (classOf item).userNamed = true <;>
      by_cases hname : name item = (classOf item).name <;> simp [hu, hname]

section Assigned

variable {tree : ScopeTree} {report : Report}

/-- If the user's names stay, those are told of that an earlier one clashes with. -/
theorem diagnostics_of_lenient (hn : items.Nodup) {clashes : α → Bool}
    (hclashes : ∀ item ∈ items.filter fun item => (classOf item).userNamed,
      clashes item = true ↔
        ∃ rival, Before (items.filter fun item => (classOf item).userNamed) rival item ∧
          (classOf rival).name = (classOf item).name ∧
          tree.exclusive? (classOf rival).scope (classOf item).scope ≠ some true)
    (h : Graph.assignFriendlyNames? false (items.map classOf) tree = some report) :
    report.diagnostics = ((items.filter fun item => (classOf item).userNamed).filter clashes).map
      fun item => (classOf item).repeated := by
  unfold Graph.assignFriendlyNames? at h
  rw [if_neg Bool.false_ne_true, Graph.partition_userNamed] at h
  obtain ⟨⟨first, space⟩, hkeep, h⟩ := Option.bind_eq_some_iff.1 h
  obtain ⟨⟨second, last⟩, hrun, h⟩ := Option.bind_eq_some_iff.1 h
  cases h
  have hclasses : (items.map classOf).filter (·.userNamed) =
      (items.filter fun item => (classOf item).userNamed).map classOf := List.filter_map
  rw [hclasses] at hkeep
  have hfirst := diagnostics_thread?_keep? (hn.filter _)
    (fun item hi => (hclashes item hi).trans mem_blockedByKept_ofScopes.symm) hkeep
  obtain ⟨plan, -, hplan, rfl⟩ := exists_assigns hrun
  have hsecond :
      (plan.map fun entry => entry.1.renamedTo entry.2).flatMap (·.diagnostics) = [] := by
    rw [List.flatMap_map, List.flatMap_eq_nil_iff]
    intro entry he
    have hentry := hplan ▸ List.mem_map_of_mem (f := Prod.fst) he
    have hgenerated : entry.1.userNamed = false := by simpa using (List.mem_filter.1 hentry).2
    simp [diagnostics_renamedTo, hgenerated]
  rw [Report.diagnostics_concat, List.flatMap_append, hfirst, hsecond, List.append_nil]

/-- Under strict settings all classes get names by a plan, and those are told of that lose one of
the user's choice. -/
theorem exists_plan_of_strict
    (h : Graph.assignFriendlyNames? true (items.map classOf) tree = some report) :
    ∃ plan : List (FriendlyClass × String), plan.map (·.1) = items.map classOf ∧
      report.renames = plan.flatMap (fun entry => (entry.1.renamedTo entry.2).renames) ∧
      report.diagnostics =
        plan.flatMap fun entry => (entry.1.renamedTo entry.2).diagnostics := by
  unfold Graph.assignFriendlyNames? at h
  rw [if_pos rfl] at h
  obtain ⟨⟨reports, last⟩, hrun, h⟩ := Option.bind_eq_some_iff.1 h
  cases h
  obtain ⟨plan, -, hplan, rfl⟩ := exists_assigns hrun
  exact ⟨plan, hplan, by simp [List.flatMap_map], by simp [List.flatMap_map]⟩

end Assigned

end FriendlyClass

/-- The aliases of a class are replaced without a word. -/
theorem AliasClass.diagnostics_assign? {cls : AliasClass} {graph : Graph} {space last : Namespace}
    {report : Report} (h : cls.assign? graph space = some (report, last)) :
    report.diagnostics = [] := by
  obtain ⟨⟨taken, space⟩, -, h⟩ := Option.bind_eq_some_iff.1 h
  obtain ⟨⟨renames, next⟩, -, h⟩ := Option.bind_eq_some_iff.1 h
  cases h
  rfl

namespace Graph

variable {graph after : Graph} {config : Config} {report : Report}

theorem diagnostics_resolveAliases? (h : graph.resolveAliases? config = some (report, after)) :
    report.diagnostics = [] := by
  obtain ⟨h, -⟩ := resolveAliases?_eq_some.1 h
  obtain ⟨walk, -, h⟩ := Option.bind_eq_some_iff.1 h
  obtain ⟨links, -, h⟩ := Option.bind_eq_some_iff.1 h
  obtain ⟨classes, -, h⟩ := Option.bind_eq_some_iff.1 h
  obtain ⟨⟨reports, space⟩, hrun, h⟩ := Option.bind_eq_some_iff.1 h
  cases h
  rw [Report.diagnostics_concat, List.flatMap_eq_nil_iff]
  exact thread?_forall (fun _ _ _ _ h => AliasClass.diagnostics_assign? h) hrun

/-! ## The findings -/

section Findings

variable (graph : Graph) (walk : Walk) (links : Partition NodeId)

/-- The shared input bindings of the visited owners whose two sides carry different friendly names:
by owner, then by region, then as declared. -/
def divergingBindings : List InputBinding :=
  (walk.nodes.flatMap fun id => (graph.regionsOf id).flatMap fun region =>
    region.inputs.filter (·.link = .shared)).filter fun binding =>
      graph.friendlyText? (graph.source binding.outer).node ≠ graph.friendlyText? binding.inner

/-- The first visits to the classes with a name of the user's choice. -/
def userVisits : List Visit :=
  walk.visits.filter fun visit =>
    graph.SharesUserName links visit.node ∧ links.IsFirst (·.node) walk.visits visit

/-- Those of them whose class has the name of an earlier one in a scope that does not tolerate
it. -/
def repeatedVisits : List Visit :=
  (graph.userVisits walk links).filter fun visit => ∃ rival ∈ graph.userVisits walk links,
    Before walk.visits rival visit ∧
      graph.friendlyText? rival.node = graph.friendlyText? visit.node ∧
      walk.scopes.exclusive? rival.scope visit.scope ≠ some true

/-- Those of them whose class has another name afterwards. -/
def replacedVisits (after : Graph) : List Visit :=
  (graph.userVisits walk links).filter fun visit =>
    after.friendlyText? visit.node ≠ graph.friendlyText? visit.node

/-- The finding that the name of the class was set for another one before. -/
def repeatedAt (visit : Visit) : Diagnostic where
  level := .warning
  message := "friendly name '" ++ (graph.friendlyText? visit.node).getD "" ++
    "' was set more than once"
  code := some .repeatedUserName
  hint := some "enable resolve_all_names to renumber user-set names"
  related := links.classOf visit.node

/-- The finding that the name that the user set made way for that in `after`. -/
def replacedAt (after : Graph) (visit : Visit) : Diagnostic where
  level := .note
  message := "user-set friendly name '" ++ (graph.friendlyText? visit.node).getD "" ++
    "' renamed to '" ++ (after.friendlyText? visit.node).getD "" ++ "'"
  code := some .userNameReplaced
  related := [links.representative visit.node]

/-- All that there is to tell of a pass that leads to `after`. -/
def findings (strict : Bool) (after : Graph) : List Diagnostic :=
  (graph.divergingBindings walk).map graph.divergenceOf ++
    if strict then (graph.replacedVisits walk links after).map (graph.replacedAt links after)
    else (graph.repeatedVisits walk links).map (graph.repeatedAt links)

end Findings

/-! ## What the report lists -/

/-- The leaders of the classes with a name of the user's choice. -/
def userLeaders (graph : Graph) : List NodeId :=
  graph.friendlyLeaders.filter fun leader => (graph.friendlyClassOf leader).userNamed

/-- An earlier one of those classes has the same name, and its scope does not tolerate it. -/
def Clashes (graph : Graph) (tree : ScopeTree) (leader : NodeId) : Prop :=
  ∃ rival, Before graph.userLeaders rival leader ∧
    (graph.friendlyClassOf rival).name = (graph.friendlyClassOf leader).name ∧
    tree.exclusive? (graph.friendlyClassOf rival).scope (graph.friendlyClassOf leader).scope ≠
      some true

/-- What is told of the first visit to a class is told of the class. -/
theorem repeatedAt_visitOf (leader : NodeId) :
    graph.repeatedAt graph.friendlyPartition (graph.visitOf leader) =
      (graph.friendlyClassOf leader).repeated := rfl

theorem replacedAt_visitOf (leader : NodeId) :
    graph.replacedAt graph.friendlyPartition after (graph.visitOf leader) =
      (graph.friendlyClassOf leader).replaced ((after.friendlyText? leader).getD "") := by
  have hfirst : (graph.friendlyPartition.classOf leader).take 1 =
      [graph.friendlyPartition.representative leader] :=
    Partition.take_one_classOf graph.friendlyPartition leader
  simp [replacedAt, FriendlyClass.replaced, Diagnostic.withCode, Diagnostic.about, hfirst, visitOf,
    friendlyClassOf]

/-- What is told of bindings does not hang on scopes. -/
theorem divergences_eq (tree : ScopeTree) : graph.divergences =
    (graph.divergingBindings ⟨graph.visited.map graph.visitOf, tree⟩).map graph.divergenceOf := by
  have hnodes : Walk.nodes ⟨graph.visited.map graph.visitOf, tree⟩ = graph.visited := by
    simp [Walk.nodes, visitOf, Function.comp_def]
  rw [divergingBindings, hnodes]
  exact congrArg _ (List.filter_congr fun binding _ => by simp [agrees])

/-- The findings hang on the names after a pass and on nothing else of the graph after it. -/
theorem findings_congr {walk : Walk} {links : Partition NodeId} {strict : Bool} {other : Graph}
    (h : ∀ id, other.friendlyText? id = after.friendlyText? id) :
    graph.findings walk links strict other = graph.findings walk links strict after := by
  have hreplaced : graph.replacedAt links other = graph.replacedAt links after := by
    funext visit
    simp only [replacedAt, h]
  simp only [findings, replacedVisits, hreplaced, h]

namespace WellFormed

variable (hg : graph.WellFormed)
include hg

theorem userVisits_eq (tree : ScopeTree) :
    graph.userVisits ⟨graph.visited.map graph.visitOf, tree⟩ graph.friendlyPartition =
      graph.userLeaders.map graph.visitOf := by
  have hleaders : (graph.visited.map graph.visitOf).filter (fun visit =>
      graph.friendlyPartition.IsFirst (·.node) (graph.visited.map graph.visitOf) visit) =
        graph.friendlyLeaders.map graph.visitOf := by
    rw [← Partition.leaders_eq_filter hg.nodup_visits, Partition.leaders_map]
    rfl
  have huser (leader : NodeId) : (graph.friendlyClassOf leader).userNamed =
      decide (graph.SharesUserName graph.friendlyPartition leader) := by
    rw [Bool.eq_iff_iff, userNamed_friendlyClassOf, decide_eq_true_iff]
    rfl
  simp only [userVisits, userLeaders, Bool.decide_and, huser]
  rw [← List.filter_filter, hleaders, List.filter_map]
  rfl

omit hg in
theorem mem_friendlyLeaders {leader : NodeId} (hl : leader ∈ graph.userLeaders) :
    leader ∈ graph.friendlyLeaders := List.mem_of_mem_filter hl

omit hg in
/-- A visited node that is linked with one that the user named has such a leader. -/
theorem exists_userLeader {id : NodeId} (hv : id ∈ graph.visited) (hu : graph.InUserClass id) :
    ∃ leader ∈ graph.userLeaders, graph.friendlyPartition.related leader id = true := by
  obtain ⟨leader, hl, hr⟩ := exists_friendlyLeader hv
  have hleader := inUserClass_of_related (Partition.related_symm hr) hu
  exact ⟨leader, List.mem_filter.2 ⟨hl, userNamed_friendlyClassOf.2 hleader⟩, hr⟩

section Leaders

variable {a b : NodeId} (ha : a ∈ graph.userLeaders) (hb : b ∈ graph.userLeaders)
include ha hb

/-- One leader comes before another in the walk just when it does among the leaders. -/
theorem before_visitOf_iff :
    Before (graph.visited.map graph.visitOf) (graph.visitOf a) (graph.visitOf b) ↔
      Before graph.userLeaders a b := by
  have hsub : graph.userLeaders.Sublist graph.visited :=
    List.filter_sublist.trans (Partition.leaders_sublist _)
  rw [Before.map_iff hg.nodup_visits (hsub.subset ha) (hsub.subset hb)]
  exact (Before.sublist_iff hg.covers_visited.nodup hsub ha hb).symm

/-- Leaders have one name just when their classes do. -/
theorem friendlyText?_eq_iff : graph.friendlyText? a = graph.friendlyText? b ↔
    (graph.friendlyClassOf a).name = (graph.friendlyClassOf b).name := by
  rw [hg.friendlyText?_of_member (mem_friendlyLeaders ha) (Partition.related_refl _ a),
    hg.friendlyText?_of_member (mem_friendlyLeaders hb) (Partition.related_refl _ b),
    Option.some.injEq]

end Leaders

/-- The visits told of under lenient settings are those of the leaders whose classes clash. -/
theorem repeatedVisits_eq {tree : ScopeTree} {clashes : NodeId → Bool}
    (h : ∀ leader ∈ graph.userLeaders, clashes leader = true ↔ graph.Clashes tree leader) :
    graph.repeatedVisits ⟨graph.visited.map graph.visitOf, tree⟩ graph.friendlyPartition =
      (graph.userLeaders.filter clashes).map graph.visitOf := by
  rw [repeatedVisits, hg.userVisits_eq, List.filter_map]
  refine congrArg _ (List.filter_congr fun leader hl => ?_)
  rw [Bool.eq_iff_iff, h leader hl, Function.comp_apply, decide_eq_true_iff]
  constructor
  · rintro ⟨visit, hv, hb, hname, hex⟩
    obtain ⟨rival, hr, rfl⟩ := List.mem_map.1 hv
    exact ⟨rival, (hg.before_visitOf_iff hr hl).1 hb, (hg.friendlyText?_eq_iff hr hl).1 hname, hex⟩
  · rintro ⟨rival, hb, hname, hex⟩
    have hr := hb.left_mem
    exact ⟨graph.visitOf rival, List.mem_map_of_mem hr, (hg.before_visitOf_iff hr hl).2 hb,
      (hg.friendlyText?_eq_iff hr hl).2 hname, hex⟩

section Assigned

variable {tree : ScopeTree}

private theorem diagnostics_lenient
    (h : assignFriendlyNames? false (graph.friendlyLeaders.map graph.friendlyClassOf) tree =
      some report) :
    report.diagnostics = (graph.repeatedVisits ⟨graph.visited.map graph.visitOf, tree⟩
      graph.friendlyPartition).map (graph.repeatedAt graph.friendlyPartition) := by
  classical
  have hnodup : graph.friendlyLeaders.Nodup := .of_map _ nodup_friendlyClasses
  have hclashes : ∀ leader ∈ graph.userLeaders,
      decide (graph.Clashes tree leader) = true ↔ graph.Clashes tree leader :=
    fun _ _ => decide_eq_true_iff
  rw [hg.repeatedVisits_eq hclashes, List.map_map,
    FriendlyClass.diagnostics_of_lenient hnodup hclashes h, ← userLeaders]
  exact List.map_congr_left fun leader _ => (repeatedAt_visitOf leader).symm

private theorem diagnostics_strict
    (h : assignFriendlyNames? true (graph.friendlyLeaders.map graph.friendlyClassOf) tree =
      some report) (hafter : after = graph.renameAll report.renames) :
    report.diagnostics = (graph.replacedVisits ⟨graph.visited.map graph.visitOf, tree⟩
      graph.friendlyPartition after).map (graph.replacedAt graph.friendlyPartition after) := by
  obtain ⟨plan, hplan, hrenames, hdiagnostics⟩ := FriendlyClass.exists_plan_of_strict h
  have htext {leader : NodeId} (hl : leader ∈ graph.friendlyLeaders) {name : String}
      (he : (graph.friendlyClassOf leader, name) ∈ plan) :
      after.friendlyText? leader = some name := by
    rw [hafter, hrenames]
    exact hg.friendlyText?_of_plan (hplan ▸ .refl _) hl he (Partition.related_refl _ leader)
  have hentries : plan = graph.friendlyLeaders.map fun leader =>
      (graph.friendlyClassOf leader, (after.friendlyText? leader).getD "") := by
    refine List.ext_getElem (by simpa using congrArg List.length hplan) fun i hi hi' => ?_
    rw [List.length_map] at hi'
    have hcls : plan[i].1 = graph.friendlyClassOf graph.friendlyLeaders[i] := by
      have hget := List.getElem_of_eq hplan (by rwa [List.length_map] : i < _)
      rwa [List.getElem_map, List.getElem_map] at hget
    have hentry : (graph.friendlyClassOf graph.friendlyLeaders[i], plan[i].2) ∈ plan :=
      hcls ▸ List.getElem_mem hi
    simp [← hcls, htext (List.getElem_mem hi') hentry]
  have hchanged : ∀ leader ∈ graph.userLeaders,
      decide ((after.friendlyText? leader).getD "" ≠ (graph.friendlyClassOf leader).name) =
        decide (after.friendlyText? leader ≠ graph.friendlyText? leader) := by
    intro leader hl
    have hleader := mem_friendlyLeaders hl
    obtain ⟨entry, he, hentry⟩ := List.mem_map.1 (hplan ▸ List.mem_map_of_mem hleader)
    obtain ⟨cls, name⟩ := entry
    obtain rfl : cls = graph.friendlyClassOf leader := hentry
    simp [htext hleader he, hg.friendlyText?_of_member hleader (Partition.related_refl _ leader)]
  rw [hdiagnostics, hentries, List.flatMap_map, FriendlyClass.flatMap_diagnostics_renamedTo,
    ← userLeaders, List.filter_congr hchanged, replacedVisits, hg.userVisits_eq, List.filter_map,
    List.map_map]
  exact List.map_congr_left fun leader _ => (replacedAt_visitOf leader).symm

end Assigned

/-- The report of the friendly half of a pass lists the findings and no more. -/
theorem diagnostics_resolveFriendlyNames?
    (h : graph.resolveFriendlyNames? config = some (report, after)) :
    report.diagnostics = graph.findings ⟨graph.visited.map graph.visitOf,
      graph.treeAfter config.friendlyScoping graph.visited⟩ graph.friendlyPartition config.strict
        after := by
  obtain ⟨hreport, hafter⟩ := resolveFriendlyNames?_eq_some.1 h
  rw [hg.friendlyReport?_eq_divergences] at hreport
  obtain ⟨assigned, hassigned, rfl⟩ := Option.map_eq_some_iff.1 hreport
  rw [Report.diagnostics_append, findings, ← divergences_eq]
  congr 1
  cases hstrict : config.strict with
  | true =>
    rw [hstrict] at hassigned
    exact hg.diagnostics_strict hassigned hafter
  | false =>
    rw [hstrict] at hassigned
    exact hg.diagnostics_lenient hassigned

/-! ## Nothing goes untold -/

section Told

variable (h : graph.resolveFriendlyNames? config = some (report, after))
include h

/-- A class is told of if an earlier one in its way has the same name, and both stay. -/
private theorem told_of_clash (hstrict : config.strict = false) {leader leader' : NodeId}
    (hl : leader ∈ graph.userLeaders) (hl' : leader' ∈ graph.userLeaders)
    (hb : Before graph.userLeaders leader leader')
    (hname : graph.friendlyText? leader = graph.friendlyText? leader')
    (hex : (graph.treeAfter config.friendlyScoping graph.visited).exclusive?
      (graph.friendlyClassOf leader).scope (graph.friendlyClassOf leader').scope ≠ some true) :
    ∃ finding ∈ report.diagnostics, finding.code = some .repeatedUserName ∧
      finding.related = graph.friendlyPartition.classOf leader' := by
  classical
  refine ⟨graph.repeatedAt graph.friendlyPartition (graph.visitOf leader'), ?_, rfl, rfl⟩
  rw [hg.diagnostics_resolveFriendlyNames? h, findings, hstrict, if_neg Bool.false_ne_true,
    hg.repeatedVisits_eq fun leader _ => decide_eq_true_iff]
  refine List.mem_append_right _ (List.mem_map_of_mem (List.mem_map_of_mem ?_))
  exact List.mem_filter.2 ⟨hl', decide_eq_true
    ⟨leader, hb, (hg.friendlyText?_eq_iff hl hl').1 hname, hex⟩⟩

/-- Nodes that are not linked and may be live together keep one name only if it is told of. -/
theorem told_of_shared {a b : NodeId} (ha : a ∈ graph.visited) (hb : b ∈ graph.visited)
    (hne : graph.friendlyPartition.related a b = false)
    (hlive : ¬ (config.scoping = .exclusive ∧
      graph.Alternatives graph.visited (graph.modelOf a) (graph.modelOf b)))
    (hsame : after.friendlyText? a = after.friendlyText? b) :
    ∃ finding ∈ report.diagnostics, finding.code = some .repeatedUserName ∧
      (a ∈ finding.related ∨ b ∈ finding.related) := by
  have ho := hg.friendlyOutcome h
  obtain ⟨hstrict, hmay⟩ := ho.distinct a ha b hb hne hsame
  obtain ⟨hua, hub⟩ := hmay.resolve_left hlive
  obtain ⟨leader, hl, hra⟩ := exists_userLeader ha hua
  obtain ⟨leader', hl', hrb⟩ := exists_userLeader hb hub
  have hname : graph.friendlyText? leader = graph.friendlyText? leader' := by
    rw [friendlyText?_of_related hra, friendlyText?_of_related hrb, ← ho.kept hstrict ha hua,
      ← ho.kept hstrict hb hub, hsame]
  -- The leaders stand further out than the members, so if even their scopes were exclusive, the
  -- members would lie in alternatives.
  have hex : (graph.treeAfter config.friendlyScoping graph.visited).exclusive?
      (graph.friendlyClassOf leader).scope (graph.friendlyClassOf leader').scope ≠ some true := by
    intro hex
    have hleader := mem_friendlyLeaders hl
    have hleader' := mem_friendlyLeaders hl'
    obtain ⟨hscoping, halt⟩ := hg.alternatives_of_exclusive? (friendlyLeader_visited hleader)
      (friendlyLeader_visited hleader') hex
    rw [Config.friendlyScoping, hstrict, if_neg Bool.false_ne_true] at hscoping
    exact hlive ⟨hscoping, halt.mono (hg.within_friendlyLeader hleader hra)
      (hg.within_friendlyLeader hleader' hrb)⟩
  have hdiffer : leader ≠ leader' := by
    rintro rfl
    rw [Partition.related_trans (Partition.related_symm hra) hrb] at hne
    cases hne
  rcases Before.total hl hl' hdiffer with hbefore | hbefore
  · obtain ⟨finding, hf, hcode, hrelated⟩ := hg.told_of_clash h hstrict hl hl' hbefore hname hex
    exact ⟨finding, hf, hcode, .inr (hrelated ▸ valid_friendlyPartition.mem_classOf.2 hrb)⟩
  · rw [ScopeTree.exclusive?_comm] at hex
    obtain ⟨finding, hf, hcode, hrelated⟩ :=
      hg.told_of_clash h hstrict hl' hl hbefore hname.symm hex
    exact ⟨finding, hf, hcode, .inl (hrelated ▸ valid_friendlyPartition.mem_classOf.2 hra)⟩

/-- No name of the user's choice is replaced without a word. -/
theorem told_of_replaced {id : NodeId} (hu : graph.isUserNamed id = true)
    (hne : after.friendlyText? id ≠ graph.friendlyText? id) :
    ∃ finding ∈ report.diagnostics, finding.code = some .userNameReplaced ∧
      ∃ member ∈ finding.related, graph.friendlyPartition.related member id = true := by
  have ho := hg.friendlyOutcome h
  have hv : id ∈ graph.visited :=
    Classical.byContradiction fun hv => hne (hg.friendlyText?_of_not_visited h hv)
  have hclass : graph.InUserClass id := ⟨id, Partition.mem_classOf_self _ id, hu⟩
  have hstrict : config.strict = true := by
    rw [← Bool.not_eq_false]
    exact fun hstrict => hne (ho.kept hstrict hv hclass)
  obtain ⟨leader, hl, hr⟩ := exists_userLeader hv hclass
  have hchanged : after.friendlyText? leader ≠ graph.friendlyText? leader := by
    have hleader := friendlyLeader_visited (mem_friendlyLeaders hl)
    rwa [ho.linked hleader hr, friendlyText?_of_related hr]
  refine ⟨graph.replacedAt graph.friendlyPartition after (graph.visitOf leader), ?_, rfl,
    graph.friendlyPartition.representative leader, List.mem_singleton.2 rfl, ?_⟩
  · rw [hg.diagnostics_resolveFriendlyNames? h, findings, hstrict, if_pos rfl, replacedVisits,
      hg.userVisits_eq]
    exact List.mem_append_right _ (List.mem_map_of_mem (List.mem_filter.2
      ⟨List.mem_map_of_mem hl, decide_eq_true hchanged⟩))
  · have hmem := Partition.representative_mem graph.friendlyPartition leader
    exact Partition.related_trans
      (Partition.related_symm (valid_friendlyPartition.mem_classOf.1 hmem)) hr

end Told

end WellFormed

/-- A pass tells of every shared binding whose two sides carry different names, and then of every
class of nodes that the user named whose name clashes with an earlier one, or under strict settings
of every such class that loses its name: exactly that, and in this order. So if nodes that are not
linked and may be live together have one name after it, it tells of one of them, and it tells of
every name of the user's choice that it replaces. There is an outcome on a graph with fewer than
`2 ^ 32 - 2` nodes and aliases. -/
theorem Reachable.diagnostics_exact (hr : graph.Reachable) (config : Config) :
    ∃ walk links, graph.walk? config.friendlyScoping = some walk ∧
      graph.friendlyLinks? walk.nodes =
        some (links, (graph.divergingBindings walk).map graph.divergenceOf) ∧
      (graph.nodes.size < 0xFFFFFFFE → graph.allAliases.length < 0xFFFFFFFE →
        ∃ report after, graph.resolveNames? config = some (report, after)) ∧
      ∀ report after, graph.resolveNames? config = some (report, after) →
        report.diagnostics = graph.findings walk links config.strict after ∧
        (∀ a ∈ walk.nodes, ∀ b ∈ walk.nodes, links.related a b = false →
          ¬ (config.scoping = .exclusive ∧
            graph.Alternatives walk.nodes (graph.modelOf a) (graph.modelOf b)) →
          after.friendlyText? a = after.friendlyText? b →
            ∃ finding ∈ report.diagnostics, finding.code = some .repeatedUserName ∧
              (a ∈ finding.related ∨ b ∈ finding.related)) ∧
        ∀ id, graph.isUserNamed id = true → after.friendlyText? id ≠ graph.friendlyText? id →
          ∃ finding ∈ report.diagnostics, finding.code = some .userNameReplaced ∧
            ∃ member ∈ finding.related, links.related member id = true := by
  have hg := hr.wellFormed
  have hnodes := hg.nodes_of_walk? (hg.walk?_eq config.friendlyScoping)
  refine ⟨_, graph.friendlyPartition, hg.walk?_eq config.friendlyScoping, ?_⟩
  rw [hnodes, ← divergences_eq]
  refine ⟨hg.friendlyLinks?_eq_divergences, fun hn ha => hg.exists_resolveNames? hn ha config,
    fun report after h => ?_⟩
  obtain ⟨friendly, middle, aliases, hf, ha, rfl⟩ := resolveNames?_eq_some.1 h
  have hmiddle : middle.WellFormed := hg.of_shape (shape_resolveFriendlyNames? hf).symm
  have htext := hmiddle.friendlyText?_resolveAliases? ha
  have hdiagnostics : (friendly ++ aliases).diagnostics = friendly.diagnostics := by
    rw [Report.diagnostics_append, diagnostics_resolveAliases? ha, List.append_nil]
  rw [hdiagnostics, findings_congr htext]
  refine ⟨hg.diagnostics_resolveFriendlyNames? hf, ?_, ?_⟩
  · intro a hva b hvb hne hlive hsame
    rw [htext, htext] at hsame
    exact hg.told_of_shared hf hva hvb hne hlive hsame
  · intro id hu hne
    rw [htext] at hne
    exact hg.told_of_replaced hf hu hne

/-- If the user names the parameter around the conditional as another node is named already, and the
parameter of one branch otherwise, a pass tells of both. Under strict settings it tells of the node
that gets another name. -/
theorem diagnostics_exact_conditional :
    ∃ clashing, Call.runAll? [.setFriendlyName ⟨5⟩ "other", .setFriendlyName ⟨0⟩ "Parameter_0"]
        conditional = some clashing ∧
      ∀ config ∈ [({} : Config), { strict := true }], ∃ report after walk links,
        clashing.resolveNames? config = some (report, after) ∧
        clashing.walk? config.friendlyScoping = some walk ∧
        report.diagnostics = clashing.findings walk links config.strict after ∧
        report.diagnostics.map (fun finding => (finding.code, finding.related)) =
          [(some .divergingNames, [⟨0⟩, ⟨5⟩]),
            (some (if config.strict then .userNameReplaced else .repeatedUserName), [⟨10⟩])] := by
  have hrun : (Call.runAll? [.setFriendlyName ⟨5⟩ "other", .setFriendlyName ⟨0⟩ "Parameter_0"]
      conditional).any fun clashing =>
        (clashing.nodes.size < 0xFFFFFFFE ∧ clashing.allAliases.length < 0xFFFFFFFE) ∧
        ∀ config ∈ [({} : Config), { strict := true }], ∀ run ∈ clashing.resolveNames? config,
          run.1.diagnostics.map (fun finding => (finding.code, finding.related)) =
            [(some .divergingNames, [⟨0⟩, ⟨5⟩]),
              (some (if config.strict then .userNameReplaced else .repeatedUserName), [⟨10⟩])] := by
    decide +kernel
  obtain ⟨clashing, hcalls, hrun⟩ := (Option.any_eq_true _ _).1 hrun
  obtain ⟨⟨hnodes, haliases⟩, hfindings⟩ := of_decide_eq_true hrun
  refine ⟨clashing, hcalls, fun config hconfig => ?_⟩
  obtain ⟨walk, links, hwalk, -, hexists, hexact⟩ :=
    (reachable_conditional.runAll? hcalls).diagnostics_exact config
  obtain ⟨report, after, h⟩ := hexists hnodes haliases
  exact ⟨report, after, walk, links, h, hwalk, (hexact report after h).1,
    hfindings config hconfig _ h⟩

end Graph

end GraphNaming
