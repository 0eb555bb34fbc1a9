import GraphNaming.Proofs.Reading
import GraphNaming.Resolution.Settling

/-!
# Settling in place is settling by a plan

A pass can work out all renames on the graph that it is given and then carry them out, or rename
each class as soon as it is settled and go on with the graph as it is by then. Both come to the
same: friendly names are read before the first of them changes, and a class of outputs has no
member in common with those settled before it.

* `Settling.extend`: what carrying out and logging a report makes of a state.
* `foldl_replaceAlias`, `foldlM_settleAlias?`: one alias in all members, and all taken aliases.
* `FriendlyClass.settle?_eq`, `AliasClass.settle?_eq`: one class.
* `foldlM_eq_thread?`: all classes, one after the other.
* `settleFriendlyNames?_eq`, `WellFormed.settleAliases?_eq`, `WellFormed.settleNames?_eq`: the
  passes.
-/

namespace GraphNaming

variable {α : Type} {graph : Graph} {state : Settling}

/-! ## Carrying out and logging -/

namespace Report

protected theorem ext {first second : Report} (hr : first.renames = second.renames)
    (hd : first.diagnostics = second.diagnostics) : first = second := by
  cases first
  cases second
  simp_all

theorem append_assoc (first second third : Report) :
    first ++ second ++ third = first ++ (second ++ third) :=
  Report.ext (List.append_assoc ..) (List.append_assoc ..)

theorem append_empty (report : Report) : report ++ {} = report :=
  Report.ext (List.append_nil _) (List.append_nil _)

theorem concat_append (first second : List Report) :
    concat (first ++ second) = concat first ++ concat second := by
  induction first with
  | nil => rfl
  | cons report first ih =>
    show report ++ concat (first ++ second) = report ++ concat first ++ concat second
    rw [ih, append_assoc]

end Report

namespace Settling

/-- The state once `report` is carried out and logged. -/
def extend (state : Settling) (report : Report) (space : Namespace) : Settling where
  graph := state.graph.renameAll report.renames
  space := space
  report := state.report ++ report

@[simp] theorem graph_extend (report : Report) (space : Namespace) :
    (state.extend report space).graph = state.graph.renameAll report.renames := rfl

@[simp] theorem space_extend (report : Report) (space : Namespace) :
    (state.extend report space).space = space := rfl

theorem extend_empty : state.extend {} state.space = state := by
  rw [extend, Report.append_empty]
  rfl

theorem extend_extend (first second : Report) (middle last : Namespace) :
    (state.extend first middle).extend second last = state.extend (first ++ second) last := by
  simp only [extend, Report.renames_append, Graph.renameAll_append, Report.append_assoc]

theorem rename_eq (rename : Rename) :
    state.rename rename = state.extend { renames := [rename] } state.space := rfl

theorem tell_eq (finding : Diagnostic) :
    state.tell finding = state.extend { diagnostics := [finding] } state.space := rfl

/-- Several renames, one after the other. -/
theorem foldl_rename (rename : α → Rename) (items : List α) :
    items.foldl (fun state item => state.rename (rename item)) state =
      state.extend { renames := items.map rename } state.space := by
  induction items generalizing state with
  | nil => exact extend_empty.symm
  | cons item items ih =>
    rw [List.foldl_cons, ih, rename_eq, space_extend, extend_extend]
    rfl

/-- Where each step does what a plan for it says, as long as `Inv` holds of what is still to be
done, all steps do what the plans say together. -/
theorem foldlM_eq_thread? (Inv : List α → Settling → Prop)
    {settle : Settling → α → Option Settling} {plan : α → Namespace → Option (Report × Namespace)}
    (hstep : ∀ item rest state, Inv (item :: rest) state →
      settle state item = (plan item state.space).map (fun done => state.extend done.1 done.2) ∧
      ∀ report space, plan item state.space = some (report, space) →
        Inv rest (state.extend report space))
    {items : List α} (hinv : Inv items state) :
    items.foldlM settle state = (thread? plan items state.space).map fun done =>
      state.extend (.concat done.1) done.2 := by
  induction items generalizing state with
  | nil => exact congrArg some extend_empty.symm
  | cons item rest ih =>
    obtain ⟨hfirst, hrest⟩ := hstep item rest state hinv
    rw [List.foldlM_cons, thread?_cons, hfirst]
    cases hplan : plan item state.space with
    | none => rfl
    | some done =>
      simp only [Option.map_some, Option.bind_eq_bind, Option.bind_some, Option.map_map]
      rw [ih (hrest _ _ hplan), space_extend]
      refine congrArg (Option.map · _) (funext fun more => ?_)
      rw [extend_extend]
      rfl

/-- The same of steps that ask nothing of the state. -/
theorem foldlM_eq_thread?_of_step {settle : Settling → α → Option Settling}
    {plan : α → Namespace → Option (Report × Namespace)}
    (hstep : ∀ state item, settle state item =
      (plan item state.space).map fun done => state.extend done.1 done.2)
    (items : List α) (state : Settling) :
    items.foldlM settle state = (thread? plan items state.space).map fun done =>
      state.extend (.concat done.1) done.2 :=
  foldlM_eq_thread? (fun _ _ => True)
    (fun item _ state _ => ⟨hstep state item, fun _ _ _ => trivial⟩) trivial

end Settling

/-! ## Friendly names -/

namespace FriendlyClass

variable {cls : FriendlyClass}

theorem reserve?_eq : cls.reserve? state =
    (cls.keep? state.space).map fun done => state.extend done.1 done.2 := by
  simp only [reserve?, keep?, Settling.take?, Option.bind_eq_bind]
  cases state.space.take? cls.scope cls.name with
  | none => rfl
  | some taken =>
    obtain ⟨free, space⟩ := taken
    cases free with
    | true =>
      have hsame : Settling.extend { state with space } {} space = { state with space } :=
        Settling.extend_empty
      exact congrArg some hsame.symm
    | false => exact congrArg some (Settling.tell_eq _)

/-- The members are renamed and the finding told, which is what there is to report. -/
theorem renamed_eq (name : String) :
    (if name = cls.name then state
      else if cls.userNamed then (cls.renameMembers name state).tell (cls.replaced name)
      else cls.renameMembers name state) = state.extend (cls.renamedTo name) state.space := by
  unfold renamedTo renameMembers
  split
  · exact Settling.extend_empty.symm
  · rw [Settling.foldl_rename fun node => ⟨.friendly node, cls.name, name⟩, Settling.tell_eq,
      Settling.space_extend, Settling.extend_extend]
    split
    · exact congrArg (state.extend · _) (Report.ext (List.append_nil _) rfl)
    · rfl

theorem settle?_eq : cls.settle? state =
    (cls.assign? state.space).map fun done => state.extend done.1 done.2 := by
  simp only [settle?, renamed_eq, assign?, Settling.take?, Settling.space_extend,
    Option.bind_eq_bind]
  cases state.space.fresh? cls.scope cls.name with
  | none => rfl
  | some name =>
    cases htake : state.space.take? cls.scope name with
    | none => simp [htake]
    | some taken =>
      simp only [Option.bind_some, Option.map_some, htake]
      rfl

end FriendlyClass

/-- The classes come to the names that the plan for all of them gives. -/
theorem settleFriendlyClasses?_eq (strict : Bool) (classes : List FriendlyClass)
    (state : Settling) {scopes : ScopeTree}
    (hspace : state.space = .ofScopes scopes (if strict then 1 else 2)) :
    (settleFriendlyClasses? strict classes state).map (fun done => (done.report, done.graph)) =
      (Graph.assignFriendlyNames? strict classes scopes).map fun report =>
        (state.report ++ report, state.graph.renameAll report.renames) := by
  have settleAll := Settling.foldlM_eq_thread?_of_step fun state cls =>
    @FriendlyClass.settle?_eq state cls
  have reserveAll := Settling.foldlM_eq_thread?_of_step fun state cls =>
    @FriendlyClass.reserve?_eq state cls
  unfold settleFriendlyClasses? Graph.assignFriendlyNames?
  simp only [settleAll, reserveAll, hspace, Option.bind_eq_bind]
  cases strict with
  | true =>
    simp only [if_true]
    cases thread? FriendlyClass.assign? classes (.ofScopes scopes 1) <;> rfl
  | false =>
    simp only [Bool.false_eq_true, if_false]
    cases thread? FriendlyClass.keep? (classes.partition (·.userNamed)).1 (.ofScopes scopes 2) with
    | none => rfl
    | some first =>
      simp only [Option.map_some, Option.bind_some, Settling.space_extend]
      cases thread? FriendlyClass.assign? (classes.partition (·.userNamed)).2 first.2 with
      | none => rfl
      | some second =>
        simp only [Option.map_some, Option.bind_some, Settling.extend_extend,
          ← Report.concat_append]
        rfl

/-- The pass that renames as it goes along is the one that carries out its report. -/
theorem Graph.settleFriendlyNames?_eq (graph : Graph) (config : Config) :
    graph.settleFriendlyNames? config = graph.resolveFriendlyNames? config := by
  unfold settleFriendlyNames? resolveFriendlyNames? friendlyReport?
  simp only [Option.bind_eq_bind, Option.bind_assoc, Option.bind_some]
  refine congrArg _ (funext fun walk => congrArg _ (funext fun links =>
    congrArg _ (funext fun classes => ?_)))
  have heq := settleFriendlyClasses?_eq config.strict classes
    ⟨graph, .ofScopes walk.scopes (if config.strict then 1 else 2), { diagnostics := links.2 }⟩ rfl
  simp only [Option.map_eq_bind] at heq
  exact heq

/-! ## Aliases -/

namespace AliasSet

theorem mem_replace_of_ne {name old new : String} {names : AliasSet} (hold : name ≠ old)
    (hnew : name ≠ new) : name ∈ names.replace old new ↔ name ∈ names := by
  by_cases h : old ∈ names
  · simp [mem_replace h, hold, hnew]
  · rw [replace, if_neg h]

end AliasSet

namespace Graph

/-- Renames by which a name neither goes nor comes leave it where it was. -/
theorem mem_aliases?_renameAll_of_ne {renames : List Rename} {value : Value} {name : String}
    (h : ∀ rename ∈ renames, name ≠ rename.old ∧ name ≠ rename.new) :
    name ∈ ((graph.renameAll renames).aliases? value).getD ∅ ↔
      name ∈ (graph.aliases? value).getD ∅ := by
  have fold (renames : List Rename) (names : AliasSet)
      (h : ∀ rename ∈ renames, name ≠ rename.old ∧ name ≠ rename.new) :
      name ∈ renames.foldl (fun names rename => names.replace rename.old rename.new) names ↔
        name ∈ names := by
    induction renames generalizing names with
    | nil => rfl
    | cons rename renames ih =>
      obtain ⟨⟨hold, hnew⟩, hrest⟩ := List.forall_mem_cons.1 h
      rw [List.foldl_cons, ih _ hrest, AliasSet.mem_replace_of_ne hold hnew]
  rw [aliases?_renameAll]
  cases graph.aliases? value with
  | none => rfl
  | some names => exact fold _ names fun rename hr => h rename (List.mem_filter.1 hr).1

/-- Renames of other outputs leave the aliases of a value that is its own source. -/
theorem aliases?_renameAll_of_not_mem {renames : List Rename} {value : Value}
    (hsource : graph.source value = value)
    (h : ∀ rename ∈ renames, rename.site ≠ .output value) :
    (graph.renameAll renames).aliases? value = graph.aliases? value := by
  rw [aliases?, source_renameAll, hsource, output?_renameAll_of_not_mem h, aliases?, hsource]

end Graph

namespace Settling

variable {old new : String} {members : List Value}

/-- One alias makes way in all members that have it. No member is seen to change before its own
turn, as all are different. -/
theorem foldl_replaceAlias (hn : members.Nodup)
    (hsource : ∀ value ∈ members, state.graph.source value = value) :
    members.foldl (replaceAlias old new) state = state.extend
      { renames := (members.filter fun value => old ∈ (state.graph.aliases? value).getD ∅).map
          fun value => ⟨.output value, old, new⟩ } state.space := by
  induction members generalizing state with
  | nil => exact extend_empty.symm
  | cons value members ih =>
    obtain ⟨hvalue, hn⟩ := List.nodup_cons.1 hn
    obtain ⟨hfirst, hrest⟩ := List.forall_mem_cons.1 hsource
    have hhas : state.graph.aliases? value = (state.graph.output? value).map (·.aliases) := by
      rw [Graph.aliases?, hfirst]
    rw [List.foldl_cons, replaceAlias, ← hhas]
    split
    · next hold =>
      have hothers : ∀ other ∈ members,
          (state.graph.renameAll [⟨.output value, old, new⟩]).aliases? other =
            state.graph.aliases? other := by
        intro other ho
        refine Graph.aliases?_renameAll_of_not_mem (hrest other ho) ?_
        simp only [List.mem_singleton, forall_eq, ne_eq, NameSite.output.injEq]
        rintro rfl
        exact hvalue ho
      rw [rename_eq, ih hn fun other ho => by
        rw [graph_extend, Graph.source_renameAll, hrest other ho]]
      rw [graph_extend, space_extend, extend_extend, List.filter_cons_of_pos (by simpa using hold),
        List.filter_congr fun other ho => by rw [hothers other ho]]
      rfl
    · next hnot =>
      rw [ih hn hrest, List.filter_cons_of_neg (by simpa using hnot)]

end Settling

namespace AliasClass

variable {cls : AliasClass} {entry : Graph}

theorem settleAlias?_eq {old : String} (hn : cls.members.Nodup)
    (hsource : ∀ value ∈ cls.members, state.graph.source value = value) :
    cls.settleAlias? state old = (cls.replace? state.graph old state.space).map fun done =>
      state.extend { renames := done.1 } done.2 := by
  simp only [settleAlias?, replace?, Settling.take?, Settling.foldl_replaceAlias hn hsource,
    Settling.space_extend, Option.bind_eq_bind]
  cases state.space.freshAlias? cls.scope old with
  | none => rfl
  | some new =>
    cases htake : state.space.take? cls.scope new with
    | none => simp [htake]
    | some taken =>
      simp only [Option.bind_some, Option.map_some, htake]
      rfl

/-- The new names of a class are none of those that still have to make way, so for each of these
the members that have it are the same as when the class's turn came. -/
theorem foldlM_settleAlias? (state : Settling) {taken : List String} (hn : cls.members.Nodup)
    (hsource : ∀ value ∈ cls.members, state.graph.source value = value) (ht : taken.Nodup)
    (hblocked : ∀ old ∈ taken, ¬ state.space.Free cls.scope old)
    (hsame : ∀ old ∈ taken, cls.holders state.graph old = cls.holders entry old) :
    taken.foldlM cls.settleAlias? state =
      (thread? (cls.replace? entry) taken state.space).map fun done =>
        state.extend { renames := done.1.flatten } done.2 := by
  induction taken generalizing state with
  | nil => exact congrArg some Settling.extend_empty.symm
  | cons old taken ih =>
    obtain ⟨hold, ht⟩ := List.nodup_cons.1 ht
    obtain ⟨-, hblocked⟩ := List.forall_mem_cons.1 hblocked
    obtain ⟨hfirst, hsame⟩ := List.forall_mem_cons.1 hsame
    have hreplace : cls.replace? state.graph old state.space =
        cls.replace? entry old state.space := by
      simp only [replace?, hfirst]
    rw [List.foldlM_cons, thread?_cons, settleAlias?_eq hn hsource, hreplace]
    cases hrun : cls.replace? entry old state.space with
    | none => rfl
    | some done =>
      obtain ⟨renames, space⟩ := done
      obtain ⟨new, hnew, rfl, rfl⟩ := replace?_eq_some hrun
      have hfree : state.space.Free cls.scope new :=
        Namespace.not_mem_taken.1 (Namespace.firstNumbered_of_freshAlias? hnew).not_mem
      -- The renames take `old` away and bring `new` in. The other aliases still to go are neither:
      -- they are all different, and `new` was free.
      have hlater : ∀ other ∈ taken, cls.holders
          (state.graph.renameAll ((cls.holders entry old).map (⟨.output ·, old, new⟩))) other =
            cls.holders entry other := by
        intro other ho
        rw [← hsame other ho]
        refine List.filter_congr fun value _ => decide_eq_decide.2 ?_
        refine Graph.mem_aliases?_renameAll_of_ne fun rename hr => ?_
        obtain ⟨member, -, rfl⟩ := List.mem_map.1 hr
        constructor
        · rintro rfl
          exact hold ho
        · rintro rfl
          exact hblocked _ ho hfree
      have hstill : ∀ other ∈ taken, ¬ (state.space.hold cls.scope new).Free cls.scope other :=
        fun other ho hother => hblocked other ho (Namespace.free_hold.1 hother).2
      have hrest := ih
        (state.extend { renames := (cls.holders entry old).map (⟨.output ·, old, new⟩) }
          (state.space.hold cls.scope new))
        (by simpa only [Settling.graph_extend, Graph.source_renameAll] using hsource)
        ht hstill hlater
      simp only [Option.map_some, Option.bind_eq_bind, Option.bind_some, Option.map_map, hrest]
      refine congrArg (Option.map · _) (funext fun more => ?_)
      simp only [Function.comp_apply]
      rw [Settling.extend_extend]
      rfl

/-- The class settles in place as it does by the plan for the graph as it then is. -/
theorem settle?_eq (hn : cls.members.Nodup)
    (hsource : ∀ value ∈ cls.members, state.graph.source value = value) :
    cls.settle? state = (cls.assign? state.graph state.space).map fun done =>
      state.extend done.1 done.2 := by
  simp only [settle?, assign?, Option.bind_eq_bind]
  cases htake : state.space.takeFree? cls.scope (cls.aliases state.graph).toList with
  | none => rfl
  | some done =>
    obtain ⟨taken, space⟩ := done
    obtain ⟨kept, hsplit, rfl⟩ := Namespace.takeFree?_eq_some htake
    have hblocked : ∀ old ∈ taken,
        ¬ (state.space.holdNames cls.scope kept).Free cls.scope old := fun old ho hfree =>
      hsplit.blocked old ho (Namespace.free_holdNames.1 hfree).2
    have hall := foldlM_settleAlias?
      ⟨state.graph, state.space.holdNames cls.scope kept, state.report⟩ hn hsource
      ((AliasSet.nodup_toList _).sublist hsplit.taken_sub) hblocked fun _ _ => rfl
    simp only [Option.bind_some, hall]
    cases thread? (cls.replace? state.graph) taken (state.space.holdNames cls.scope kept) <;> rfl

/-! ## All classes of outputs -/

/-- What settling the classes before leaves of those still to come: no two of these have a member
in common, and the members have the aliases that they had in `entry`. -/
structure Untouched (entry : Graph) (classes : List AliasClass) (state : Settling) : Prop where
  distinct : (classes.flatMap (·.members)).Nodup
  source : ∀ cls ∈ classes, ∀ value ∈ cls.members, state.graph.source value = value
  aliases : ∀ cls ∈ classes, ∀ value ∈ cls.members,
    state.graph.aliases? value = entry.aliases? value

namespace Untouched

variable {classes : List AliasClass}

theorem settle?_eq (h : Untouched entry (cls :: classes) state) :
    cls.settle? state = (cls.assign? entry state.space).map fun done =>
      state.extend done.1 done.2 := by
  have hn : cls.members.Nodup := (List.nodup_append.1 h.distinct).1
  rw [AliasClass.settle?_eq hn (h.source cls (.head _)), assign?_congr (h.aliases cls (.head _))]

/-- A class changes nothing of those that come after it. -/
theorem extend (h : Untouched entry (cls :: classes) state) {report : Report} {space : Namespace}
    (hplan : cls.assign? entry state.space = some (report, space)) :
    Untouched entry classes (state.extend report space) := by
  obtain ⟨swaps, -, hrenames⟩ := exists_settles hplan
  obtain ⟨-, hdistinct, hdisjoint⟩ := List.nodup_append'.1 h.distinct
  refine ⟨hdistinct, fun other ho value hv => ?_, fun other ho value hv => ?_⟩
  · rw [Settling.graph_extend, Graph.source_renameAll]
    exact h.source other (.tail _ ho) value hv
  · rw [Settling.graph_extend, ← h.aliases other (.tail _ ho) value hv]
    refine Graph.aliases?_renameAll_of_not_mem (h.source other (.tail _ ho) value hv) ?_
    rintro rename hr hsite
    rw [hrenames] at hr
    obtain ⟨member, hm, hmember⟩ := site_of_mem_renamesOf hr
    obtain rfl : value = member := by
      rw [hsite] at hmember
      exact NameSite.output.inj hmember
    exact hdisjoint hm (List.mem_flatMap.2 ⟨other, ho, hv⟩)

theorem foldlM_settle? (h : Untouched entry classes state) :
    classes.foldlM (fun state cls => cls.settle? state) state =
      (thread? (fun cls space => cls.assign? entry space) classes state.space).map fun done =>
        state.extend (.concat done.1) done.2 :=
  Settling.foldlM_eq_thread? (Untouched entry)
    (fun _ _ _ h => by exact ⟨h.settle?_eq, fun _ _ hplan => h.extend hplan⟩) h

end Untouched

end AliasClass

/-! ## The passes -/

namespace Graph.WellFormed

variable (hg : graph.WellFormed)
include hg

theorem untouched (space : Namespace) :
    AliasClass.Untouched graph (graph.settlingOrder.map graph.aliasClassOf)
      { graph, space } where
  distinct := hg.settlingMembers_perm.nodup_iff.2 hg.nodup_outputValues
  source cls hc value hv := by
    obtain ⟨leader, hl, rfl⟩ := exists_leader_of_mem hc
    exact hg.source_of_member hl (valid_aliasPartition.mem_classOf.1 hv)
  aliases _ _ _ _ := rfl

theorem settleAliases?_eq (config : Config) :
    graph.settleAliases? config = graph.resolveAliases? config := by
  have hnodes := hg.nodes_of_walk? (hg.walk?_eq config.scoping)
  rw [resolveAliases?, hg.aliasReport?_eq]
  simp only [settleAliases?, hg.walk?_eq, hnodes, hg.aliasLinks?_eq, hg.aliasClasses?_eq,
    Option.bind_eq_bind, Option.bind_some, (hg.untouched _).foldlM_settle?]
  cases thread? (fun cls space => cls.assign? graph space)
    (graph.settlingOrder.map graph.aliasClassOf)
    (.ofScopes (graph.treeAfter config.scoping graph.visited) 1) <;> rfl

/-- Renaming and logging as a pass goes along leaves the graph and the report of the pass that
plans all renames first. -/
theorem settleNames?_eq (config : Config) :
    graph.settleNames? config = graph.resolveNames? config := by
  unfold settleNames? resolveNames?
  rw [settleFriendlyNames?_eq]
  cases hrun : graph.resolveFriendlyNames? config with
  | none => rfl
  | some done =>
    have hmiddle := hg.of_shape (shape_resolveFriendlyNames? hrun).symm
    simp only [Option.bind_eq_bind, Option.bind_some, hmiddle.settleAliases?_eq]

end Graph.WellFormed

end GraphNaming
