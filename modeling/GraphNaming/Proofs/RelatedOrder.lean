import GraphNaming.Proofs.Findings

/-!
# The order of related nodes

The nodes that a finding is about are listed in the order of the walk, but for a name that was set
more than once: then they are all members of a class, in the order in which links brought them
together.

* `Partition.LinkedInOrder`: which of two keys comes first in a class; `before_classOf_join` for
  one pair, `before_classOf_joinAll` for all of them.
* `LinkedInOrder.before`: the members of the classes are in the order of a list if the second keys
  of the pairs are.
* `Graph.linkedPairs`: the nodes that the bindings link, as they are scanned.
* `Reachable.related_in_order`: what the order of the related nodes of every finding is.
* `related_out_of_order`: a class that is not listed in the order of the walk.
-/

namespace GraphNaming

namespace Partition

variable {α : Type} [DecidableEq α] {partition : Partition α} {pairs : List (α × α)} {a b u v : α}

/-! ## The order in a class -/

/-- A chain of pairs leads from `x` to `y`. -/
def Linked (pairs : List (α × α)) (x y : α) : Prop :=
  Relation.EqvGen (fun x y => (x, y) ∈ pairs) x y

/-- The pair that first links `u` with `v` does so from the side of `u`: its first key was linked
with `u` before, and its second one with `v`. -/
def LinkedInOrder (pairs : List (α × α)) (u v : α) : Prop :=
  ∃ earlier a b later, pairs = earlier ++ (a, b) :: later ∧ ¬ Linked earlier u v ∧
    Linked earlier a u ∧ Linked earlier b v

/-- A pair puts what is linked with its second key after all that is linked with its first. -/
theorem before_classOf_join (hp : partition.Valid) :
    Before ((partition.join a b).classOf u) u v ↔ Before (partition.classOf u) u v ∨
      partition.related u v = false ∧ partition.related a u = true ∧
        partition.related b v = true := by
  by_cases hab : partition.related a b = true
  · rw [join_of_related hab, or_iff_left]
    rintro ⟨huv, ha, hb⟩
    rw [related_trans (related_symm ha) (related_trans hab hb)] at huv
    cases huv
  · rw [Bool.not_eq_true] at hab
    have hapart {x : α} (ha : partition.related a x = true) (hb : partition.related b x = true) :
        False := by
      rw [related_trans ha (related_symm hb)] at hab
      cases hab
    -- The class of `u` is that of `a`, that of `b`, or a third one. Only in the first case does
    -- anything come after `u` that did not before.
    by_cases ha : partition.related a u = true
    · have huv (hb : partition.related b v = true) : partition.related u v = false := by
        rw [← Bool.not_eq_true]
        exact fun huv => hapart (related_trans ha huv) hb
      have hb : ¬ Before (partition.classOf b) u v := fun h =>
        hapart ha (hp.mem_classOf.1 h.left_mem)
      rw [classOf_join_of_related hp hab (.inl ha), Before.append_iff, hp.mem_classOf,
        hp.mem_classOf, ← hp.related_iff.1 ha]
      simp only [ha, hb, true_and, or_false]
      exact or_congr_right ⟨fun h => ⟨huv h, h⟩, And.right⟩
    · by_cases hb : partition.related b u = true
      · have hA : ¬ Before (partition.classOf a) u v := fun h =>
          ha (hp.mem_classOf.1 h.left_mem)
        rw [classOf_join_of_related hp hab (.inr hb), Before.append_iff, hp.mem_classOf,
          ← hp.related_iff.1 hb]
        simp [ha, hA]
      · rw [Bool.not_eq_true] at ha hb
        rw [classOf_join_of_apart hp hab ha hb]
        simp [ha]

/-- One key comes before another in a class if it did from the start, or if some pair put it
there. -/
theorem before_classOf_joinAll (hp : partition.Valid) :
    Before ((partition.joinAll pairs).classOf u) u v ↔ Before (partition.classOf u) u v ∨
      ∃ earlier a b later, pairs = earlier ++ (a, b) :: later ∧
        (partition.joinAll earlier).related u v = false ∧
        (partition.joinAll earlier).related a u = true ∧
        (partition.joinAll earlier).related b v = true := by
  induction pairs generalizing partition with
  | nil => simp [joinAll]
  | cons pair pairs ih =>
    obtain ⟨a, b⟩ := pair
    rw [joinAll, List.foldl_cons, ← joinAll, ih (hp.join a b), before_classOf_join hp, or_assoc]
    refine or_congr_right ⟨?_, ?_⟩
    · rintro (hfirst | ⟨earlier, a', b', later, rfl, hlinked⟩)
      · exact ⟨[], a, b, pairs, rfl, hfirst⟩
      · exact ⟨(a, b) :: earlier, a', b', later, rfl, hlinked⟩
    · rintro ⟨earlier, a', b', later, heq, hlinked⟩
      cases earlier with
      | nil =>
        cases heq
        exact .inl hlinked
      | cons pair earlier =>
        cases heq
        exact .inr ⟨earlier, a', b', later, rfl, hlinked⟩

/-- In the classes that pairs bring about, the keys stand in the order in which they were linked. -/
theorem before_classOf_joinAll_empty :
    Before (((empty : Partition α).joinAll pairs).classOf u) u v ↔ LinkedInOrder pairs u v := by
  have halone : ¬ Before ((empty : Partition α).classOf u) u v := by
    simp [classOf, empty, Before]
  rw [before_classOf_joinAll valid_empty, or_iff_right halone]
  simp only [LinkedInOrder, Linked, ← related_joinAll_empty, Bool.not_eq_true]

/-! ## A list of all keys -/

section Order

variable {order : List α} (hn : order.Nodup) (hpairs : ∀ pair ∈ pairs, Before order pair.1 pair.2)
  (hs : (pairs.map (·.2)).Sublist order)
include hn hpairs hs

omit [DecidableEq α] in
/-- If every pair leads forward in a list, and the second keys come as they do there, then so do all
the keys that are linked. -/
theorem LinkedInOrder.before (h : LinkedInOrder pairs u v) : Before order u v := by
  obtain ⟨earlier, a, b, later, rfl, -, hau, hbv⟩ := h
  have hab : Before order a b := hpairs (a, b) (by simp)
  -- The keys of the earlier pairs come before `b`, so nothing is linked with `b` but itself.
  have hsecond : ∀ pair ∈ earlier, Before order pair.2 b := by
    intro pair hp
    refine Before.mono ?_ hs
    rw [List.map_append, List.map_cons]
    exact Before.append (List.mem_map_of_mem hp) List.mem_cons_self
  have hfirst : ∀ pair ∈ earlier, Before order pair.1 b := fun pair hp =>
    (hpairs pair (List.mem_append_left _ hp)).trans hn (hsecond pair hp)
  have hv : b = v := by
    rw [Linked, ← Relation.EqvGen.reflTransGen_symmGen] at hbv
    rcases hbv.cases_head with hv | ⟨next, h | h, -⟩
    · exact hv
    · exact absurd (hfirst _ h) (Before.irrefl hn)
    · exact absurd (hsecond _ h) (Before.irrefl hn)
  rw [Linked, ← Relation.EqvGen.reflTransGen_symmGen] at hau
  rw [← hv]
  rcases hau.cases_tail with rfl | ⟨previous, -, h | h⟩
  · exact hab
  · exact hsecond _ h
  · exact hfirst _ h

end Order

end Partition

namespace Graph

variable {graph after : Graph} {config : Config} {report : Report}

/-- The nodes that the shared bindings of `nodes` link, binding by binding: by owner, then by
region, then as declared. The outer node is first in each pair. -/
def linkedPairs (graph : Graph) (nodes : List NodeId) : List (NodeId × NodeId) :=
  ((graph.sharedBindingsAmong nodes).filter graph.agrees).map fun binding =>
    ((graph.source binding.outer).node, binding.inner)

/-- What the related nodes of a finding are, and their order, where `nodes` are those visited. -/
structure ListsRelated (graph : Graph) (nodes : List NodeId) (finding : Diagnostic) : Prop where
  nodup : finding.related.Nodup
  visited : ∀ id ∈ finding.related, id ∈ nodes
  /-- Unless a name was set more than once, they are in the order of the walk. -/
  walked : finding.code ≠ some .repeatedUserName → finding.related.Sublist nodes
  /-- If one was, they are in the order in which they were linked. -/
  linked : finding.code = some .repeatedUserName → ∀ u v, Before finding.related u v ↔
    u ∈ finding.related ∧ Partition.LinkedInOrder (graph.linkedPairs nodes) u v
  /-- That is the order of the walk if parameters are linked in that order. -/
  ordered : ((graph.linkedPairs nodes).map (·.2)).Sublist nodes → finding.related.Sublist nodes

theorem ListsRelated.of_sublist {nodes : List NodeId} {finding : Diagnostic} (hn : nodes.Nodup)
    (hcode : finding.code ≠ some .repeatedUserName) (hs : finding.related.Sublist nodes) :
    graph.ListsRelated nodes finding where
  nodup := hn.sublist hs
  visited _ hid := hs.subset hid
  walked _ := hs
  linked h := absurd h hcode
  ordered _ := hs

/-! ## Classes -/

/-- The members of a class stand in the order in which they were linked. -/
theorem before_classOf_iff {id u v : NodeId} : Before (graph.friendlyPartition.classOf id) u v ↔
    u ∈ graph.friendlyPartition.classOf id ∧
      Partition.LinkedInOrder (graph.linkedPairs graph.visited) u v := by
  have horder : Before (graph.friendlyPartition.classOf u) u v ↔
      Partition.LinkedInOrder (graph.linkedPairs graph.visited) u v :=
    Partition.before_classOf_joinAll_empty
  rw [← horder]
  constructor
  · intro h
    rw [valid_friendlyPartition.classOf_of_mem h.left_mem]
    exact ⟨h.left_mem, h⟩
  · rintro ⟨hu, h⟩
    rwa [valid_friendlyPartition.classOf_of_mem hu] at h

namespace WellFormed

variable (hg : graph.WellFormed)
include hg

/-- What is bound to a parameter of a region is visited before the parameter. -/
theorem before_of_sharedBinding {binding : InputBinding} (hb : binding ∈ graph.sharedBindings) :
    Before graph.visited (graph.source binding.outer).node binding.inner := by
  obtain ⟨owner, hv, region, hr, hmem, -⟩ := mem_sharedBindings.1 hb
  have hcross := hg.crosses_input hv hr hmem
  exact hcross.before hg hcross.inner_visited rfl

theorem before_of_linkedPair :
    ∀ pair ∈ graph.linkedPairs graph.visited, Before graph.visited pair.1 pair.2 := by
  intro pair hp
  obtain ⟨binding, hb, rfl⟩ := List.mem_map.1 hp
  exact hg.before_of_sharedBinding (List.mem_of_mem_filter hb)

/-! ## Findings -/

section Findings

variable {visit : Visit} (hv : visit.node ∈ graph.visited)
include hv

theorem listsRelated_repeatedAt :
    graph.ListsRelated graph.visited (graph.repeatedAt graph.friendlyPartition visit) where
  nodup := valid_friendlyPartition.nodup_classOf visit.node
  visited _ hid := hg.visited_of_friendly hv (valid_friendlyPartition.mem_classOf.1 hid)
  walked h := absurd rfl h
  linked _ _ _ := before_classOf_iff
  ordered hs := by
    refine sublist_of_before hg.covers_visited.nodup
      (valid_friendlyPartition.nodup_classOf visit.node) (fun _ hid => ?_) fun u v hb => ?_
    · exact hg.visited_of_friendly hv (valid_friendlyPartition.mem_classOf.1 hid)
    · exact (before_classOf_iff.1 hb).2.before hg.covers_visited.nodup hg.before_of_linkedPair hs

theorem listsRelated_replacedAt :
    graph.ListsRelated graph.visited (graph.replacedAt graph.friendlyPartition after visit) := by
  refine .of_sublist hg.covers_visited.nodup (by decide : some _ ≠ some _) ?_
  have hmem := Partition.representative_mem graph.friendlyPartition visit.node
  exact List.singleton_sublist.2
    (hg.visited_of_friendly hv (valid_friendlyPartition.mem_classOf.1 hmem))

end Findings

theorem listsRelated_findings (tree : ScopeTree) (strict : Bool) :
    ∀ finding ∈ graph.findings ⟨graph.visited.map graph.visitOf, tree⟩ graph.friendlyPartition
      strict after, graph.ListsRelated graph.visited finding := by
  have huser : ∀ visit ∈ graph.userVisits ⟨graph.visited.map graph.visitOf, tree⟩
      graph.friendlyPartition, visit.node ∈ graph.visited := by
    intro visit hv
    obtain ⟨id, hid, rfl⟩ := List.mem_map.1 (List.mem_of_mem_filter hv)
    exact hid
  intro finding hf
  rw [findings, ← divergences_eq] at hf
  rcases List.mem_append.1 hf with hf | hf
  · obtain ⟨binding, hb, rfl⟩ := List.mem_map.1 hf
    exact .of_sublist hg.covers_visited.nodup (by decide : some _ ≠ some _)
      (hg.before_of_sharedBinding (List.mem_of_mem_filter hb))
  · split at hf
    · obtain ⟨visit, hv, rfl⟩ := List.mem_map.1 hf
      exact hg.listsRelated_replacedAt (huser visit (List.mem_of_mem_filter hv))
    · obtain ⟨visit, hv, rfl⟩ := List.mem_map.1 hf
      exact hg.listsRelated_repeatedAt (huser visit (List.mem_of_mem_filter hv))

end WellFormed

/-- In every finding of a pass the related nodes are different ones that are visited. They are in
the order of the walk, unless a name was set more than once: then they are in the order in which
the bindings link them, which is that of the walk if parameters are linked in that order. -/
theorem Reachable.related_in_order (hr : graph.Reachable)
    (h : graph.resolveNames? config = some (report, after)) (scoping : Scoping) :
    ∃ walk, graph.walk? scoping = some walk ∧
      ∀ finding ∈ report.diagnostics, graph.ListsRelated walk.nodes finding := by
  have hg := hr.wellFormed
  obtain ⟨friendly, middle, aliases, hf, ha, rfl⟩ := resolveNames?_eq_some.1 h
  obtain ⟨walk, hwalk, hnodes⟩ := hg.exists_walk scoping
  refine ⟨walk, hwalk, ?_⟩
  rw [hnodes, Report.diagnostics_append, diagnostics_resolveAliases? ha, List.append_nil,
    hg.diagnostics_resolveFriendlyNames? hf]
  exact hg.listsRelated_findings _ _

/-- Two nodes to which the user gives one name, and a region with two parameters that mirror the
second of them, bound in the given order. -/
def mirroringCalls (first second : NodeId) : List Call :=
  [.addParameter .root, .addParameter .root, .setFriendlyName ⟨0⟩ "S", .setFriendlyName ⟨1⟩ "S",
    .addModel "body", .addSharedParameter ⟨1⟩ ⟨⟨1⟩, 0⟩, .addSharedParameter ⟨1⟩ ⟨⟨1⟩, 0⟩,
    .addOwner .root "Loop" []
      [⟨⟨1⟩, [⟨⟨⟨1⟩, 0⟩, first, .shared⟩, ⟨⟨⟨1⟩, 0⟩, second, .shared⟩], []⟩] false 1,
    .addResult .root ⟨⟨4⟩, 0⟩]

/-- If the two parameters are bound in the order in which they were added, the class is listed as
it is visited. -/
theorem related_in_order_mirroring : ∃ graph report after walk,
    Call.runAll? (mirroringCalls ⟨2⟩ ⟨3⟩) (.new "main") = some graph ∧
      graph.resolveNames? {} = some (report, after) ∧ graph.walk? .exclusive = some walk ∧
      ∃ finding ∈ report.diagnostics, finding.code = some .repeatedUserName ∧
        finding.related = [⟨1⟩, ⟨2⟩, ⟨3⟩] ∧ finding.related.Sublist walk.nodes := by
  have hrun : (Call.runAll? (mirroringCalls ⟨2⟩ ⟨3⟩) (.new "main")).any fun graph =>
      (graph.resolveNames? {}).any (fun run => ∃ finding ∈ run.1.diagnostics,
        finding.code = some .repeatedUserName ∧ finding.related = [⟨1⟩, ⟨2⟩, ⟨3⟩]) ∧
      (graph.walk? .exclusive).any fun walk =>
        ((graph.linkedPairs walk.nodes).map (·.2)).Sublist walk.nodes := by
    decide +kernel
  obtain ⟨graph, hcalls, hfacts⟩ := (Option.any_eq_true _ _).1 hrun
  obtain ⟨hpass, hwalked⟩ := of_decide_eq_true hfacts
  obtain ⟨⟨report, after⟩, h, hfinding⟩ := (Option.any_eq_true _ _).1 hpass
  obtain ⟨finding, hf, hcode, hrelated⟩ := of_decide_eq_true hfinding
  obtain ⟨walk, hwalk, hlists⟩ :=
    ((Reachable.new "main").runAll? hcalls).related_in_order h .exclusive
  rw [hwalk, Option.any_some] at hwalked
  exact ⟨graph, report, after, walk, hcalls, h, hwalk, finding, hf, hcode, hrelated,
    (hlists finding hf).ordered (of_decide_eq_true hwalked)⟩

/-- If they are bound the other way round, the class is listed in that order, and not as it is
visited. -/
theorem related_out_of_order : ∃ graph report after walk,
    Call.runAll? (mirroringCalls ⟨3⟩ ⟨2⟩) (.new "main") = some graph ∧
      graph.resolveNames? {} = some (report, after) ∧ graph.walk? .exclusive = some walk ∧
      walk.nodes = [⟨0⟩, ⟨1⟩, ⟨4⟩, ⟨2⟩, ⟨3⟩, ⟨5⟩] ∧ ∃ finding ∈ report.diagnostics,
        finding.related = [⟨1⟩, ⟨3⟩, ⟨2⟩] ∧ ¬ finding.related.Sublist walk.nodes := by
  have hrun : (Call.runAll? (mirroringCalls ⟨3⟩ ⟨2⟩) (.new "main")).any fun graph =>
      (graph.resolveNames? {}).any (fun run =>
        ∃ finding ∈ run.1.diagnostics, finding.related = [⟨1⟩, ⟨3⟩, ⟨2⟩]) ∧
      (graph.walk? .exclusive).any fun walk =>
        walk.nodes = [⟨0⟩, ⟨1⟩, ⟨4⟩, ⟨2⟩, ⟨3⟩, ⟨5⟩] := by
    decide +kernel
  obtain ⟨graph, hcalls, hfacts⟩ := (Option.any_eq_true _ _).1 hrun
  obtain ⟨hpass, hwalked⟩ := of_decide_eq_true hfacts
  obtain ⟨⟨report, after⟩, h, hfinding⟩ := (Option.any_eq_true _ _).1 hpass
  obtain ⟨finding, hf, hrelated⟩ := of_decide_eq_true hfinding
  obtain ⟨walk, hwalk, hnodes⟩ := (Option.any_eq_true _ _).1 hwalked
  have hnodes := of_decide_eq_true hnodes
  refine ⟨graph, report, after, walk, hcalls, h, hwalk, hnodes, finding, hf, hrelated, ?_⟩
  rw [hrelated, hnodes]
  decide

end Graph

end GraphNaming
