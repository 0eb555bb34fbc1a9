import GraphNaming.Proofs.FriendlySpec

/-!
# Which occurrence of a friendly name stays

Under strict settings the class that is first to carry a name on entry keeps it, unless a class
before it has been given that very name as a numbered one. Nothing is kept free for names to come.

* `Graph.FirstNamed`: the first visit to a node with a given name; `exists_firstNamed`.
* `FriendlySpec.mem_namesBefore_iff`: what is blocked for a class, told by earlier visits.
* `FriendlySpec.text_eq_iff`: when a class keeps its name.
* `FriendlySpec.numbered_of_renamed`: which names are given out.
* `Reachable.firstOccurrence_kept_iff`: when the first occurrence of a name stays in a strict pass.
* `firstOccurrence_displaced`: a first occurrence that does not stay.
-/

namespace GraphNaming.Graph

variable {graph after : Graph} {config : Config} {walk : Walk} {name : String}

/-- The visit is the first one to a node called `name`. -/
def FirstNamed (graph : Graph) (walk : Walk) (name : String) (visit : Visit) : Prop :=
  visit ∈ walk.visits ∧ graph.friendlyText? visit.node = some name ∧
    ∀ earlier, Before walk.visits earlier visit → graph.friendlyText? earlier.node ≠ some name

theorem exists_firstNamed (hn : walk.visits.Nodup) {id : NodeId} (hid : id ∈ walk.nodes)
    (hname : graph.friendlyText? id = some name) : ∃ visit, graph.FirstNamed walk name visit := by
  have hnamed : ∀ visit ∈ walk.visits, graph.friendlyText? visit.node = some name →
      ∃ first, graph.FirstNamed walk name first := by
    refine Before.induct hn fun visit hv ih hname => ?_
    by_cases hfirst : ∀ earlier, Before walk.visits earlier visit →
        graph.friendlyText? earlier.node ≠ some name
    · exact ⟨visit, hv, hname, hfirst⟩
    · simp only [not_forall, not_not] at hfirst
      obtain ⟨earlier, hb, hearlier⟩ := hfirst
      exact ih earlier hb hearlier
  obtain ⟨visit, hv, rfl⟩ := List.mem_map.1 hid
  exact hnamed visit hv hname

/-- The first node called `name` is the first of its class, which carries that name too. -/
theorem FirstNamed.isFirst {visit : Visit} (hf : graph.FirstNamed walk name visit) :
    graph.friendlyPartition.IsFirst (·.node) walk.visits visit := by
  obtain ⟨hv, hname, hfirst⟩ := hf
  refine ⟨hv, fun earlier hb => ?_⟩
  rw [← Bool.not_eq_true]
  exact fun hr => hfirst earlier hb ((friendlyText?_of_related hr).trans hname)

namespace FriendlySpec

variable (h : graph.FriendlySpec config walk graph.friendlyPartition after)
  (hn : walk.visits.Nodup) (hstrict : config.strict = true)
include h hn

/-- Every visited node goes by the name of the first visit to its class, which is no later. -/
theorem exists_isFirst {visit : Visit} (hv : visit ∈ walk.visits) :
    ∃ rival, graph.friendlyPartition.IsFirst (·.node) walk.visits rival ∧
      (rival = visit ∨ Before walk.visits rival visit) ∧
      graph.friendlyText? rival.node = graph.friendlyText? visit.node ∧
      after.friendlyText? visit.node = after.friendlyText? rival.node := by
  obtain ⟨rival, hl, hr, hb⟩ : ∃ rival ∈ graph.friendlyPartition.leaders (·.node) walk.visits,
      graph.friendlyPartition.related rival.node visit.node = true ∧
        (rival = visit ∨ Before walk.visits rival visit) := Partition.exists_leader hv
  have hfirst := (Partition.mem_leaders_iff hn).1 hl
  exact ⟨rival, hfirst, hb, friendlyText?_of_related hr,
    h.linked rival hfirst _ (valid_friendlyPartition.mem_classOf.2 hr)⟩

include hstrict

/-- Under strict settings the names before a class are those of the nodes visited earlier. -/
theorem mem_namesBefore_iff {visit : Visit} :
    name ∈ graph.namesBefore config walk graph.friendlyPartition after visit ↔
      ∃ earlier, Before walk.visits earlier visit ∧
        after.friendlyText? earlier.node = some name := by
  constructor
  · rintro ⟨rival, -, hb, hname⟩
    rw [NamedBefore, if_pos hstrict] at hb
    exact ⟨rival, hb, hname⟩
  · rintro ⟨earlier, hb, hname⟩
    obtain ⟨rival, hfirst, hle, -, htext⟩ := h.exists_isFirst hn hb.left_mem
    refine ⟨rival, hfirst, ?_, htext ▸ hname⟩
    rw [NamedBefore, if_pos hstrict]
    rcases hle with rfl | hlt
    · exact hb
    · exact hlt.trans hn hb

/-- A class keeps its name just when no node visited earlier ends up with it. -/
theorem text_eq_iff {visit : Visit}
    (hfirst : graph.friendlyPartition.IsFirst (·.node) walk.visits visit)
    (hname : graph.friendlyText? visit.node = some name) :
    after.friendlyText? visit.node = some name ↔ ∀ earlier, Before walk.visits earlier visit →
      after.friendlyText? earlier.node ≠ some name := by
  obtain ⟨old, new, hold, hnew, hchosen⟩ :=
    h.named visit hfirst fun hlenient => by rw [hstrict] at hlenient; cases hlenient
  obtain rfl : name = old := Option.some.inj (hname.symm.trans hold)
  rw [hnew, Option.some.injEq, hchosen.eq_iff, h.mem_namesBefore_iff hn hstrict]
  simp only [not_exists, not_and]

/-- A node that does not keep its name ends up with that name and a number. -/
theorem numbered_of_renamed {visit : Visit} (hv : visit ∈ walk.visits)
    (hnew : after.friendlyText? visit.node = some name)
    (hold : graph.friendlyText? visit.node ≠ some name) :
    ∃ base n, graph.friendlyText? visit.node = some base ∧ 1 ≤ n ∧
      name = numberedName base "" n := by
  obtain ⟨rival, hfirst, -, hbase, htext⟩ := h.exists_isFirst hn hv
  obtain ⟨base, new, hbase', hnew', hchosen⟩ :=
    h.named rival hfirst fun hlenient => by rw [hstrict] at hlenient; cases hlenient
  rw [hbase] at hbase'
  obtain rfl : new = name := Option.some.inj (hnew'.symm.trans (htext.symm.trans hnew))
  have hne : new ≠ base := fun heq => hold (heq ▸ hbase')
  obtain ⟨n, hle, hnumber, -⟩ := hchosen.numbered hne
  rw [if_pos hstrict] at hle
  exact ⟨base, n, hbase', hle, hnumber⟩

end FriendlySpec

/-- Under strict settings each name on entry has a first visit. Its class keeps the name just when
no node visited before it ends up with it. One that does had another name, and got this one by
putting a number to its own. -/
theorem Reachable.firstOccurrence_kept_iff (hr : graph.Reachable) (hstrict : config.strict = true) :
    ∃ walk links diverging, graph.walk? config.friendlyScoping = some walk ∧
      graph.friendlyLinks? walk.nodes = some (links, diverging) ∧
      (walk.visits.length < maxSuffix →
        ∃ report after, graph.resolveFriendlyNames? config = some (report, after)) ∧
      ∀ report after, graph.resolveFriendlyNames? config = some (report, after) →
        ∀ id ∈ walk.nodes, ∀ name, graph.friendlyText? id = some name →
          ∃ visit, graph.FirstNamed walk name visit ∧
            ((∀ member ∈ links.classOf visit.node, after.friendlyText? member = some name) ↔
              ∀ earlier, Before walk.visits earlier visit →
                after.friendlyText? earlier.node ≠ some name) ∧
            ∀ earlier, Before walk.visits earlier visit →
              after.friendlyText? earlier.node = some name →
                ∃ base n, graph.friendlyText? earlier.node = some base ∧ 1 ≤ n ∧
                  name = numberedName base "" n := by
  have hg := hr.wellFormed
  have hn := hg.nodup_visits
  obtain ⟨diverging, hlinks⟩ := hg.friendlyLinks?_eq
  have hnodes := hg.nodes_of_walk? (hg.walk?_eq config.friendlyScoping)
  refine ⟨_, graph.friendlyPartition, diverging, hg.walk?_eq config.friendlyScoping, ?_, ?_, ?_⟩
  · rw [hnodes]
    exact hlinks
  · intro hfew
    exact hg.exists_resolveFriendlyNames? config (by simpa using hfew)
  · intro report after h id hid name hname
    have hspec := hg.friendlySpec h
    obtain ⟨visit, hf⟩ := exists_firstNamed hn hid hname
    refine ⟨visit, hf, ?_, fun earlier hb hearlier => ?_⟩
    · rw [← hspec.text_eq_iff hn hstrict hf.isFirst hf.2.1]
      constructor
      · exact fun hall =>
          hall _ (valid_friendlyPartition.mem_classOf.2 (Partition.related_refl _ _))
      · intro htext member hm
        exact (hspec.linked visit hf.isFirst member hm).trans htext
    · exact hspec.numbered_of_renamed hn hstrict hb.left_mem hearlier (hf.2.2 earlier hb)

/-- In the conditional the name that the user gave to an operation of the first branch stays there
under strict settings, and the operation of the other branch makes way for it. -/
theorem firstOccurrence_kept_conditional :
    ∃ walk links diverging report after visit,
      conditional.walk? .flattened = some walk ∧
      conditional.friendlyLinks? walk.nodes = some (links, diverging) ∧
      conditional.resolveFriendlyNames? { strict := true } = some (report, after) ∧
      conditional.FirstNamed walk "Split_6" visit ∧
      (∀ member ∈ links.classOf visit.node, after.friendlyText? member = some "Split_6") ∧
      after.friendlyText? ⟨6⟩ = some "Split_6_1" := by
  have hrun : (conditional.resolveFriendlyNames? { strict := true }).any fun run =>
      run.2.friendlyText? ⟨6⟩ = some "Split_6_1" ∧
      ∃ walk ∈ conditional.walk? .flattened, ⟨6⟩ ∈ walk.nodes ∧ ∀ visit ∈ walk.visits,
        run.2.friendlyText? visit.node = some "Split_6" →
          conditional.friendlyText? visit.node = some "Split_6" := by decide +kernel
  obtain ⟨⟨report, after⟩, h, hfacts⟩ := (Option.any_eq_true _ _).1 hrun
  obtain ⟨hother, walk, hwalk, hmem, honly⟩ := of_decide_eq_true hfacts
  obtain ⟨walk', links, diverging, hwalk', hlinks, -, hall⟩ :=
    @Reachable.firstOccurrence_kept_iff conditional { strict := true } reachable_conditional rfl
  obtain rfl : walk = walk' := Option.some.inj (hwalk.symm.trans hwalk')
  obtain ⟨visit, hf, hkept, -⟩ := hall report after h ⟨6⟩ hmem "Split_6" (by decide +kernel)
  exact ⟨walk, links, diverging, report, after, visit, hwalk, hlinks, h, hf,
    hkept.2 fun earlier hb htext => hf.2.2 earlier hb (honly earlier hb.left_mem htext), hother⟩

/-- The user names two parameters `S` and a third one `S_1`. Under strict settings the second is
given the name `S_1`, so the only node that has had it loses it. -/
theorem firstOccurrence_displaced :
    ∃ graph walk report after,
      Call.runAll? [.addParameter .root, .addParameter .root, .addParameter .root,
        .setFriendlyName ⟨0⟩ "S", .setFriendlyName ⟨1⟩ "S", .setFriendlyName ⟨2⟩ "S_1"]
        (.new "main") = some graph ∧ graph.Reachable ∧
      graph.walk? .flattened = some walk ∧
      graph.resolveFriendlyNames? { strict := true } = some (report, after) ∧
      ⟨2⟩ ∈ walk.nodes ∧ (∀ id ∈ walk.nodes, graph.friendlyText? id = some "S_1" ↔ id = ⟨2⟩) ∧
      graph.isUserNamed ⟨2⟩ = true ∧ after.friendlyText? ⟨1⟩ = some "S_1" ∧
      after.friendlyText? ⟨2⟩ = some "S_1_1" := by
  have hrun : (Call.runAll? [.addParameter .root, .addParameter .root, .addParameter .root,
      .setFriendlyName ⟨0⟩ "S", .setFriendlyName ⟨1⟩ "S", .setFriendlyName ⟨2⟩ "S_1"]
      (.new "main")).any fun graph =>
        (graph.resolveFriendlyNames? { strict := true }).any fun run =>
          (∃ walk ∈ graph.walk? .flattened, ⟨2⟩ ∈ walk.nodes ∧
            ∀ id ∈ walk.nodes, graph.friendlyText? id = some "S_1" ↔ id = ⟨2⟩) ∧
          graph.isUserNamed ⟨2⟩ = true ∧ run.2.friendlyText? ⟨1⟩ = some "S_1" ∧
          run.2.friendlyText? ⟨2⟩ = some "S_1_1" := by decide +kernel
  obtain ⟨graph, h, hresolved⟩ := (Option.any_eq_true _ _).1 hrun
  obtain ⟨⟨report, after⟩, hresolved, hfacts⟩ := (Option.any_eq_true _ _).1 hresolved
  obtain ⟨⟨walk, hwalk, hmem, honly⟩, huser, hsecond, hthird⟩ := of_decide_eq_true hfacts
  exact ⟨graph, walk, report, after, h, (Reachable.new "main").runAll? h, hwalk, hresolved, hmem,
    honly, huser, hsecond, hthird⟩

end GraphNaming.Graph
