import GraphNaming.Proofs.Walk

/-!
# Exclusive scopes

Two scopes of a walk are exclusive just when their models lie in different regions of one visited
owner of which at most one region is run.

* `ScopePath.exclusive_map`: paths that part at two alternatives.
* `Graph.Alternatives`: two models that are never run together.
* `WellFormed.exclusive?_iff`: their scopes are exclusive, and no others.
-/

namespace GraphNaming

/-- Paths are exclusive if they part at two steps of one group. -/
theorem ScopePath.exclusive_map {α : Type} {step : α → ScopeStep} {xs ys : List α}
    (hinj : ∀ x ∈ xs, ∀ y ∈ ys, (step x).scope = (step y).scope → x = y) :
    ScopePath.exclusive (xs.map step) (ys.map step) = true ↔
      ∃ common x y, common ++ [x] <+: xs ∧ common ++ [y] <+: ys ∧ x ≠ y ∧
        (step x).group.isSome ∧ (step x).group = (step y).group := by
  induction xs generalizing ys with
  | nil => simp [exclusive]
  | cons a xs ih =>
    cases ys with
    | nil => simp [exclusive]
    | cons b ys =>
      simp only [List.map_cons, exclusive]
      by_cases hab : a = b
      -- A common first step: the paths part where their tails do, and no fork is at the front.
      · subst hab
        rw [if_pos rfl, ih fun x hx y hy => hinj x (.tail _ hx) y (.tail _ hy)]
        constructor
        · rintro ⟨common, x, y, hx, hy, hrest⟩
          exact ⟨a :: common, x, y, List.cons_prefix_cons.2 ⟨rfl, hx⟩,
            List.cons_prefix_cons.2 ⟨rfl, hy⟩, hrest⟩
        · rintro ⟨common, x, y, hx, hy, hne, hrest⟩
          cases common with
          | nil =>
            exact absurd ((List.cons_prefix_cons.1 hx).1.trans (List.cons_prefix_cons.1 hy).1.symm)
              hne
          | cons c common =>
            exact ⟨common, x, y, (List.cons_prefix_cons.1 hx).2, (List.cons_prefix_cons.1 hy).2,
              hne, hrest⟩
      · rw [if_neg fun h => hab (hinj a (.head _) b (.head _) h), Bool.and_eq_true, beq_iff_eq]
        constructor
        · rintro ⟨hsome, heq⟩
          exact ⟨[], a, b, by simp, by simp, hab, hsome, heq⟩
        · rintro ⟨common, x, y, hx, hy, -, hsome, heq⟩
          cases common with
          | nil =>
            obtain ⟨rfl, -⟩ := List.cons_prefix_cons.1 hx
            obtain ⟨rfl, -⟩ := List.cons_prefix_cons.1 hy
            exact ⟨hsome, heq⟩
          | cons c common =>
            exact absurd ((List.cons_prefix_cons.1 hx).1.symm.trans (List.cons_prefix_cons.1 hy).1)
              hab

namespace Graph

variable {graph after : Graph}

/-- Among `nodes` there is an owner that runs at most one of its regions, and `a` and `b` lie in
two of them. -/
def Alternatives (graph : Graph) (nodes : List NodeId) (a b : ModelId) : Prop :=
  ∃ owner ∈ nodes, ∃ node, graph.node? owner = some node ∧ node.isExclusive = true ∧
    ∃ region ∈ node.regions, ∃ region' ∈ node.regions, region.model ≠ region'.model ∧
      graph.Within a region.model ∧ graph.Within b region'.model

/-- The ways to `a` and `b` part at two steps of one group. -/
def Forks (graph : Graph) (scoping : Scoping) (a b : ModelId) : Prop :=
  ∃ common x y, common ++ [x] <+: graph.route a ∧ common ++ [y] <+: graph.route b ∧ x ≠ y ∧
    (graph.stepTo scoping x).group.isSome ∧
    (graph.stepTo scoping x).group = (graph.stepTo scoping y).group

namespace Alternatives

variable {nodes : List NodeId} {a b a' b' : ModelId}

/-- What lies in alternatives are alternatives. -/
theorem mono (h : graph.Alternatives nodes a b) (ha : graph.Within a' a) (hb : graph.Within b' b) :
    graph.Alternatives nodes a' b' := by
  obtain ⟨owner, ho, node, hn, hx, region, hr, region', hr', hne, ha', hb'⟩ := h
  exact ⟨owner, ho, node, hn, hx, region, hr, region', hr', hne, ha.trans ha', hb.trans hb'⟩

end Alternatives

theorem Within.of_shape (h : graph.shape = after.shape) {inner outer : ModelId}
    (hw : graph.Within inner outer) : after.Within inner outer := by
  unfold Within at hw ⊢
  simpa only [parent?_of_shape h] using hw

theorem Alternatives.of_shape (h : graph.shape = after.shape) {nodes : List NodeId} {a b : ModelId}
    (ha : graph.Alternatives nodes a b) : after.Alternatives nodes a b := by
  obtain ⟨owner, ho, node, hn, hx, region, hr, region', hr', hne, ha, hb⟩ := ha
  obtain ⟨node', hn', hs⟩ := node?_of_shape h hn
  have hregions := regions_of_shape hs
  exact ⟨owner, ho, node', hn', (isExclusive_of_shape hs).trans hx, region, hregions ▸ hr, region',
    hregions ▸ hr', hne, ha.of_shape h, hb.of_shape h⟩

namespace WellFormed

variable (hg : graph.WellFormed)
include hg

theorem alternatives_irrefl {nodes : List NodeId} {a : ModelId} :
    ¬ graph.Alternatives nodes a a := by
  rintro ⟨owner, -, node, hn, -, region, hr, region', hr', hne, ha, hb⟩
  exact hne (hg.sibling_unique (hg.parent?_of_region hn hr) (hg.parent?_of_region hn hr') ha hb)

/-! ## Models that have a scope -/

theorem model_exists_of_scoped {id : ModelId} (h : id ∈ graph.scopeModels graph.visited) :
    ∃ model, graph.model? id = some model := by
  rcases mem_scopeModels.1 h with rfl | ⟨owner, -, ho⟩
  · exact hg.hasRoot
  · exact hg.model_exists_of_owns ho

/-- What a model with a scope lies in has a scope. -/
theorem scoped_of_within {inner outer : ModelId} (hi : inner ∈ graph.scopeModels graph.visited)
    (h : graph.Within inner outer) : outer ∈ graph.scopeModels graph.visited := by
  induction h with
  | refl => exact hi
  -- One step out leads to the model of the owner. The owner is visited, as it is the one owner of a
  -- model with a scope, and the models of visited nodes have scopes.
  | tail _ hp ih =>
    obtain ⟨owner, ho, node, hn, rfl⟩ := hg.parent?_eq_some_iff.1 hp
    rcases mem_scopeModels.1 ih with rfl | ⟨owner', hv, ho'⟩
    · exact absurd ho (hg.not_owns_root owner)
    · obtain rfl := hg.owner_unique ho ho'
      rw [← modelOf_eq hn]
      exact hg.modelOf_mem_scopeModels hv

theorem within_of_mem_route {inner outer : ModelId} (hi : inner ∈ graph.scopeModels graph.visited)
    (h : outer ∈ graph.route inner) : graph.Within inner outer := by
  rw [route, List.mem_reverse] at h
  exact (hg.mem_enclosing (hg.model_exists_of_scoped hi)).1 (List.dropLast_subset _ h)

theorem route_mono {inner outer : ModelId} (h : graph.Within inner outer) :
    graph.route outer <+: graph.route inner := by
  induction h with
  | refl => exact List.prefix_rfl
  | tail _ hp ih =>
    refine List.IsPrefix.trans ?_ ih
    rw [hg.route_of_parent? hp]
    exact List.prefix_append _ _

/-- A step in a group leads to a region of a visited owner whose regions are alternatives. -/
theorem group_stepTo {scoping : Scoping} {id : ModelId}
    (hid : id ∈ graph.scopeModels graph.visited) {group : Nat}
    (h : (graph.stepTo scoping id).group = some group) :
    ∃ owner ∈ graph.visited.filter (graph.branches scoping), graph.Owns owner id ∧
      (graph.visited.filter (graph.branches scoping)).idxOf owner = group := by
  obtain ⟨owner, howner, hgroup⟩ := Option.bind_eq_some_iff.1 h
  obtain ⟨model, hm, howner⟩ := Option.bind_eq_some_iff.1 howner
  have ho := (hg.owner_iff hm owner).1 howner
  have hv : owner ∈ graph.visited := by
    rcases mem_scopeModels.1 hid with rfl | ⟨owner', hv, ho'⟩
    · exact absurd ho (hg.not_owns_root owner)
    · rwa [hg.owner_unique ho ho']
  unfold groupOf at hgroup
  split at hgroup
  · next hb => exact ⟨owner, List.mem_filter.2 ⟨hv, hb⟩, ho, Option.some.inj hgroup⟩
  · cases hgroup

/-! ## Exclusive scopes -/

private theorem alternatives_of_forks {scoping : Scoping} {a b : ModelId}
    (ha : a ∈ graph.scopeModels graph.visited) (hb : b ∈ graph.scopeModels graph.visited)
    (h : graph.Forks scoping a b) :
    scoping = .exclusive ∧ graph.Alternatives graph.visited a b := by
  obtain ⟨common, x, y, hx, hy, hne, hsome, hgroup⟩ := h
  have hwa := hg.within_of_mem_route ha (hx.subset (List.mem_append_right _ (.head _)))
  have hwb := hg.within_of_mem_route hb (hy.subset (List.mem_append_right _ (.head _)))
  obtain ⟨group, hsome⟩ := Option.isSome_iff_exists.1 hsome
  obtain ⟨owner, hmem, ho, hi⟩ := hg.group_stepTo (hg.scoped_of_within ha hwa) hsome
  obtain ⟨owner', hmem', ho', hi'⟩ :=
    hg.group_stepTo (hg.scoped_of_within hb hwb) (hgroup.symm.trans hsome)
  -- Groups are numbered by their owners, so both steps leave the same one.
  obtain rfl := (List.idxOf_inj hmem).1 (hi.trans hi'.symm)
  obtain ⟨hv, hbranches⟩ := List.mem_filter.1 hmem
  obtain ⟨node, hn, hxr⟩ := ho
  obtain ⟨node', hn', hyr⟩ := ho'
  rw [hn] at hn'
  cases hn'
  obtain ⟨region, hr, rfl⟩ := List.mem_map.1 hxr
  obtain ⟨region', hr', rfl⟩ := List.mem_map.1 hyr
  simp only [branches, hn, Option.any_some, decide_eq_true_eq] at hbranches
  exact ⟨hbranches.1, owner, hv, node, hn, hbranches.2.1, region, hr, region', hr', hne, hwa, hwb⟩

omit hg in
/-- An owner with two alternatives has them numbered as a group. -/
private theorem branches_of_regions {owner : NodeId} {node : Node} {region region' : Region}
    (hn : graph.node? owner = some node) (hx : node.isExclusive = true) (hr : region ∈ node.regions)
    (hr' : region' ∈ node.regions) (hne : region.model ≠ region'.model) :
    graph.branches .exclusive owner = true := by
  have hlength : 1 < node.regions.length := by
    rcases hrs : node.regions with - | ⟨first, - | ⟨second, rest⟩⟩
    · simp [hrs] at hr
    · rw [hrs, List.mem_singleton] at hr hr'
      exact absurd (hr.trans hr'.symm) fun h => hne (congrArg Region.model h)
    · simp
  simp [branches, hn, hx, hlength]

private theorem forks_of_alternatives {a b : ModelId}
    (h : graph.Alternatives graph.visited a b) : graph.Forks .exclusive a b := by
  obtain ⟨owner, -, node, hn, hx, region, hr, region', hr', hne, hwa, hwb⟩ := h
  have hroute {inner : ModelId} {region : Region} (hr : region ∈ node.regions)
      (hw : graph.Within inner region.model) :
      graph.route node.model ++ [region.model] <+: graph.route inner := by
    rw [← hg.route_of_parent? (hg.parent?_of_region hn hr)]
    exact hg.route_mono hw
  have hgroup {region : Region} (hr : region ∈ node.regions) :
      (graph.stepTo .exclusive region.model).group = graph.groupOf .exclusive owner := by
    have ho : graph.Owns owner region.model := ⟨node, hn, List.mem_map_of_mem hr⟩
    obtain ⟨model, hm⟩ := hg.model_exists_of_owns ho
    simp [stepTo, hm, (hg.owner_iff hm owner).2 ho]
  refine ⟨graph.route node.model, region.model, region'.model, hroute hr hwa, hroute hr' hwb,
    hne, ?_, (hgroup hr).trans (hgroup hr').symm⟩
  rw [hgroup hr, groupOf, if_pos (branches_of_regions hn hx hr hr' hne)]
  rfl

theorem exclusive_pathTo_iff {scoping : Scoping} {a b : ModelId}
    (ha : a ∈ graph.scopeModels graph.visited) (hb : b ∈ graph.scopeModels graph.visited) :
    ScopePath.exclusive (graph.pathTo scoping a) (graph.pathTo scoping b) = true ↔
      scoping = .exclusive ∧ graph.Alternatives graph.visited a b := by
  have hinj : ∀ x ∈ graph.route a, ∀ y ∈ graph.route b,
      (graph.stepTo scoping x).scope = (graph.stepTo scoping y).scope → x = y := by
    intro x hx y _ hxy
    have hscoped := hg.scoped_of_within ha (hg.within_of_mem_route ha hx)
    exact (List.idxOf_inj hscoped).1 (congrArg ScopeId.number hxy)
  rw [pathTo, pathTo, ScopePath.exclusive_map hinj]
  constructor
  · exact hg.alternatives_of_forks ha hb
  · rintro ⟨rfl, halt⟩
    exact hg.forks_of_alternatives halt

theorem exclusive?_iff (scoping : Scoping) {a b : ModelId}
    (ha : a ∈ graph.scopeModels graph.visited) (hb : b ∈ graph.scopeModels graph.visited) :
    ∃ answer, (graph.treeAfter scoping graph.visited).exclusive? (graph.scopeOf a)
        (graph.scopeOf b) = some answer ∧
      (answer = true ↔ scoping = .exclusive ∧ graph.Alternatives graph.visited a b) := by
  refine ⟨_, ?_, hg.exclusive_pathTo_iff ha hb⟩
  exact ScopeTree.exclusive?_eq (hg.path?_treeAfter scoping List.prefix_rfl ha)
    (hg.path?_treeAfter scoping List.prefix_rfl hb)

/-- Visited nodes in exclusive scopes lie in alternatives. -/
theorem alternatives_of_exclusive? {scoping : Scoping} {a b : NodeId} (ha : a ∈ graph.visited)
    (hb : b ∈ graph.visited)
    (h : (graph.treeAfter scoping graph.visited).exclusive? (graph.scopeOf (graph.modelOf a))
      (graph.scopeOf (graph.modelOf b)) = some true) :
    scoping = .exclusive ∧
      graph.Alternatives graph.visited (graph.modelOf a) (graph.modelOf b) := by
  obtain ⟨answer, hanswer, hiff⟩ := hg.exclusive?_iff scoping (hg.modelOf_mem_scopeModels ha)
    (hg.modelOf_mem_scopeModels hb)
  rw [h] at hanswer
  cases hanswer
  exact hiff.1 rfl

/-- Visited nodes in alternatives have exclusive scopes. -/
theorem exclusive?_of_alternatives {a b : NodeId} (ha : a ∈ graph.visited) (hb : b ∈ graph.visited)
    (h : graph.Alternatives graph.visited (graph.modelOf a) (graph.modelOf b)) :
    (graph.treeAfter .exclusive graph.visited).exclusive? (graph.scopeOf (graph.modelOf a))
      (graph.scopeOf (graph.modelOf b)) = some true := by
  obtain ⟨answer, hanswer, hiff⟩ := hg.exclusive?_iff .exclusive (hg.modelOf_mem_scopeModels ha)
    (hg.modelOf_mem_scopeModels hb)
  rw [hanswer, hiff.2 ⟨rfl, h⟩]

end WellFormed

end Graph

end GraphNaming
