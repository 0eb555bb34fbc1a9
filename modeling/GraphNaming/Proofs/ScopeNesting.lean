import GraphNaming.Proofs.Alternatives
import GraphNaming.Proofs.History
import GraphNaming.Proofs.Namespace

/-!
# Scopes nest as regions do

The scopes that a walk opens form a tree like that of the models in which it visits nodes.

* `ScopeTree.parent?`, `ScopeTree.Within`: the scope around a scope, and all that it lies in.
* `WellFormed.parent?_scopeOf`, `WellFormed.within_scopeOf_iff`: one scope lies in another just when
  its model lies in the other's.
* `WellFormed.exclusive?_scopeOf`: scopes tolerate each other just when some owner runs at most one
  of two regions that their models lie in.
* `Reachable.scopes_mirror_regions`: all this of the scopes of visited nodes.
-/

namespace GraphNaming

/-! ## Scopes around scopes -/

namespace ScopeTree

/-- The scope in which `scope` was opened. The root was opened in none. -/
def parent? (tree : ScopeTree) (scope : ScopeId) : Option ScopeId :=
  (tree.scope? scope).bind (·.parent)

variable {tree : ScopeTree} {scope : ScopeId}

theorem parent?_of_nil (h : tree.path? scope = some []) : tree.parent? scope = none := by
  obtain ⟨-, found, hfound, hparent⟩ := of_path?_nil h
  simp [parent?, hfound, hparent]

theorem parent?_of_append {path : ScopePath} {step : ScopeStep} {parent : ScopeId}
    (h : tree.path? scope = some (path ++ [step])) (hp : tree.path? parent = some path) :
    tree.parent? scope = some parent := by
  obtain ⟨-, found, around, hfound, hparent, -, haround⟩ := of_path?_append h
  rw [parent?, hfound, Option.bind_some, hparent, path?_inj haround hp]

/-- The scope `inner` is `outer` or lies in it. -/
def Within (tree : ScopeTree) (inner outer : ScopeId) : Prop :=
  Relation.ReflTransGen (fun inner outer => tree.parent? inner = some outer) inner outer

end ScopeTree

namespace Namespace

/-- The name is taken in `scope`, and nowhere else. -/
def HeldOnlyIn (space : Namespace) (scope : ScopeId) (name : String) : Prop :=
  (∃ holding ∈ space.holdings, holding.name = name) ∧
    ∀ holding ∈ space.holdings, holding.name = name → holding.scope = scope

/-- A name with one holder is free where that holder is tolerated. -/
theorem HeldOnlyIn.isFree? {space : Namespace} {scope scope' : ScopeId} {name : String}
    (h : space.HeldOnlyIn scope name) {answer : Bool}
    (ha : space.scopes.exclusive? scope scope' = some answer) :
    space.isFree? scope' name = some answer := by
  obtain ⟨hsome, honly⟩ := h
  have hasked (holdings : List Holding)
      (hheld : ∀ holding ∈ holdings, holding.name = name → holding.scope = scope) :
      unblocked? space.scopes scope' name holdings =
        some (answer || !holdings.any fun holding => holding.name == name) := by
    induction holdings with
    | nil => simp [unblocked?]
    | cons latest earlier ih =>
      obtain ⟨hlatest, hearlier⟩ := List.forall_mem_cons.1 hheld
      rw [unblocked?, ih hearlier]
      by_cases hname : latest.name = name
      · cases answer <;> cases he : earlier.any fun holding => holding.name == name <;>
          simp [he, hname, hlatest hname, ha]
      · have hne : (latest.name == name) = false := beq_eq_false_iff_ne.2 hname
        simp [hne]
  have hany : (space.holdings.any fun holding => holding.name == name) = true := by
    simpa using hsome
  rw [Namespace.isFree?, hasked space.holdings honly, hany, Bool.not_true, Bool.or_false]

end Namespace

namespace Graph

variable {graph : Graph}

namespace WellFormed

variable (hg : graph.WellFormed)
include hg

/-! ## The tree of scopes and the forest of models -/

omit hg in
theorem scopeOf_inj {a b : ModelId} (ha : a ∈ graph.scopeModels graph.visited) :
    graph.scopeOf a = graph.scopeOf b ↔ a = b := by
  refine ⟨fun h => (List.idxOf_inj ha).1 (congrArg ScopeId.number h), fun h => h ▸ rfl⟩

/-- The scope around that of a region is the scope of the model around the region. -/
theorem parent?_scopeOf (scoping : Scoping) {id : ModelId}
    (hid : id ∈ graph.scopeModels graph.visited) :
    (graph.treeAfter scoping graph.visited).parent? (graph.scopeOf id) =
      (graph.parent? id).map graph.scopeOf := by
  have hpath := hg.path?_treeAfter scoping List.prefix_rfl hid
  rcases mem_scopeModels.1 hid with rfl | ⟨owner, hv, ho⟩
  · have hroot : graph.pathTo scoping .root = [] := by simp [pathTo, route, hg.enclosing_root]
    rw [ScopeTree.parent?_of_nil (hpath.trans (congrArg some hroot)), hg.parent?_root]
    rfl
  · obtain ⟨node, hn, -⟩ := hg.covers_visited.within owner hv
    obtain ⟨region, hr, rfl⟩ := owns_iff.1 ho
    rw [regionsOf_eq hn] at hr
    have hp := hg.parent?_of_region hn hr
    have houter := hg.path?_treeAfter scoping List.prefix_rfl
      (hg.scoped_of_within hid (.of_parent? hp))
    rw [hg.pathTo_region scoping hn hr] at hpath
    rw [ScopeTree.parent?_of_append hpath houter, hp]
    rfl

/-- One scope lies in another just when its model lies in the other's. -/
theorem within_scopeOf_iff (scoping : Scoping) {inner : ModelId} (outer : ModelId)
    (hi : inner ∈ graph.scopeModels graph.visited) :
    (graph.treeAfter scoping graph.visited).Within (graph.scopeOf inner) (graph.scopeOf outer) ↔
      graph.Within inner outer := by
  constructor
  · intro h
    generalize hscope : graph.scopeOf inner = scope at h
    induction h using Relation.ReflTransGen.head_induction_on generalizing inner with
    | refl => exact (scopeOf_inj hi).1 hscope ▸ .refl _
    | head hp _ ih =>
      rw [← hscope, hg.parent?_scopeOf scoping hi] at hp
      obtain ⟨parent, hparent, hnext⟩ := Option.map_eq_some_iff.1 hp
      have hstep : graph.Within inner parent := .of_parent? hparent
      exact hstep.trans (ih (hg.scoped_of_within hi hstep) hnext)
  · intro h
    induction h using Relation.ReflTransGen.head_induction_on with
    | refl => exact .refl
    | head hp _ ih =>
      have hparent := hg.scoped_of_within hi (.of_parent? hp)
      exact .head (by rw [hg.parent?_scopeOf scoping hi, hp]; rfl) (ih hparent)

/-! ## Scopes that tolerate each other -/

/-- Scopes tolerate each other just when their models lie in two regions of one exclusive owner and
the scoping heeds it. An owner of a region with a scope is visited. -/
theorem exclusive?_scopeOf (scoping : Scoping) {a b : ModelId}
    (ha : a ∈ graph.scopeModels graph.visited) (hb : b ∈ graph.scopeModels graph.visited) :
    ∃ answer, (graph.treeAfter scoping graph.visited).exclusive? (graph.scopeOf a)
        (graph.scopeOf b) = some answer ∧
      (answer = true ↔ scoping = .exclusive ∧
        ∃ owner node, graph.node? owner = some node ∧ node.isExclusive = true ∧
          ∃ region ∈ node.regions, ∃ region' ∈ node.regions, region.model ≠ region'.model ∧
            graph.Within a region.model ∧ graph.Within b region'.model) := by
  obtain ⟨answer, hanswer, hiff⟩ := hg.exclusive?_iff scoping ha hb
  refine ⟨answer, hanswer, hiff.trans (and_congr_right fun _ => ?_)⟩
  constructor
  · rintro ⟨owner, -, node, hrest⟩
    exact ⟨owner, node, hrest⟩
  · rintro ⟨owner, node, hn, hx, region, hr, hrest⟩
    obtain ⟨region', hr', hne, hwa, hwb⟩ := hrest
    have ho : graph.Owns owner region.model := ⟨node, hn, List.mem_map_of_mem hr⟩
    refine ⟨owner, ?_, node, hn, hx, region, hr, region', hr', hne, hwa, hwb⟩
    rcases mem_scopeModels.1 (hg.scoped_of_within ha hwa) with hroot | ⟨owner', hv, ho'⟩
    · exact absurd (hroot ▸ ho) (hg.not_owns_root owner)
    · rwa [hg.owner_unique ho ho']

end WellFormed

/-- The scopes of visited nodes are like their models: they are the same for one model, and one
lies in another just when the models do. A name that is taken in the scope of one node only is free
in that of another just when the scoping is exclusive, and the models lie in two regions of one
exclusive owner. -/
theorem Reachable.scopes_mirror_regions (hr : graph.Reachable) (scoping : Scoping) :
    ∃ walk, graph.walk? scoping = some walk ∧ ∀ a ∈ walk.visits, ∀ b ∈ walk.visits,
      (a.scope = b.scope ↔ graph.modelOf a.node = graph.modelOf b.node) ∧
      (walk.scopes.Within b.scope a.scope ↔
        graph.Within (graph.modelOf b.node) (graph.modelOf a.node)) ∧
      (∀ (space : Namespace) (name : String), space.scopes = walk.scopes →
        space.HeldOnlyIn a.scope name →
          ∃ answer, space.isFree? b.scope name = some answer ∧
            (answer = true ↔ scoping = .exclusive ∧
              ∃ owner node, graph.node? owner = some node ∧ node.isExclusive = true ∧
                ∃ region ∈ node.regions, ∃ region' ∈ node.regions, region.model ≠ region'.model ∧
                  graph.Within (graph.modelOf a.node) region.model ∧
                  graph.Within (graph.modelOf b.node) region'.model)) ∧
      (scoping = .flattened → walk.scopes.exclusive? a.scope b.scope = some false) := by
  have hg := hr.wellFormed
  refine ⟨_, hg.walk?_eq scoping, fun a ha b hb => ?_⟩
  obtain ⟨i, hi, rfl⟩ := List.mem_map.1 ha
  obtain ⟨j, hj, rfl⟩ := List.mem_map.1 hb
  have hsi := hg.modelOf_mem_scopeModels hi
  have hsj := hg.modelOf_mem_scopeModels hj
  obtain ⟨answer, hanswer, hiff⟩ := hg.exclusive?_scopeOf scoping hsi hsj
  refine ⟨WellFormed.scopeOf_inj hsi, hg.within_scopeOf_iff scoping _ hsj, ?_, ?_⟩
  · intro space name hspace honly
    refine ⟨answer, honly.isFree? ?_, hiff⟩
    rw [hspace]
    exact hanswer
  · rintro rfl
    cases answer with
    | false => exact hanswer
    | true => cases (hiff.1 rfl).1

/-- In the conditional a name of one branch is free in the other, as the two are regions of one
exclusive owner. It is not free around them. -/
theorem scopes_mirror_regions_conditional :
    ∃ walk space owner node, conditional.walk? .exclusive = some walk ∧
      ⟨⟨2⟩, ⟨1⟩⟩ ∈ walk.visits ∧ ⟨⟨6⟩, ⟨2⟩⟩ ∈ walk.visits ∧ ⟨⟨10⟩, .root⟩ ∈ walk.visits ∧
      (Namespace.ofScopes walk.scopes 1).take? ⟨1⟩ "x" = some (true, space) ∧
      space.isFree? ⟨2⟩ "x" = some true ∧ space.isFree? .root "x" = some false ∧
      walk.scopes.Within ⟨1⟩ .root ∧
      conditional.node? owner = some node ∧ node.isExclusive = true ∧
      ∃ region ∈ node.regions, ∃ region' ∈ node.regions, region.model ≠ region'.model ∧
        conditional.Within (conditional.modelOf ⟨2⟩) region.model ∧
        conditional.Within (conditional.modelOf ⟨6⟩) region'.model := by
  have hrun : (conditional.walk? .exclusive).any fun walk =>
      (⟨⟨2⟩, ⟨1⟩⟩ ∈ walk.visits ∧ ⟨⟨6⟩, ⟨2⟩⟩ ∈ walk.visits ∧ ⟨⟨10⟩, .root⟩ ∈ walk.visits) ∧
      ∃ taken ∈ (Namespace.ofScopes walk.scopes 1).take? ⟨1⟩ "x", taken.1 = true ∧
        taken.2.isFree? ⟨2⟩ "x" = some true ∧ taken.2.isFree? .root "x" = some false := by
    decide +kernel
  have hfirst : conditional.modelOf ⟨2⟩ = ⟨1⟩ := by decide +kernel
  have houter : conditional.modelOf ⟨10⟩ = .root := by decide +kernel
  have hparent : conditional.parent? ⟨1⟩ = some .root := by decide +kernel
  obtain ⟨walk, hwalk, hfacts⟩ := (Option.any_eq_true _ _).1 hrun
  obtain ⟨⟨ha, hb, hc⟩, ⟨⟨_, space⟩, htake, rfl, hfree, htaken⟩⟩ := of_decide_eq_true hfacts
  obtain ⟨found, hfound, hmirror⟩ := reachable_conditional.scopes_mirror_regions .exclusive
  obtain rfl : walk = found := Option.some.inj (hwalk.symm.trans hfound)
  obtain ⟨-, rfl⟩ := Namespace.take?_eq_some.1 htake
  have hheld : ((Namespace.ofScopes walk.scopes 1).hold ⟨1⟩ "x").HeldOnlyIn ⟨1⟩ "x" := by
    simp [Namespace.HeldOnlyIn, Namespace.hold, Namespace.ofScopes]
  obtain ⟨-, hwithin, -⟩ := hmirror _ hc _ ha
  obtain ⟨-, -, hsolo, -⟩ := hmirror _ ha _ hb
  obtain ⟨answer, hanswer, hiff⟩ := hsolo _ "x" rfl hheld
  obtain rfl : true = answer := Option.some.inj (hfree.symm.trans hanswer)
  obtain ⟨-, owner, node, hn, hx, hregions⟩ := hiff.1 rfl
  rw [hfirst, houter] at hwithin
  exact ⟨walk, _, owner, node, hwalk, ha, hb, hc, htake, hfree, htaken,
    hwithin.2 (.of_parent? hparent), hn, hx, hregions⟩

end Graph

end GraphNaming
