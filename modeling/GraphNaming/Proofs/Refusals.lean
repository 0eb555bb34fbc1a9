import GraphNaming.Graph.Owner

/-!
# Requests that are refused

Nothing that a request has done is taken back when it is refused. It changes nothing all the same,
since all its checks come before its first change.

* `bind_eq_ok`, `bind_eq_error`: one step after the other.
* `Harmless`: refused, the request has changed nothing. Checks can go before such a request
  (`Harmless.check_bind`), and after it steps that are never refused (`Harmless.bind`).
* `harmless_addNode`, `harmless_addOwner`, `harmless_modifyAliases`, …: all requests are so.
* `Harmless.keeps`: what such a request keeps.
-/

namespace GraphNaming

namespace Request

open GraphNaming.Graph

variable {α β : Type} {graph after : Graph} {request first : Request α} {rest : α → Request β}
  {answer : α} {last : β} {error : BuildError} {test : Graph → Except BuildError α}

theorem granted?_eq_some :
    graph.granted? request = some (answer, after) ↔ request.run graph = .ok answer after := by
  unfold granted?
  cases request.run graph <;> simp

theorem afterRequest_of_ok (h : request.run graph = .ok answer after) :
    graph.afterRequest request = after := by
  unfold afterRequest
  rw [h]

theorem afterRequest_of_error (h : request.run graph = .error error after) :
    graph.afterRequest request = after := by
  unfold afterRequest
  rw [h]

/-! ## One step after the other -/

theorem check_eq_ok : (check test).run graph = .ok answer after ↔
    test graph = .ok answer ∧ after = graph := by
  simp only [EStateM.run, check]
  cases test graph <;> simp [eq_comm]

theorem check_eq_error : (check test).run graph = .error error after ↔
    test graph = .error error ∧ after = graph := by
  simp only [EStateM.run, check]
  cases test graph <;> simp [eq_comm]

/-- A request is granted when its first step is, and the rest on the graph that this one leaves. -/
theorem bind_eq_ok : (first >>= rest).run graph = .ok last after ↔
    ∃ answer middle, first.run graph = .ok answer middle ∧
      (rest answer).run middle = .ok last after := by
  simp only [EStateM.run, bind, EStateM.bind]
  cases first graph with
  | ok answer middle =>
    constructor
    · exact fun h => ⟨answer, middle, rfl, h⟩
    · rintro ⟨_, _, heq, h⟩
      cases heq
      exact h
  | error error middle => simp

/-- A request is refused at its first step or later on. -/
theorem bind_eq_error : (first >>= rest).run graph = .error error after ↔
    first.run graph = .error error after ∨
      ∃ answer middle, first.run graph = .ok answer middle ∧
        (rest answer).run middle = .error error after := by
  simp only [EStateM.run, bind, EStateM.bind]
  cases first graph with
  | ok answer middle =>
    constructor
    · exact fun h => .inr ⟨answer, middle, rfl, h⟩
    · rintro (h | ⟨_, _, heq, h⟩)
      · cases h
      · cases heq
        exact h
  | error error middle => simp

theorem check_bind_eq_ok : (check test >>= rest).run graph = .ok last after ↔
    ∃ answer, test graph = .ok answer ∧ (rest answer).run graph = .ok last after := by
  rw [bind_eq_ok]
  constructor
  · rintro ⟨answer, middle, hfirst, hrest⟩
    obtain ⟨htest, rfl⟩ := check_eq_ok.1 hfirst
    exact ⟨answer, htest, hrest⟩
  · rintro ⟨answer, htest, hrest⟩
    exact ⟨answer, graph, check_eq_ok.2 ⟨htest, rfl⟩, hrest⟩

/-! ## What a refused request leaves -/

/-- Whenever the request is refused, the graph is as it was. -/
def Harmless (request : Request α) : Prop :=
  ∀ graph error after, request.run graph = .error error after → after = graph

/-- The request is never refused. -/
def Granted (request : Request α) : Prop :=
  ∀ graph error after, request.run graph ≠ .error error after

theorem Granted.pure (answer : α) : Granted (pure answer) := fun _ _ _ => nofun

theorem Granted.modify (change : Graph → Graph) : Granted (modify change : Request PUnit) :=
  fun _ _ _ => nofun

theorem Granted.bind (hfirst : Granted first) (hrest : ∀ answer, Granted (rest answer)) :
    Granted (first >>= rest) := by
  intro graph error after h
  rcases bind_eq_error.1 h with h | ⟨answer, middle, -, h⟩
  · exact hfirst graph error after h
  · exact hrest answer middle error after h

theorem Granted.harmless (h : Granted request) : Harmless request :=
  fun graph error after hrun => absurd hrun (h graph error after)

/-- A check changes nothing, so what follows starts from the graph as it was. -/
theorem Harmless.check_bind (hrest : ∀ answer, Harmless (rest answer)) :
    Harmless (check test >>= rest) := by
  intro graph error after h
  rcases bind_eq_error.1 h with hstop | ⟨answer, middle, hpass, hstop⟩
  · exact (check_eq_error.1 hstop).2
  · obtain ⟨-, rfl⟩ := check_eq_ok.1 hpass
    exact hrest answer _ error after hstop

/-- After the last step that can be refused, there may be any changes. -/
theorem Harmless.bind (hfirst : Harmless first) (hrest : ∀ answer, Granted (rest answer)) :
    Harmless (first >>= rest) := by
  intro graph error after h
  rcases bind_eq_error.1 h with h | ⟨answer, middle, -, h⟩
  · exact hfirst graph error after h
  · exact absurd h (hrest answer middle error after)

/-- What holds of the graph, and of the graph after the request if it is granted, holds of the
graph that the request leaves. -/
theorem Harmless.keeps {Inv : Graph → Prop} (h : Harmless request) (hg : Inv graph)
    (hgranted : ∀ answer after, request.run graph = .ok answer after → Inv after) :
    Inv (graph.afterRequest request) := by
  cases hrun : request.run graph with
  | ok answer after =>
    rw [afterRequest_of_ok hrun]
    exact hgranted answer after hrun
  | error error after =>
    rw [afterRequest_of_error hrun, h graph error after hrun]
    exact hg

end Request

/-! ## The requests -/

namespace Graph

open Request

variable (model : ModelId) (type : String) (inputs : List Value) (outputs : Nat) (value : Value)

theorem harmless_addNode (kind : NodeKind) : Harmless (addNode model type kind inputs outputs) :=
  .check_bind fun _ => Granted.harmless (.bind (fun _ _ _ => nofun)
    fun _ => .bind (.modify _) fun _ => .pure _)

theorem harmless_addParameter : Harmless (addParameter model) :=
  harmless_addNode _ _ _ _ _

theorem harmless_addSharedParameter : Harmless (addSharedParameter model value) :=
  .check_bind fun _ => .bind (harmless_addParameter model)
    fun _ => .bind (.modify _) fun _ => .bind (.modify _) fun _ => .pure _

theorem harmless_addOperation : Harmless (addOperation model type inputs outputs) :=
  .check_bind fun _ => harmless_addNode _ _ _ _ _

theorem harmless_addResult : Harmless (addResult model value) :=
  .check_bind fun _ => harmless_addNode _ _ _ _ _

theorem harmless_addOwner (regions : List Region) (exclusive : Bool) :
    Harmless (addOwner model type inputs regions exclusive outputs) := by
  apply Harmless.check_bind
  intro _
  apply Harmless.check_bind
  intro _
  apply Harmless.check_bind
  intro _
  -- The node is the last thing that can be refused: its regions get their owner after it.
  exact .bind (harmless_addNode _ _ _ _ _) fun _ => .bind (.modify _) fun _ => .pure _

theorem harmless_setFriendlyName (id : NodeId) (name : String) :
    Harmless (setFriendlyName id name) := .check_bind fun _ => (Granted.modify _).harmless

theorem harmless_modifyAliases (change : AliasSet → AliasSet) :
    Harmless (modifyAliases value change) := .check_bind fun _ => (Granted.modify _).harmless

end Graph

end GraphNaming
