/-!
# Threading a state through a list

`thread? step items state` applies `step` to each item in turn, every time to the state that the
step before it left, and collects what the steps yield.

* `thread?_nil`, `thread?_cons`: how a run is made up.
-/

namespace GraphNaming

variable {α β σ : Type}

/-- Fails as soon as one step fails. -/
def thread? (step : α → σ → Option (β × σ)) : List α → σ → Option (List β × σ)
  | [], state => some ([], state)
  | item :: rest, state => do
    let (yielded, state) ← step item state
    let (more, state) ← thread? step rest state
    some (yielded :: more, state)

@[simp] theorem thread?_nil (step : α → σ → Option (β × σ)) (state : σ) :
    thread? step [] state = some ([], state) := rfl

theorem thread?_cons (step : α → σ → Option (β × σ)) (item : α) (rest : List α) (state : σ) :
    thread? step (item :: rest) state = (step item state).bind fun first =>
      (thread? step rest first.2).map fun later => (first.1 :: later.1, later.2) := by
  simp only [thread?, Option.bind_eq_bind]
  cases step item state with
  | none => rfl
  | some first => cases h : thread? step rest first.2 <;> simp [h]

end GraphNaming
