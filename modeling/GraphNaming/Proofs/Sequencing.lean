import GraphNaming.Threading
import Mathlib.Data.List.Forall2

/-!
# Steps that may fail

What it takes for a sequence of steps to succeed, and what a sequence keeps that each step keeps.

* `bind_eq_ok`, `forM_eq_ok`: checks made one after the other.
* `mapM_eq_some`, `mapM_forall₂`, `forall₂_of_mapM`: a list in which every item has an image.
* `foldlM_grows`: a list that grows from step to step.
* `foldlM_keeps`: what every step keeps, all of them keep.
* `thread?_known`: a state that is known from the items done.
* `thread?_attains`: what some step attains and every step keeps.
* `thread?_forall`: what holds of all that the steps yield.
* `mapM_uniform`, `thread?_uniform`: an outcome that does not depend on a parameter.
-/

namespace GraphNaming

variable {ε α β σ : Type}

theorem bind_eq_ok {x : Except ε α} {f : α → Except ε β} {b : β} :
    (x >>= f) = .ok b ↔ ∃ a, x = .ok a ∧ f a = .ok b := by
  cases x with
  | error e => exact ⟨nofun, nofun⟩
  | ok a => exact ⟨fun h => ⟨a, rfl, h⟩, fun ⟨_, ha, h⟩ => by cases ha; exact h⟩

theorem forM_eq_ok {items : List α} {check : α → Except ε Unit} :
    items.forM check = .ok () ↔ ∀ item ∈ items, check item = .ok () := by
  rw [List.forM_eq_forM]
  induction items with
  | nil => simp [pure, Except.pure]
  | cons item items ih =>
    rw [List.forM_cons, bind_eq_ok, List.forall_mem_cons, ← ih]
    exact ⟨fun ⟨(), h⟩ => h, fun h => ⟨(), h⟩⟩

theorem mapM_eq_some {items : List α} {f : α → Option β} {g : α → β}
    (h : ∀ item ∈ items, f item = some (g item)) : items.mapM f = some (items.map g) := by
  induction items with
  | nil => rfl
  | cons item items ih =>
    obtain ⟨hitem, hitems⟩ := List.forall_mem_cons.1 h
    simp [List.mapM_cons, hitem, ih hitems]

theorem mapM_forall₂ {items : List α} {f : α → Option β} {R : α → β → Prop}
    (h : ∀ item ∈ items, ∃ image, f item = some image ∧ R item image) :
    ∃ images, items.mapM f = some images ∧ List.Forall₂ R items images := by
  induction items with
  | nil => exact ⟨[], rfl, .nil⟩
  | cons item items ih =>
    obtain ⟨hitem, hitems⟩ := List.forall_mem_cons.1 h
    obtain ⟨image, hf, hr⟩ := hitem
    obtain ⟨images, hfs, hrs⟩ := ih hitems
    exact ⟨image :: images, by simp [List.mapM_cons, hf, hfs], .cons hr hrs⟩

theorem forall₂_of_mapM {items : List α} {images : List β} {f : α → Option β}
    (h : items.mapM f = some images) :
    List.Forall₂ (fun item image => f item = some image) items images := by
  induction items generalizing images with
  | nil =>
    cases h
    exact .nil
  | cons item items ih =>
    rw [List.mapM_cons] at h
    obtain ⟨image, hitem, h⟩ := Option.bind_eq_some_iff.1 h
    obtain ⟨images, hitems, h⟩ := Option.bind_eq_some_iff.1 h
    cases h
    exact .cons hitem (ih hitems)

/-- If every step only adds to the list, keeps `Inv` and brings in its item, then the whole fold
does, and brings in all items. -/
theorem foldlM_grows {step : List β → α → Option (List β)} {Inv : List β → Prop} {key : α → β}
    {items : List α}
    (h : ∀ item ∈ items, ∀ order, Inv order →
      ∃ next, step order item = some next ∧ Inv next ∧ order <+: next ∧ key item ∈ next)
    {order : List β} (ho : Inv order) :
    ∃ last, items.foldlM step order = some last ∧ Inv last ∧ order <+: last ∧
      ∀ item ∈ items, key item ∈ last := by
  induction items generalizing order with
  | nil => exact ⟨order, rfl, ho, List.prefix_rfl, nofun⟩
  | cons item items ih =>
    obtain ⟨hitem, hitems⟩ := List.forall_mem_cons.1 h
    obtain ⟨next, hnext, hi, hp, hk⟩ := hitem order ho
    obtain ⟨last, hlast, hi', hp', hk'⟩ := ih hitems hi
    refine ⟨last, by simp [hnext, hlast], hi', hp.trans hp', List.forall_mem_cons.2 ⟨?_, hk'⟩⟩
    exact hp'.subset hk

theorem foldlM_keeps (Inv : σ → Prop) {step : σ → α → Option σ} {items : List α}
    (h : ∀ item ∈ items, ∀ state next, Inv state → step state item = some next → Inv next)
    {state last : σ} (hi : Inv state) (hrun : items.foldlM step state = some last) : Inv last := by
  induction items generalizing state with
  | nil =>
    cases hrun
    exact hi
  | cons item items ih =>
    obtain ⟨hitem, hitems⟩ := List.forall_mem_cons.1 h
    rw [List.foldlM_cons] at hrun
    obtain ⟨next, hnext, hrun⟩ := Option.bind_eq_some_iff.1 hrun
    exact ih hitems (hitem state next hi hnext) hrun

theorem thread?_map {step : β → σ → Option (ε × σ)} {f : α → β} {items : List α} {state : σ} :
    thread? step (items.map f) state = thread? (fun item => step (f item)) items state := by
  induction items generalizing state with
  | nil => rfl
  | cons item items ih => simp only [List.map_cons, thread?_cons, ih]

theorem thread?_congr {step step' : α → σ → Option (β × σ)} {items : List α}
    (h : ∀ item ∈ items, ∀ state, step item state = step' item state) {state : σ} :
    thread? step items state = thread? step' items state := by
  induction items generalizing state with
  | nil => rfl
  | cons item items ih =>
    obtain ⟨hitem, hitems⟩ := List.forall_mem_cons.1 h
    simp only [thread?_cons, hitem, ih hitems]

/-- If the state is known from the items done, so is the outcome. -/
theorem thread?_known {step : α → σ → Option (β × σ)} {items : List α} {yield : α → β}
    (state : List α → σ)
    (h : ∀ done item rest, items = done ++ item :: rest →
      step item (state done) = some (yield item, state (done ++ [item]))) :
    thread? step items (state []) = some (items.map yield, state items) := by
  have from_here (rest : List α) : ∀ done, items = done ++ rest →
      thread? step rest (state done) = some (rest.map yield, state items) := by
    induction rest with
    | nil =>
      intro done hd
      rw [hd, List.append_nil]
      rfl
    | cons item rest ih =>
      intro done hd
      rw [thread?_cons, h done item rest hd, Option.bind_some,
        ih (done ++ [item]) (by simpa using hd)]
      rfl
  exact from_here items [] rfl

/-- What holds at first or is attained by some step holds in the end, if every step keeps it. -/
theorem thread?_attains {step : α → σ → Option (β × σ)} {Inv Goal : σ → Prop} {Attains : α → Prop}
    (hstep : ∀ item state yielded next, Inv state → step item state = some (yielded, next) →
      Inv next ∧ (Goal state ∨ Attains item → Goal next))
    {items : List α} {state last : σ} {yields : List β}
    (hrun : thread? step items state = some (yields, last)) (hi : Inv state)
    (h : Goal state ∨ ∃ item ∈ items, Attains item) : Inv last ∧ Goal last := by
  induction items generalizing state yields with
  | nil =>
    cases hrun
    exact ⟨hi, h.resolve_right nofun⟩
  | cons item items ih =>
    rw [thread?_cons] at hrun
    obtain ⟨⟨yielded, next⟩, hfirst, hrun⟩ := Option.bind_eq_some_iff.1 hrun
    obtain ⟨⟨more, last⟩, hrest, hrun⟩ := Option.map_eq_some_iff.1 hrun
    cases hrun
    obtain ⟨hi, hgoal⟩ := hstep item state yielded next hi hfirst
    refine ih hrest hi ?_
    rcases h with h | ⟨other, ho, h⟩
    · exact .inl (hgoal (.inl h))
    · rcases List.mem_cons.1 ho with rfl | ho
      · exact .inl (hgoal (.inr h))
      · exact .inr ⟨other, ho, h⟩

/-- What holds of whatever a step yields holds of all that is yielded. -/
theorem thread?_forall {step : α → σ → Option (β × σ)} {P : β → Prop}
    (h : ∀ item state yielded next, step item state = some (yielded, next) → P yielded)
    {items : List α} {state last : σ} {yields : List β}
    (hrun : thread? step items state = some (yields, last)) : ∀ yielded ∈ yields, P yielded := by
  induction items generalizing state yields with
  | nil =>
    cases hrun
    nofun
  | cons item items ih =>
    rw [thread?_cons] at hrun
    obtain ⟨⟨yielded, next⟩, hfirst, hrun⟩ := Option.bind_eq_some_iff.1 hrun
    obtain ⟨⟨more, last⟩, hrest, hrun⟩ := Option.map_eq_some_iff.1 hrun
    cases hrun
    exact List.forall_mem_cons.2 ⟨h item state yielded next hfirst, ih hrest⟩

/-- What is yielded can be changed step by step or in the end. -/
theorem thread?_yield {step : α → σ → Option (β × σ)} {γ : Type} {f : β → γ} {items : List α}
    {state : σ} : thread? (fun item state => (step item state).map fun (yielded, next) =>
      (f yielded, next)) items state =
      (thread? step items state).map fun (yields, last) => (yields.map f, last) := by
  induction items generalizing state with
  | nil => rfl
  | cons item items ih =>
    rw [thread?_cons, thread?_cons]
    cases step item state with
    | none => rfl
    | some first => simp [ih, Function.comp_def]

/-! ## Steps with a parameter -/

section Uniform

variable {κ : Type} {P : κ → Prop} {items : List α}

/-- If every item has one image for all `k` with `P k`, so has the list. -/
theorem mapM_uniform {f : κ → α → Option β}
    (h : ∀ item ∈ items, ∃ image, ∀ k, P k → f k item = some image) :
    ∃ images, ∀ k, P k → items.mapM (f k) = some images := by
  induction items with
  | nil => exact ⟨[], fun _ _ => rfl⟩
  | cons item items ih =>
    obtain ⟨hitem, hitems⟩ := List.forall_mem_cons.1 h
    obtain ⟨image, hf⟩ := hitem
    obtain ⟨images, hfs⟩ := ih hitems
    exact ⟨image :: images, fun k hk => by simp [List.mapM_cons, hf k hk, hfs k hk]⟩

/-- If every step from a state with `Inv` has one outcome for all `k` with `P k`, and keeps `Inv`,
so do all steps together. -/
theorem thread?_uniform {step : κ → α → σ → Option (β × σ)} {Inv : σ → Prop}
    (h : ∀ item ∈ items, ∀ state, Inv state →
      ∃ yielded next, Inv next ∧ ∀ k, P k → step k item state = some (yielded, next))
    {state : σ} (hi : Inv state) :
    ∃ yields last, Inv last ∧ ∀ k, P k → thread? (step k) items state = some (yields, last) := by
  induction items generalizing state with
  | nil => exact ⟨[], state, hi, fun _ _ => rfl⟩
  | cons item items ih =>
    obtain ⟨hitem, hitems⟩ := List.forall_mem_cons.1 h
    obtain ⟨yielded, next, hnext, hstep⟩ := hitem state hi
    obtain ⟨more, last, hlast, hrest⟩ := ih hitems hnext
    refine ⟨yielded :: more, last, hlast, fun k hk => ?_⟩
    rw [thread?_cons, hstep k hk, Option.bind_some, hrest k hk, Option.map_some]

end Uniform

end GraphNaming
