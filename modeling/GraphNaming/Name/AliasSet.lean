/-!
# Alias sets

The aliases of an output: a set of names, kept in ascending order and without repeats, so that two
sets with the same names are equal.

* `AliasSet.ext`: a set is determined by its names.
* `AliasSet.mem_insert`, `mem_erase`, `mem_union`, `mem_ofList`, `mem_replace`: the names of a set
  after each operation.
-/

namespace GraphNaming

/-- Names in ascending order of their characters. -/
structure AliasSet where
  toList : List String
  sorted : toList.Pairwise (· < ·)
  deriving DecidableEq

namespace AliasSet

instance : Membership String AliasSet where
  mem names name := name ∈ names.toList

instance (name : String) (names : AliasSet) : Decidable (name ∈ names) :=
  inferInstanceAs (Decidable (name ∈ names.toList))

def empty : AliasSet := ⟨[], .nil⟩

instance : EmptyCollection AliasSet := ⟨empty⟩

def isEmpty (names : AliasSet) : Bool := names.toList.isEmpty

@[simp] theorem mem_toList {name : String} {names : AliasSet} :
    name ∈ names.toList ↔ name ∈ names := .rfl

@[simp] theorem not_mem_empty (name : String) : name ∉ (∅ : AliasSet) := List.not_mem_nil

theorem nodup_toList (names : AliasSet) : names.toList.Nodup := by
  refine names.sorted.imp ?_
  rintro a b hlt rfl
  exact String.lt_irrefl a hlt

private theorem head_le_of_mem {a b : String} {rest : List String}
    (hb : (b :: rest).Pairwise (· < ·)) (ha : a ∈ b :: rest) : b ≤ a := by
  rcases List.mem_cons.1 ha with rfl | ha
  · exact String.le_refl _
  · exact String.not_lt.1 (String.lt_asymm ((List.pairwise_cons.1 hb).1 a ha))

private theorem eq_of_mem_iff {xs ys : List String} (hx : xs.Pairwise (· < ·))
    (hy : ys.Pairwise (· < ·)) (h : ∀ name, name ∈ xs ↔ name ∈ ys) : xs = ys := by
  induction xs generalizing ys with
  | nil => exact (List.eq_nil_iff_forall_not_mem.2 fun name => by simp [← h]).symm
  | cons x xs ih =>
    cases ys with
    | nil => exact absurd ((h x).1 (by simp)) (by simp)
    | cons y ys =>
      obtain rfl : x = y := String.le_antisymm
        (head_le_of_mem hx ((h y).2 (by simp))) (head_le_of_mem hy ((h x).1 (by simp)))
      have hx' := List.pairwise_cons.1 hx
      have hy' := List.pairwise_cons.1 hy
      rw [ih hx'.2 hy'.2 fun name => ?_]
      have := h name
      simp only [List.mem_cons] at this
      constructor
      · intro hm
        exact (this.1 (.inr hm)).resolve_left fun e => String.lt_irrefl x (hx'.1 x (e ▸ hm))
      · intro hm
        exact (this.2 (.inr hm)).resolve_left fun e => String.lt_irrefl x (hy'.1 x (e ▸ hm))

/-- Two sets with the same names are equal. -/
@[ext] theorem ext {xs ys : AliasSet} (h : ∀ name, name ∈ xs ↔ name ∈ ys) : xs = ys := by
  obtain ⟨xs, hx⟩ := xs
  obtain ⟨ys, hy⟩ := ys
  obtain rfl : xs = ys := eq_of_mem_iff hx hy h
  rfl

/-! ## Adding and removing names -/

/-- Puts a name in its place in an ascending list, unless it is there. -/
def insertInto (name : String) : List String → List String
  | [] => [name]
  | first :: rest =>
    if name < first then name :: first :: rest
    else if name = first then first :: rest
    else first :: insertInto name rest

private theorem mem_insertInto {a name : String} {xs : List String} :
    a ∈ insertInto name xs ↔ a = name ∨ a ∈ xs := by
  induction xs with
  | nil => simp [insertInto]
  | cons x xs ih =>
    simp only [insertInto]
    split
    · simp
    · split <;> simp_all [or_left_comm]

private theorem sorted_insertInto {name : String} {xs : List String}
    (hx : xs.Pairwise (· < ·)) : (insertInto name xs).Pairwise (· < ·) := by
  induction xs with
  | nil => simp [insertInto]
  | cons x xs ih =>
    have hx' := List.pairwise_cons.1 hx
    simp only [insertInto]
    split
    · next hlt =>
      refine List.pairwise_cons.2 ⟨fun a ha => ?_, hx⟩
      rcases List.mem_cons.1 ha with rfl | ha
      · exact hlt
      · exact String.lt_trans hlt (hx'.1 a ha)
    · next hlt =>
      split
      · exact hx
      · next hne =>
        refine List.pairwise_cons.2 ⟨fun a ha => ?_, ih hx'.2⟩
        rcases mem_insertInto.1 ha with rfl | ha
        · exact Decidable.byContradiction fun hge =>
            hne (String.le_antisymm (String.not_lt.1 hge) (String.not_lt.1 hlt))
        · exact hx'.1 a ha

def insert (names : AliasSet) (name : String) : AliasSet :=
  ⟨insertInto name names.toList, sorted_insertInto names.sorted⟩

def erase (names : AliasSet) (name : String) : AliasSet :=
  ⟨names.toList.filter (· ≠ name), names.sorted.filter _⟩

/-- The set with every one of `more` added. -/
def insertMany (names : AliasSet) (more : List String) : AliasSet := more.foldl insert names

def ofList (names : List String) : AliasSet := insertMany ∅ names

def union (xs ys : AliasSet) : AliasSet := xs.insertMany ys.toList

/-- The set with `new` in the place of `old`, or as it was if it does not hold `old`. -/
def replace (names : AliasSet) (old new : String) : AliasSet :=
  if old ∈ names then (names.erase old).insert new else names

@[simp] theorem mem_insert {a name : String} {names : AliasSet} :
    a ∈ names.insert name ↔ a = name ∨ a ∈ names := mem_insertInto

@[simp] theorem mem_erase {a name : String} {names : AliasSet} :
    a ∈ names.erase name ↔ a ∈ names ∧ a ≠ name := by
  rw [← mem_toList]
  simp [erase]

@[simp] theorem mem_insertMany {a : String} {names : AliasSet} {more : List String} :
    a ∈ names.insertMany more ↔ a ∈ more ∨ a ∈ names := by
  induction more generalizing names with
  | nil => simp [insertMany]
  | cons name more ih =>
    rw [insertMany, List.foldl_cons, ← insertMany, ih, mem_insert, List.mem_cons]
    exact ⟨fun h => by rcases h with h | h | h <;> simp [h], fun h => by
      rcases h with (h | h) | h <;> simp [h]⟩

@[simp] theorem mem_ofList {a : String} {names : List String} : a ∈ ofList names ↔ a ∈ names := by
  simp [ofList]

@[simp] theorem mem_union {a : String} {xs ys : AliasSet} : a ∈ xs.union ys ↔ a ∈ xs ∨ a ∈ ys := by
  rw [union, mem_insertMany, mem_toList, or_comm]

theorem mem_replace {a old new : String} {names : AliasSet} (h : old ∈ names) :
    a ∈ names.replace old new ↔ a = new ∨ a ∈ names ∧ a ≠ old := by
  simp [replace, h]

end AliasSet

end GraphNaming
