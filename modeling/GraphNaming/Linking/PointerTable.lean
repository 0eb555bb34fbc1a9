/-!
# Tables of pointers

A table of pointers keeps the classes of a partition in such a way that two of them are put together
by a few changes. Every key that is known points to another one of its class or to itself, and the
one that points to itself leads the class and has its members. Following the pointers always comes
to an end.

* `PointerTable.find`: the leader of a class.
* `PointerTable.classOf`: the members of a class, in the order in which they came to it.
* `PointerTable.join`: puts two classes together, the second after the first.
-/

namespace GraphNaming

/-- What is known of keys. A key that is not known is alone. -/
structure PointerTable (α : Type) where
  /-- Where the known keys point to. -/
  up : α → Option α
  /-- The members of the classes, under their leaders. -/
  members : α → Option (List α)
  acyclic : WellFounded fun next key => up key = some next ∧ next ≠ key

namespace PointerTable

variable {α β : Type} [DecidableEq α]

/-- The map `entries` with another entry for `key`, or with none. -/
def put (entries : α → Option β) (key : α) (entry : Option β) : α → Option β := fun other =>
  if other = key then entry else entries other

theorem put_self (entries : α → Option β) (key : α) (entry : Option β) :
    put entries key entry key = entry := if_pos rfl

theorem put_of_ne {key other : α} (h : other ≠ key) (entries : α → Option β) (entry : Option β) :
    put entries key entry other = entries other := if_neg h

def empty : PointerTable α where
  up _ := none
  members _ := none
  acyclic := ⟨fun _ => .intro _ fun _ h => nomatch h.1⟩

/-! ## Following pointers -/

/-- Where a key points to. One that is not known counts as pointing to itself. -/
def pointer (table : PointerTable α) (key : α) : α := (table.up key).getD key

omit [DecidableEq α] in
theorem pointer_of_up {table : PointerTable α} {key next : α} (h : table.up key = some next) :
    table.pointer key = next := by
  rw [pointer, h]
  rfl

/-- Follows the pointers up to a key that points to itself or is not known. -/
def find (table : PointerTable α) (key : α) : α :=
  match _hup : table.up key with
  | none => key
  | some next => if _hnext : next = key then key else table.find next
termination_by table.acyclic.wrap key
decreasing_by exact ⟨_hup, _hnext⟩

theorem pointer_find (table : PointerTable α) (key : α) :
    table.pointer (table.find key) = table.find key := by
  fun_induction find with
  | case1 key hup => rw [pointer, hup]; rfl
  | case2 key hup => exact pointer_of_up hup
  | case3 key next hup hnext ih => exact ih

def classOf (table : PointerTable α) (key : α) : List α :=
  (table.members (table.find key)).getD [key]

/-- The keys are in one class. -/
def related (table : PointerTable α) (a b : α) : Bool := table.find a == table.find b

/-! ## Joining -/

/-- Makes the key known. -/
def enter (table : PointerTable α) (key : α) : PointerTable α :=
  if (table.up key).isSome then table
  else {
    up := put table.up key (some key)
    members := put table.members key (some [key])
    acyclic := by
      refine Subrelation.wf (fun {next other} h => ?_) table.acyclic
      obtain ⟨hup, hne⟩ := h
      by_cases ho : other = key
      · rw [ho, put_self, Option.some.injEq] at hup
        exact absurd (hup.symm.trans ho.symm) hne
      · rw [put_of_ne ho] at hup
        exact ⟨hup, hne⟩ }

/-- The pointers still come to an end once `other` points to another key that ends them. -/
theorem acyclic_put {table : PointerTable α} {leader other : α}
    (hend : table.pointer leader = leader) (hne : leader ≠ other) :
    WellFounded fun next key => put table.up other (some leader) key = some next ∧ next ≠ key := by
  have hleader : Acc (fun next key => put table.up other (some leader) key = some next ∧
      next ≠ key) leader := by
    refine .intro _ fun next ⟨hup, hnext⟩ => ?_
    rw [put_of_ne hne] at hup
    exact absurd ((pointer_of_up hup).symm.trans hend) hnext
  refine ⟨fun key => ?_⟩
  induction key using table.acyclic.induction with
  | _ key ih =>
    refine .intro _ fun next ⟨hup, hnext⟩ => ?_
    by_cases hk : key = other
    · rw [hk, put_self, Option.some.injEq] at hup
      exact hup ▸ hleader
    · rw [put_of_ne hk] at hup
      exact ih next ⟨hup, hnext⟩

/-- The key `other` comes to point to `leader`, which takes over its members. -/
def attach (table : PointerTable α) (leader other : α) (hend : table.pointer leader = leader)
    (hne : leader ≠ other) : PointerTable α :=
  let moved := (table.members other).getD []
  let members := put table.members other none
  { up := put table.up other (some leader)
    members := put members leader (some ((members leader).getD [] ++ moved))
    acyclic := acyclic_put hend hne }

/-- Adds the class of `b` to the end of that of `a`. -/
def join (table : PointerTable α) (a b : α) : PointerTable α :=
  let known := (table.enter a).enter b
  if h : known.find a = known.find b then known
  else known.attach (known.find a) (known.find b) (known.pointer_find a) h

/-- The table with each pair of keys joined, in order. -/
def joinAll (table : PointerTable α) (pairs : List (α × α)) : PointerTable α :=
  pairs.foldl (fun table (a, b) => table.join a b) table

/-- The table of keys that were alone until the pairs were joined. -/
def ofPairs (pairs : List (α × α)) : PointerTable α := empty.joinAll pairs

end PointerTable

end GraphNaming
