/-!
# Partitions

A partition puts keys into classes by joining them two at a time. A key that was never joined with
another is alone in its class.

* `Partition.classOf`: the class of a key, in the order in which the keys came to it.
* `Partition.representative`: the first key of a class.
* `Partition.join`: puts two classes together, the second after the first.
* `Partition.leaders`: of each class, the first that a list has.
-/

namespace GraphNaming

/-- The classes of the keys that were joined. They are disjoint, and none is empty. -/
structure Partition (α : Type) where
  classes : List (List α)
  deriving DecidableEq

namespace Partition

variable {α β : Type} [DecidableEq α]

/-- Every key is alone. -/
def empty : Partition α := ⟨[]⟩

def classOf (partition : Partition α) (key : α) : List α :=
  (partition.classes.find? (key ∈ ·)).getD [key]

def representative (partition : Partition α) (key : α) : α :=
  (partition.classOf key).headD key

/-- The keys are in one class. -/
def related (partition : Partition α) (a b : α) : Bool :=
  partition.representative a == partition.representative b

/-- Adds the class of `b` to the end of that of `a`. -/
def join (partition : Partition α) (a b : α) : Partition α :=
  if partition.related a b then partition
  else ⟨(partition.classOf a ++ partition.classOf b) ::
    partition.classes.filter fun keys => a ∉ keys ∧ b ∉ keys⟩

/-- The partition with each pair of keys joined, in order. -/
def joinAll (partition : Partition α) (pairs : List (α × α)) : Partition α :=
  pairs.foldl (fun partition (a, b) => partition.join a b) partition

/-- The classes of two keys or more, ordered by their representatives. -/
def linked (partition : Partition α) (ble : α → α → Bool) : List (List α) :=
  (partition.classes.filter fun keys => 1 < keys.length).mergeSort fun
    | a :: _, b :: _ => ble a b
    | _, _ => true

/-- The items whose class is not among those of `seen` and has no earlier item. -/
def leadersAfter (partition : Partition α) (key : β → α) : List α → List β → List β
  | _, [] => []
  | seen, item :: rest =>
    let first := partition.representative (key item)
    if first ∈ seen then partition.leadersAfter key seen rest
    else item :: partition.leadersAfter key (first :: seen) rest

/-- The items that are the first of their class. -/
def leaders (partition : Partition α) (key : β → α) (items : List β) : List β :=
  partition.leadersAfter key [] items

end Partition

end GraphNaming
