/-!
# Identifiers

Nodes and models are numbered in the order in which they are made, each kind on its own. A
`Value` names one output of a node.

* `NodeId.text`, `ModelId.text`, `Value.text`: the written forms `n3`, `m1` and `n3.0`.
* `Value.sort`: values by node, then by output.
* `IdSupply`: the next unused number of each kind.
-/

namespace GraphNaming

/-- A node's number, unique in the whole graph. -/
structure NodeId where
  number : Nat
  deriving DecidableEq

/-- A model's number, unique in the whole graph. -/
structure ModelId where
  number : Nat
  deriving DecidableEq

/-- Output `index` of `node`. -/
structure Value where
  node : NodeId
  index : Nat
  deriving DecidableEq

namespace NodeId

/-- Output `index` of the node. -/
def output (id : NodeId) (index : Nat) : Value := ⟨id, index⟩

def text (id : NodeId) : String := "n" ++ id.number.repr

/-- Nodes are ordered by number. -/
protected def ble (a b : NodeId) : Bool := a.number ≤ b.number

end NodeId

namespace ModelId

/-- The model that every graph starts with. -/
def root : ModelId := ⟨0⟩

def text (id : ModelId) : String := "m" ++ id.number.repr

end ModelId

namespace Value

def text (value : Value) : String := value.node.text ++ "." ++ value.index.repr

/-- Values are ordered by node, and those of one node by output. -/
protected def ble (a b : Value) : Bool :=
  a.node.number < b.node.number || (a.node == b.node && a.index ≤ b.index)

def sort (values : List Value) : List Value := values.mergeSort Value.ble

end Value

/-- How many numbers of each kind are in use: the next one is the count. -/
structure IdSupply where
  nodes : Nat := 0
  models : Nat := 0
  deriving DecidableEq

namespace IdSupply

/-- The next node number, and the supply without it. -/
def takeNode (ids : IdSupply) : NodeId × IdSupply :=
  (⟨ids.nodes⟩, { ids with nodes := ids.nodes + 1 })

/-- The next model number, and the supply without it. -/
def takeModel (ids : IdSupply) : ModelId × IdSupply :=
  (⟨ids.models⟩, { ids with models := ids.models + 1 })

end IdSupply

end GraphNaming
