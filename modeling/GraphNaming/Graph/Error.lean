import GraphNaming.Identifier

/-!
# Why a graph refuses a change

`BuildError` lists the causes, and `BuildError.message` words them.
-/

namespace GraphNaming

inductive BuildError where
  | unknownModel (model : ModelId)
  | unknownNode (node : NodeId)
  /-- The node has only `outputs` outputs. -/
  | outputOutOfRange (value : Value) (outputs : Nat)
  /-- A value of model `found` stands where one of model `expected` must. -/
  | foreignValue (value : Value) (expected found : ModelId)
  | modelAlreadyOwned (model : ModelId) (owner : NodeId)
  /-- The model would become a region of a node inside itself, or twice a region of one node. -/
  | recursiveRegion (model : ModelId)
  | notParameter (node : NodeId) (model : ModelId)
  | notResult (node : NodeId) (model : ModelId)
  /-- An output binding goes to output `index` of a node with only `outputs` outputs. -/
  | bindingOutOfRange (index outputs : Nat)
  deriving DecidableEq

namespace BuildError

def message : BuildError → String
  | unknownModel model => "unknown model " ++ model.text
  | unknownNode node => "unknown node " ++ node.text
  | outputOutOfRange value outputs =>
    "value " ++ value.text ++ " out of range: node has " ++ outputs.repr ++ " outputs"
  | foreignValue value expected found =>
    "value " ++ value.text ++ " belongs to model " ++ found.text ++
      ", expected a value of model " ++ expected.text
  | modelAlreadyOwned model owner =>
    "model " ++ model.text ++ " is already owned by node " ++ owner.text
  | recursiveRegion model =>
    "model " ++ model.text ++ " cannot be a region of a node inside itself"
  | notParameter node model => "node " ++ node.text ++ " is not a parameter of model " ++ model.text
  | notResult node model => "node " ++ node.text ++ " is not a result of model " ++ model.text
  | bindingOutOfRange index outputs =>
    "output binding targets output " ++ index.repr ++ ", but node has " ++ outputs.repr ++
      " outputs"

end BuildError

end GraphNaming
