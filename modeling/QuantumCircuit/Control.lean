/-!
# The plain parts of control flow

Case labels, the values a loop runs over, and the two jumps.
-/

namespace QuantumCircuit

/-- One label of a switch case. -/
inductive CaseLabel where
  /-- Matches exactly this value. -/
  | value (n : UInt64)
  /-- Matches what no other case matches. -/
  | otherwise
deriving DecidableEq

/-- How a label is written. -/
def CaseLabel.text : CaseLabel → String
  | .value n => toString n
  | .otherwise => "default"

/-- The values a `for` loop runs over. -/
inductive LoopIndices where
  /-- From `start` up to, but not including, `stop`, in increments of `step`. -/
  | range (start stop step : Int64)
  /-- An explicit list. -/
  | values (list : List Int64)
deriving DecidableEq

/-- The two ways to leave the current round of a loop. -/
inductive Jump where
  | leave
  | next
deriving DecidableEq, Repr

/-- The operation name of a jump. -/
def Jump.name : Jump → String
  | .leave => "break_loop"
  | .next => "continue_loop"

/-- Why no jump may be made from a place. -/
inductive JumpBan where
  | outsideLoop
  | insideBox
deriving DecidableEq, Repr

/-- The reason in words. -/
def JumpBan.text : JumpBan → String
  | .outsideLoop => "not inside a loop"
  | .insideBox => "jumps cannot leave a box"

end QuantumCircuit
