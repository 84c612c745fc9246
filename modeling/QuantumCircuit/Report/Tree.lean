import QuantumCircuit.Identity

/-!
# Reports

A report shows a value as plain data: texts, counts, numbers, lists and named
fields. What has identity is shown by a label, which says of what kind it is and
ends in its name; whoever prints the report puts in a number that tells objects
of one kind apart.
-/

namespace QuantumCircuit

/-- What a label can stand for. -/
inductive LabelKind where
  | qubit | clbit | var | stretch | parameter
  /-- An identity written out by itself. -/
  | bare
deriving DecidableEq, Repr

/-- The letter that a label starts with. -/
def LabelKind.letter : LabelKind → String
  | qubit => "Q"
  | clbit => "C"
  | var => "V"
  | stretch => "S"
  | parameter => "P"
  | bare => "U"

/-- Plain data with labels. -/
inductive Report where
  | null
  | bool (b : Bool)
  | count (n : Int)
  | number (x : Float)
  | text (s : String)
  | label (kind : LabelKind) (identity : Identity) (ending : String)
  | list (items : List Report)
  | fields (entries : List (String × Report))

namespace Report

/-- A count of something. -/
def nat (n : Nat) : Report := count (Int.ofNat n)

/-- Counts. -/
def nats (ns : List Nat) : Report := list (ns.map nat)

/-- Texts. -/
def texts (ss : List String) : Report := list (ss.map text)

/-- A list that starts with a word. -/
def tagged (tag : String) (items : List Report) : Report := list (text tag :: items)

/-- The report of each member. -/
def each {α : Type} (f : α → Report) (xs : List α) : Report := list (xs.map f)

/-- The report of what may be missing. -/
def optional {α : Type} (f : α → Report) : Option α → Report
  | some a => f a
  | none => null

end Report

end QuantumCircuit
