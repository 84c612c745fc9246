import QuantumCircuit.Assoc
import QuantumCircuit.Classical.Ty
import QuantumCircuit.Edit

/-!
# Identifier tables

The identifiers that a circuit knows, by name and in order, each with the way it
came in, and a count for each sort and way. Names are unique over both sorts;
no stretch is an input; inputs and captures are never found together.
-/

namespace QuantumCircuit

/-- Identifiers by name, with their kinds and counts. -/
structure IdentifierTable where
  entries : List (String × Identifier × IdentifierKind)
  inputVars : Nat
  capturedVars : Nat
  capturedStretches : Nat
  declaredVars : Nat
  declaredStretches : Nat

namespace IdentifierTable

/-- No identifiers. -/
def empty : IdentifierTable := ⟨[], 0, 0, 0, 0, 0⟩

/-- The number of identifiers. -/
def size (t : IdentifierTable) : Nat := t.entries.length

/-- Whether there are none. -/
def isEmpty (t : IdentifierTable) : Bool := t.entries.isEmpty

/-- The number of captures of both sorts. -/
def captures (t : IdentifierTable) : Nat := t.capturedVars + t.capturedStretches

/-- The identifiers with their kinds, in order. -/
def toList (t : IdentifierTable) : List (Identifier × IdentifierKind) := t.entries.map (·.2)

/-- The names, in order. -/
def names (t : IdentifierTable) : List String := Assoc.keys t.entries

/-- The identifier of that name. -/
def get? (t : IdentifierTable) (name : String) : Option Identifier :=
  (Assoc.find? name t.entries).map (·.1)

/-- Whether the name is taken. -/
def hasName (t : IdentifierTable) (name : String) : Bool := Assoc.contains name t.entries

/-- The kind of exactly this identifier. -/
def kind? (t : IdentifierTable) (i : Identifier) : Option IdentifierKind :=
  match Assoc.find? i.name t.entries with
  | some (found, kind) => if found = i then some kind else none
  | none => none

/-- Whether exactly this identifier is present. -/
def contains (t : IdentifierTable) (i : Identifier) : Bool := (t.kind? i).isSome

/-- The identifiers of one kind, in order. -/
def ofKind (t : IdentifierTable) (kind : IdentifierKind) : List Identifier :=
  (t.toList.filter (·.2 = kind)).map (·.1)

/-- Equal tables: the same names with the same entries, in any order, and the same counts. -/
def beq (a b : IdentifierTable) : Bool :=
  a.size == b.size
    && a.entries.all (fun e => Assoc.find? e.1 b.entries == some e.2)
    && a.inputVars == b.inputVars && a.capturedVars == b.capturedVars
    && a.capturedStretches == b.capturedStretches && a.declaredVars == b.declaredVars
    && a.declaredStretches == b.declaredStretches

instance : BEq IdentifierTable := ⟨beq⟩

/-- Refuse an identifier that cannot come in that way: a taken name, a stretch as
an input, an input beside captures or a capture beside inputs. -/
def check (t : IdentifierTable) (i : Identifier) (kind : IdentifierKind) :
    Except CircuitError Unit :=
  match t.get? i.name with
  | some found =>
    if found = i then .error (.duplicateIdentifier i.name) else .error (.identifierShadowing i.name)
  | none =>
    match i, kind with
    | .stretch s, .input => .error (.stretchInput s.name)
    | .var _, .input => if 0 < t.captures then .error .inputCaptureConflict else .ok ()
    | _, .capture => if 0 < t.inputVars then .error .inputCaptureConflict else .ok ()
    | _, .declare => .ok ()

/-- Count one more of the sort and kind. -/
def count (t : IdentifierTable) (sort : IdentifierSort) (kind : IdentifierKind) : IdentifierTable :=
  match sort, kind with
  | .var, .input => { t with inputVars := t.inputVars + 1 }
  | .var, .capture => { t with capturedVars := t.capturedVars + 1 }
  | .var, .declare => { t with declaredVars := t.declaredVars + 1 }
  | .stretch, .capture => { t with capturedStretches := t.capturedStretches + 1 }
  | .stretch, _ => { t with declaredStretches := t.declaredStretches + 1 }

/-- The table with one entry more. -/
def insert (t : IdentifierTable) (i : Identifier) (kind : IdentifierKind) : IdentifierTable :=
  let t := t.count i.sort kind
  { t with entries := Assoc.insert i.name (i, kind) t.entries }

/-- The table with one entry more, if it may come in. -/
def added (t : IdentifierTable) (i : Identifier) (kind : IdentifierKind) :
    Except CircuitError IdentifierTable := do
  t.check i kind
  return t.insert i kind

/-- Add an identifier. -/
def add (i : Identifier) (kind : IdentifierKind) : Edit IdentifierTable Unit :=
  Edit.update (·.added i kind)

/-- The same identifiers, all as captures. -/
def asCaptures (t : IdentifierTable) : IdentifierTable :=
  t.toList.foldl (fun out e => out.insert e.1 .capture) empty

/-- The table with every identifier sent through `f`, kinds kept. -/
def map (t : IdentifierTable) (f : Identifier → Identifier) : Except CircuitError IdentifierTable :=
  t.toList.foldlM (fun out e => out.added (f e.1) e.2) empty

end IdentifierTable

end QuantumCircuit
