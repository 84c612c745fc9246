import QuantumCircuit.Assoc
import QuantumCircuit.Distinct
import QuantumCircuit.Error
import QuantumCircuit.Param.Parameter
import QuantumCircuit.Sorting

/-!
# Where parameters are used

The table maps each parameter in use to the places that use it, and each name to
the parameter that has it. It is kept current by tracking and untracking one
place at a time. Names are meant to be unique; `check` refuses a list of
parameters that would break this, and tracking relies on it.

The canonical order is worked out when it is asked for and kept until a parameter
comes or goes.
-/

namespace QuantumCircuit

/-- A place where a parameter occurs. -/
inductive ParameterUse where
  /-- The global phase. -/
  | phase
  /-- A parameter of a record; for control flow the slot is the position of the body. -/
  | record (index slot : Nat)
deriving DecidableEq, Repr

/-- The use sites of the parameters of a circuit, and their names. -/
structure ParameterTable where
  uses : List (Parameter × List ParameterUse)
  byName : List (String × Parameter)
  /-- The canonical order, while it is known. -/
  order : Option (List Parameter)
deriving DecidableEq

namespace ParameterTable

/-- The table of nothing. -/
def empty : ParameterTable := ⟨[], [], none⟩

/-- The number of parameters in use. -/
def size (t : ParameterTable) : Nat := t.uses.length

/-- Whether `p` is in use. -/
def contains (t : ParameterTable) (p : Parameter) : Bool := Assoc.contains p t.uses

/-- The parameter of that name. -/
def named? (t : ParameterTable) (name : String) : Option Parameter := Assoc.find? name t.byName

/-- The use sites of `p`. -/
def uses? (t : ParameterTable) (p : Parameter) : Option (List ParameterUse) := Assoc.find? p t.uses

/-- The parameters in use, in canonical order: the order that is known, or else worked out. -/
def sorted (t : ParameterTable) : List Parameter :=
  t.order.getD (Sorting.sort Parameter.le (Assoc.keys t.uses))

/-- The table after its order was read. -/
def remembered (t : ParameterTable) : ParameterTable := { t with order := some t.sorted }

/-- Refuse parameters one of which has the name of a different one, in the table
or earlier in the list; `batch` maps the earlier names to their parameters. -/
def checkAfter (t : ParameterTable) (batch : List (String × Parameter)) :
    List Parameter → Except CircuitError Unit
  | [] => .ok ()
  | p :: rest =>
    let differs (q : Option Parameter) : Bool := q.any (· != p)
    if differs (t.named? p.name) || differs (Assoc.find? p.name batch) then
      .error (.parameterNameConflict p.name)
    else checkAfter t (Assoc.insert p.name p batch) rest

/-- Refuse parameters that would make a name ambiguous. -/
def check (t : ParameterTable) (ps : List Parameter) : Except CircuitError Unit :=
  t.checkAfter [] ps

/-- Note that `p` is used at `site`. -/
def track (site : ParameterUse) (t : ParameterTable) (p : Parameter) : ParameterTable :=
  if t.contains p then { t with uses := Assoc.adjust p (Distinct.insert site) t.uses }
  else ⟨t.uses ++ [(p, [site])], Assoc.insert p.name p t.byName, none⟩

/-- Note that `p` is no longer used at `site`; its last use gone, it is forgotten with its name. -/
def untrack (site : ParameterUse) (t : ParameterTable) (p : Parameter) : ParameterTable :=
  match t.uses? p with
  | none => t
  | some sites =>
    let left := sites.erase site
    if left.isEmpty then ⟨Assoc.erase p t.uses, Assoc.erase p.name t.byName, none⟩
    else { t with uses := Assoc.adjust p (fun _ => left) t.uses }

/-- Track the parameters of record `index`, given with their slots. -/
def trackRecord (index : Nat) (t : ParameterTable) (slots : List (Nat × Parameter)) :
    ParameterTable :=
  slots.foldl (fun t u => t.track (.record index u.1) u.2) t

/-- Untrack the parameters of record `index`, given with their slots. -/
def untrackRecord (index : Nat) (t : ParameterTable) (slots : List (Nat × Parameter)) :
    ParameterTable :=
  slots.foldl (fun t u => t.untrack (.record index u.1) u.2) t

/-- Track the parameters of the global phase. -/
def trackPhase (t : ParameterTable) (ps : List Parameter) : ParameterTable :=
  ps.foldl (track .phase) t

/-- Untrack the parameters of the global phase. -/
def untrackPhase (t : ParameterTable) (ps : List Parameter) : ParameterTable :=
  ps.foldl (untrack .phase) t

/-- The records that use one of the parameters, in order, and whether the phase does. -/
def affected (t : ParameterTable) (ps : List Parameter) : List Nat × Bool :=
  let sites := ps.flatMap fun p => (t.uses? p).getD []
  let index? : ParameterUse → Option Nat
    | .phase => none
    | .record index _ => some index
  (Sorting.sort (· ≤ ·) (Distinct.ofList (sites.filterMap index?)), sites.contains .phase)

/-- The table of a phase and of records, given by their parameters. -/
def build (phase : List Parameter) (records : List (List (Nat × Parameter))) : ParameterTable :=
  let step (state : ParameterTable × Nat) (slots : List (Nat × Parameter)) : ParameterTable × Nat :=
    (state.1.trackRecord state.2 slots, state.2 + 1)
  (records.foldl step (empty.trackPhase phase, 0)).1

end ParameterTable

end QuantumCircuit
