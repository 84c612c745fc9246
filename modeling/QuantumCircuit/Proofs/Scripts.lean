import QuantumCircuit.Proofs.Refusing
import QuantumCircuit.Proofs.Transparent

/-!
# Scripts

What the body of a builder may do, as data: calls and builders, one after another, each of which
may be refused (`Script`). A body goes on as it likes after a refusal: it may pass it on, answer
with another one, or go on as if nothing had happened; and what it does next may depend on all
that was seen so far, which the run keeps in a trail (`Traced`). How far the calls reach, into the
scope only or into the store as well, is up to its licence (`Licence`).

A builder notes what it reads, runs its bodies, and comes to an end with their blocks
(`Building.run_eq`).
-/

namespace QuantumCircuit

open Circuit (Call Closing)

/-! ## Licences -/

/-- Whether a circuit passes the call on to its store. The other calls need the store itself, and
that cannot be had while a block is open. -/
def Content.Call.PassedOn : Content.Call → Prop
  | addBit _ _ | addRegister _ _ | clear | setPhase _ | listParameters | assign _ _ => True
  | addIdentifier _ _ | push _ | insertFront _ | pop | setDuration _ | copyEmpty _ => False

/-- What a body may call. -/
inductive Licence where
  /-- What goes to the active scope. -/
  | scope
  /-- Whatever a circuit with open blocks can be told. -/
  | full

namespace Licence

/-- Whether a body may make the call. -/
def Allows : Licence → Call → Prop
  | scope, k => k.ToScope
  | full, .store k => k.PassedOn
  | full, _ => True

/-- What stays the same of a circuit whatever is called: all but its blocks, or only which
identifiers its store has. -/
def Same : Licence → Circuit → Circuit → Prop
  | scope, base, c => c.name = base.name ∧ c.content = base.content
  | full, base, c => c.content.identifiers = base.content.identifiers

variable {L : Licence} {base c d : Circuit}

theorem Same.refl (c : Circuit) : L.Same c c := by
  cases L
  · exact ⟨rfl, rfl⟩
  · rfl

theorem Same.trans (h : L.Same base c) (hd : L.Same c d) : L.Same base d := by
  cases L with
  | scope => exact ⟨hd.1.trans h.1, hd.2.trans h.2⟩
  | full => exact Eq.trans hd h

theorem Same.identifiers (h : L.Same base c) :
    c.content.identifiers = base.content.identifiers := by
  cases L with
  | scope => rw [h.2]
  | full => exact h

/-- The blocks do not count. -/
theorem Same.of_store (hname : c.name = base.name) (hcontent : c.content = base.content) :
    L.Same base c := by
  cases L with
  | scope => exact ⟨hname, hcontent⟩
  | full => exact congrArg Content.identifiers hcontent

end Licence

/-! ## Trails -/

/-- What a builder reads itself, after a check of its own. -/
structure Reading where
  check : Except CircuitError Unit
  use : ClassicalUse
  identifiers : List Identifier

/-- Something that happens in the run of a body. -/
inductive Event where
  /-- A builder turns to what it reads. -/
  | reads (r : Reading) (before : Circuit)
  | call (k : Call) (before after : Circuit) (answer : Except CircuitError Unit)
  /-- A builder has come to its end, or was refused. -/
  | built (before after : Circuit) (answer : Except CircuitError Unit)
  /-- A case of a switch is there, or was refused. -/
  | case (before after : Circuit) (answer : Except CircuitError Unit)

/-- The circuits that were there around the event. -/
def Event.circuits : Event → List Circuit
  | reads _ before => [before]
  | call _ before after _ | built before after _ | case before after _ => [before, after]

/-- A circuit, and all that has happened to it. -/
structure Traced where
  circuit : Circuit
  trail : List Event

namespace Traced

/-- The circuit as a part. -/
def focus : Focus Traced Circuit := ⟨(·.circuit), fun c s => { s with circuit := c }⟩

/-- Take note of the event. -/
def log (e : Event) (s : Traced) : Traced := { s with trail := s.trail ++ [e] }

/-- Make the edit, and take note of how that went. It is for others to act on a refusal. -/
def watch {α : Type} (note : Circuit → Circuit → Except CircuitError Unit → Event)
    (edit : Edit Traced α) : Edit Traced (Except CircuitError α) := fun s =>
  match edit s with
  | .ok a t => .ok (.ok a) (t.log (note s.circuit t.circuit (.ok ())))
  | .error e t => .ok (.error e) (t.log (note s.circuit t.circuit (.error e)))

/-- Take note that a builder turns to what it reads. -/
def turnTo (r : Reading) : Edit Traced Unit := modify fun s => s.log (.reads r s.circuit)

end Traced

/-! ## Scripts -/

mutual

/-- What a body does. -/
inductive Script (L : Licence) where
  /-- It ends, with an answer or a refusal. -/
  | done (answer : Except CircuitError Unit)
  /-- What it does depends on what has been seen so far. -/
  | look (next : Traced → Script L)
  /-- It makes a call, and goes on whether that is refused or not. -/
  | call (k : Call) (allowed : L.Allows k) (next : Except CircuitError Unit → Script L)
  /-- It runs a builder, and goes on whether that is refused or not. -/
  | build (b : Building L) (next : Except CircuitError Unit → Script L)

/-- A builder with scripts for its bodies. -/
inductive Building (L : Licence) where
  | ifTest (condition : Condition) (body : Script L)
  | ifElse (condition : Condition) (trueBody falseBody : Script L)
  | whileLoop (condition : Condition) (body : Script L)
  | forLoop (indices : LoopIndices) (parameter : Option Parameter) (body : Script L)
  | switch (target : SwitchTarget) (cases : Cases L)
  | box (duration : Option Duration) (body : Script L)

/-- How the cases of a switch are added. -/
inductive Cases (L : Licence) where
  | done (answer : Except CircuitError Unit)
  | look (next : Traced → Cases L)
  /-- A case is added, or refused. -/
  | case (labels : List CaseLabel) (body : Script L) (next : Except CircuitError Unit → Cases L)

end

variable {L : Licence}

/-- What the builder reads itself. -/
def Building.reading : Building L → Reading
  | .ifTest condition _ | .ifElse condition _ _ | .whileLoop condition _ =>
    ⟨condition.validate, condition.classicalUse, condition.identifiers⟩
  | .switch target _ => ⟨target.validate, target.classicalUse, target.identifiers⟩
  | .box (some duration) _ => ⟨duration.validate, .none, duration.identifiers⟩
  | .box none _ | .forLoop _ _ _ => ⟨.ok (), .none, []⟩

mutual

/-- Run the body. -/
def Script.run : Script L → Edit Traced Unit
  | .done answer => Edit.ofExcept answer
  | .look next => fun s => (next s).run s
  | .call k _ next => do
    let answer ← Traced.watch (.call k) (Edit.within Traced.focus k.run)
    (next answer).run
  | .build b next => do
    let answer ← Traced.watch .built b.run
    (next answer).run

/-- Run the builder with its bodies. -/
def Building.run : Building L → Edit Traced Unit
  | .ifTest condition body => do
    Traced.turnTo (Building.reading (L := L) (.ifTest condition body))
    Builder.ifTest Traced.focus condition body.run
  | .ifElse condition t f => do
    Traced.turnTo (Building.reading (L := L) (.ifElse condition t f))
    Builder.ifElse Traced.focus condition t.run f.run
  | .whileLoop condition body => do
    Traced.turnTo (Building.reading (L := L) (.whileLoop condition body))
    Builder.whileLoop Traced.focus condition body.run
  | .forLoop indices parameter body => do
    Traced.turnTo (Building.reading (L := L) (.forLoop indices parameter body))
    Builder.forLoop Traced.focus indices parameter body.run
  | .switch target cases => do
    Traced.turnTo (Building.reading (L := L) (.switch target cases))
    Builder.switch Traced.focus target cases.run
  | .box duration body => do
    Traced.turnTo (Building.reading (L := L) (.box duration body))
    Builder.box Traced.focus duration body.run

/-- Add the cases. -/
def Cases.run : Cases L → SwitchCases → Edit Traced SwitchCases
  | .done answer, sofar => do
    Edit.ofExcept answer
    return sofar
  | .look next, sofar => fun s => (next s).run sofar s
  | .case labels body next, sofar => do
    match ← Traced.watch .case (Builder.switchCase Traced.focus labels body.run sofar) with
    | .ok more => (next (.ok ())).run more
    | .error e => (next (.error e)).run sofar

end

namespace Building

/-- Note what the builder reads, and answer the block that its bodies start from. -/
def head : Building L → Edit Circuit Block
  | ifTest condition _ | ifElse condition _ _ => Circuit.openBranch condition
  | whileLoop condition _ => Circuit.openLoop condition
  | forLoop _ _ _ => pure (Block.empty none)
  | switch target _ => Circuit.openSwitch target
  | box duration _ => Circuit.openBox duration

/-- Run the bodies, each in a block like `template`, and answer the end that the builder comes
to with their blocks. -/
def bodies (template : Block) : Building L → Edit Traced Closing
  | ifTest condition body => do
    return .ifElse condition (← Builder.runBlock Traced.focus template body.run) none
  | ifElse condition t f => do
    let t ← Builder.runBlock Traced.focus template t.run
    return .ifElse condition t (some (← Builder.runBlock Traced.focus template f.run))
  | whileLoop condition body => do
    return .whileLoop condition (← Builder.runBlock Traced.focus template body.run)
  | forLoop indices parameter body => do
    return .forLoop indices parameter (← Builder.runBlock Traced.focus template body.run)
  | switch target cases => do
    return .switch target (← cases.run ⟨template, []⟩).arms
  | box duration body => do
    return .box duration (← Builder.runBlock Traced.focus template body.run)

/-- Whatever the builder, it notes what it reads, runs its bodies and comes to its end. -/
theorem run_eq (b : Building L) : b.run = (do
    Traced.turnTo b.reading
    let template ← Edit.within Traced.focus b.head
    let k ← b.bodies template
    Edit.within Traced.focus k.run : Edit Traced Unit) := by
  cases b with
  | ifTest condition body | whileLoop condition body | box duration body
  | ifElse condition t f | switch target cases =>
    simp only [run, bodies, bind_assoc, pure_bind]
    rfl
  | forLoop indices parameter body =>
    -- this builder reads nothing, so that its head does nothing
    have hhead : (Edit.within Traced.focus (pure (Block.empty none)) : Edit Traced Block) =
        pure (Block.empty none) := rfl
    simp only [run, head, bodies, bind_assoc, pure_bind, hhead]
    rfl

end Building

end QuantumCircuit
