/-
This file gives assembly its meaning. The stack machine has an operand stack,
the local slots of the method, the fields of every object and the heap. A line
takes its operands from the stack and leaves its result there; the operations on
words and arrays are the same as those of the other two levels. A field is found
by the path of its class, its name and its descriptor, and a constructor runs
only on an object of its own class. Calls have no meaning here.

Instructions that move a local slot or return a value name the kind of value
that is moved. A checked machine is stuck on a value of the other kind, as if
the code had been rejected when it was loaded; one that is not checked moves
whatever is there.
-/

import Mathlib.Logic.Relation
import JavaMinus.Jasmin.Line
import JavaMinus.Proofs.Semantics.State

namespace JavaMinus

namespace Jasmin

/-- What a field of an object is found by. -/
structure FieldRef where
  owner : String
  field : String
  descriptor : Descriptor
deriving DecidableEq, Repr, Inhabited

/-- What the lines of a method read and change. -/
structure Machine where
  stack : List Value
  locals : Nat → Value
  fields : Nat → FieldRef → Value
  heap : Heap

/-- Where a run of the machine stands. -/
inductive Place
  /-- Before the line at a position. -/
  | before (position : Nat) (machine : Machine)
  | ended (ending : Ending) (machine : Machine)

/-! ### Lines -/

/-- Whether a value is of the kind that a cell is for. -/
def Cell.holds : Cell → Value → Bool
  | .word, .word _ => true
  | .word, _ => false
  | .reference, .word _ => false
  | .reference, _ => true

/-- Whether a machine moves a value as one of a kind. -/
def Cell.accepts (checked : Bool) (cell : Cell) (value : Value) : Bool :=
  !checked || cell.holds value

namespace Machine

def push (machine : Machine) (value : Value) : Machine :=
  { machine with stack := value :: machine.stack }

def setLocal (machine : Machine) (slot : Nat) (value : Value) : Machine :=
  { machine with locals := Function.update machine.locals slot value }

def setField (machine : Machine) (id : Nat) (ref : FieldRef) (value : Value) : Machine :=
  { machine with
    fields := Function.update machine.fields id
      (Function.update (machine.fields id) ref value) }

/-- Take the top of the stack. -/
def withTop (machine : Machine) (next : Value → Machine → Option Place) : Option Place :=
  match machine.stack with
  | value :: rest => next value { machine with stack := rest }
  | [] => none

/-- Let an action change the heap and go on with its result; a trap ends the run. -/
def act {α : Type} (machine : Machine) (action : Exec α) (next : α → Machine → Option Place) :
    Option Place :=
  match action machine.heap with
  | .yields result heap => next result { machine with heap := heap }
  | .stops trap heap => some (.ended (.stopped trap) { machine with heap := heap })
  | .stuck => none

end Machine

/-- The position of a label. -/
def linePosition? (lines : List Line) (label : Label) : Option Nat :=
  lines.findIdx? (· == .label label)

/-- Go on at a label. -/
def enter (lines : List Line) (label : Label) (machine : Machine) : Option Place :=
  (linePosition? lines label).map fun position => .before position machine

/-- Push a local slot. -/
def loadFrom (checked : Bool) (position : Nat) (machine : Machine) (cell : Cell) (slot : Nat) :
    Option Place :=
  if cell.accepts checked (machine.locals slot) then
    some (.before (position + 1) (machine.push (machine.locals slot)))
  else none

/-- Pop into a local slot. -/
def storeTo (checked : Bool) (position : Nat) (machine : Machine) (cell : Cell) (slot : Nat) :
    Option Place :=
  machine.withTop fun value machine =>
    if cell.accepts checked value then some (.before (position + 1) (machine.setLocal slot value))
    else none

/-- Push the result of an action. -/
def pushResult (position : Nat) (machine : Machine) (action : Exec Value) : Option Place :=
  machine.act action fun value machine => some (.before (position + 1) (machine.push value))

/-- Where the line at a position leads. -/
def Line.perform (checked : Bool) (lines : List Line) (position : Nat) (machine : Machine) :
    Line → Option Place
  | .label _ => some (.before (position + 1) machine)
  | .iconst value =>
    if -1 ≤ value ∧ value ≤ 5 then
      some (.before (position + 1) (machine.push (.word value.toInt32)))
    else none
  | .bipush value => some (.before (position + 1) (machine.push (.word value.toInt32)))
  | .sipush value => some (.before (position + 1) (machine.push (.word value.toInt32)))
  | .ldc value => some (.before (position + 1) (machine.push (.word value)))
  | .shortLoad cell slot => loadFrom checked position machine cell slot
  | .load cell slot => loadFrom checked position machine cell slot.toNat
  | .shortStore cell slot => storeTo checked position machine cell slot
  | .store cell slot => storeTo checked position machine cell slot.toNat
  | .getField owner field descriptor => machine.withTop fun object machine =>
    match object with
    | .object id =>
      some (.before (position + 1) (machine.push (machine.fields id ⟨owner, field, descriptor⟩)))
    | _ => none
  | .putField owner field descriptor => machine.withTop fun value machine =>
    machine.withTop fun object machine =>
      match object with
      | .object id =>
        some (.before (position + 1) (machine.setField id ⟨owner, field, descriptor⟩ value))
      | _ => none
  | .newObject path => pushResult position machine (JavaMinus.newObject path)
  | .dup => machine.withTop fun value machine =>
    some (.before (position + 1) ((machine.push value).push value))
  | .pop => machine.withTop fun _ machine => some (.before (position + 1) machine)
  | .newIntArray => machine.withTop fun size machine =>
    pushResult position machine (newArray size)
  | .loadElement => machine.withTop fun index machine => machine.withTop fun array machine =>
    pushResult position machine (JavaMinus.loadElement array index)
  | .storeElement => machine.withTop fun stored machine => machine.withTop fun index machine =>
    machine.withTop fun array machine =>
      machine.act (JavaMinus.storeElement array index stored) fun _ machine =>
        some (.before (position + 1) machine)
  | .arrayLength => machine.withTop fun array machine =>
    pushResult position machine (JavaMinus.arrayLength array)
  | .arith op => machine.withTop fun right machine => machine.withTop fun left machine =>
    pushResult position machine (arithmetic op left right)
  | .goto target => enter lines target machine
  | .ifLess target => machine.withTop fun right machine => machine.withTop fun left machine =>
    machine.act (isLess left right) fun taken machine =>
      if taken then enter lines target machine else some (.before (position + 1) machine)
  | .ifNonZero target => machine.withTop fun value machine =>
    machine.act (isTrue value) fun taken machine =>
      if taken then enter lines target machine else some (.before (position + 1) machine)
  | .construct owner => machine.withTop fun object machine =>
    match object with
    | .object id =>
      if machine.heap.objects[id]? = some owner then some (.before (position + 1) machine) else none
    | _ => none
  | .invokeVirtual _ _ _ | .invokeStatic _ _ _ => none
  | .ret cell => machine.withTop fun value machine =>
    if cell.accepts checked value then some (.ended (.returned (some value)) machine) else none
  | .retVoid => some (.ended (.returned none) machine)

/-! ### Runs -/

/-- Where a run goes next. A run that comes to the end of the lines has fallen through. -/
def follow (checked : Bool) (lines : List Line) : Place → Option Place
  | .before position machine =>
    match lines[position]? with
    | some line => line.perform checked lines position machine
    | none => some (.ended .fellThrough machine)
  | .ended _ _ => none

/-- Where a run can come to. -/
def Runs (checked : Bool) (lines : List Line) : Place → Place → Prop :=
  Relation.ReflTransGen fun place next => follow checked lines place = some next

namespace Runs

variable {checked : Bool} {lines : List Line} {first second third : Place}

theorem trans (start : Runs checked lines first second) (rest : Runs checked lines second third) :
    Runs checked lines first third :=
  Relation.ReflTransGen.trans start rest

/-- One line is a run. -/
theorem single {position : Nat} {line : Line} {machine : Machine}
    (fetched : lines[position]? = some line)
    (performed : line.perform checked lines position machine = some second) :
    Runs checked lines (.before position machine) second := by
  refine Relation.ReflTransGen.single ?_
  rw [follow, fetched]
  exact performed

/-- A line in front of a run. -/
theorem cons {position : Nat} {line : Line} {machine : Machine}
    (fetched : lines[position]? = some line)
    (performed : line.perform checked lines position machine = some second)
    (rest : Runs checked lines second third) :
    Runs checked lines (.before position machine) third :=
  (single fetched performed).trans rest

end Runs

end Jasmin

end JavaMinus
