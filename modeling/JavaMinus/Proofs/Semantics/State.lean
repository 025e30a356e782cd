/-
This file holds what programs compute with: values, the heap of arrays and
objects, and the ways in which a run can end. Words are 32-bit integers and wrap
around; a truth value is a word, and every word but zero counts as true. Arrays
hold words. Objects are only allocated here: the one object whose fields are
read and written is the receiver, and its fields are kept beside the heap.

An action on the heap yields a result, stops on a trap, or is stuck. It is stuck
where it makes no sense, such as adding two references; no statement about
programs says anything then. The operations on words and arrays are actions, and
they are the same for source programs, three-address code and the stack machine:
these differ in how they come by the operands.
-/

import Mathlib.Logic.Function.Basic
import JavaMinus.Syntax.Operator

namespace JavaMinus

/-- What a variable, a field or a place on the operand stack holds. -/
inductive Value
  | word (value : Int32)
  | null
  /-- A reference to the array with this number. -/
  | array (id : Nat)
  /-- A reference to the object with this number. -/
  | object (id : Nat)
deriving DecidableEq, Repr, Inhabited

/-- A truth value is held as `0` or `1`. -/
def Value.ofBool (holds : Bool) : Value := .word (if holds then 1 else 0)

/-- Why a run stops before its end. -/
inductive Trap
  | divisionByZero
  | nullArray
  | outOfRange
  | negativeSize
deriving DecidableEq, Repr, Inhabited

/-- The arrays with their elements, and the objects with the name of their class. References are
positions in these lists. -/
structure Heap where
  arrays : List (List Int32) := []
  objects : List String := []
deriving DecidableEq, Repr, Inhabited

/-! ### Actions -/

/-- What an action does to the heap, and what comes of it. -/
inductive Effect (α : Type)
  | yields (result : α) (heap : Heap)
  | stops (trap : Trap) (heap : Heap)
  | stuck
deriving DecidableEq, Repr, Inhabited

/-- An action on the heap. -/
def Exec (α : Type) : Type := Heap → Effect α

namespace Exec

variable {α β : Type}

/-- Go on with the result of an action; after a trap nothing more is done. -/
protected def bind (first : Exec α) (next : α → Exec β) : Exec β := fun heap =>
  match first heap with
  | .yields result heap => next result heap
  | .stops trap heap => .stops trap heap
  | .stuck => .stuck

instance : Monad Exec where
  pure result := fun heap => .yields result heap
  bind := Exec.bind

/-- Stop on a trap. -/
def stop (trap : Trap) : Exec α := fun heap => .stops trap heap

/-- What makes no sense. -/
def stuck : Exec α := fun _ => .stuck

theorem bind_apply (first : Exec α) (next : α → Exec β) (heap : Heap) :
    (first >>= next) heap =
      match first heap with
      | .yields result heap => next result heap
      | .stops trap heap => .stops trap heap
      | .stuck => .stuck := rfl

instance : LawfulMonad Exec :=
  LawfulMonad.mk' Exec
    (fun action => by
      funext heap
      show (action >>= pure) heap = action heap
      rw [bind_apply]
      cases action heap <;> rfl)
    (fun result next => rfl)
    (fun action next last => by
      funext heap
      rw [bind_apply, bind_apply, bind_apply]
      cases action heap <;> rfl)

end Exec

/-! ### Words -/

/-- The word that a value is. -/
def asWord : Value → Exec Int32
  | .word value => pure value
  | _ => .stuck

/-- Arithmetic wraps around; there is no quotient by zero. -/
def arithmetic (op : ArithOp) (left right : Value) : Exec Value := do
  let first ← asWord left
  let second ← asWord right
  match op with
  | .add => return .word (first + second)
  | .sub => return .word (first - second)
  | .mul => return .word (first * second)
  | .div => if second = 0 then .stop .divisionByZero else return .word (first / second)

/-- Whether one word is less than the other. -/
def isLess (left right : Value) : Exec Bool := do
  let first ← asWord left
  let second ← asWord right
  return decide (first < second)

/-- Whether a word counts as true. -/
def isTrue (value : Value) : Exec Bool := do
  let word ← asWord value
  return word != 0

@[simp] theorem isTrue_ofBool (holds : Bool) : isTrue (.ofBool holds) = pure holds := by
  cases holds <;> rfl

/-! ### Arrays and objects -/

/-- A new array with these elements. -/
def allocate (elements : List Int32) : Exec Value := fun heap =>
  .yields (.array heap.arrays.length) { heap with arrays := heap.arrays ++ [elements] }

/-- Give the array with this number other elements. -/
def replace (id : Nat) (elements : List Int32) : Exec Unit := fun heap =>
  .yields () { heap with arrays := heap.arrays.set id elements }

/-- A new array of zeros. -/
def newArray (size : Value) : Exec Value := do
  let count ← asWord size
  if count < 0 then .stop .negativeSize else allocate (List.replicate count.toNatClampNeg 0)

/-- The number and the elements of the array that a value refers to. -/
def elementsOf (array : Value) : Exec (Nat × List Int32) := fun heap =>
  match array with
  | .null => .stops .nullArray heap
  | .array id =>
    match heap.arrays[id]? with
    | some elements => .yields (id, elements) heap
    | none => .stuck
  | _ => .stuck

/-- The place of an element, if there is one at this position. -/
def placeOf (elements : List Int32) (position : Int32) : Exec Nat :=
  if 0 ≤ position ∧ position.toNatClampNeg < elements.length then
    pure position.toNatClampNeg
  else .stop .outOfRange

/-- The element of an array at a position. -/
def loadElement (array position : Value) : Exec Value := do
  let index ← asWord position
  let (_, elements) ← elementsOf array
  let place ← placeOf elements index
  return .word (elements.getD place 0)

/-- Replace the element of an array at a position. -/
def storeElement (array position stored : Value) : Exec Unit := do
  let index ← asWord position
  let word ← asWord stored
  let (id, elements) ← elementsOf array
  let place ← placeOf elements index
  replace id (elements.set place word)

/-- The length of an array. -/
def arrayLength (array : Value) : Exec Value := do
  let (_, elements) ← elementsOf array
  return .word (Int32.ofNat elements.length)

/-- A new object of a class. -/
def newObject (className : String) : Exec Value := fun heap =>
  .yields (.object heap.objects.length) { heap with objects := heap.objects ++ [className] }

/-! ### States -/

/-- The receiver with its fields, and the variables of a method. -/
structure Env where
  self : Nat
  fields : String → Value
  vars : String → Value

/-- What a run of a method reads and changes. -/
structure State extends Env where
  heap : Heap

/-- How a run ends. -/
inductive Ending
  /-- Control reaches the end. -/
  | fellThrough
  | returned (result : Option Value)
  | stopped (trap : Trap)
deriving DecidableEq, Repr, Inhabited

namespace State

variable {α β : Type}

/-- Let an action change the heap, and go on with its result. -/
def act (state : State) (action : Exec α) (onStop : Trap → State → β)
    (next : α → State → Option β) : Option β :=
  match action state.heap with
  | .yields result heap => next result { state with heap := heap }
  | .stops trap heap => some (onStop trap { state with heap := heap })
  | .stuck => none

def setVar (state : State) (name : String) (value : Value) : State :=
  { state with vars := Function.update state.vars name value }

def setField (state : State) (name : String) (value : Value) : State :=
  { state with fields := Function.update state.fields name value }

@[simp] theorem setVar_vars_self (state : State) (name : String) (value : Value) :
    (state.setVar name value).vars name = value :=
  Function.update_self ..

theorem setVar_vars_of_ne (state : State) {name other : String} (value : Value)
    (different : other ≠ name) : (state.setVar name value).vars other = state.vars other :=
  Function.update_of_ne different ..

end State

end JavaMinus
