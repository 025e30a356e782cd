/-
This file shows that the names of classes do not matter to what runs compute.
The heap remembers for each object the name of its class; three-address code
uses the name as it is written and the machine uses the path of the class. An
action is natural when it does the same to a heap whose class names are changed.
All operations on words and arrays are natural.
-/

import JavaMinus.Proofs.Semantics.Code

namespace JavaMinus

/-- The heap with other names for the classes. -/
def Heap.rename (name : String → String) (heap : Heap) : Heap :=
  { heap with objects := heap.objects.map name }

@[simp] theorem Heap.rename_arrays (name : String → String) (heap : Heap) :
    (heap.rename name).arrays = heap.arrays := rfl

def Effect.rename {α : Type} (name : String → String) : Effect α → Effect α
  | .yields result heap => .yields result (heap.rename name)
  | .stops trap heap => .stops trap (heap.rename name)
  | .stuck => .stuck

/-- The action does the same whatever the classes are called. -/
def Exec.Natural {α : Type} (action : Exec α) : Prop :=
  ∀ name heap, action (heap.rename name) = (action heap).rename name

namespace Exec.Natural

variable {α β : Type}

theorem pure (result : α) : (Pure.pure result : Exec α).Natural := fun _ _ => rfl

theorem stop (trap : Trap) : (Exec.stop trap : Exec α).Natural := fun _ _ => rfl

theorem stuck : (Exec.stuck : Exec α).Natural := fun _ _ => rfl

theorem bind {first : Exec α} {next : α → Exec β} (start : first.Natural)
    (rest : ∀ result, (next result).Natural) : (first >>= next).Natural := by
  intro name heap
  rw [bind_apply, bind_apply, start name heap]
  cases first heap with
  | yields result heap => exact rest result name heap
  | stops trap heap => rfl
  | stuck => rfl

/-! ### Words -/

theorem asWord (value : Value) : (JavaMinus.asWord value).Natural := by
  cases value with
  | word value => exact pure value
  | null | array _ | object _ => exact stuck

theorem arithmetic (op : ArithOp) (left right : Value) :
    (JavaMinus.arithmetic op left right).Natural := by
  refine bind (asWord left) fun first => bind (asWord right) fun second => ?_
  cases op with
  | add | sub | mul => exact pure _
  | div =>
    simp only
    split
    · exact stop _
    · exact pure _

theorem isLess (left right : Value) : (JavaMinus.isLess left right).Natural :=
  bind (asWord left) fun _ => bind (asWord right) fun _ => pure _

theorem isTrue (value : Value) : (JavaMinus.isTrue value).Natural :=
  bind (asWord value) fun _ => pure _

/-! ### Arrays -/

theorem newArray (size : Value) : (JavaMinus.newArray size).Natural := by
  refine bind (asWord size) fun count => ?_
  split
  · exact stop _
  · exact fun _ _ => rfl

theorem elementsOf (array : Value) : (JavaMinus.elementsOf array).Natural := by
  intro name heap
  cases array with
  | array id =>
    simp only [JavaMinus.elementsOf, Heap.rename_arrays]
    cases heap.arrays[id]? <;> rfl
  | null | word _ | object _ => rfl

theorem placeOf (elements : List Int32) (position : Int32) :
    (JavaMinus.placeOf elements position).Natural := by
  rw [JavaMinus.placeOf]
  split
  · exact pure _
  · exact stop _

theorem loadElement (array position : Value) : (JavaMinus.loadElement array position).Natural :=
  bind (asWord position) fun _ => bind (elementsOf array) fun _ =>
    bind (placeOf _ _) fun _ => pure _

theorem storeElement (array position stored : Value) :
    (JavaMinus.storeElement array position stored).Natural :=
  bind (asWord position) fun _ => bind (asWord stored) fun _ => bind (elementsOf array) fun _ =>
    bind (placeOf _ _) fun _ => fun _ _ => rfl

theorem arrayLength (array : Value) : (JavaMinus.arrayLength array).Natural :=
  bind (elementsOf array) fun _ => pure _

end Exec.Natural

end JavaMinus
