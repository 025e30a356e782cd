/-
Registers. Every variable that a method names has a local slot. Slots are handed
out in order of first mention: the receiver of an instance method comes first,
then the parameters, then whatever the code names. A name that comes up again
keeps the register it has. Slot numbers are 16-bit words, so they start over
after the last one; while there are no more names than words, different names
have different slots.

The table is kept twice: the entries in order, and an index from names to
positions in it, so that a table of many names stays fast. Declaring a name
changes both or neither.
-/

import Std.Data.TreeMap
import JavaMinus.Code.Instr

namespace JavaMinus

/-- A local slot and the type of what it holds. -/
structure Register where
  slot : UInt16
  ty : Ty
deriving DecidableEq, Repr, Inhabited

/-- The registers of a method, in slot order, with an index by name. -/
structure Registers where
  entries : Array (String × Register) := #[]
  index : Std.TreeMap String Nat := {}

namespace Registers

def empty : Registers := {}

/-- Give a name the next slot, unless it has one. -/
def declare (registers : Registers) (name : String) (ty : Ty) : Registers :=
  if registers.index.contains name then registers
  else
    let next := registers.entries.size
    { entries := registers.entries.push (name, ⟨UInt16.ofNat next, ty⟩)
      index := registers.index.insert name next }

/-- Declare names one after the other. -/
def declareAll (registers : Registers) (bindings : List Binding) : Registers :=
  bindings.foldl (fun table binding => table.declare binding.name binding.ty) registers

/-- The registers of a method with this receiver, these parameters and this code. -/
def allocate (receiver : Option Ty) (params : List Binding) (code : List Instr) : Registers :=
  empty.declareAll
    ((receiver.toList.map fun ty => ⟨"this", ty⟩) ++ params ++ code.flatMap Instr.mentions)

/-- The register of a name. -/
def get? (registers : Registers) (name : String) : Option Register := do
  let position ← registers.index[name]?
  let entry ← registers.entries[position]?
  return entry.2

def size (registers : Registers) : Nat := registers.entries.size

/-- The names with their registers, in slot order. -/
def toList (registers : Registers) : List (String × Register) := registers.entries.toList

/-! ### What declaring does -/

@[simp] theorem toList_empty : empty.toList = [] := rfl

/-- A name that has a register keeps it, and nothing else changes. -/
theorem declare_of_contains {registers : Registers} {name : String}
    (known : registers.index.contains name = true) (ty : Ty) :
    registers.declare name ty = registers := by
  rw [declare, if_pos known]

/-- A new name takes the slot behind all others. -/
theorem toList_declare_of_not_contains {registers : Registers} {name : String}
    (fresh : registers.index.contains name = false) (ty : Ty) :
    (registers.declare name ty).toList =
      registers.toList ++ [(name, ⟨UInt16.ofNat registers.size, ty⟩)] := by
  simp [declare, fresh, toList, size]

theorem declareAll_append (registers : Registers) (first second : List Binding) :
    registers.declareAll (first ++ second) = (registers.declareAll first).declareAll second := by
  rw [declareAll, List.foldl_append]
  rfl

end Registers

end JavaMinus
