/-
Lines of a method body in assembly. A line is a label or an instruction of the
stack machine. Constants and registers have short forms: the constants from `-1`
to `5` and the registers from `0` to `3` are part of the instruction's name, and
other constants take one byte, two bytes or a constant of the class, whichever
is the first to hold them.
-/

import JavaMinus.Jasmin.Descriptor

namespace JavaMinus

namespace Jasmin

/-- What a register holds: a word, or a reference to an object or an array. -/
inductive Cell
  | word
  | reference
deriving DecidableEq, Repr, Inhabited

/-- What a register for values of a type holds. -/
def Cell.ofTy (ty : Ty) : Cell := if ty.isWord then .word else .reference

/-- The letter that instructions on the cell begin with. -/
def Cell.letter : Cell → String
  | .word => "i"
  | .reference => "a"

/-- Lines of a method body. -/
inductive Line
  | label (place : Label)
  /-- Push a constant whose value is part of the instruction. -/
  | iconst (value : Int8)
  /-- Push a constant of one byte. -/
  | bipush (value : Int8)
  /-- Push a constant of two bytes. -/
  | sipush (value : Int16)
  /-- Push a constant of the class. -/
  | ldc (value : Int32)
  /-- Push a register whose number is part of the instruction. -/
  | shortLoad (cell : Cell) (slot : Fin 4)
  | load (cell : Cell) (slot : UInt16)
  /-- Pop into a register whose number is part of the instruction. -/
  | shortStore (cell : Cell) (slot : Fin 4)
  | store (cell : Cell) (slot : UInt16)
  | getField (owner field : String) (descriptor : Descriptor)
  | putField (owner field : String) (descriptor : Descriptor)
  | newObject (path : String)
  | dup
  | pop
  | newIntArray
  | loadElement
  | storeElement
  | arrayLength
  | arith (op : ArithOp)
  | goto (target : Label)
  | ifLess (target : Label)
  | ifNonZero (target : Label)
  /-- Run the constructor without parameters. -/
  | construct (owner : String)
  | invokeVirtual (owner method : String) (descriptor : MethodDescriptor)
  | invokeStatic (owner method : String) (descriptor : MethodDescriptor)
  | ret (cell : Cell)
  | retVoid
deriving DecidableEq, Repr, Inhabited

namespace Line

/-- Push a constant by the shortest instruction that holds it. -/
def push (value : Int32) : Line :=
  if -1 ≤ value ∧ value ≤ 5 then .iconst value.toInt8
  else if -128 ≤ value ∧ value ≤ 127 then .bipush value.toInt8
  else if -32768 ≤ value ∧ value ≤ 32767 then .sipush value.toInt16
  else .ldc value

/-- Push a register by the shortest instruction. -/
def loadSlot (cell : Cell) (slot : UInt16) : Line :=
  if short : slot.toNat < 4 then .shortLoad cell ⟨slot.toNat, short⟩ else .load cell slot

/-- Pop into a register by the shortest instruction. -/
def storeSlot (cell : Cell) (slot : UInt16) : Line :=
  if short : slot.toNat < 4 then .shortStore cell ⟨slot.toNat, short⟩ else .store cell slot

/-- Push the receiver of the method, which is in the first register. -/
def loadThis : Line := .shortLoad .reference 0

/-- The mnemonic of an arithmetic instruction. -/
def arithName : ArithOp → String
  | .add => "iadd"
  | .sub => "isub"
  | .mul => "imul"
  | .div => "idiv"

/-- The instruction with its operands. -/
def mnemonic : Line → String
  | .label place => s!"{place.name}:"
  | .iconst value => if value = -1 then "iconst_m1" else s!"iconst_{value.toInt}"
  | .bipush value => s!"bipush {value.toInt}"
  | .sipush value => s!"sipush {value.toInt}"
  | .ldc value => s!"ldc {value.toInt}"
  | .shortLoad cell slot => s!"{cell.letter}load_{slot.val}"
  | .load cell slot => s!"{cell.letter}load {slot.toNat}"
  | .shortStore cell slot => s!"{cell.letter}store_{slot.val}"
  | .store cell slot => s!"{cell.letter}store {slot.toNat}"
  | .getField owner field descriptor => s!"getfield {owner}/{field} {descriptor.text}"
  | .putField owner field descriptor => s!"putfield {owner}/{field} {descriptor.text}"
  | .newObject path => s!"new {path}"
  | .dup => "dup"
  | .pop => "pop"
  | .newIntArray => "newarray int"
  | .loadElement => "iaload"
  | .storeElement => "iastore"
  | .arrayLength => "arraylength"
  | .arith op => arithName op
  | .goto target => s!"goto {target.name}"
  | .ifLess target => s!"if_icmplt {target.name}"
  | .ifNonZero target => s!"ifne {target.name}"
  | .construct owner => s!"invokespecial {owner}/<init>()V"
  | .invokeVirtual owner method descriptor => s!"invokevirtual {owner}/{method}{descriptor.text}"
  | .invokeStatic owner method descriptor => s!"invokestatic {owner}/{method}{descriptor.text}"
  | .ret cell => s!"{cell.letter}return"
  | .retVoid => "return"

/-- A line of the text. Instructions are indented, labels are not. -/
def text (line : Line) : String :=
  match line with
  | .label _ => line.mnemonic ++ "\n"
  | _ => "  " ++ line.mnemonic ++ "\n"

end Line

end Jasmin

end JavaMinus
