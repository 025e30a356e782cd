/-
Three-address code. A method body is a flat list of instructions over operands.
Every intermediate value lives in a temporary, so an operand is a leaf: a
constant, a named variable, a field of the receiver, or the receiver itself.
Control flow is explicit: labels, jumps, and branches that are taken or fall
through. No operator yields a truth value any more.

An assignment holds the instruction that computes its value, and a discarded
call holds the call; the type does not force the inner instruction to be one
that makes sense there, and the assembler rejects those that do not.
-/

import JavaMinus.Ty
import JavaMinus.Syntax.Operator

namespace JavaMinus

/-- A value that an instruction reads. -/
inductive Operand
  /-- A constant. Truth values are the words `0` and `1`. -/
  | literal (value : Int32) (ty : Ty)
  /-- A parameter, a local or a temporary. -/
  | var (name : String) (ty : Ty)
  /-- A field of the receiver, read where the operand is used. -/
  | field (name : String) (ty : Ty)
  /-- The receiver of the method. -/
  | this (ty : Ty)
deriving DecidableEq, Repr, Inhabited

namespace Operand

def int (value : Int32) : Operand := .literal value .int

def bool (value : Bool) : Operand := .literal (if value then 1 else 0) .boolean

def ty : Operand → Ty
  | .literal _ ty | .var _ ty | .field _ ty | .this ty => ty

/-- The variables that the operand names. -/
def mentions : Operand → List Binding
  | .var name ty => [⟨name, ty⟩]
  | _ => []

end Operand

/-- How a called method is found. -/
inductive CallKind
  | constructor
  | virtual
  | static
deriving DecidableEq, Repr, Inhabited

/-- What a call is made on. -/
inductive CallTarget
  /-- The receiver of the calling method. -/
  | this
  /-- The value of an operand. -/
  | receiver (operand : Operand)
  /-- A class, by the name it is called by. -/
  | ofClass (name : String)
deriving DecidableEq, Repr, Inhabited

/-- A call with its arguments. -/
structure Call where
  kind : CallKind
  target : CallTarget
  method : String
  args : List Operand
  returnType : Ty
deriving DecidableEq, Repr, Inhabited

/-- The variables that a call names: the receiver, then the arguments. -/
def Call.mentions (call : Call) : List Binding :=
  let receiver := match call.target with
    | .receiver operand => operand.mentions
    | _ => []
  receiver ++ call.args.flatMap Operand.mentions

/-- A place that jumps lead to. -/
structure Label where
  name : String
deriving DecidableEq, Repr, Inhabited

/-- When a branch is taken. -/
inductive Condition
  | less (left right : Operand)
  | nonZero (operand : Operand)
deriving DecidableEq, Repr, Inhabited

def Condition.mentions : Condition → List Binding
  | .less left right => left.mentions ++ right.mentions
  | .nonZero operand => operand.mentions

/-- Instructions of the three-address code. -/
inductive Instr
  | value (operand : Operand)
  | arith (op : ArithOp) (left right : Operand) (ty : Ty)
  | assign (dest : String) (rhs : Instr) (ty : Ty)
  | newObject (className : String)
  | newArray (size : Operand)
  | call (invocation : Call)
  | getField (receiver : Operand) (field : String) (ty : Ty)
  | putField (receiver : Operand) (field : String) (ty : Ty) (stored : Operand)
  | loadElement (array position : Operand)
  | storeElement (array position stored : Operand)
  | arrayLength (array : Operand)
  | label (place : Label)
  | goto (target : Label)
  | branch (condition : Condition) (target : Label)
  | discard (inner : Instr)
  | ret (result : Option Operand) (ty : Ty)
deriving DecidableEq, Repr, Inhabited

namespace Instr

def isReturn : Instr → Bool
  | .ret _ _ => true
  | _ => false

/-- Whether control never goes on to the next instruction. -/
def endsBlock : Instr → Bool
  | .ret _ _ | .goto _ => true
  | _ => false

/-- The variables that the instruction names, in order; an assignment names its destination
before what it assigns. -/
def mentions : Instr → List Binding
  | .value operand => operand.mentions
  | .arith _ left right _ => left.mentions ++ right.mentions
  | .assign dest rhs ty => ⟨dest, ty⟩ :: rhs.mentions
  | .newObject _ | .label _ | .goto _ => []
  | .newArray size => size.mentions
  | .call invocation => invocation.mentions
  | .getField receiver _ _ => receiver.mentions
  | .putField receiver _ _ stored => receiver.mentions ++ stored.mentions
  | .loadElement array position => array.mentions ++ position.mentions
  | .storeElement array position stored => array.mentions ++ position.mentions ++ stored.mentions
  | .arrayLength array => array.mentions
  | .branch condition _ => condition.mentions
  | .discard inner => inner.mentions
  | .ret result _ => result.toList.flatMap Operand.mentions

end Instr

end JavaMinus
