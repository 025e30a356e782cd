/-
The assembly text of a class: a header, a line for each field, a constructor
without parameters that calls the one of the superclass, and a block for each
method. Every block states the same limits for the operand stack and the
registers. An assembler keeps the text once it is built; a fault leaves it
without one.
-/

import JavaMinus.Jasmin.Select

namespace JavaMinus

namespace Jasmin

/-- The limits that every method block states. -/
structure Limits where
  stack : UInt16 := 99
  locals : UInt16 := 99
deriving DecidableEq, Repr, Inhabited

/-- The block of a method. -/
def methodText (limits : Limits) (code : ClassCode) (method : MethodCode) :
    Except Fault String := do
  let isPublic := if method.isPublic then "public " else ""
  let isStatic := if method.isStatic then "static " else ""
  let descriptor ← code.methodDescriptor (method.params.map Binding.ty) method.returnType
  let lines ← Frame.lines ⟨code, method⟩
  return s!".method {isPublic}{isStatic}{method.name}{descriptor.text}\n"
    ++ s!"  .limit stack {limits.stack.toNat}\n"
    ++ s!"  .limit locals {limits.locals.toNat}\n"
    ++ String.join (lines.map Line.text)
    ++ ".end method\n"

/-- The line of a field. -/
def fieldText (code : ClassCode) (field : Binding) : Except Fault String := do
  let descriptor ← code.descriptor field.ty
  return s!".field public {field.name} {descriptor.text}\n"

/-- The path of the superclass, which is the class of all objects if none is declared. -/
def superPath (code : ClassCode) : String :=
  match code.superClass with
  | some name => code.classPath name
  | none => "java/lang/Object"

/-- The text of a class. -/
def classText (limits : Limits) (code : ClassCode) : Except Fault String := do
  let parent := superPath code
  let fields ← code.fields.mapM (fieldText code)
  let methods ← code.methods.mapM (methodText limits code)
  return s!".class public {code.name}\n.super {parent}\n\n"
    ++ String.join fields
    ++ (if fields.isEmpty then "" else "\n")
    ++ ".method public <init>()V\n  aload_0\n"
    ++ s!"  invokespecial {parent}/<init>()V\n"
    ++ "  return\n.end method\n"
    ++ String.join (methods.map fun method => "\n" ++ method)

/-- A class on its way to text, and the text once it is built. -/
structure Assembler where
  code : ClassCode
  limits : Limits
  built : Option String := none

namespace Assembler

def isBuilt (assembler : Assembler) : Bool := assembler.built.isSome

/-- The text of the class, made at the first call that succeeds. -/
def build (assembler : Assembler) : Except Fault String × Assembler :=
  match assembler.built with
  | some text => (.ok text, assembler)
  | none =>
    match classText assembler.limits assembler.code with
    | .ok text => (.ok text, { assembler with built := some text })
    | .error fault => (.error fault, assembler)

end Assembler

end Jasmin

end JavaMinus
