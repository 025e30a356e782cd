/-
The listing of three-address code: the text in which code is shown to people.
Every value carries its type behind a dot, instructions end in a semicolon, and
labels stand at the left margin.
-/

import JavaMinus.Code.Class

namespace JavaMinus

/-- The short form of a type behind a value. -/
def Ty.suffix (ty : Ty) : String :=
  let base := match ty.base with
    | "int" => "i32"
    | "boolean" => "bool"
    | "void" => "V"
    | "" => "?"
    | other => other
  if ty.isArray then "array." ++ base else base

/-- A name with its type behind it. -/
def Binding.listing (binding : Binding) : String := s!"{binding.name}.{binding.ty.suffix}"

def Operand.listing : Operand → String
  | .literal value ty => s!"{value.toInt}.{ty.suffix}"
  | .var name ty => s!"{name}.{ty.suffix}"
  | .field name ty => s!"this.{name}.{ty.suffix}"
  | .this _ => "this"

def Condition.listing : Condition → String
  | .less left right => s!"{left.listing} <.bool {right.listing}"
  | .nonZero operand => operand.listing

def CallKind.opcode : CallKind → String
  | .constructor => "invokespecial"
  | .virtual => "invokevirtual"
  | .static => "invokestatic"

def CallTarget.listing : CallTarget → String
  | .this => "this"
  | .receiver operand => operand.listing
  | .ofClass name => name

def Call.listing (call : Call) : String :=
  let args := String.join (call.args.map fun arg => ", " ++ arg.listing)
  s!"{call.kind.opcode}({call.target.listing}, \"{call.method}\"{args}).{call.returnType.suffix}"

def Instr.listing : Instr → String
  | .value operand => operand.listing
  | .arith op left right ty => s!"{left.listing} {op.symbol}.{ty.suffix} {right.listing}"
  | .assign dest rhs ty => s!"{dest}.{ty.suffix} :=.{ty.suffix} {rhs.listing}"
  | .newObject className => s!"new({className}).{className}"
  | .newArray size => s!"new(array, {size.listing}).array.i32"
  | .call invocation => invocation.listing
  | .getField receiver field ty =>
    s!"getfield({receiver.listing}, {field}.{ty.suffix}).{ty.suffix}"
  | .putField receiver field ty stored =>
    s!"putfield({receiver.listing}, {field}.{ty.suffix}, {stored.listing}).V"
  | .loadElement array position => s!"{array.listing}[{position.listing}].i32"
  | .storeElement array position stored =>
    s!"{array.listing}[{position.listing}].i32 :=.i32 {stored.listing}"
  | .arrayLength array => s!"arraylength({array.listing}).i32"
  | .label place => s!"{place.name}:"
  | .goto target => s!"goto {target.name}"
  | .branch condition target => s!"if ({condition.listing}) goto {target.name}"
  | .discard inner => inner.listing
  | .ret none _ => "ret.V"
  | .ret (some result) ty => s!"ret.{ty.suffix} {result.listing}"

/-- The line of an instruction in the listing of a method. -/
def Instr.listingLine (instr : Instr) : String :=
  match instr with
  | .label _ => instr.listing ++ "\n"
  | _ => "  " ++ instr.listing ++ ";\n"

def MethodCode.listing (method : MethodCode) : String :=
  let isPublic := if method.isPublic then "public " else ""
  let isStatic := if method.isStatic then "static " else ""
  let params := String.intercalate ", " (method.params.map Binding.listing)
  let body := String.join (method.body.map Instr.listingLine)
  s!".method {isPublic}{isStatic}{method.name}({params}).{method.returnType.suffix} \x7b\n"
    ++ body ++ "\x7d"

def ClassCode.listing (code : ClassCode) : String :=
  let imports := String.join (code.imports.map fun name => s!"import {name};\n")
  let parent := match code.superClass with
    | some name => s!" extends {name}"
    | none => ""
  let fields := String.join (code.fields.map fun field => s!".field public {field.listing};\n")
  let methods := String.join (code.methods.map fun method => method.listing ++ "\n")
  imports ++ code.name ++ parent ++ " \x7b\n" ++ fields
    ++ s!".construct {code.name}().V \x7b\n" ++ "  invokespecial(this, \"<init>\").V;\n\x7d\n"
    ++ methods ++ "\x7d"

end JavaMinus
