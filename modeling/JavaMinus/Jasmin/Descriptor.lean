/-
Descriptors. A descriptor is the machine's form of a type: a letter for each
primitive type, and the path of a class between `L` and `;`. Paths have slashes
where qualified names have dots. The class itself goes by its own name, one that
is imported by its qualified name, and `String` is the one class that needs not
be imported.
-/

import JavaMinus.Fault

namespace JavaMinus

namespace Jasmin

/-- The machine's form of a type. -/
inductive Descriptor
  | int
  | boolean
  | void
  | object (path : String)
  | array (element : Descriptor)
deriving DecidableEq, Repr, Inhabited

def Descriptor.text : Descriptor → String
  | .int => "I"
  | .boolean => "Z"
  | .void => "V"
  | .object path => s!"L{path};"
  | .array element => "[" ++ element.text

/-- The machine's form of a method's parameters and result. -/
structure MethodDescriptor where
  params : List Descriptor
  result : Descriptor
deriving DecidableEq, Repr, Inhabited

def MethodDescriptor.text (descriptor : MethodDescriptor) : String :=
  "(" ++ String.join (descriptor.params.map Descriptor.text) ++ ")" ++ descriptor.result.text

/-- A qualified name with slashes in place of dots. -/
def slashed (qualified : String) : String :=
  String.ofList (qualified.toList.map fun char => if char = '.' then '/' else char)

end Jasmin

namespace ClassCode

open Jasmin

/-- The path of the class that is called by a name. -/
def classPath (code : ClassCode) (name : String) : String :=
  if name = code.name then name
  else
    match code.importFor? name with
    | some qualified => slashed qualified
    | none => if name = "String" then "java/lang/String" else name

/-- The descriptor of a type's base name. There are no arrays of nothing. -/
def baseDescriptor? (code : ClassCode) (ty : Ty) : Option Descriptor :=
  match ty.base with
  | "int" => some .int
  | "boolean" => some .boolean
  | "void" => if ty.isArray then none else some .void
  | "" => none
  | name => some (.object (code.classPath name))

/-- The descriptor of a type. -/
def descriptor (code : ClassCode) (ty : Ty) : Except Fault Descriptor :=
  match code.baseDescriptor? ty with
  | some base => .ok (if ty.isArray then .array base else base)
  | none => .error (.noDescriptor ty)

/-- The descriptor of a method with these parameter types and this return type. -/
def methodDescriptor (code : ClassCode) (params : List Ty) (result : Ty) :
    Except Fault MethodDescriptor := do
  let paramDescriptors ← params.mapM code.descriptor
  return ⟨paramDescriptors, ← code.descriptor result⟩

end ClassCode

end JavaMinus
