/-
The code of a class: for every method its signature, its three-address code and
its registers, together with what the class declares about itself.
-/

import JavaMinus.Code.Registers
import JavaMinus.Syntax.Program

namespace JavaMinus

/-- A method with its code. -/
structure MethodCode where
  name : String
  isPublic : Bool
  isStatic : Bool
  params : List Binding
  returnType : Ty
  body : List Instr
  registers : Registers

/-- A class with the code of its methods. Imports are qualified names. -/
structure ClassCode where
  name : String
  superClass : Option String
  imports : List String
  fields : List Binding
  methods : List MethodCode

namespace ClassCode

/-- The first method of this name. -/
def method? (code : ClassCode) (name : String) : Option MethodCode :=
  code.methods.find? fun method => method.name == name

/-- The first field of this name. -/
def field? (code : ClassCode) (name : String) : Option Binding :=
  code.fields.find? fun field => field.name == name

/-- The qualified name of the class that is called by this name. -/
def importFor? (code : ClassCode) (name : String) : Option String :=
  Import.find? code.imports name

end ClassCode

end JavaMinus
