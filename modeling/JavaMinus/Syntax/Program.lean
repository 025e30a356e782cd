/-
Declarations. A program imports classes by their dotted paths and declares one
class with fields and methods. A method declares its locals ahead of its
statements. All names are kept as written, duplicates included: which
declarations collide is for the checks to say.
-/

import JavaMinus.Ty
import JavaMinus.Syntax.Stmt
import JavaMinus.Text.Fields

namespace JavaMinus

/-- A type as it is written in a declaration. -/
structure TypeName where
  name : String
  isArray : Bool
  pos : Pos
deriving DecidableEq, Repr, Inhabited

/-- The type that the written one means. -/
def TypeName.ty (written : TypeName) : Ty := ⟨written.name, written.isArray⟩

/-- Write a type at a position. -/
def TypeName.ofTy (pos : Pos) (ty : Ty) : TypeName := ⟨ty.base, ty.isArray, pos⟩

@[simp] theorem TypeName.ty_ofTy (pos : Pos) (ty : Ty) : (TypeName.ofTy pos ty).ty = ty := rfl

/-- An imported class, by the segments of its path. -/
structure Import where
  path : List String
  pos : Pos
deriving DecidableEq, Repr, Inhabited

namespace Import

/-- The import of a path whose segments are divided by dots; empty segments do not count. -/
def ofDotted (pos : Pos) (dotted : String) : Import where
  path := ((Text.fields (· == '.') dotted.toList).filter fun segment => !segment.isEmpty).map
    String.ofList
  pos := pos

/-- The whole path, with dots between the segments. -/
def qualified (decl : Import) : String := String.intercalate "." decl.path

/-- The last segment, by which the program calls the class. -/
def simple (decl : Import) : String := decl.path.getLast?.getD ""

/-- The name by which a qualified name is called: what stands behind its last dot. -/
def simpleOf (qualified : String) : String :=
  String.ofList (Text.lastField (· == '.') qualified.toList)

/-- The first of some qualified names that is called by a simple name. -/
def find? (imports : List String) (simple : String) : Option String :=
  imports.find? fun qualified => simpleOf qualified == simple

end Import

/-- The declaration of a field or of a local variable. -/
structure VarDecl where
  typeName : TypeName
  name : String
  pos : Pos
deriving DecidableEq, Repr, Inhabited

/-- The name and the type that a declaration introduces. -/
def VarDecl.binding (decl : VarDecl) : Binding := ⟨decl.name, decl.typeName.ty⟩

/-- The declaration of a parameter, which may take any number of trailing arguments. -/
structure Param where
  typeName : TypeName
  name : String
  isVarargs : Bool
  pos : Pos
deriving DecidableEq, Repr, Inhabited

/-- The type that the body sees. Trailing arguments arrive in an array. -/
def Param.ty (param : Param) : Ty :=
  ⟨param.typeName.name, param.typeName.isArray || param.isVarargs⟩

/-- The name and the type that a parameter introduces. -/
def Param.binding (param : Param) : Binding := ⟨param.name, param.ty⟩

/-- The declaration of a method with its body. -/
structure MethodDecl where
  name : String
  isPublic : Bool
  isStatic : Bool
  returnType : TypeName
  params : List Param
  locals : List VarDecl
  body : List Stmt
  pos : Pos
deriving Repr, Inhabited

/-- The declaration of a class. -/
structure ClassDecl where
  name : String
  superClass : Option String
  fields : List VarDecl
  methods : List MethodDecl
  pos : Pos
deriving Repr, Inhabited

/-- Imports and one class. -/
structure Program where
  imports : List Import
  classDecl : ClassDecl
  pos : Pos
deriving Repr, Inhabited

end JavaMinus
