/-
Checks on declarations. Two declarations of one name in one scope are an error
at the later one, and so is every further pair: a name declared `n` times gives
`n * (n - 1) / 2` errors. The scopes are the fields, the methods, and for each
method its parameters and locals together. A parameter or local of an instance
method that has the name of a field can never be reached, which is a warning.
A parameter that takes all trailing arguments must be the last one.
-/

import JavaMinus.Diagnostic
import JavaMinus.Syntax.Program

namespace JavaMinus

namespace Check

/-- A declared name and where it is declared. -/
structure Declared where
  name : String
  pos : Pos
deriving DecidableEq, Repr, Inhabited

/-- For every pair of declarations of one name the later one, ordered by the earlier one. -/
def repeats : List Declared → List Declared
  | [] => []
  | first :: rest => (rest.filter fun later => later.name == first.name) ++ repeats rest

/-- The names of the fields. -/
def declaredFields (decl : ClassDecl) : List Declared :=
  decl.fields.map fun field => ⟨field.name, field.pos⟩

/-- The names of the methods. -/
def declaredMethods (decl : ClassDecl) : List Declared :=
  decl.methods.map fun method => ⟨method.name, method.pos⟩

/-- The names of the parameters and then of the locals. -/
def declaredVariables (method : MethodDecl) : List Declared :=
  (method.params.map fun param => ⟨param.name, param.pos⟩)
    ++ method.locals.map fun binding => ⟨binding.name, binding.pos⟩

/-- The errors and warnings on the parameters and locals of a method. -/
def methodDuplicates (fields : List Declared) (method : MethodDecl) : List Diagnostic :=
  let inMethod := declaredVariables method
  let repeated := (repeats inMethod).map fun later =>
    .error later.pos s!"Variable '{later.name}' declared more than 1 time in method '{method.name}'"
  let hidden := inMethod.filter fun declared =>
    !method.isStatic && fields.any fun field => field.name == declared.name
  repeated ++ hidden.map fun declared =>
    .warning declared.pos
      s!"Variable '{declared.name}' in method '{method.name}' is hidden by the field of the same name"

/-- The errors and warnings on all names that a class declares. -/
def duplicates (decl : ClassDecl) : List Diagnostic :=
  let fields := declaredFields decl
  ((repeats fields).map fun later =>
      .error later.pos s!"Field '{later.name}' declared more than 1 time")
    ++ ((repeats (declaredMethods decl)).map fun later =>
      .error later.pos s!"Method '{later.name}' declared more than 1 time")
    ++ decl.methods.flatMap (methodDuplicates fields)

/-- The errors on parameters that take trailing arguments and are not the last. -/
def misplacedVarargs (decl : ClassDecl) : List Diagnostic :=
  decl.methods.flatMap fun method =>
    (method.params.dropLast.filter Param.isVarargs).map fun param =>
      .error param.pos "Varargs can only be the last parameter"

end Check

end JavaMinus
