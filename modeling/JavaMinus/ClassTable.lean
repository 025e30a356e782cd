/-
The class table: what a program declares, by name. It lists the imports, the
fields and the method signatures in declaration order, with duplicates, so that
the checks can report them; looking a name up gives the first declaration.

A scope is the table together with the method whose body is looked at. In an
instance method a field is found before a parameter of the same name; a static
method does not see fields at all.
-/

import JavaMinus.Fault

namespace JavaMinus

/-- What a method declares about itself. -/
structure Signature where
  name : String
  returnType : Ty
  params : List Binding
  locals : List Binding
  isStatic : Bool
  isPublic : Bool
  isVarargs : Bool
  pos : Pos
deriving DecidableEq, Repr, Inhabited

namespace Signature

/-- The signature of a declared method. -/
def ofDecl (decl : MethodDecl) : Signature where
  name := decl.name
  returnType := decl.returnType.ty
  params := decl.params.map Param.binding
  locals := decl.locals.map VarDecl.binding
  isStatic := decl.isStatic
  isPublic := decl.isPublic
  isVarargs := decl.params.getLast?.any Param.isVarargs
  pos := decl.pos

def paramTypes (signature : Signature) : List Ty := signature.params.map Binding.ty

/-- How many arguments have a parameter of their own. -/
def fixedArity (signature : Signature) : Nat :=
  if signature.isVarargs then signature.params.length - 1 else signature.params.length

/-- The parameter that takes all trailing arguments. -/
def restParam? (signature : Signature) : Option Binding :=
  if signature.isVarargs then signature.params.getLast? else none

/-- The type of each trailing argument. -/
def restElement? (signature : Signature) : Option Ty :=
  signature.restParam?.bind fun param => param.ty.element?

/-- The first parameter of this name, with its position. -/
def param? (signature : Signature) (name : String) : Option (Nat × Binding) := do
  let position ← signature.params.findIdx? fun param => param.name == name
  let param ← signature.params[position]?
  return (position, param)

/-- The first local of this name. -/
def local? (signature : Signature) (name : String) : Option Binding :=
  signature.locals.find? fun binding => binding.name == name

end Signature

/-- What a name stands for in a method body. -/
inductive Variable
  | field (binding : Binding)
  | param (position : Nat) (binding : Binding)
  | loc (binding : Binding)
deriving DecidableEq, Repr, Inhabited

namespace Variable

def binding : Variable → Binding
  | .field binding | .param _ binding | .loc binding => binding

def ty (found : Variable) : Ty := found.binding.ty

def isField : Variable → Bool
  | .field _ => true
  | _ => false

end Variable

/-- What a program declares. Imports are qualified names. -/
structure ClassTable where
  className : String
  superClass : Option String
  imports : List String
  fields : List Binding
  methods : List Signature
deriving DecidableEq, Repr, Inhabited

namespace ClassTable

/-- The table of a program. -/
def ofProgram (program : Program) : ClassTable where
  className := program.classDecl.name
  superClass := program.classDecl.superClass
  imports := program.imports.map Import.qualified
  fields := program.classDecl.fields.map VarDecl.binding
  methods := program.classDecl.methods.map Signature.ofDecl

/-- The type of the class itself. -/
def classType (table : ClassTable) : Ty := .named table.className

/-- The first field of this name. -/
def field? (table : ClassTable) (name : String) : Option Binding :=
  table.fields.find? fun field => field.name == name

/-- The first method of this name. -/
def method? (table : ClassTable) (name : String) : Option Signature :=
  table.methods.find? fun method => method.name == name

def methodNames (table : ClassTable) : List String := table.methods.map Signature.name

/-- The qualified name of the class that is called by this name. -/
def importFor? (table : ClassTable) (name : String) : Option String :=
  Import.find? table.imports name

def isImported (table : ClassTable) (name : String) : Bool := (table.importFor? name).isSome

/-- A class is known if it is the class of the table or an import. -/
def isKnownClass (table : ClassTable) (name : String) : Bool :=
  name == table.className || table.isImported name

/-- Only the class of the table is known to have a superclass. -/
def isSubclass (table : ClassTable) (name parent : String) : Bool :=
  name == table.className && table.superClass == some parent

/-- Whether a value of one type may be stored where the other is declared. Equal types may. Of two
class types, the class of the table may be stored as its superclass, and two imported classes are
taken to agree, since nothing is known about them. -/
def assignable (table : ClassTable) (target source : Ty) : Bool :=
  target == source ||
    (target.isClass && source.isClass &&
      (table.isSubclass source.base target.base ||
        (table.isImported target.base && table.isImported source.base)))

end ClassTable

/-- A class table and the method whose body is looked at. -/
structure Scope where
  table : ClassTable
  method : Signature
deriving DecidableEq, Repr, Inhabited

namespace Scope

/-- What a name stands for: a field unless the method is static, else a parameter, else a local. -/
def lookup? (scope : Scope) (name : String) : Option Variable :=
  let field := if scope.method.isStatic then none else scope.table.field? name
  (field.map .field)
    <|> ((scope.method.param? name).map fun found => .param found.1 found.2)
    <|> ((scope.method.local? name).map .loc)

/-- All names that stand for a variable in the method. -/
def names (scope : Scope) : List String :=
  let fields := if scope.method.isStatic then [] else scope.table.fields
  (fields ++ scope.method.params ++ scope.method.locals).map Binding.name

end Scope

namespace ClassTable

/-- The scope of the first method of this name. -/
def scopeOf (table : ClassTable) (method : String) : Except Fault Scope :=
  match table.method? method with
  | some signature => .ok ⟨table, signature⟩
  | none => .error (.unknownMethod method)

/-- Pair methods with signatures in order. A method without a signature is a fault. -/
def pair (table : ClassTable) : List MethodDecl → List Signature →
    Except Fault (List (MethodDecl × Scope))
  | [], _ => .ok []
  | decl :: _, [] => .error (.noSignature decl.name)
  | decl :: decls, signature :: signatures => do
    return (decl, ⟨table, signature⟩) :: (← table.pair decls signatures)

/-- The methods of a program, each in the scope that the table has for it. The table may be that
of another program: the pairing is by order. -/
def scopes (table : ClassTable) (program : Program) : Except Fault (List (MethodDecl × Scope)) :=
  table.pair program.classDecl.methods table.methods

end ClassTable

end JavaMinus
