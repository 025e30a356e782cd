/-
Lowering whole methods and classes. A method that yields nothing and whose code
does not end in a return gets one. The methods of a class are lowered in order
with one pair of counters, so temporaries and labels differ across the class;
the counters also go on after a fault, for what is lowered next.
-/

import JavaMinus.Lowering.Body

namespace JavaMinus

/-- Add the return that a method without a result need not write. -/
def Signature.close (method : Signature) (code : List Instr) : List Instr :=
  if method.returnType.isVoid && !(code.getLast?.any Instr.isReturn) then
    code ++ [.ret none .void]
  else code

namespace Scope

/-- The receiver's type in an instance method. -/
def receiverType? (scope : Scope) : Option Ty :=
  if scope.method.isStatic then none else some scope.table.classType

/-- The code of the method with this body, and its registers. -/
def methodCode (scope : Scope) (body : List Instr) : MethodCode where
  name := scope.method.name
  isPublic := scope.method.isPublic
  isStatic := scope.method.isStatic
  params := scope.method.params
  returnType := scope.method.returnType
  body := body
  registers := .allocate scope.receiverType? scope.method.params body

/-- Lower a method body, and give the counters after it. -/
def lowerMethod (scope : Scope) (body : List Stmt) (counters : Counters) :
    Except Fault MethodCode × Counters :=
  let step := scope.lowerBody body counters
  (step.outcome.map fun _ => scope.methodCode (scope.method.close step.code), step.counters)

/-- Lower methods in order, up to the first fault. -/
def lowerMethods : List (MethodDecl × Scope) → Counters → Except Fault (List MethodCode) × Counters
  | [], counters => (.ok [], counters)
  | (decl, scope) :: rest, counters =>
    let first := scope.lowerMethod decl.body counters
    match first.1 with
    | .error fault => (.error fault, first.2)
    | .ok method =>
      let others := lowerMethods rest first.2
      (others.1.map fun methods => method :: methods, others.2)

end Scope

namespace ClassTable

/-- The code of the class with these methods. -/
def classCode (table : ClassTable) (methods : List MethodCode) : ClassCode where
  name := table.className
  superClass := table.superClass
  imports := table.imports
  fields := table.fields
  methods := methods

/-- Lower the methods of a program in the scopes of a table, and give the counters after it. -/
def lower (table : ClassTable) (program : Program) (counters : Counters) :
    Except Fault ClassCode × Counters :=
  match table.scopes program with
  | .error fault => (.error fault, counters)
  | .ok methods =>
    let lowered := Scope.lowerMethods methods counters
    (lowered.1.map table.classCode, lowered.2)

end ClassTable

end JavaMinus
