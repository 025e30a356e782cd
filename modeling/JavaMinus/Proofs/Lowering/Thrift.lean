/-
This file shows that lowered code names no variable in vain. There are two places where
a variable that an instruction names is never loaded: the arguments of a constructor, and
a value that is returned from a method that yields nothing. Lowering calls constructors
without arguments, and the check on returns reports each value that would be dropped. So
in the code of a program that the check is silent about, neither happens.
-/

import JavaMinus.Proofs.Check.Types
import JavaMinus.Proofs.Lowering.Shape

namespace JavaMinus

open Observer

/-! ### Returns -/

/-- Whether the instruction is given a value to return that it drops. -/
def Instr.drops : Instr → Bool
  | .ret (some _) ty => ty.isVoid
  | _ => false

/-- No return drops a value. -/
def Thrifty (code : List Instr) : Prop := ∀ instr ∈ code, instr.drops = false

@[simp] theorem thrifty_nil : Thrifty [] := nofun

@[simp] theorem thrifty_cons {instr : Instr} {rest : List Instr} :
    Thrifty (instr :: rest) ↔ instr.drops = false ∧ Thrifty rest :=
  List.forall_mem_cons

@[simp] theorem thrifty_append {first second : List Instr} :
    Thrifty (first ++ second) ↔ Thrifty first ∧ Thrifty second :=
  List.forall_mem_append

@[simp] theorem thrifty_joined (target : Label) (code : List Instr) :
    Thrifty (Lower.joined target code) ↔ Thrifty code := by
  rw [Lower.joined]
  split <;> simp [Instr.drops]

theorem thrifty_diamond (number : Nat) (result : String) :
    Thrifty (Scope.diamond number result) := by
  simp [Scope.diamond, Instr.drops]

theorem drops_standing (call : Call) : (Scope.standing call).drops = false := by
  rw [Scope.standing]
  split <;> rfl

/-- The return that closes a method is given no value. -/
theorem Thrifty.close {code : List Instr} (thrifty : Thrifty code) (method : Signature) :
    Thrifty (method.close code) := by
  rw [Signature.close]
  split
  · exact thrifty_append.mpr ⟨thrifty, thrifty_cons.mpr ⟨rfl, thrifty_nil⟩⟩
  · exact thrifty

/-- If the check on returns is silent about a statement that returns a value, the method yields
something. -/
theorem Check.isVoid_of_silent {scope : Scope} {pos : Pos} {value : Expr}
    (silent : Silent (returnedMisfits scope (.ret pos (some value)))) :
    scope.method.returnType.isVoid = false := by
  rw [returnedMisfits] at silent
  split at silent
  · exact absurd silent (not_silent_error _ _)
  · next notVoid => exact Bool.eq_false_iff.mpr notVoid

/-- The code of a phrase is thrifty, that of statements if the check on returns is silent. -/
def Phrase.Spares (scope : Scope) (code : List Instr) : Phrase → Prop
  | .stmt single => Check.Silent ((Check.returns scope).onStmt single) → Thrifty code
  | .body stmts =>
    (∀ stmt ∈ stmts, Check.Silent ((Check.returns scope).onStmt stmt)) → Thrifty code
  | _ => Thrifty code

theorem Lowers.spares {scope : Scope} {phrase : Phrase} {before after : Counters}
    {code : List Instr} (lowers : Lowers scope phrase before code after) :
    phrase.Spares scope code := by
  induction lowers with
  | int | bool | field | var | this | noValues | filled | implicitStatic | implicitThis | onThis
  | onClass => exact thrifty_nil
  | newObject | decided => simp [Phrase.Spares, Instr.drops]
  | newArray _ inner | length _ inner | callValue _ _ inner | nonZero _ _ inner
  | pack _ inner =>
    have innerThrifty : Thrifty _ := inner
    simp [Phrase.Spares, innerThrifty, Instr.drops]
  | arrayLiteral _ inner | paren _ inner | not _ inner | parenJump _ inner
  | onValue _ _ _ inner => exact inner
  | materialize _ _ jump => exact thrifty_append.mpr ⟨jump, thrifty_diamond _ _⟩
  | arith _ _ left right | index _ _ left right | less _ _ left right | and _ _ left right
  | or _ _ left right | fillMore _ _ left right =>
    have leftThrifty : Thrifty _ := left
    have rightThrifty : Thrifty _ := right
    simp [Phrase.Spares, leftThrifty, rightThrifty, Instr.drops]
  | moreValues _ _ first rest | unbound _ _ _ first rest | bound _ _ _ _ first rest
  | passed _ _ _ _ _ _ first rest => exact thrifty_append.mpr ⟨first, rest⟩
  | packed _ _ _ _ _ _ first second third =>
    exact thrifty_append.mpr ⟨first, thrifty_append.mpr ⟨second, third⟩⟩
  | block _ body =>
    intro silent
    rw [onStmt, Check.silent_append] at silent
    exact body (forall_onBody.mp silent.2)
  | ifThen _ _ jump thenBranch =>
    intro silent
    simp only [onStmt, Check.silent_append] at silent
    have jumpThrifty : Thrifty _ := jump
    simp [jumpThrifty, thenBranch silent.2.2, Instr.drops]
  | ifElse _ _ _ jump thenBranch elseBranch =>
    intro silent
    simp only [onStmt, Check.silent_append] at silent
    have jumpThrifty : Thrifty _ := jump
    simp [jumpThrifty, thenBranch silent.2.1.2, elseBranch silent.2.2, Instr.drops]
  | whileLoop _ _ jump body =>
    intro silent
    simp only [onStmt, Check.silent_append] at silent
    have jumpThrifty : Thrifty _ := jump
    simp [jumpThrifty, body silent.2.2, Instr.drops]
  | evalCall _ _ call =>
    exact fun _ => thrifty_append.mpr ⟨call, thrifty_cons.mpr ⟨drops_standing _, thrifty_nil⟩⟩
  | eval _ _ value => exact fun _ => value
  | assignField _ _ _ value | assignVariable _ _ _ _ value =>
    exact fun _ => thrifty_append.mpr ⟨value, thrifty_cons.mpr ⟨rfl, thrifty_nil⟩⟩
  | assignElement _ _ _ _ array position value =>
    have arrayThrifty : Thrifty _ := array
    have positionThrifty : Thrifty _ := position
    have valueThrifty : Thrifty _ := value
    simp [Phrase.Spares, arrayThrifty, positionThrifty, valueThrifty, Instr.drops]
  | returnNothing => exact fun _ => thrifty_cons.mpr ⟨rfl, thrifty_nil⟩
  | returnValue _ value =>
    intro silent
    rw [onStmt, Check.silent_append] at silent
    have notVoid := Check.isVoid_of_silent silent.1
    exact thrifty_append.mpr ⟨value, thrifty_cons.mpr ⟨notVoid, thrifty_nil⟩⟩
  | noStmts => exact fun _ => thrifty_nil
  | moreStmts _ _ first rest =>
    intro silent
    obtain ⟨inFirst, inRest⟩ := List.forall_mem_cons.mp silent
    exact thrifty_append.mpr ⟨first inFirst, rest inRest⟩

/-- The code of a method is thrifty if the check on returns is silent about its body. -/
theorem Scope.Compiles.thrifty {scope : Scope} {body : List Stmt} {method : MethodCode}
    (compiles : scope.Compiles body method)
    (silent : Check.Silent ((Check.returns scope).onBody body)) : Thrifty method.body := by
  obtain ⟨before, code, after, lowers, rfl⟩ := compiles
  have thrifty : Thrifty code := lowers.spares (forall_onBody.mp silent)
  exact thrifty.close scope.method

/-- The code of all methods is thrifty if the check on returns reports no error. -/
theorem ClassTable.thrifty_of_lower {table : ClassTable} {program : Program} {before : Counters}
    {code : ClassCode} {notes : List Diagnostic}
    (ran : Check.returnCompatibility.run program table = .ok notes)
    (clean : ∀ note ∈ notes, note.isError = false)
    (lowered : (table.lower program before).1 = .ok code) {method : MethodCode}
    (member : method ∈ code.methods) : Thrifty method.body := by
  obtain ⟨scope, body, compiles, silent⟩ := compiles_of_overBodies ran clean lowered member
  exact compiles.thrifty silent

/-! ### Constructor calls -/

/-- A constructor is called without arguments. -/
def Call.Bare (call : Call) : Prop := call.kind = .constructor → call.args = []

/-- The calls that are made where an instruction can make one are bare. -/
def Instr.Bare : Instr → Prop
  | .assign _ (.call invocation) _ | .call invocation | .discard (.call invocation) =>
    invocation.Bare
  | _ => True

/-- Allocations apart, lowering makes no instruction that calls a constructor. -/
theorem Scope.bare_of_performs {scope : Scope} {instr : Instr} (performs : scope.Performs instr) :
    instr.Bare := by
  cases instr with
  | assign dest rhs ty =>
    cases rhs with
    | call invocation => exact fun isConstructor => absurd isConstructor performs.2.1
    | _ => trivial
  | call invocation => exact fun isConstructor => absurd isConstructor performs
  | discard inner =>
    cases inner with
    | call invocation => exact fun isConstructor => absurd isConstructor performs
    | _ => trivial
  | _ => trivial

theorem Scope.Arranged.bare {scope : Scope} {code : List Instr} (arranged : scope.Arranged code) :
    ∀ instr ∈ code, instr.Bare := by
  induction arranged with
  | nil => exact nofun
  | allocation _ _ inductionHypothesis =>
    exact List.forall_mem_cons.mpr ⟨trivial, List.forall_mem_cons.mpr
      ⟨fun _ => rfl, inductionHypothesis⟩⟩
  | regular isRegular _ inductionHypothesis =>
    exact List.forall_mem_cons.mpr ⟨bare_of_performs isRegular.performs, inductionHypothesis⟩

end JavaMinus
