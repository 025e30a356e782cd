/-
This file says when control can run off the end of a method. A method that
yields nothing never does, since a return is added to its code unless the code
ends in one. A method that yields a value gets no return, and no check asks for
one: control can run off its end exactly if its body can complete, that is, if
there is a way through the body that meets no return. Truth values that are
written down decide which ways there are; every other condition may come out
either way.

The code of a condition exits at the labels of its possible outcomes, and the
code of a statement exits behind itself if the statement can complete. A branch
whose code ends in a return is not followed by a jump; that is right because
such a branch cannot complete.
-/

import JavaMinus.Check.Suite
import JavaMinus.Proofs.Lowering.Preservation
import JavaMinus.Proofs.Lowering.Success
import JavaMinus.Proofs.Semantics.Flow

namespace JavaMinus

/-! ### Ways through the source -/

/-- Whether the jump of an expression can go the way of the outcome. -/
def Expr.mayBe (outcome : Bool) : Expr → Bool
  | .literal _ (.bool value) => value == outcome
  | .paren _ inner => inner.mayBe outcome
  | .not _ operand => operand.mayBe !outcome
  | .binary _ .and left right =>
    if outcome then left.mayBe true && right.mayBe true
    else left.mayBe false || (left.mayBe true && right.mayBe false)
  | .binary _ .or left right =>
    if outcome then left.mayBe true || (left.mayBe false && right.mayBe true)
    else left.mayBe false && right.mayBe false
  | _ => true

/-- Expressions without a jump of their own may come out either way. -/
theorem Expr.mayBe_of_not_hasJump {expr : Expr} (plain : expr.hasJump = false) (outcome : Bool) :
    expr.mayBe outcome = true := by
  cases expr with
  | literal pos value =>
    cases value with
    | int value => rfl
    | bool value => cases plain
  | binary pos op left right =>
    cases op with
    | arith op => rfl
    | less | and | or => cases plain
  | not | paren => cases plain
  | _ => rfl

/-- A jump can go one way or the other. -/
theorem Expr.exists_mayBe (expr : Expr) : ∃ outcome, expr.mayBe outcome = true := by
  induction expr with
  | literal pos value =>
    cases value with
    | int value => exact ⟨true, rfl⟩
    | bool value => exact ⟨value, beq_self_eq_true value⟩
  | paren pos inner inductionHypothesis => exact inductionHypothesis
  | not pos operand inductionHypothesis =>
    obtain ⟨outcome, possible⟩ := inductionHypothesis
    exact ⟨!outcome, by rwa [mayBe, Bool.not_not]⟩
  | binary pos op left right leftHypothesis rightHypothesis =>
    obtain ⟨first, firstPossible⟩ := leftHypothesis
    obtain ⟨second, secondPossible⟩ := rightHypothesis
    cases op with
    | arith | less => exact ⟨true, rfl⟩
    | and =>
      refine ⟨first && second, ?_⟩
      cases first <;> cases second <;> simp [mayBe, firstPossible, secondPossible]
    | or =>
      refine ⟨first || second, ?_⟩
      cases first <;> cases second <;> simp [mayBe, firstPossible, secondPossible]
  | _ => exact ⟨true, rfl⟩

/-- A conjunction comes out as its right operand does if the left one holds, and else fails. -/
theorem Expr.mayBe_and (pos : Pos) (left right : Expr) (last : Bool) :
    (binary pos .and left right).mayBe last = true ↔ ∃ outcome, left.mayBe outcome = true ∧
      (if outcome then right.mayBe last else !last) = true := by
  cases last <;> simp [mayBe]

/-- A disjunction comes out as its right operand does if the left one fails, and else holds. -/
theorem Expr.mayBe_or (pos : Pos) (left right : Expr) (last : Bool) :
    (binary pos .or left right).mayBe last = true ↔ ∃ outcome, left.mayBe outcome = true ∧
      (if outcome then last else right.mayBe last) = true := by
  cases last <;> simp [mayBe, or_comm]

namespace Stmt

mutual

/-- Whether there is a way through a statement to its end. -/
def completes (stmt : Stmt) : Bool :=
  match stmt with
  | .block _ body => completesBody body
  | .ifElse _ condition thenBranch none =>
    (condition.mayBe true && thenBranch.completes) || condition.mayBe false
  | .ifElse _ condition thenBranch (some elseBranch) =>
    (condition.mayBe true && thenBranch.completes) ||
      (condition.mayBe false && elseBranch.completes)
  | .whileLoop _ condition _ => condition.mayBe false
  | .eval _ _ | .assign _ _ _ => true
  | .ret _ _ => false
termination_by structural stmt

/-- Whether there is a way through all statements of a body. -/
def completesBody (body : List Stmt) : Bool :=
  match body with
  | [] => true
  | stmt :: rest => stmt.completes && completesBody rest
termination_by structural body

end

end Stmt

/-- A phrase with closed code cannot complete. -/
def Phrase.Returns (code : List Instr) : Phrase → Prop
  | .stmt single => IsClosed code → single.completes = false
  | .body stmts => IsClosed code → Stmt.completesBody stmts = false
  | _ => True

theorem Lowers.returns {scope : Scope} {phrase : Phrase} {before after : Counters}
    {code : List Instr} (lowers : Lowers scope phrase before code after) :
    phrase.Returns code := by
  induction lowers with
  | block _ returns => exact returns
  | ifThen | ifElse | whileLoop | assignField | assignVariable | assignElement =>
    exact fun closed => absurd closed (by simp [IsClosed, List.getLast?_cons, Instr.endsBlock])
  | evalCall => exact fun closed => absurd closed (not_isClosed_concat (endsBlock_standing _))
  | eval _ valueLowers => exact fun closed => absurd closed valueLowers.isOpen
  | returnNothing | returnValue => exact fun _ => rfl
  | noStmts => exact fun closed => absurd closed not_isClosed_nil
  | moreStmts _ _ first rest =>
    intro closed
    rw [Stmt.completesBody]
    rcases isClosed_append closed with restClosed | ⟨-, firstClosed⟩
    · rw [rest restClosed, Bool.and_false]
    · rw [first firstClosed, Bool.false_and]
  | _ => trivial

/-! ### Ways through the code -/

namespace Exits

variable {code : List Instr} {position : Nat}

/-- Code that is left at its end. -/
abbrev Through (code : List Instr) (position finish : Nat) : Prop :=
  Exits code position (fun _ : Unit => True) fun _ => finish

theorem through_self (code : List Instr) (position : Nat) : Through code position position :=
  .done () (fun _ => iff_of_true trivial rfl) rfl

/-- One instruction that goes on to the next. -/
theorem through_next {instr : Instr} {finish : Nat} (fetched : code[position]? = some instr)
    (leads : instr.successors code position = [position + 1]) (arrived : finish = position + 1) :
    Through code position finish := by
  subst arrived
  exact .cons fetched leads (through_self code (position + 1))

/-- Behind code that is left at its end. -/
theorem andThen {α : Type} {middle : Nat} {may : α → Prop} {arrive : α → Nat}
    (first : Through code position middle) (rest : Exits code middle may arrive) :
    Exits code position may arrive :=
  (Exits.bind first fun _ _ => rest).congr fun _ => by simp

/-- A branch with a jump behind it goes to both labels. -/
theorem branch {condition : Condition} {onTrue onFalse : Label} {taken passed : Nat}
    (stands : StandsAt code position [.branch condition onTrue, .goto onFalse])
    (trueAt : labelPosition? code onTrue = some taken)
    (falseAt : labelPosition? code onFalse = some passed) :
    Exits code position (fun _ : Bool => True)
      fun outcome => if outcome then taken else passed where
  confined := by
    refine .step stands.head fun next member => ?_
    rcases List.mem_cons.mp member with rfl | jumps
    · refine .step stands.tail.head fun last jumps => .here ⟨false, trivial, ?_⟩
      rw [Instr.successors, falseAt, Option.toList_some, List.mem_singleton] at jumps
      exact jumps.symm
    · refine .here ⟨true, trivial, ?_⟩
      rw [trueAt, Option.toList_some, List.mem_singleton] at jumps
      exact jumps.symm
  reached outcome _ := by
    cases outcome with
    | true =>
      refine .single (flows_of_successor stands.head ?_)
      simp [Instr.successors, trueAt]
    | false =>
      refine .head (flows_of_successor stands.head List.mem_cons_self)
        (.single (flows_of_successor stands.tail.head ?_))
      simp [Instr.successors, falseAt]

theorem successors_goto {target : Label} {place : Nat}
    (found : labelPosition? code target = some place) :
    (Instr.goto target).successors code position = [place] := by
  rw [Instr.successors, found, Option.toList_some]

/-- Either way through the diamond comes to its end. -/
theorem diamond {number : Nat} {result : String}
    (stands : StandsAt code position (Scope.diamond number result)) (once : (placed code).Nodup)
    (taken : Bool) :
    Through code (if taken then position + 3 else position) (position + 6) := by
  have doneStands := stands.tail.tail.tail.tail.tail.head
  cases taken with
  | true =>
    have trueStands := stands.tail.tail.tail
    exact .cons trueStands.head rfl
      (.cons trueStands.tail.head rfl (through_next doneStands rfl rfl))
  | false =>
    exact .cons stands.head rfl (.cons stands.tail.head rfl (.cons stands.tail.tail.head
      (successors_goto (labelPosition?_eq once doneStands)) (through_next doneStands rfl rfl)))

/-- Control does not go on behind a return. -/
theorem returned {pos : Pos} {value : Option Expr} {result : Option Operand} {ty : Ty}
    {finish : Nat}
    (fetched : code[position]? = some (.ret result ty)) :
    Exits code position (fun _ : Unit => (Stmt.ret pos value).completes = true)
      fun _ => finish where
  confined := .step fetched fun _ leads => nomatch leads
  reached _ possible := nomatch possible

/-- What is possible behind a condition that can come out either way. -/
theorem conditional {condition : Expr} {holds fails finish : Nat} {yes no : Prop}
    (tests : Exits code position (fun outcome => condition.mayBe outcome = true)
      fun outcome => if outcome then holds else fails)
    (onTrue : Exits code holds (fun _ : Unit => yes) fun _ => finish)
    (onFalse : Exits code fails (fun _ : Unit => no) fun _ => finish) :
    Exits code position
      (fun _ : Unit => condition.mayBe true = true ∧ yes ∨ condition.mayBe false = true ∧ no)
      fun _ => finish := by
  have onward (outcome : Bool) (_ : condition.mayBe outcome = true) :
      Exits code (if outcome then holds else fails)
        (fun _ : Unit => if outcome then yes else no) fun _ => finish := by
    cases outcome with
    | true => exact onTrue
    | false => exact onFalse
  exact (Exits.bind tests onward).congr fun _ => by simp [or_comm]

/-- Behind a branch of an `if`, control comes to the label where the branches join. -/
theorem joined {scope : Scope} {stmt : Stmt} {before after : Counters} {branchCode : List Instr}
    {target : Label} {joins finish : Nat}
    (lowers : Lowers scope (.stmt stmt) before branchCode after) (once : (placed code).Nodup)
    (stands : StandsAt code position (Lower.joined target branchCode))
    (joinsAt : code[joins]? = some (.label target)) (arrived : finish = joins + 1)
    (leaves : Exits code position (fun _ : Unit => stmt.completes = true)
      fun _ => position + branchCode.length) :
    Exits code position (fun _ : Unit => stmt.completes = true) fun _ => finish := by
  by_cases closed : IsClosed branchCode
  · -- There is no jump, and none is needed.
    have never : stmt.completes = false := lowers.returns closed
    rw [never] at leaves ⊢
    refine ⟨leaves.confined.mono ?_, fun _ possible => nomatch possible⟩
    rintro place ⟨_, possible, -⟩
    cases possible
  · have jumps : Lower.joined target branchCode = branchCode ++ [.goto target] := if_neg closed
    rw [jumps] at stands
    refine (leaves.bind fun _ _ => .cons stands.behind (successors_goto
      (labelPosition?_eq once joinsAt)) (through_next joinsAt rfl arrived)).congr fun _ => ?_
    simp

/-- A loop is left when its condition fails. -/
theorem loop {again onTrue done : Label} {inside finish : Nat} {condition : Expr} {body : Stmt}
    (once : (placed code).Nodup) (againAt : code[position]? = some (.label again))
    (insideAt : code[inside]? = some (.label onTrue))
    (repeats : code[finish]? = some (.goto again))
    (doneAt : code[finish + 1]? = some (.label done))
    (tests : Exits code (position + 1) (fun outcome => condition.mayBe outcome = true)
      fun outcome => if outcome then inside else finish + 1)
    (leaves : Exits code (inside + 1) (fun _ : Unit => body.completes = true) fun _ => finish) :
    Exits code position (fun _ : Unit => condition.mayBe false = true) fun _ => finish + 2 where
  confined := by
    refine .loop againAt fun next member => ?_
    rw [List.mem_singleton.mp member]
    refine tests.confined.trans ?_
    rintro _ ⟨outcome, possible, rfl⟩
    cases outcome with
    | true =>
      -- The body comes back to where the loop starts.
      refine .step insideAt fun next member => ?_
      rw [List.mem_singleton.mp member]
      refine leaves.confined.trans ?_
      rintro _ ⟨_, -, rfl⟩
      refine .step repeats fun next member => .here (.inl ?_)
      rwa [successors_goto (labelPosition?_eq once againAt), List.mem_singleton] at member
    | false =>
      refine .step doneAt fun next member => .here (.inr ⟨(), possible, ?_⟩)
      exact (List.mem_singleton.mp member).symm
  reached _ possible :=
    .head (flows_of_successor againAt (List.mem_singleton_self _))
      ((tests.reached false possible).tail (flows_of_successor doneAt (List.mem_singleton_self _)))

end Exits

open Exits

theorem successors_standing (call : Call) (code : List Instr) (position : Nat) :
    (Scope.standing call).successors code position = [position + 1] := by
  rw [Scope.standing]
  split <;> rfl

/-- Control leaves the code of a phrase in the ways in which the phrase can come out. -/
def Phrase.Left (code : List Instr) (position finish : Nat) : Phrase → Prop
  | .jump expr onTrue onFalse =>
    ∀ holds fails, labelPosition? code onTrue = some holds →
      labelPosition? code onFalse = some fails →
      Exits code position (fun outcome => expr.mayBe outcome = true)
        fun outcome => if outcome then holds else fails
  | .stmt single => Exits code position (fun _ : Unit => single.completes = true) fun _ => finish
  | .body stmts =>
    Exits code position (fun _ : Unit => Stmt.completesBody stmts = true) fun _ => finish
  | _ => Through code position finish

theorem Lowers.left {scope : Scope} {phrase : Phrase} {before after : Counters}
    {part code : List Instr} (lowers : Lowers scope phrase before part after)
    (once : (placed code).Nodup) {position : Nat} (stands : StandsAt code position part) :
    phrase.Left code position (position + part.length) := by
  induction lowers generalizing position with
  | int | bool | field | var | this | noValues | filled | implicitStatic | implicitThis | onThis
  | onClass => exact through_self code position
  | arith _ _ left right | index _ _ left right =>
    exact ((left stands.left.left).andThen (right stands.left.right)).andThen
      (through_next stands.behindBoth rfl (by simp [Nat.add_assoc]))
  | newObject => exact .cons stands.head rfl (through_next stands.tail.head rfl rfl)
  | newArray _ inner | length _ inner | callValue _ _ inner =>
    exact (inner stands.left).andThen (through_next stands.behind rfl (by simp [Nat.add_assoc]))
  | arrayLiteral _ inner | paren _ inner | onValue _ _ _ inner | block _ inner
  | parenJump _ inner => exact inner stands
  | materialize branching _ jump =>
    have diamondStands := stands.right
    have trueAt := labelPosition?_eq once diamondStands.tail.tail.tail.head
    have falseAt := labelPosition?_eq once diamondStands.head
    show Through code position _
    rw [List.length_append, ← Nat.add_assoc]
    exact (Exits.bind (jump stands.left _ _ trueAt falseAt) fun outcome _ =>
      diamond diamondStands once outcome).congr fun _ => by simpa using Expr.exists_mayBe _
  | @decided pos value onTrue onFalse counters =>
    intro holds fails trueAt falseAt
    have leads : labelPosition? code (if value then onTrue else onFalse) =
        some (if value then holds else fails) := by
      cases value with
      | true => exact trueAt
      | false => exact falseAt
    exact .cons stands.head (successors_goto leads) (.done value (fun other => by
      rw [Expr.mayBe, beq_iff_eq, eq_comm]) rfl)
  | less _ _ left right =>
    intro holds fails trueAt falseAt
    have branchStands := stands.right
    rw [List.length_append, ← Nat.add_assoc] at branchStands
    exact (((left stands.left.left).andThen (right stands.left.right)).andThen
      (branch branchStands trueAt falseAt)).congr fun _ => iff_of_true trivial rfl
  | and _ _ left right =>
    intro holds fails trueAt falseAt
    have middleAt := labelPosition?_eq once stands.behind
    have behind := right stands.right.tail _ _ trueAt falseAt
    refine (Exits.bind (left stands.left _ _ middleAt falseAt) fun outcome _ => ?_).congr
      fun last => (Expr.mayBe_and _ _ _ last).symm
    cases outcome with
    | true => exact .cons stands.behind rfl behind
    | false => exact .done false (by simp) rfl
  | or _ _ left right =>
    intro holds fails trueAt falseAt
    have middleAt := labelPosition?_eq once stands.behind
    have behind := right stands.right.tail _ _ trueAt falseAt
    refine (Exits.bind (left stands.left _ _ trueAt middleAt) fun outcome _ => ?_).congr
      fun last => (Expr.mayBe_or _ _ _ last).symm
    cases outcome with
    | true => exact .done true (by simp) rfl
    | false => exact .cons stands.behind rfl behind
  | not _ inner =>
    intro holds fails trueAt falseAt
    refine (Exits.bind (inner stands _ _ falseAt trueAt) fun outcome _ =>
      .done (!outcome) (fun _ => Iff.rfl) ?_).congr fun last => ?_
    · cases outcome <;> rfl
    · cases last <;> simp [Expr.mayBe]
  | nonZero plain _ value =>
    intro holds fails trueAt falseAt
    exact ((value stands.left).andThen (branch stands.right trueAt falseAt)).congr fun outcome =>
      iff_of_true trivial (Expr.mayBe_of_not_hasJump plain outcome)
  | moreValues _ _ first rest | unbound _ _ _ first rest | bound _ _ _ _ first rest
  | passed _ _ _ _ _ _ first rest =>
    show Through code position _
    rw [List.length_append, ← Nat.add_assoc]
    exact (first stands.left).andThen (rest stands.right)
  | fillMore _ _ first rest =>
    show Through code position _
    rw [StandsAt.finish_around]
    exact (first stands.left).andThen (.cons stands.behind rfl (rest stands.right.tail))
  | pack _ fill =>
    show Through code position _
    rw [StandsAt.finish_cons]
    exact .cons stands.head rfl (fill stands.tail)
  | packed _ _ _ _ _ _ first second third =>
    show Through code position _
    rw [List.length_append, List.length_append, ← Nat.add_assoc, ← Nat.add_assoc]
    exact (first stands.left).andThen
      ((second stands.right.left).andThen (third stands.right.right))
  | ifThen _ thenLowers jump thenBranch =>
    have thenStands := stands.right.tail
    have elseStands := thenStands.right
    have thenAt := labelPosition?_eq once stands.behind
    have elseAt := labelPosition?_eq once elseStands.head
    rw [Phrase.Left, StandsAt.finish_around, List.length_append, ← Nat.add_assoc]
    have onTrue := joined thenLowers once thenStands.left elseStands.tail.head rfl
      (thenBranch thenStands.left.joined)
    have onFalse := through_next elseStands.tail.head rfl rfl
    exact (conditional (jump stands.left _ _ thenAt elseAt) (.cons stands.behind rfl onTrue)
      (.cons elseStands.head rfl onFalse)).congr fun _ => by simp [Stmt.completes]
  | ifElse _ thenLowers _ jump thenBranch elseBranch =>
    have thenStands := stands.right.tail
    have elseStands := thenStands.right
    have joinsAt := elseStands.tail.behind
    have thenAt := labelPosition?_eq once stands.behind
    have elseAt := labelPosition?_eq once elseStands.head
    rw [Phrase.Left, StandsAt.finish_around, StandsAt.finish_around, List.length_append,
      ← Nat.add_assoc]
    have onTrue := joined thenLowers once thenStands.left joinsAt rfl
      (thenBranch thenStands.left.joined)
    have onFalse := (elseBranch elseStands.tail.left).bind fun _ _ =>
      through_next joinsAt rfl rfl
    exact (conditional (jump stands.left _ _ thenAt elseAt) (.cons stands.behind rfl onTrue)
      (.cons elseStands.head rfl onFalse)).congr fun _ => by simp [Stmt.completes]
  | whileLoop _ _ jump body =>
    have bodyStands := stands.tail.right.tail
    have endStands := bodyStands.right
    have insideAt := stands.tail.behind
    have doneAt := endStands.tail.head
    have tests := jump stands.tail.left _ _ (labelPosition?_eq once insideAt)
      (labelPosition?_eq once doneAt)
    rw [Phrase.Left, StandsAt.finish_cons, StandsAt.finish_around, List.length_append,
      ← Nat.add_assoc]
    exact loop once stands.head insideAt endStands.head doneAt tests (body bodyStands.left)
  | evalCall _ _ call =>
    exact ((call stands.left).andThen (through_next stands.behind (successors_standing _ _ _)
      (by simp [Nat.add_assoc]))).congr fun _ => iff_of_true trivial rfl
  | eval _ _ value => exact (value stands).congr fun _ => iff_of_true trivial rfl
  | assignField _ _ _ value | assignVariable _ _ _ _ value =>
    exact ((value stands.left).andThen (through_next stands.behind rfl
      (by simp [Nat.add_assoc]))).congr fun _ => iff_of_true trivial rfl
  | assignElement _ _ _ _ array index value =>
    have indexStands := stands.right
    have valueStands := indexStands.right
    exact ((array stands.left).andThen ((index indexStands.left).andThen
      ((value valueStands.left).andThen (through_next valueStands.behind rfl
        (by simp [Nat.add_assoc]))))).congr fun _ => iff_of_true trivial rfl
  | returnNothing => exact returned stands.head
  | returnValue _ value => exact (value stands.left).andThen (returned stands.behind)
  | noStmts => exact .done () (fun _ => iff_of_true rfl rfl) rfl
  | moreStmts _ _ first rest =>
    rw [Phrase.Left, List.length_append, ← Nat.add_assoc]
    exact ((first stands.left).bind fun _ _ => rest stands.right).congr fun _ => by
      simp [Stmt.completesBody]

/-! ### Methods -/

/-- The code of a method that yields nothing ends in a return. -/
theorem Signature.getLast?_close {method : Signature} (isVoid : method.returnType.isVoid = true)
    (code : List Instr) :
    ∃ last, (method.close code).getLast? = some last ∧ last.isReturn = true := by
  rw [close, isVoid, Bool.true_and]
  split
  · exact ⟨_, List.getLast?_concat, rfl⟩
  · next ends =>
    rw [Bool.not_eq_true', Bool.not_eq_false] at ends
    exact (Option.any_eq_true _ _).mp ends

theorem Scope.Compiles.falls_iff {scope : Scope} {body : List Stmt} {method : MethodCode}
    (compiles : scope.Compiles body method) :
    ControlPath method.body 0 method.body.length ↔
      scope.method.returnType.isVoid = false ∧ Stmt.completesBody body = true := by
  obtain ⟨before, code, after, lowers, rfl⟩ := compiles
  show ControlPath (scope.method.close code) 0 (scope.method.close code).length ↔ _
  cases isVoid : scope.method.returnType.isVoid with
  | true =>
    refine iff_of_false (fun path => ?_) (by simp)
    obtain ⟨last, isLast, isReturn⟩ := Signature.getLast?_close isVoid code
    rcases Relation.ReflTransGen.cases_tail path with same | ⟨position, -, flows⟩
    · rw [List.length_eq_zero_iff.mp same] at isLast
      cases isLast
    · exact not_flows_length isLast isReturn position flows
  | false =>
    have same : scope.method.close code = code := by
      rw [Signature.close, isVoid]
      rfl
    have leaves := lowers.left lowers.freshLabels.nodup (.whole code)
    rw [Phrase.Left, Nat.zero_add] at leaves
    rw [same, and_iff_right rfl]
    refine ⟨fun path => ?_, leaves.reached ()⟩
    rcases leaves.confined.path path with inside | ⟨_, ⟨-, possible, -⟩, -⟩
    · exact absurd inside (Nat.lt_irrefl _)
    · exact possible

namespace ClassTable

/-- Control can run off the end of a method exactly if the method yields a value and there is a
way through its body to the end. -/
theorem falls_iff_of_lower {program : Program} {before : Counters} {code : ClassCode}
    (lowered : ((ofProgram program).lower program before).1 = .ok code) :
    List.Forall₂
      (fun decl method => ControlPath method.body 0 method.body.length ↔
        decl.returnType.ty.isVoid = false ∧ Stmt.completesBody decl.body = true)
      program.classDecl.methods code.methods :=
  (compiles_of_lower_ofProgram lowered).imp fun _ _ compiles => compiles.falls_iff

end ClassTable

/-- A class with two methods that yield a number: one returns from both branches, the other one only
if its parameter is negative. -/
def Program.signs : Program where
  imports := []
  classDecl :=
    { name := "Signs"
      superClass := none
      fields := []
      methods :=
        [method "both" (some (.ret .nowhere (some (.literal .nowhere (.int 1))))),
          method "one" none]
      pos := .nowhere }
  pos := .nowhere
where
  method (name : String) (elseBranch : Option Stmt) : MethodDecl :=
    { name := name
      isPublic := true
      isStatic := false
      returnType := .ofTy .nowhere .int
      params := [⟨.ofTy .nowhere .int, "n", false, .nowhere⟩]
      locals := []
      body :=
        [.ifElse .nowhere
          (.binary .nowhere .less (.name .nowhere "n") (.literal .nowhere (.int 0)))
          (.ret .nowhere (some (.literal .nowhere (.int 0)))) elseBranch]
      pos := .nowhere }

theorem falls_iff_of_lower_signs :
    ∃ both one, ((ClassTable.ofProgram .signs).lower .signs {}).1 =
        .ok ((ClassTable.ofProgram .signs).classCode [both, one]) ∧
      ¬ ControlPath both.body 0 both.body.length ∧ ControlPath one.body 0 one.body.length := by
  obtain ⟨both, one, lowered⟩ : ∃ both one, ((ClassTable.ofProgram .signs).lower .signs {}).1 =
      .ok ((ClassTable.ofProgram .signs).classCode [both, one]) := ⟨_, _, rfl⟩
  obtain ⟨bothFalls, others⟩ := List.forall₂_cons.mp (ClassTable.falls_iff_of_lower lowered)
  obtain ⟨oneFalls, -⟩ := List.forall₂_cons.mp others
  exact ⟨both, one, lowered, fun path => absurd (bothFalls.mp path) (by decide),
    oneFalls.mpr (by decide)⟩

/-- A method that should yield a number and only sets its parameter. -/
def Program.silent : Program where
  imports := []
  classDecl :=
    { name := "A"
      superClass := none
      fields := []
      methods :=
        [{ name := "f"
           isPublic := true
           isStatic := false
           returnType := .ofTy .nowhere .int
           params := [⟨.ofTy .nowhere .int, "n", false, .nowhere⟩]
           locals := []
           body := [.assign .nowhere (.name .nowhere "n") (.literal .nowhere (.int 1))]
           pos := .nowhere }]
      pos := .nowhere }
  pos := .nowhere

/-- That the standard checks report no error does not keep control from running off the end of a
method. -/
theorem clean_falls :
    ¬∀ (program : Program) (entry : Option String) (report : Report) (before : Counters)
      (code : ClassCode),
      Check.runAll (Check.standard entry) program (.ofProgram program) = .ok report →
      report.hasErrors = false →
      ((ClassTable.ofProgram program).lower program before).1 = .ok code →
      ∀ method ∈ code.methods, ¬ ControlPath method.body 0 method.body.length := by
  intro guarantees
  exact guarantees .silent none .empty {} _ rfl rfl rfl _ (List.mem_singleton_self _)
    (.single ⟨_, rfl, List.mem_singleton_self _⟩)

end JavaMinus
