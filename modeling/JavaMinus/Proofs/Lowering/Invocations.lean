/-
This file says which calls lowering makes. The calls in the code of a method,
constructors apart, are those of its body in the order in which they are made: a
call comes behind the calls in its receiver and in its arguments. How a call finds
its method is decided by what it is made on. Without a receiver the method itself
decides, if it is one of the class; with a receiver only the form of the receiver
does, and no check compares it with the method. So a call to a method of the class
is made in the right way exactly if it has no receiver, or if its receiver is the
name of a class when the method is static and a value when it is not.
-/

import JavaMinus.Check.Suite
import JavaMinus.Proofs.Lowering.Preservation
import JavaMinus.Proofs.Lowering.Shape
import JavaMinus.Proofs.Lowering.Success

namespace JavaMinus

/-! ### Calls of the source -/

/-- A call as it is written. -/
structure Invocation where
  receiver : Option Expr
  method : String
  args : List Expr

namespace Expr

mutual

/-- The calls in an expression, in the order in which they are made. -/
def invocations (expr : Expr) : List Invocation :=
  match expr with
  | .literal _ _ | .name _ _ | .this _ | .newObject _ _ => []
  | .binary _ _ left right | .index _ left right => left.invocations ++ right.invocations
  | .not _ inner | .newArray _ inner | .length _ inner | .paren _ inner => inner.invocations
  | .call _ none method args => invocationsAll args ++ [⟨none, method, args⟩]
  | .call _ (some receiver) method args =>
    receiver.invocations ++ invocationsAll args ++ [⟨some receiver, method, args⟩]
  | .arrayLiteral _ elements => invocationsAll elements
termination_by structural expr

/-- The calls in expressions that stand side by side. -/
def invocationsAll (exprs : List Expr) : List Invocation :=
  match exprs with
  | [] => []
  | expr :: rest => expr.invocations ++ invocationsAll rest
termination_by structural exprs

end

theorem invocationsAll_eq_flatMap (exprs : List Expr) :
    invocationsAll exprs = exprs.flatMap invocations := by
  induction exprs with
  | nil => rfl
  | cons expr rest inductionHypothesis =>
    rw [invocationsAll, inductionHypothesis, List.flatMap_cons]

theorem invocations_call (pos : Pos) (receiver : Option Expr) (method : String) (args : List Expr) :
    (call pos receiver method args).invocations =
      receiver.toList.flatMap invocations ++ args.flatMap invocations ++
        [⟨receiver, method, args⟩] := by
  cases receiver <;> simp [invocations, invocationsAll_eq_flatMap]

theorem invocations_stripped (expr : Expr) : expr.stripped.invocations = expr.invocations := by
  induction expr with
  | paren pos inner inductionHypothesis =>
    rw [stripped_paren, inductionHypothesis, invocations]
  | _ => rfl

end Expr

namespace Stmt

mutual

/-- The calls in a statement, in the order in which they stand in its code. -/
def invocations (stmt : Stmt) : List Invocation :=
  match stmt with
  | .block _ body => invocationsBody body
  | .ifElse _ condition thenBranch none => condition.invocations ++ thenBranch.invocations
  | .ifElse _ condition thenBranch (some elseBranch) =>
    condition.invocations ++ thenBranch.invocations ++ elseBranch.invocations
  | .whileLoop _ condition body => condition.invocations ++ body.invocations
  | .eval _ expr => expr.invocations
  | .assign _ target value => target.invocations ++ value.invocations
  | .ret _ none => []
  | .ret _ (some value) => value.invocations
termination_by structural stmt

/-- The calls in a body. -/
def invocationsBody (body : List Stmt) : List Invocation :=
  match body with
  | [] => []
  | stmt :: rest => stmt.invocations ++ invocationsBody rest
termination_by structural body

end

end Stmt

/-! ### Calls of the code -/

/-- The calls that code makes, constructors apart. -/
def invoked (code : List Instr) : List Call :=
  (code.flatMap Instr.calls).filter fun call => call.kind != .constructor

/-- The calls of the source are those of the code, in order, each related to its own. -/
def InOrder (each : Invocation → Call → Prop) (invocations : List Invocation)
    (code : List Instr) : Prop :=
  List.Forall₂ each invocations (invoked code)

section InOrder

variable {each : Invocation → Call → Prop} {invocations others : List Invocation}
  {code rest : List Instr}

theorem inOrder_nil : InOrder each [] [] := .nil

theorem InOrder.append (first : InOrder each invocations code) (second : InOrder each others rest) :
    InOrder each (invocations ++ others) (code ++ rest) := by
  rw [InOrder, invoked, List.flatMap_append, List.filter_append]
  exact List.rel_append first second

/-- Instructions without calls. -/
theorem inOrder_quiet (quiet : code.flatMap Instr.calls = []) : InOrder each [] code := by
  rw [InOrder, invoked, quiet]
  exact .nil

theorem InOrder.followed (first : InOrder each invocations code)
    (quiet : rest.flatMap Instr.calls = []) : InOrder each invocations (code ++ rest) := by
  have all := first.append (inOrder_quiet quiet)
  rwa [List.append_nil] at all

theorem InOrder.cons {instr : Instr} (quiet : instr.calls = [])
    (first : InOrder each invocations code) : InOrder each invocations (instr :: code) := by
  have alone : InOrder each [] [instr] := inOrder_quiet (by rw [List.flatMap_singleton, quiet])
  exact alone.append first

theorem InOrder.joined (target : Label) (first : InOrder each invocations code) :
    InOrder each invocations (Lower.joined target code) := by
  rw [Lower.joined]
  split
  · exact first
  · exact first.followed rfl

/-- A call behind the calls in its receiver and in its arguments. -/
theorem InOrder.call {invocation : Invocation} {call : Call} {instr : Instr}
    (first : InOrder each invocations code) (makes : instr.calls = [call])
    (regular : call.kind ≠ .constructor) (related : each invocation call) :
    InOrder each (invocations ++ [invocation]) (code ++ [instr]) := by
  refine first.append ?_
  rw [InOrder, invoked, List.flatMap_singleton, makes, List.filter_singleton,
    bne_iff_ne.mpr regular]
  exact .cons related .nil

end InOrder

namespace Scope

/-- Whether a receiver is the name of a class. -/
def namesClass (scope : Scope) (receiver : Expr) : Bool :=
  match receiver.stripped with
  | .name _ className => (scope.lookup? className).isNone && scope.table.isKnownClass className
  | _ => false

theorem namesClass_eq_false (scope : Scope) {receiver : Expr}
    (notClass : ∀ pos className, receiver.stripped = .name pos className →
      scope.lookup? className = none → scope.table.isKnownClass className = false) :
    scope.namesClass receiver = false := by
  rw [namesClass]
  split
  · next pos className named =>
    cases found : scope.lookup? className with
    | some _ => rfl
    | none => exact notClass pos className named found
  · rfl

/-- How a call is made: without a receiver as the method asks for, with one by its form. -/
def kind (scope : Scope) (receiver : Option Expr) (method : String) : CallKind :=
  match receiver with
  | none =>
    if ((scope.table.method? method).map Signature.isStatic).getD scope.method.isStatic then .static
    else .virtual
  | some expr => if scope.namesClass expr then .static else .virtual

/-- The calls of the source are those of the code, in order, each made by its kind. -/
def Makes (scope : Scope) (invocations : List Invocation) (code : List Instr) : Prop :=
  (invoked code).map (fun call => (call.method, call.kind)) =
    invocations.map fun invocation =>
      (invocation.method, scope.kind invocation.receiver invocation.method)

theorem makes_iff_inOrder {scope : Scope} {invocations : List Invocation} {code : List Instr} :
    scope.Makes invocations code ↔
      InOrder (fun invocation call => (call.method, call.kind) =
        (invocation.method, scope.kind invocation.receiver invocation.method)) invocations code := by
  rw [Makes, ← List.forall₂_eq_eq_eq, List.forall₂_map_left_iff, List.forall₂_map_right_iff]
  exact ⟨List.Forall₂.flip, List.Forall₂.flip⟩

end Scope

theorem calls_standing (call : Call) : (Scope.standing call).calls = [call] := by
  rw [Scope.standing]
  split <;> rfl

/-- How a call is made is decided by what it is made on. -/
theorem Lowers.kind_of_target {scope : Scope} {receiver : Option Expr} {method : String}
    {kind : CallKind} {result : CallTarget} {before after : Counters} {code : List Instr}
    (lowers : Lowers scope (.target receiver method kind result) before code after) :
    kind = scope.kind receiver method := by
  cases lowers with
  | implicitStatic isStatic => rw [Scope.kind, if_pos isStatic]
  | implicitThis inInstance notStatic =>
    rw [Scope.kind, inInstance, notStatic]
    rfl
  | onThis isThis =>
    obtain ⟨pos, same⟩ := Expr.stripped_of_isThis isThis
    rw [Scope.kind, Scope.namesClass, same]
    rfl
  | onClass named notVariable known =>
    rw [Scope.kind, Scope.namesClass, named]
    simp [notVariable, known]
  | onValue _ notClass =>
    rw [Scope.kind, scope.namesClass_eq_false notClass]
    rfl

theorem Lowers.kind_of_call {scope : Scope} {receiver : Option Expr} {method : String}
    {args : List Expr} {expected : Ty} {result : Call} {before after : Counters}
    {code : List Instr}
    (lowers : Lowers scope (.call receiver method args expected result) before code after) :
    (result.method, result.kind) = (method, scope.kind receiver method) := by
  cases lowers with
  | unbound _ targetLowers | bound _ _ targetLowers | passed _ _ _ _ targetLowers
  | packed _ _ _ targetLowers => rw [targetLowers.kind_of_target]

/-- The calls in what a phrase is made of, a call itself apart. -/
def Phrase.invocations : Phrase → List Invocation
  | .value expr _ _ | .jump expr _ _ => expr.invocations
  | .values items _ => (items.map Prod.fst).flatMap Expr.invocations
  | .fill _ _ _ items | .pack _ items _ => items.flatMap Expr.invocations
  | .target receiver _ _ _ => receiver.toList.flatMap Expr.invocations
  | .call receiver _ args _ _ =>
    receiver.toList.flatMap Expr.invocations ++ args.flatMap Expr.invocations
  | .stmt single => single.invocations
  | .body stmts => Stmt.invocationsBody stmts

/-- What holds of every call and the code that lowering makes of it holds of the calls of a phrase
and those of its code, in order. -/
theorem Lowers.inOrder {scope : Scope} {each : Invocation → Call → Prop}
    (related : ∀ {receiver method args expected result before code after},
      Lowers scope (.call receiver method args expected result) before code after →
        each ⟨receiver, method, args⟩ result)
    {phrase : Phrase} {before after : Counters} {code : List Instr}
    (lowers : Lowers scope phrase before code after) : InOrder each phrase.invocations code := by
  induction lowers with
  | int | bool | field | var | this | noValues | filled | noStmts | implicitStatic
  | implicitThis => exact inOrder_nil
  | arith _ _ left right | index _ _ left right => exact (left.append right).followed rfl
  | newObject => exact inOrder_nil
  | newArray _ inner | length _ inner => exact inner.followed rfl
  | callValue callLowers _ made =>
    rw [Phrase.invocations, Expr.invocations_call]
    exact made.call rfl callLowers.admitted.1 (related callLowers)
  | arrayLiteral _ packed =>
    rw [Phrase.invocations, Expr.invocations, Expr.invocationsAll_eq_flatMap]
    exact packed
  | paren _ inner | not _ inner | parenJump _ inner => exact inner
  | materialize _ _ jump => exact jump.followed rfl
  | decided => exact inOrder_quiet rfl
  | less _ _ left right => exact (left.append right).followed rfl
  | and _ _ left right | or _ _ left right => exact left.append (.cons rfl right)
  | nonZero _ _ value => exact value.followed rfl
  | moreValues _ _ first rest | moreStmts _ _ first rest => exact first.append rest
  | fillMore _ _ first rest => exact first.append (.cons rfl rest)
  | pack _ fill => exact .cons rfl fill
  | onThis isThis =>
    obtain ⟨pos, same⟩ := Expr.stripped_of_isThis isThis
    rw [Phrase.invocations, Option.toList_some, List.flatMap_singleton,
      ← Expr.invocations_stripped, same]
    exact inOrder_nil
  | onClass named =>
    rw [Phrase.invocations, Option.toList_some, List.flatMap_singleton,
      ← Expr.invocations_stripped, named]
    exact inOrder_nil
  | onValue _ _ _ inner =>
    rw [Phrase.invocations, Option.toList_some, List.flatMap_singleton]
    exact inner
  | unbound _ _ _ target values =>
    rw [Phrase.invocations, Scope.map_fst_bareItems] at values
    exact target.append values
  | bound _ _ _ _ target values =>
    rw [Phrase.invocations, Scope.map_fst_boundItems] at values
    exact target.append values
  | passed _ _ single _ _ _ target values =>
    rw [Phrase.invocations, Scope.map_fst_passedItems single] at values
    exact target.append values
  | packed _ _ _ _ _ _ target values packed =>
    rw [Phrase.invocations, Scope.map_fst_fixedItems] at values
    have made := InOrder.append values packed
    rw [Phrase.invocations, ← List.flatMap_append, List.take_append_drop] at made
    exact target.append made
  | block _ body => exact body
  | ifThen _ _ jump thenBranch => exact jump.append (.cons rfl ((thenBranch.joined _).followed rfl))
  | ifElse _ _ _ jump thenBranch elseBranch =>
    rw [Phrase.invocations, Stmt.invocations, List.append_assoc]
    exact jump.append
      (.cons rfl ((thenBranch.joined _).append (.cons rfl (elseBranch.followed rfl))))
  | whileLoop _ _ jump body => exact .cons rfl (jump.append (.cons rfl (body.followed rfl)))
  | evalCall isCall callLowers made =>
    rw [Phrase.invocations, Stmt.invocations, ← Expr.invocations_stripped, isCall,
      Expr.invocations_call]
    exact made.call (calls_standing _) callLowers.admitted.1 (related callLowers)
  | eval _ _ value => exact value
  | assignField named _ _ value =>
    rw [Phrase.invocations, Stmt.invocations, ← Expr.invocations_stripped, named]
    exact value.followed rfl
  | @assignVariable _ _ _ _ _ _ result _ _ _ named _ _ _ value =>
    rw [Phrase.invocations, Stmt.invocations, ← Expr.invocations_stripped, named]
    refine value.followed ?_
    cases result <;> rfl
  | assignElement indexed _ _ _ array position value =>
    rw [Phrase.invocations, Stmt.invocations, ← Expr.invocations_stripped, indexed,
      Expr.invocations, List.append_assoc]
    exact array.append (position.append (value.followed rfl))
  | returnNothing => exact inOrder_quiet rfl
  | returnValue _ value => exact value.followed rfl

/-! ### Methods -/

/-- A call finds the method by its kind: a static one by the class, another by the receiver. -/
def Call.Finds (call : Call) (callee : Signature) : Prop :=
  (call.kind = .static ↔ callee.isStatic = true) ∧ (call.kind = .virtual ↔ callee.isStatic = false)

instance (call : Call) (callee : Signature) : Decidable (call.Finds callee) :=
  inferInstanceAs (Decidable (_ ∧ _))

/-- Whether the receiver of a call suits the method: there is none, or it is the name of a class if
and only if the method is static. -/
def Scope.suits (scope : Scope) (receiver : Option Expr) (callee : Signature) : Bool :=
  receiver.all fun expr => scope.namesClass expr == callee.isStatic

/-- A call that is made by its kind finds the method it binds to exactly if the receiver suits. -/
theorem Scope.finds_iff {scope : Scope} {receiver : Option Expr} {method : String} {call : Call}
    {callee : Signature} (isKind : call.kind = scope.kind receiver method)
    (bound : scope.callee? receiver method = some callee) :
    call.Finds callee ↔ scope.suits receiver callee = true := by
  rw [Call.Finds, isKind, suits]
  cases receiver with
  | none =>
    have declared : scope.table.method? method = some callee := bound
    rw [kind, declared, Option.map_some, Option.getD_some]
    cases callee.isStatic <;> simp
  | some expr =>
    rw [kind, Option.all_some]
    cases scope.namesClass expr <;> cases callee.isStatic <;> simp

/-- The return that is added to a method makes no call. -/
theorem Scope.Compiles.inOrder {scope : Scope} {each : Invocation → Call → Prop}
    (related : ∀ {receiver method args expected result before code after},
      Lowers scope (.call receiver method args expected result) before code after →
        each ⟨receiver, method, args⟩ result)
    {body : List Stmt} {method : MethodCode} (compiles : scope.Compiles body method) :
    InOrder each (Stmt.invocationsBody body) method.body := by
  obtain ⟨before, code, after, lowers, rfl⟩ := compiles
  show InOrder each _ (scope.method.close code)
  rcases scope.method.close_cases code with ⟨-, added⟩ | ⟨same, -⟩
  · rw [added]
    exact (lowers.inOrder related).followed rfl
  · rw [same]
    exact lowers.inOrder related

theorem Scope.Compiles.makes {scope : Scope} {body : List Stmt} {method : MethodCode}
    (compiles : scope.Compiles body method) :
    scope.Makes (Stmt.invocationsBody body) method.body :=
  Scope.makes_iff_inOrder.mpr (compiles.inOrder Lowers.kind_of_call)

namespace ClassTable

/-- The calls in the code of a method, constructors apart, are those of its body in order; and a
call that binds to a method of the class finds it exactly if it has no receiver, or if its receiver
is the name of a class when the method is static and a value when it is not. -/
theorem finds_iff_of_lower {program : Program} {before : Counters} {code : ClassCode}
    (lowered : ((ofProgram program).lower program before).1 = .ok code) :
    List.Forall₂
      (fun decl method => List.Forall₂
        (fun invocation call => call.method = invocation.method ∧
          ∀ callee, Scope.callee? ⟨ofProgram program, .ofDecl decl⟩ invocation.receiver
              invocation.method = some callee →
            (call.Finds callee ↔
              Scope.suits ⟨ofProgram program, .ofDecl decl⟩ invocation.receiver callee = true))
        (Stmt.invocationsBody decl.body) (invoked method.body))
      program.classDecl.methods code.methods := by
  refine (compiles_of_lower_ofProgram lowered).imp fun decl method compiles => ?_
  have inOrder := compiles.makes
  rw [Scope.Makes, ← List.forall₂_eq_eq_eq, List.forall₂_map_left_iff, List.forall₂_map_right_iff]
    at inOrder
  refine inOrder.flip.imp fun invocation call made => ?_
  obtain ⟨isMethod, isKind⟩ := Prod.mk.inj made
  exact ⟨isMethod, fun callee bound => Scope.finds_iff isKind bound⟩

end ClassTable

/-- A class with a static method and a method that calls it without a receiver, on the class and on
`this`. -/
def Program.roundabout : Program where
  imports := []
  classDecl :=
    { name := "A"
      superClass := none
      fields := []
      methods :=
        [method "s" true [],
          method "f" false
            [call none, call (some (.name .nowhere "A")), call (some (.this .nowhere))]]
      pos := .nowhere }
  pos := .nowhere
where
  call (receiver : Option Expr) : Stmt := .eval .nowhere (.call .nowhere receiver "s" [])
  method (name : String) (isStatic : Bool) (body : List Stmt) : MethodDecl :=
    { name := name
      isPublic := true
      isStatic := isStatic
      returnType := .ofTy .nowhere .void
      params := []
      locals := []
      body := body
      pos := .nowhere }

theorem finds_iff_of_lower_roundabout :
    ∃ callee first second third caller,
      ((ClassTable.ofProgram .roundabout).lower .roundabout {}).1 =
        .ok ((ClassTable.ofProgram .roundabout).classCode [callee, caller]) ∧
      invoked caller.body = [first, second, third] ∧
      first.Finds (.ofDecl (Program.roundabout.method "s" true [])) ∧
      second.Finds (.ofDecl (Program.roundabout.method "s" true [])) ∧
      ¬ third.Finds (.ofDecl (Program.roundabout.method "s" true [])) := by
  obtain ⟨callee, caller, lowered⟩ : ∃ callee caller,
      ((ClassTable.ofProgram .roundabout).lower .roundabout {}).1 =
        .ok ((ClassTable.ofProgram .roundabout).classCode [callee, caller]) := ⟨_, _, rfl⟩
  obtain ⟨-, others⟩ := List.forall₂_cons.mp (ClassTable.finds_iff_of_lower lowered)
  obtain ⟨calls, -⟩ := List.forall₂_cons.mp others
  obtain ⟨first, _, ⟨-, firstFinds⟩, afterFirst, isAll⟩ := List.forall₂_cons_left_iff.mp calls
  obtain ⟨second, _, ⟨-, secondFinds⟩, afterSecond, rfl⟩ :=
    List.forall₂_cons_left_iff.mp afterFirst
  obtain ⟨third, _, ⟨-, thirdFinds⟩, afterThird, rfl⟩ :=
    List.forall₂_cons_left_iff.mp afterSecond
  obtain rfl := List.forall₂_nil_left_iff.mp afterThird
  exact ⟨callee, first, second, third, caller, lowered, isAll, (firstFinds _ rfl).mpr rfl,
    (secondFinds _ rfl).mpr rfl, fun finds => absurd ((thirdFinds _ rfl).mp finds) (by decide)⟩

/-- That the standard checks report no error does not guarantee that calls to methods of the class
find them. -/
theorem clean_not_found :
    ¬∀ (program : Program) (entry : Option String) (report : Report) (before : Counters)
      (code : ClassCode),
      Check.runAll (Check.standard entry) program (.ofProgram program) = .ok report →
      report.hasErrors = false →
      ((ClassTable.ofProgram program).lower program before).1 = .ok code →
      List.Forall₂
        (fun decl method => List.Forall₂
          (fun invocation call => ∀ callee,
            Scope.callee? ⟨.ofProgram program, .ofDecl decl⟩ invocation.receiver
              invocation.method = some callee → call.Finds callee)
          (Stmt.invocationsBody decl.body) (invoked method.body))
        program.classDecl.methods code.methods := by
  intro guarantees
  have found := guarantees .roundabout none .empty {} _ rfl rfl rfl
  obtain ⟨-, others⟩ := List.forall₂_cons.mp found
  obtain ⟨calls, -⟩ := List.forall₂_cons.mp others
  obtain ⟨-, afterFirst⟩ := List.forall₂_cons.mp calls
  obtain ⟨-, afterSecond⟩ := List.forall₂_cons.mp afterFirst
  obtain ⟨onThis, -⟩ := List.forall₂_cons.mp afterSecond
  exact absurd (onThis _ rfl) (by decide)

end JavaMinus
