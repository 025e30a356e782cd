/-
This file says in which order operands are computed and when they are read. The
operands of an expression are computed one after the other, each by a part of the
code, and the instruction behind the last part reads them all. The later parts
leave the operands of the earlier ones alone. So a constant, a variable, a
temporary or the receiver is read as it was right behind its own part, whatever
the later parts do, even if calls in them change all fields. A field of the
receiver is not copied: it is read where it is used, and has the value it had
right behind its part only if no call in between changes it.
-/

import JavaMinus.Proofs.Lowering.Calm
import JavaMinus.Proofs.Lowering.Exactness
import JavaMinus.Proofs.Lowering.Invocations
import JavaMinus.Proofs.Lowering.Values

namespace JavaMinus

/-! ### Operands that are computed in order -/

/-- A part of the code, and the operand that holds what it computes. -/
structure Part where
  code : List Instr
  operand : Operand

/-- The place behind parts that stand from a start on. -/
def Part.behind (start : Nat) (parts : List Part) : Nat := start + (parts.flatMap Part.code).length

namespace Lower

/-- Steps that succeed one after the other, with the part of the code that each of them appends. -/
inductive Gathers : List (Lower Operand) → Counters → List Part → Counters → Prop
  | nil {counters} : Gathers [] counters [] counters
  | cons {step steps part parts before middle after}
      (first : step.Gives before part.operand part.code middle)
      (rest : Gathers steps middle parts after) :
      Gathers (step :: steps) before (part :: parts) after

theorem Gathers.append {steps others : List (Lower Operand)} {before middle after : Counters}
    {parts otherParts : List Part} (start : Gathers steps before parts middle)
    (rest : Gathers others middle otherParts after) :
    Gathers (steps ++ others) before (parts ++ otherParts) after := by
  induction start with
  | nil => exact rest
  | cons first _ inductionHypothesis => exact .cons first (inductionHypothesis rest)

/-- The first parts come from the first steps. -/
theorem Gathers.split {steps : List (Lower Operand)} {before after : Counters}
    {first rest : List Part} (gathers : Gathers steps before (first ++ rest) after) :
    ∃ start others middle, steps = start ++ others ∧ Gathers start before first middle ∧
      Gathers others middle rest after := by
  induction first generalizing steps before with
  | nil => exact ⟨[], steps, before, rfl, .nil, gathers⟩
  | cons part parts inductionHypothesis =>
    cases gathers with
    | cons gives gathersRest =>
      obtain ⟨start, others, middle, rfl, startGathers, restGathers⟩ :=
        inductionHypothesis gathersRest
      exact ⟨_ :: start, others, middle, rfl, .cons gives startGathers, restGathers⟩

/-- Steps that succeed side by side have parts. -/
theorem gathers_of_mapM {steps : List (Lower Operand)} {before after : Counters}
    {results : List Operand} {code : List Instr}
    (gives : (steps.mapM id).Gives before results code after) :
    ∃ parts, Gathers steps before parts after ∧ results = parts.map Part.operand ∧
      code = parts.flatMap Part.code := by
  induction steps generalizing before results code with
  | nil =>
    obtain ⟨rfl, rfl, rfl⟩ := gives_pure.mp gives
    exact ⟨[], .nil, rfl, rfl⟩
  | cons step steps inductionHypothesis =>
    simp only [List.mapM_cons, gives_bind, gives_pure] at gives
    obtain ⟨result, firstCode, middle, _, firstGives, rfl, others, _, _, _, restGives, rfl, rfl,
      rfl, rfl⟩ := gives
    obtain ⟨parts, gathers, rfl, rfl⟩ := inductionHypothesis restGives
    refine ⟨⟨firstCode, result⟩ :: parts, .cons firstGives gathers, rfl, ?_⟩
    rw [List.append_nil, List.flatMap_cons]

/-- A step whose code leaves earlier operands alone, and whose result is held where it stays. -/
def Settles (scope : Scope) (step : Lower Operand) : Prop :=
  ∀ ⦃before result code after⦄, step.Gives before result code after →
    scope.Calm before.temps [] code ∧ result.Stable scope after.temps ∧ before.temps ≤ after.temps

theorem settles_lowerValue (scope : Scope) (expr : Expr) (expected : Ty) :
    Settles scope (scope.lowerValue expr expected) := by
  intro before result code after gives
  have lowers := lowers_value_iff.mpr gives
  exact ⟨lowers.calm, lowers.stable, lowers.grows.temps⟩

theorem settles_restOperand (scope : Scope) (param : Binding) (trailing : List Expr) :
    Settles scope (Emission.restOperand scope param (scope.arguments trailing)) := by
  intro before result code after gives
  rcases Scope.lowers_restOperand (fun arg _ => scope.sound arg) gives with
    ⟨arg, -, -, valueGives⟩ | ⟨-, packLowers⟩
  · exact settles_lowerValue scope arg param.ty valueGives
  · exact ⟨packLowers.calm, packLowers.stable, packLowers.grows.temps⟩

/-- Steps that settle leave the operands before them alone. -/
theorem Gathers.calm {scope : Scope} {steps : List (Lower Operand)} {before after : Counters}
    {parts : List Part} (gathers : Gathers steps before parts after)
    (settles : ∀ step ∈ steps, Settles scope step) :
    scope.Calm before.temps [] (parts.flatMap Part.code) := by
  induction gathers with
  | nil => exact .nil
  | cons first _ inductionHypothesis =>
    obtain ⟨settlesFirst, settlesRest⟩ := List.forall_mem_cons.mp settles
    obtain ⟨calm, -, le⟩ := settlesFirst first
    exact calm.append (inductionHypothesis settlesRest) le

end Lower

/-- The parts of some steps stand in code one behind the other, and behind them stands the
instruction that reads their operands. -/
structure GatheredAt (steps : List (Lower Operand)) (code : List Instr) (start : Nat)
    (parts : List Part) : Prop where
  gathers : ∃ before after, Lower.Gathers steps before parts after
  reads : ∃ instr, instr.operands = parts.map Part.operand ∧
    StandsAt code start (parts.flatMap Part.code ++ [instr])

/-- Runs from the start to the finish come by a place, and the operand is read at the finish as it
was there unless it is a field that was touched. -/
structure Operand.HeldFrom (operand : Operand) (touched : Set String) (code : List Instr)
    (start place finish : Nat) : Prop where
  comesBy : ∀ {state final},
    Approaches touched code finish (.before start state) (.before finish final) →
    ∃ middle, Approaches touched code finish (.before start state) (.before place middle) ∧
      Approaches touched code finish (.before place middle) (.before finish final)
  same : ∀ {middle final},
    Approaches touched code finish (.before place middle) (.before finish final) →
    ¬ operand.IsTouched touched → operand.read final.toEnv = operand.read middle.toEnv

/-- Where steps that settle are gathered, each operand is held from behind its own part. -/
theorem GatheredAt.heldFrom {scope : Scope} {steps : List (Lower Operand)} {code : List Instr}
    {start : Nat} {first rest : List Part} {part : Part}
    (gathered : GatheredAt steps code start (first ++ part :: rest))
    (settles : ∀ step ∈ steps, Lower.Settles scope step) (once : (placed code).Nodup)
    (touched : Set String) :
    part.operand.HeldFrom touched code start (Part.behind start (first ++ [part]))
      (Part.behind start (first ++ part :: rest)) := by
  rw [Part.behind, Part.behind]
  obtain ⟨⟨before, after, gathers⟩, instr, -, stands⟩ := gathered
  rw [List.append_cons first part rest] at gathers stands ⊢
  obtain ⟨starting, others, behind, rfl, gathersStart, gathersRest⟩ := gathers.split
  obtain ⟨settlesStart, settlesRest⟩ := List.forall_mem_append.mp settles
  have stable : part.operand.Stable scope behind.temps := by
    obtain ⟨_, _, _, rfl, -, last⟩ := gathersStart.split
    cases last with
    | cons gives none =>
      cases none
      exact (settlesStart _ (by simp) gives).2.1
  rw [@List.flatMap_append _ _ (first ++ [part]) rest] at stands ⊢
  have startStays := (gathersStart.calm settlesStart).stays stands.left.left once touched
  have restStays := (gathersRest.calm settlesRest).stays stands.left.right once touched
  rw [List.length_append, ← Nat.add_assoc]
  constructor
  · intro state final run
    obtain ⟨middle, toPlace, toFinish, -⟩ := run.through startStays .refl .trans
      (Nat.le_add_right _ _) (Nat.le_refl _) (Nat.le_add_right _ _)
    exact ⟨middle, toPlace, toFinish⟩
  · intro middle final run untouched
    have retains := run.kept_of_stays restStays .refl .trans (Nat.le_add_right _ _)
    exact retains.read stable untouched

/-! ### The operands of a body -/

namespace Scope

open Lower

/-- The step that computes the receiver of a call, unless it is `this` or the name of a class. -/
def receiverSteps (scope : Scope) : Option Expr → List (Lower Operand)
  | none => []
  | some receiver =>
    if receiver.isThis || scope.namesClass receiver then []
    else [(receiver, .unknown)].map scope.lowerItem

/-- The steps that compute the operands of a call: the receiver first, then the arguments. -/
def callSteps (scope : Scope) (receiver : Option Expr) (method : String) (args : List Expr) :
    List (Lower Operand) :=
  scope.receiverSteps receiver ++ scope.argumentSteps (scope.callee? receiver method) args

/-- The steps that compute the operands of an expression, from left to right. -/
def exprSteps (scope : Scope) : Expr → List (Lower Operand)
  | .binary _ (.arith _) left right | .binary _ .less left right =>
    [(left, .int), (right, .int)].map scope.lowerItem
  | .index _ array position => [(array, .intArray), (position, .int)].map scope.lowerItem
  | .call _ receiver method args => scope.callSteps receiver method args
  | _ => []

/-- The steps that compute the operands of a statement: those of a call that stands as one, and the
array, the position and the value of an assignment to an element. -/
def stmtSteps (scope : Scope) : Stmt → List (Lower Operand)
  | .eval _ expr =>
    match expr.stripped with
    | .call _ receiver method args => scope.callSteps receiver method args
    | _ => []
  | .assign _ target value =>
    match target.stripped with
    | .index _ array position =>
      [(array, .intArray), (position, .int), (value, .int)].map scope.lowerItem
    | _ => []
  | _ => []

/-- The steps of each expression whose value is computed, and of each statement. -/
def gatherings (scope : Scope) (body : List Stmt) : List (List (Lower Operand)) :=
  (Stmt.computedBody body).map scope.exprSteps ++
    (Observer.everyStmt.onBody body).map scope.stmtSteps

variable {scope : Scope}

theorem settles_items (items : List (Expr × Ty)) :
    ∀ step ∈ items.map scope.lowerItem, Settles scope step :=
  List.forall_mem_map.mpr fun item _ => settles_lowerValue scope item.1 item.2

theorem settles_callSteps (receiver : Option Expr) (method : String) (args : List Expr) :
    ∀ step ∈ scope.callSteps receiver method args, Settles scope step := by
  refine List.forall_mem_append.mpr ⟨?_, ?_⟩
  · cases receiver with
    | none => exact nofun
    | some receiver =>
      rw [receiverSteps]
      split
      · exact nofun
      · exact settles_items _
  · cases scope.callee? receiver method with
    | none => exact settles_items _
    | some signature =>
      refine List.forall_mem_append.mpr ⟨settles_items _, ?_⟩
      cases signature.restParam? with
      | none => exact settles_items _
      | some param => exact List.forall_mem_singleton.mpr (settles_restOperand scope param _)

theorem settles_exprSteps (expr : Expr) : ∀ step ∈ scope.exprSteps expr, Settles scope step := by
  rw [exprSteps.eq_def]
  split
  · exact settles_items _
  · exact settles_items _
  · exact settles_items _
  · exact settles_callSteps _ _ _
  · exact nofun

theorem settles_stmtSteps (stmt : Stmt) : ∀ step ∈ scope.stmtSteps stmt, Settles scope step := by
  rw [stmtSteps.eq_def]
  split
  · split
    · exact settles_callSteps _ _ _
    · exact nofun
  · split
    · exact settles_items _
    · exact nofun
  · exact nofun

/-- All steps that compute operands settle. -/
theorem settles_gatherings {body : List Stmt} {steps : List (Lower Operand)}
    (member : steps ∈ scope.gatherings body) : ∀ step ∈ steps, Settles scope step := by
  rcases List.mem_append.mp member with inExprs | inStmts
  · obtain ⟨expr, -, rfl⟩ := List.mem_map.mp inExprs
    exact settles_exprSteps expr
  · obtain ⟨stmt, -, rfl⟩ := List.mem_map.mp inStmts
    exact settles_stmtSteps stmt

end Scope

/-! ### Where operands are read -/

/-- If there are several steps, they are gathered somewhere in the code. -/
def Lower.Occurs (steps : List (Lower Operand)) (code : List Instr) : Prop :=
  2 ≤ steps.length → ∃ start parts, GatheredAt steps code start parts

namespace Lower

variable {steps : List (Lower Operand)} {code part : List Instr}

theorem occurs_nil : Occurs [] code := nofun

theorem Occurs.within (occurs : Occurs steps part) (inside : part <:+: code) :
    Occurs steps code := by
  intro several
  obtain ⟨start, parts, gathers, instr, reads, stands⟩ := occurs several
  obtain ⟨before, after, rfl⟩ := inside
  have whole : StandsAt (before ++ part ++ after) before.length part := by
    rw [StandsAt, List.append_assoc, List.drop_left]
    exact List.prefix_append part after
  exact ⟨before.length + start, parts, gathers, instr, reads, whole.trans stands⟩

/-- The code of the parts with the instruction behind it. -/
theorem Gathers.occurs {before after : Counters} {parts : List Part} {instr : Instr}
    (gathers : Gathers steps before parts after) (reads : instr.operands = parts.map Part.operand)
    (rest : List Instr) : Occurs steps (parts.flatMap Part.code ++ instr :: rest) := by
  intro _
  refine ⟨0, parts, ⟨before, after, gathers⟩, instr, reads, ?_⟩
  rw [List.append_cons]
  exact (StandsAt.whole _).left

end Lower

/-- Values one after the other with the instruction that reads them. -/
theorem Lowers.occurs_values {scope : Scope} {items : List (Expr × Ty)} {results : List Operand}
    {before after : Counters} {code : List Instr} {instr : Instr}
    (lowers : Lowers scope (.values items results) before code after)
    (reads : instr.operands = results) (rest : List Instr) :
    Lower.Occurs (items.map scope.lowerItem) (code ++ instr :: rest) := by
  obtain ⟨parts, gathers, rfl, rfl⟩ := Lower.gathers_of_mapM lowers.given
  exact gathers.occurs reads rest

theorem Lowers.pair {scope : Scope} {left right : Expr} {leftType rightType : Ty}
    {leftResult rightResult : Operand} {before middle after : Counters}
    {leftCode rightCode : List Instr}
    (leftLowers : Lowers scope (.value left leftType leftResult) before leftCode middle)
    (rightLowers : Lowers scope (.value right rightType rightResult) middle rightCode after) :
    Lowers scope (.values [(left, leftType), (right, rightType)] [leftResult, rightResult]) before
      (leftCode ++ rightCode) after := by
  have all := moreValues leftLowers (moreValues rightLowers noValues)
  rwa [List.append_nil] at all

/-- What a call is made on, if its value is computed. -/
theorem Scope.gathers_receiver {scope : Scope} {receiver : Option Expr} {method : String}
    {kind : CallKind} {target : CallTarget} {before after : Counters} {code : List Instr}
    (lowers : Lowers scope (.target receiver method kind target) before code after) :
    ∃ parts, Lower.Gathers (scope.receiverSteps receiver) before parts after ∧
      target.operands = parts.map Part.operand ∧ code = parts.flatMap Part.code := by
  cases lowers with
  | implicitStatic | implicitThis => exact ⟨[], .nil, rfl, rfl⟩
  | onThis isThis =>
    rw [receiverSteps, isThis]
    exact ⟨[], .nil, rfl, rfl⟩
  | @onClass receiver _ _ _ _ named notVariable known =>
    have isClass : scope.namesClass receiver = true := by
      rw [namesClass, named]
      simp [notVariable, known]
    rw [receiverSteps, isClass, Bool.or_true]
    exact ⟨[], .nil, rfl, rfl⟩
  | @onValue _ _ result _ _ _ notThis notClass receiverLowers =>
    rw [receiverSteps, notThis, scope.namesClass_eq_false notClass]
    refine ⟨[⟨code, result⟩], .cons receiverLowers.given .nil, rfl, ?_⟩
    rw [List.flatMap_singleton]

/-- A call with the instruction that makes it. -/
theorem Lowers.occurs_call {scope : Scope} {receiver : Option Expr} {method : String}
    {args : List Expr} {expected : Ty} {call : Call} {before after : Counters} {code : List Instr}
    {instr : Instr}
    (lowers : Lowers scope (.call receiver method args expected call) before code after)
    (reads : instr.operands = call.operands) :
    Lower.Occurs (scope.callSteps receiver method args) (code ++ [instr]) := by
  have gives := lowers.given
  rw [Phrase.Given, Scope.invocation, Emission.invoke, Scope.operands_eq_mapM] at gives
  simp only [Lower.gives_bind, Lower.gives_pure] at gives
  obtain ⟨⟨kind, target⟩, targetCode, middle, _, targetGives, rfl, results, argsCode, _, _,
    argsGives, rfl, rfl, rfl, rfl⟩ := gives
  have targetLowers :
      Lowers scope (.target receiver method kind target) before targetCode middle := by
    cases receiver with
    | none => exact Scope.lowers_implicitTarget targetGives
    | some expr => exact Scope.lowers_explicitTarget (scope.sound expr) targetGives
  obtain ⟨targetParts, targetGathers, targetOperands, rfl⟩ := Scope.gathers_receiver targetLowers
  obtain ⟨parts, gathers, rfl, rfl⟩ := Lower.gathers_of_mapM argsGives
  have readsAll : instr.operands = (targetParts ++ parts).map Part.operand := by
    rw [reads, Call.operands, targetOperands, List.map_append]
  rw [List.append_nil, ← List.flatMap_append]
  exact (targetGathers.append gathers).occurs readsAll []

/-- The steps of each of these nodes are gathered somewhere in the code, if there are several. -/
def Lower.Shows {α : Type} (steps : α → List (Lower Operand)) (code : List Instr) (nodes : List α) :
    Prop :=
  ∀ node ∈ nodes, Lower.Occurs (steps node) code

namespace Lower.Shows

variable {α : Type} {steps : α → List (Lower Operand)} {code first second : List Instr}
  {nodes others : List α}

theorem nil : Shows steps code [] := nofun

theorem cons {node : α} (occurs : Occurs (steps node) code) (rest : Shows steps code nodes) :
    Shows steps code (node :: nodes) :=
  List.forall_mem_cons.mpr ⟨occurs, rest⟩

theorem within (shows : Shows steps first nodes) (inside : first <:+: code) :
    Shows steps code nodes :=
  fun node member => (shows node member).within inside

theorem followed (start : Shows steps first nodes) : Shows steps (first ++ second) nodes :=
  start.within (List.prefix_append first second).isInfix

theorem behind {instr : Instr} (rest : Shows steps code nodes) :
    Shows steps (instr :: code) nodes :=
  rest.within (List.suffix_cons instr code).isInfix

theorem append (start : Shows steps first nodes) (rest : Shows steps second others) :
    Shows steps (first ++ second) (nodes ++ others) := by
  refine List.forall_mem_append.mpr ⟨start.followed, ?_⟩
  exact rest.within (List.suffix_append first second).isInfix

theorem joined (target : Label) (start : Shows steps code nodes) :
    Shows steps (Lower.joined target code) nodes := by
  rw [Lower.joined]
  split
  · exact start
  · exact start.followed

end Lower.Shows

/-- The expressions whose values are computed for a phrase. -/
def Phrase.computed : Phrase → List Expr
  | .value expr _ _ | .jump expr _ _ => expr.computed
  | .values items _ => Expr.computedAll (items.map Prod.fst)
  | .fill _ _ _ items | .pack _ items _ => Expr.computedAll items
  | .target receiver _ _ _ => Expr.computedReceiver receiver
  | .call receiver _ args _ _ => Expr.computedReceiver receiver ++ Expr.computedAll args
  | .stmt single => single.computed
  | .body stmts => Stmt.computedBody stmts

theorem Lowers.shows {scope : Scope} {phrase : Phrase} {before after : Counters}
    {code : List Instr} (lowers : Lowers scope phrase before code after) :
    Lower.Shows scope.exprSteps code phrase.computed := by
  induction lowers with
  | int | bool | field | var | this | newObject | decided => exact .cons Lower.occurs_nil .nil
  | noValues | filled | implicitStatic | implicitThis | noStmts | returnNothing => exact .nil
  | arith leftLowers rightLowers left right | index leftLowers rightLowers left right
  | less leftLowers rightLowers left right =>
    exact .cons ((leftLowers.pair rightLowers).occurs_values rfl _) (left.append right).followed
  | newArray _ inner | length _ inner => exact .cons Lower.occurs_nil inner.followed
  | callValue callLowers _ inner =>
    refine .cons (callLowers.occurs_call rfl) ?_
    rw [Expr.parts_call]
    exact inner.followed
  | arrayLiteral _ inner | paren _ inner | not _ inner | parenJump _ inner =>
    exact .cons Lower.occurs_nil inner
  | materialize _ _ jump => exact jump.followed
  | and _ _ left right | or _ _ left right =>
    exact .cons Lower.occurs_nil (left.append right.behind)
  | nonZero _ _ value => exact value.followed
  | moreValues _ _ first rest | moreStmts _ _ first rest => exact first.append rest
  | fillMore _ _ first rest => exact first.append rest.behind
  | pack _ fill => exact fill.behind
  | onThis isThis =>
    obtain ⟨pos, same⟩ := Expr.stripped_of_isThis isThis
    rw [Phrase.computed, Expr.computedReceiver, Expr.isBare, same]
    exact .nil
  | onClass named =>
    rw [Phrase.computed, Expr.computedReceiver, Expr.isBare, named]
    exact .nil
  | onValue _ _ _ inner =>
    rw [Phrase.computed, Expr.computedReceiver]
    split
    · exact .nil
    · exact inner
  | unbound _ _ _ target args =>
    rw [Phrase.computed, Scope.map_fst_bareItems] at args
    exact target.append args
  | bound _ _ _ _ target args =>
    rw [Phrase.computed, Scope.map_fst_boundItems] at args
    exact target.append args
  | passed _ _ single _ _ _ target args =>
    rw [Phrase.computed, Scope.map_fst_passedItems single] at args
    exact target.append args
  | packed _ _ _ _ _ _ target args packed =>
    rw [Phrase.computed, Scope.map_fst_fixedItems] at args
    have all := Lower.Shows.append args packed
    rw [Phrase.computed, Expr.computedAll_eq_flatMap, Expr.computedAll_eq_flatMap,
      ← List.flatMap_append, List.take_append_drop, ← Expr.computedAll_eq_flatMap] at all
    exact target.append all
  | block _ body => exact body
  | ifThen _ _ jump thenBranch => exact jump.append (thenBranch.joined _).followed.behind
  | ifElse _ _ _ jump thenBranch elseBranch =>
    rw [Phrase.computed, Stmt.computed, List.append_assoc]
    exact jump.append ((thenBranch.joined _).append elseBranch.followed.behind).behind
  | whileLoop _ _ jump body => exact (jump.append body.followed.behind).behind
  | evalCall isCall _ inner =>
    rw [Phrase.computed, Stmt.computed, Expr.evaluated_of_call isCall]
    exact inner.followed
  | eval notCall _ value =>
    rw [Phrase.computed, Stmt.computed, Expr.evaluated_of_not_call notCall]
    exact value
  | assignField named _ _ value | assignVariable named _ _ _ value =>
    rw [Phrase.computed, Stmt.computed, Expr.located, named]
    exact value.followed
  | assignElement indexed _ _ _ array position value =>
    rw [Phrase.computed, Stmt.computed, Expr.located, indexed]
    simp only [Expr.parts, List.append_assoc]
    exact array.append (position.append value.followed)
  | returnValue _ value => exact value.followed

/-! ### Statements -/

namespace Observer

/-- There are no statements in an expression. -/
theorem everyStmt_onExpr (expr : Expr) : everyStmt.onExpr expr = [] := by
  induction expr with
  | literal | name | this | newObject => rfl
  | binary pos op left right onLeft onRight | index pos left right onLeft onRight =>
    rw [onExpr, onLeft, onRight]
    rfl
  | not pos inner onInner | newArray pos inner onInner | length pos inner onInner
  | paren pos inner onInner =>
    rw [onExpr, onInner]
    rfl
  | call pos receiver method args onReceiver onArgs =>
    have none : everyStmt.onExprs args = [] := by
      rw [onExprs_eq_flatMap]
      exact List.flatMap_eq_nil_iff.mpr onArgs
    cases receiver with
    | none =>
      rw [onExpr, none]
      rfl
    | some receiver =>
      rw [onExpr, onReceiver receiver rfl, none]
      rfl
  | arrayLiteral pos elements onElements =>
    rw [onExpr, onExprs_eq_flatMap, List.flatMap_eq_nil_iff.mpr onElements]
    rfl

theorem everyStmt_onCondition (condition : Expr) : everyStmt.onCondition condition = [] :=
  everyStmt_onExpr condition

end Observer

theorem operands_standing (call : Call) : (Scope.standing call).operands = call.operands := by
  rw [Scope.standing]
  split <;> rfl

/-- The statements of a phrase. -/
def Phrase.stmts : Phrase → List Stmt
  | .stmt single => Observer.everyStmt.onStmt single
  | .body stmts => Observer.everyStmt.onBody stmts
  | _ => []

open Observer in
theorem Lowers.showsStmts {scope : Scope} {phrase : Phrase} {before after : Counters}
    {code : List Instr} (lowers : Lowers scope phrase before code after) :
    Lower.Shows scope.stmtSteps code phrase.stmts := by
  induction lowers with
  | block _ body => exact .cons Lower.occurs_nil body
  | ifThen _ _ jump thenBranch =>
    rw [Phrase.stmts, onStmt, everyStmt_onCondition]
    exact .cons Lower.occurs_nil (jump.append (thenBranch.joined _).followed.behind)
  | ifElse _ _ _ jump thenBranch elseBranch =>
    rw [Phrase.stmts, onStmt, everyStmt_onCondition]
    exact .cons Lower.occurs_nil
      (jump.append ((thenBranch.joined _).append elseBranch.followed.behind).behind)
  | whileLoop _ _ jump body =>
    rw [Phrase.stmts, onStmt, everyStmt_onCondition]
    exact .cons Lower.occurs_nil (jump.append body.followed.behind).behind
  | evalCall isCall callLowers =>
    rw [Phrase.stmts, onStmt, everyStmt_onExpr]
    refine .cons ?_ .nil
    rw [Scope.stmtSteps, isCall]
    exact callLowers.occurs_call (operands_standing _)
  | eval notCall =>
    rw [Phrase.stmts, onStmt, everyStmt_onExpr]
    refine .cons ?_ .nil
    rw [Scope.stmtSteps]
    split
    · exact absurd ‹_› (notCall _ _ _ _)
    · exact Lower.occurs_nil
  | assignField named | assignVariable named =>
    rw [Phrase.stmts, onStmt, everyStmt_onExpr, everyStmt_onExpr]
    refine .cons ?_ .nil
    rw [Scope.stmtSteps, named]
    exact Lower.occurs_nil
  | assignElement indexed arrayLowers positionLowers valueLowers =>
    rw [Phrase.stmts, onStmt, everyStmt_onExpr, everyStmt_onExpr]
    refine .cons ?_ .nil
    rw [Scope.stmtSteps, indexed]
    have values := moreValues arrayLowers (positionLowers.pair valueLowers)
    simpa using values.occurs_values rfl []
  | returnNothing => exact .cons Lower.occurs_nil .nil
  | returnValue =>
    rw [Phrase.stmts, onStmt, everyStmt_onExpr]
    exact .cons Lower.occurs_nil .nil
  | moreStmts _ _ first rest => exact first.append rest
  | _ => exact .nil

/-! ### Methods -/

theorem Signature.placed_close (method : Signature) (code : List Instr) :
    placed (method.close code) = placed code := by
  rcases method.close_cases code with ⟨-, added⟩ | ⟨same, -⟩
  · rw [added, placed_append, placed_cons (by simp), placed_nil, List.append_nil]
  · rw [same]

theorem Signature.infix_close (method : Signature) (code : List Instr) :
    code <:+: method.close code := by
  obtain ⟨rest, closed⟩ : ∃ rest, method.close code = code ++ rest := by
    rcases method.close_cases code with ⟨-, added⟩ | ⟨same, -⟩
    · exact ⟨_, added⟩
    · exact ⟨[], same.trans (List.append_nil code).symm⟩
  rw [closed]
  exact (List.prefix_append code rest).isInfix

/-- The steps of a method are gathered somewhere in its code, and wherever they are, each operand is
held from behind its own part. -/
theorem Scope.Compiles.heldFrom {scope : Scope} {body : List Stmt} {method : MethodCode}
    (compiles : scope.Compiles body method) {steps : List (Lower Operand)}
    (member : steps ∈ scope.gatherings body) :
    Lower.Occurs steps method.body ∧ ∀ {start first part rest},
      GatheredAt steps method.body start (first ++ part :: rest) → ∀ touched,
        part.operand.HeldFrom touched method.body start (Part.behind start (first ++ [part]))
          (Part.behind start (first ++ part :: rest)) := by
  obtain ⟨before, code, after, lowers, rfl⟩ := compiles
  have inside : code <:+: scope.method.close code := scope.method.infix_close code
  have once : (placed (scope.method.close code)).Nodup := by
    rw [Signature.placed_close]
    exact lowers.freshLabels.nodup
  constructor
  · rcases List.mem_append.mp member with inExprs | inStmts
    · obtain ⟨expr, isComputed, rfl⟩ := List.mem_map.mp inExprs
      exact (lowers.shows expr isComputed).within inside
    · obtain ⟨stmt, inBody, rfl⟩ := List.mem_map.mp inStmts
      exact (lowers.showsStmts stmt inBody).within inside
  · exact fun gathered touched => gathered.heldFrom (settles_gatherings member) once touched

namespace ClassTable

/-- Wherever a method computes several operands, they are computed one after the other, and the
instruction behind them reads each as it was right behind its own part, whatever the later parts do
and even if calls change fields. Only an operand that is itself a field which calls change may be
read with another value. -/
theorem heldFrom_of_lower {program : Program} {before : Counters} {code : ClassCode}
    (lowered : ((ofProgram program).lower program before).1 = .ok code) :
    List.Forall₂
      (fun decl method =>
        ∀ steps ∈ Scope.gatherings ⟨ofProgram program, .ofDecl decl⟩ decl.body, 2 ≤ steps.length →
          (∃ start parts, GatheredAt steps method.body start parts) ∧
          ∀ start first part rest, GatheredAt steps method.body start (first ++ part :: rest) →
            ∀ touched, part.operand.HeldFrom touched method.body start
              (Part.behind start (first ++ [part])) (Part.behind start (first ++ part :: rest)))
      program.classDecl.methods code.methods := by
  refine (compiles_of_lower_ofProgram lowered).imp ?_
  intro decl method compiles steps member several
  obtain ⟨occurs, held⟩ := compiles.heldFrom member
  exact ⟨occurs several, fun _ _ _ _ gathered => held gathered⟩

end ClassTable

/-- A class with a method that counts up its field, and two that add to its result: one adds the
field and one a parameter. -/
def Program.counter : Program where
  imports := []
  classDecl :=
    { name := "Counter"
      superClass := none
      fields := [⟨.ofTy .nowhere .int, "count", .nowhere⟩]
      methods :=
        [method "bump" []
            [.assign .nowhere field (.binary .nowhere (.arith .add) field
              (.literal .nowhere (.int 1))), .ret .nowhere (some field)],
          method "fromField" [] [.ret .nowhere (some (addBump field))],
          method "fromParam" [⟨.ofTy .nowhere .int, "n", false, .nowhere⟩]
            [.ret .nowhere (some (addBump (.name .nowhere "n")))]]
      pos := .nowhere }
  pos := .nowhere
where
  field : Expr := .name .nowhere "count"
  addBump (left : Expr) : Expr :=
    .binary .nowhere (.arith .add) left (.call .nowhere (some (.this .nowhere)) "bump" [])
  method (name : String) (params : List Param) (body : List Stmt) : MethodDecl :=
    { name := name
      isPublic := true
      isStatic := false
      returnType := .ofTy .nowhere .int
      params := params
      locals := []
      body := body
      pos := .nowhere }

/-- The call in `Program.counter`, with the temporary that holds its result. -/
def Program.counter.bumped (temp : String) : Part :=
  ⟨[.assign temp (.call ⟨.virtual, .this, "bump", [], .int⟩) .int], .var temp .int⟩

open Program.counter in
theorem heldFrom_of_lower_counter :
    ∃ bump fromField fromParam, ((ClassTable.ofProgram .counter).lower .counter {}).1 =
        .ok ((ClassTable.ofProgram .counter).classCode [bump, fromField, fromParam]) ∧
      (∀ touched state final, "count" ∉ touched →
        Approaches touched fromField.body 1 (.before 0 state) (.before 1 final) →
          final.fields "count" = state.fields "count") ∧
      ∀ touched state final,
        Approaches touched fromParam.body 1 (.before 0 state) (.before 1 final) →
          final.vars "n" = state.vars "n" := by
  refine ⟨_, _, _, rfl, ?_⟩
  obtain ⟨-, others⟩ := List.forall₂_cons.mp
    (@ClassTable.heldFrom_of_lower .counter {} _ rfl)
  obtain ⟨ofField, others⟩ := List.forall₂_cons.mp others
  obtain ⟨ofParam, -⟩ := List.forall₂_cons.mp others
  constructor
  · intro touched state final untouched run
    have held := (ofField _ List.mem_cons_self (by decide)).2 0 [] ⟨[], .field "count" .int⟩
      [bumped "t1"] ⟨⟨⟨1, 0⟩, ⟨2, 0⟩, .cons rfl (.cons rfl .nil)⟩, _, rfl, ⟨_, rfl⟩⟩ touched
    exact held.same run untouched
  · intro touched state final run
    have held := (ofParam _ List.mem_cons_self (by decide)).2 0 [] ⟨[], .var "n" .int⟩
      [bumped "t3"] ⟨⟨⟨3, 0⟩, ⟨4, 0⟩, .cons rfl (.cons rfl .nil)⟩, _, rfl, ⟨_, rfl⟩⟩ touched
    exact held.same run id

/-- An operand that is a field need not be read as it was behind its own part, if calls may change
any field. -/
theorem field_not_held :
    ¬∀ (program : Program) (before : Counters) (code : ClassCode),
      ((ClassTable.ofProgram program).lower program before).1 = .ok code →
      List.Forall₂
        (fun decl method =>
          ∀ steps ∈ Scope.gatherings ⟨.ofProgram program, .ofDecl decl⟩ decl.body,
            2 ≤ steps.length →
            ∀ start first part rest, GatheredAt steps method.body start (first ++ part :: rest) →
              ∀ middle final, Approaches Set.univ method.body
                  (Part.behind start (first ++ part :: rest))
                  (.before (Part.behind start (first ++ [part])) middle)
                  (.before (Part.behind start (first ++ part :: rest)) final) →
                part.operand.read final.toEnv = part.operand.read middle.toEnv)
        program.classDecl.methods code.methods := by
  intro guarantees
  obtain ⟨-, others⟩ := List.forall₂_cons.mp (guarantees .counter {} _ rfl)
  obtain ⟨ofField, -⟩ := List.forall₂_cons.mp others
  -- The call counts the field up from zero.
  let state (count : Int32) : State :=
    { self := 0, fields := fun _ => .word count, vars := fun _ => .null, heap := {} }
  have same := ofField _ List.mem_cons_self (by decide) 0 [] ⟨[], .field "count" .int⟩
    [Program.counter.bumped "t1"]
    ⟨⟨⟨1, 0⟩, ⟨2, 0⟩, .cons rfl (.cons rfl .nil)⟩, _, rfl, ⟨_, rfl⟩⟩ (state 0)
    ((state 1).setVar "t1" (.word 1))
    (.single ⟨Nat.zero_ne_one, .callValue (.word 1) rfl
      ⟨rfl, rfl, fun _ absent => absurd trivial absent⟩⟩)
  exact absurd same (by decide)

end JavaMinus
