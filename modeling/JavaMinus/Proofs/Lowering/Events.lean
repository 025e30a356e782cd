/-
This file shows that lowering neither loses, nor repeats, nor moves anything that a
body computes. The events of a body are its calls, the objects it creates and its
arithmetic, in the order in which they happen: what an expression is made of comes
before the expression, from left to right. The events of code are read off its
instructions one after the other. For every body that is lowered, the two lists are
the same.

An object is created by an allocation and by the constructor call right behind it.
The allocation goes to a temporary of its own, so no other constructor call is made
on that object.
-/

import JavaMinus.Proofs.Lowering.Invocations
import JavaMinus.Proofs.Lowering.Temporaries

namespace JavaMinus

/-- A call of a method, the creation of an object of a class, or an arithmetic operation. -/
inductive Event
  | call (method : String)
  | create (className : String)
  | compute (op : ArithOp)
deriving DecidableEq, Repr

/-! ### Events of the source -/

namespace Expr

/-- What happens when the operands of an operator have been evaluated. -/
def eventsOf : BinaryOp → List Event
  | .arith op => [.compute op]
  | .less | .and | .or => []

mutual

/-- The events in an expression: those of its parts from left to right, then its own. -/
def events (expr : Expr) : List Event :=
  match expr with
  | .literal _ _ | .name _ _ | .this _ => []
  | .binary _ op left right => left.events ++ right.events ++ eventsOf op
  | .not _ inner | .newArray _ inner | .length _ inner | .paren _ inner => inner.events
  | .call _ none method args => eventsAll args ++ [.call method]
  | .call _ (some receiver) method args => receiver.events ++ eventsAll args ++ [.call method]
  | .newObject _ className => [.create className]
  | .index _ array position => array.events ++ position.events
  | .arrayLiteral _ elements => eventsAll elements
termination_by structural expr

/-- The events in expressions that stand side by side. -/
def eventsAll (exprs : List Expr) : List Event :=
  match exprs with
  | [] => []
  | expr :: rest => expr.events ++ eventsAll rest
termination_by structural exprs

end

theorem eventsAll_eq_flatMap (exprs : List Expr) : eventsAll exprs = exprs.flatMap events := by
  induction exprs with
  | nil => rfl
  | cons expr rest inductionHypothesis => rw [eventsAll, inductionHypothesis, List.flatMap_cons]

theorem events_call (pos : Pos) (receiver : Option Expr) (method : String) (args : List Expr) :
    (call pos receiver method args).events =
      receiver.toList.flatMap events ++ args.flatMap events ++ [.call method] := by
  cases receiver <;> simp [events, eventsAll_eq_flatMap]

theorem events_stripped (expr : Expr) : expr.stripped.events = expr.events := by
  induction expr with
  | paren pos inner inductionHypothesis => rw [stripped_paren, inductionHypothesis, events]
  | _ => rfl

end Expr

namespace Stmt

mutual

/-- The events in a statement, a condition before what it decides and the branches in their
order. -/
def events (stmt : Stmt) : List Event :=
  match stmt with
  | .block _ body => eventsBody body
  | .ifElse _ condition thenBranch none => condition.events ++ thenBranch.events
  | .ifElse _ condition thenBranch (some elseBranch) =>
    condition.events ++ thenBranch.events ++ elseBranch.events
  | .whileLoop _ condition body => condition.events ++ body.events
  | .eval _ expr => expr.events
  | .assign _ target value => target.events ++ value.events
  | .ret _ none => []
  | .ret _ (some value) => value.events
termination_by structural stmt

/-- The events in a body. -/
def eventsBody (body : List Stmt) : List Event :=
  match body with
  | [] => []
  | stmt :: rest => stmt.events ++ eventsBody rest
termination_by structural body

end

end Stmt

/-! ### Events of the code -/

namespace Instr

/-- What happens at an instruction: a call unless it is one of a constructor, an allocation, or an
arithmetic operation, alone or with its result assigned or discarded. -/
def events : Instr → List Event
  | .call invocation => if invocation.kind = .constructor then [] else [.call invocation.method]
  | .newObject className => [.create className]
  | .arith op _ _ _ => [.compute op]
  | .assign _ rhs _ => rhs.events
  | .discard inner => inner.events
  | _ => []

/-- Whether nothing happens at an instruction, and no constructor is called. -/
def isQuiet : Instr → Bool
  | .call _ | .newObject _ | .arith _ _ _ _ => false
  | .assign _ rhs _ => rhs.isQuiet
  | .discard inner => inner.isQuiet
  | _ => true

/-- Whether an instruction calls a constructor on a variable. -/
def constructs (name : String) (instr : Instr) : Prop :=
  ∃ call ∈ instr.calls, call.kind = .constructor ∧ ∃ ty, call.target = .receiver (.var name ty)

theorem events_of_isQuiet {instr : Instr} (quiet : instr.isQuiet = true) : instr.events = [] := by
  induction instr with
  | assign dest rhs ty inductionHypothesis => exact inductionHypothesis quiet
  | discard inner inductionHypothesis => exact inductionHypothesis quiet
  | call | newObject | arith => cases quiet
  | _ => rfl

theorem calls_of_isQuiet {instr : Instr} (quiet : instr.isQuiet = true) : instr.calls = [] := by
  induction instr with
  | assign dest rhs ty inductionHypothesis => exact inductionHypothesis quiet
  | discard inner inductionHypothesis => exact inductionHypothesis quiet
  | call => cases quiet
  | _ => rfl

theorem events_of_calls {instr : Instr} {call : Call} (makes : instr.calls = [call])
    (regular : call.kind ≠ .constructor) : instr.events = [.call call.method] := by
  induction instr with
  | assign dest rhs ty inductionHypothesis => exact inductionHypothesis makes
  | discard inner inductionHypothesis => exact inductionHypothesis makes
  | call invocation =>
    obtain rfl := List.singleton_inj.mp makes
    rw [events, if_neg regular]
  | _ => cases makes

end Instr

/-- The code has these events in order. Each allocation goes to a temporary that hides no variable
and has its constructor call right behind it, and there is no other constructor call. -/
inductive Traces (scope : Scope) : List Event → List Instr → Prop
  | nil : Traces scope [] []
  | quiet {instr events code} (isQuiet : instr.isQuiet = true) (rest : Traces scope events code) :
      Traces scope events (instr :: code)
  | compute {dest op left right ty events code} (rest : Traces scope events code) :
      Traces scope (.compute op :: events) (.assign dest (.arith op left right ty) ty :: code)
  | call {instr call events code} (makes : instr.calls = [call])
      (regular : call.kind ≠ .constructor) (rest : Traces scope events code) :
      Traces scope (.call call.method :: events) (instr :: code)
  | create {number className events code} (free : scope.lookup? (tempName number) = none)
      (rest : Traces scope events code) :
      Traces scope (.create className :: events)
        (.assign (tempName number) (.newObject className) (.named className) ::
          .call (Scope.constructorCall (.var (tempName number) (.named className))) :: code)

/-- What an instruction is where it stands: one that neither allocates nor constructs, an allocation
whose constructor call is next, or a constructor call whose allocation stands right before it. -/
inductive Situated (scope : Scope) (code : List Instr) : Nat → Instr → Prop
  | plain {position instr} (creates : ∀ className, .create className ∉ instr.events)
      (constructs : ∀ name, ¬ instr.constructs name) : Situated scope code position instr
  | allocation {position number className} (free : scope.lookup? (tempName number) = none)
      (follows : code[position + 1]? =
        some (.call (Scope.constructorCall (.var (tempName number) (.named className))))) :
      Situated scope code position
        (.assign (tempName number) (.newObject className) (.named className))
  | construction {position number className}
      (precedes : code[position]? =
        some (.assign (tempName number) (.newObject className) (.named className))) :
      Situated scope code (position + 1)
        (.call (Scope.constructorCall (.var (tempName number) (.named className))))

namespace Situated

variable {scope : Scope} {code : List Instr} {position : Nat} {instr : Instr}

theorem ofQuiet (quiet : instr.isQuiet = true) : Situated scope code position instr := by
  refine .plain (fun className creates => ?_) fun name ⟨call, member, _⟩ => ?_
  · rw [Instr.events_of_isQuiet quiet] at creates
    cases creates
  · rw [Instr.calls_of_isQuiet quiet] at member
    cases member

theorem ofCall {call : Call} (makes : instr.calls = [call]) (regular : call.kind ≠ .constructor) :
    Situated scope code position instr := by
  refine .plain (fun className creates => ?_) fun name ⟨other, member, isConstructor, _⟩ => ?_
  · rw [Instr.events_of_calls makes regular] at creates
    cases List.mem_singleton.mp creates
  · rw [makes, List.mem_singleton] at member
    exact regular (member ▸ isConstructor)

/-- Another instruction in front moves everything by one place. -/
theorem cons {first : Instr} (situated : Situated scope code position instr) :
    Situated scope (first :: code) (position + 1) instr := by
  cases situated with
  | plain creates constructs => exact .plain creates constructs
  | allocation free follows => exact .allocation free follows
  | construction precedes => exact .construction precedes

/-- Where an object is created, it goes to a temporary and its constructor call is next. -/
theorem constructed (situated : Situated scope code position instr) {className : String}
    (creates : .create className ∈ instr.events) :
    ∃ number, scope.lookup? (tempName number) = none ∧
      instr = .assign (tempName number) (.newObject className) (.named className) ∧
      code[position + 1]? =
        some (.call (Scope.constructorCall (.var (tempName number) (.named className)))) := by
  cases situated with
  | plain never => exact absurd creates (never className)
  | @allocation _ number _ free follows =>
    obtain rfl := Event.create.inj (List.mem_singleton.mp creates)
    exact ⟨number, free, rfl, follows⟩
  | construction => cases creates

/-- A constructor call stands right behind the allocation of what it is made on. -/
theorem allocated (situated : Situated scope code position instr) {name : String}
    (constructs : instr.constructs name) :
    ∃ before className, position = before + 1 ∧
      code[before]? = some (.assign name (.newObject className) (.named className)) := by
  cases situated with
  | plain _ never => exact absurd constructs (never name)
  | allocation =>
    obtain ⟨call, member, -⟩ := constructs
    cases member
  | @construction before number className precedes =>
    obtain ⟨call, member, -, ty, target⟩ := constructs
    obtain rfl := List.mem_singleton.mp member
    obtain ⟨rfl, -⟩ := Operand.var.inj (CallTarget.receiver.inj target)
    exact ⟨before, className, rfl, precedes⟩

end Situated

namespace Traces

variable {scope : Scope} {events others : List Event} {code rest : List Instr}

theorem append (first : Traces scope events code) (second : Traces scope others rest) :
    Traces scope (events ++ others) (code ++ rest) := by
  induction first with
  | nil => exact second
  | quiet isQuiet _ inductionHypothesis => exact .quiet isQuiet inductionHypothesis
  | compute _ inductionHypothesis => exact .compute inductionHypothesis
  | call makes regular _ inductionHypothesis => exact .call makes regular inductionHypothesis
  | create free _ inductionHypothesis => exact .create free inductionHypothesis

/-- Instructions at which nothing happens. -/
theorem ofQuiet (quiet : rest.all Instr.isQuiet = true) : Traces scope [] rest := by
  induction rest with
  | nil => exact .nil
  | cons instr rest inductionHypothesis =>
    rw [List.all_cons, Bool.and_eq_true] at quiet
    exact .quiet quiet.1 (inductionHypothesis quiet.2)

theorem followed (first : Traces scope events code) (quiet : rest.all Instr.isQuiet = true) :
    Traces scope events (code ++ rest) := by
  have all := first.append (ofQuiet quiet)
  rwa [List.append_nil] at all

theorem joined (target : Label) (first : Traces scope events code) :
    Traces scope events (Lower.joined target code) := by
  rw [Lower.joined]
  split
  · exact first
  · exact first.followed rfl

/-- The events are what happens at the instructions, in order. -/
theorem events_eq (traces : Traces scope events code) : code.flatMap Instr.events = events := by
  induction traces with
  | nil => rfl
  | quiet isQuiet _ inductionHypothesis =>
    rw [List.flatMap_cons, Instr.events_of_isQuiet isQuiet, inductionHypothesis, List.nil_append]
  | compute _ inductionHypothesis =>
    rw [List.flatMap_cons, inductionHypothesis]
    rfl
  | call makes regular _ inductionHypothesis =>
    rw [List.flatMap_cons, Instr.events_of_calls makes regular, inductionHypothesis,
      List.singleton_append]
  | create free _ inductionHypothesis =>
    rw [List.flatMap_cons, List.flatMap_cons, inductionHypothesis]
    rfl

/-- Wherever such code has an allocation or a constructor call, it has the other one beside it. -/
theorem situated (traces : Traces scope events code) {position : Nat} {instr : Instr}
    (stands : code[position]? = some instr) : Situated scope code position instr := by
  induction traces generalizing position with
  | nil => cases stands
  | quiet isQuiet _ inductionHypothesis =>
    cases position with
    | zero =>
      obtain rfl := Option.some.inj stands
      exact .ofQuiet isQuiet
    | succ position => exact (inductionHypothesis stands).cons
  | compute _ inductionHypothesis =>
    cases position with
    | zero =>
      obtain rfl := Option.some.inj stands
      exact .plain (fun _ creates => nomatch List.mem_singleton.mp creates)
        fun _ ⟨_, member, _⟩ => nomatch member
    | succ position => exact (inductionHypothesis stands).cons
  | call makes regular _ inductionHypothesis =>
    cases position with
    | zero =>
      obtain rfl := Option.some.inj stands
      exact .ofCall makes regular
    | succ position => exact (inductionHypothesis stands).cons
  | create free _ inductionHypothesis =>
    match position with
    | 0 =>
      obtain rfl := Option.some.inj stands
      exact .allocation free rfl
    | 1 =>
      obtain rfl := Option.some.inj stands
      exact .construction rfl
    | position + 2 => exact (inductionHypothesis stands).cons.cons

end Traces

/-! ### All lowered code -/

/-- The events in what a phrase is made of, a call itself apart. -/
def Phrase.events : Phrase → List Event
  | .value expr _ _ | .jump expr _ _ => expr.events
  | .values items _ => (items.map Prod.fst).flatMap Expr.events
  | .fill _ _ _ items | .pack _ items _ => items.flatMap Expr.events
  | .target receiver _ _ _ => receiver.toList.flatMap Expr.events
  | .call receiver _ args _ _ => receiver.toList.flatMap Expr.events ++ args.flatMap Expr.events
  | .stmt single => single.events
  | .body stmts => Stmt.eventsBody stmts

/-- The instruction of a call comes behind the events in what the call is made of. -/
theorem Traces.made {scope : Scope} {events : List Event} {code callCode : List Instr}
    (first : Traces scope events code) {receiver : Option Expr} {method : String}
    {args : List Expr} {expected : Ty} {call : Call} {before after : Counters}
    (lowers : Lowers scope (.call receiver method args expected call) before callCode after)
    {instr : Instr} (makes : instr.calls = [call]) :
    Traces scope (events ++ [.call method]) (code ++ [instr]) := by
  obtain ⟨rfl, -⟩ := Prod.mk.inj lowers.kind_of_call
  exact first.append (.call makes lowers.admitted.1 .nil)

theorem Lowers.traces {scope : Scope} {phrase : Phrase} {before after : Counters}
    {code : List Instr} (lowers : Lowers scope phrase before code after) :
    Traces scope phrase.events code := by
  induction lowers with
  | int | bool | field | var | this | noValues | filled | noStmts | implicitStatic
  | implicitThis => exact .nil
  | arith _ _ left right => exact (left.append right).append (.compute .nil)
  | index _ _ left right => exact (left.append right).followed rfl
  | newObject => exact .create (scope.lookup?_freeTemp _) .nil
  | newArray _ inner | length _ inner => exact inner.followed rfl
  | callValue callLowers _ made =>
    rw [Phrase.events, Expr.events_call]
    exact made.made callLowers rfl
  | arrayLiteral _ packed =>
    rw [Phrase.events, Expr.events, Expr.eventsAll_eq_flatMap]
    exact packed
  | paren _ inner | not _ inner | parenJump _ inner => exact inner
  | materialize _ _ jump => exact jump.followed rfl
  | decided => exact .quiet rfl .nil
  | less _ _ left right =>
    rw [Phrase.events, Expr.events, Expr.eventsOf, List.append_nil]
    exact (left.append right).followed rfl
  | and _ _ left right | or _ _ left right =>
    rw [Phrase.events, Expr.events, Expr.eventsOf, List.append_nil]
    exact left.append (.quiet rfl right)
  | nonZero _ _ value => exact value.followed rfl
  | moreValues _ _ first rest | moreStmts _ _ first rest => exact first.append rest
  | fillMore _ _ first rest => exact first.append (.quiet rfl rest)
  | pack _ fill => exact .quiet rfl fill
  | onThis isThis =>
    obtain ⟨pos, same⟩ := Expr.stripped_of_isThis isThis
    rw [Phrase.events, Option.toList_some, List.flatMap_singleton, ← Expr.events_stripped, same]
    exact .nil
  | onClass named =>
    rw [Phrase.events, Option.toList_some, List.flatMap_singleton, ← Expr.events_stripped, named]
    exact .nil
  | onValue _ _ _ inner =>
    rw [Phrase.events, Option.toList_some, List.flatMap_singleton]
    exact inner
  | unbound _ _ _ target values =>
    rw [Phrase.events, Scope.map_fst_bareItems] at values
    exact target.append values
  | bound _ _ _ _ target values =>
    rw [Phrase.events, Scope.map_fst_boundItems] at values
    exact target.append values
  | passed _ _ single _ _ _ target values =>
    rw [Phrase.events, Scope.map_fst_passedItems single] at values
    exact target.append values
  | packed _ _ _ _ _ _ target values packed =>
    rw [Phrase.events, Scope.map_fst_fixedItems] at values
    have made := Traces.append values packed
    rw [Phrase.events, ← List.flatMap_append, List.take_append_drop] at made
    exact target.append made
  | block _ body => exact body
  | ifThen _ _ jump thenBranch =>
    exact jump.append (.quiet rfl ((thenBranch.joined _).followed rfl))
  | ifElse _ _ _ jump thenBranch elseBranch =>
    rw [Phrase.events, Stmt.events, List.append_assoc]
    exact jump.append (.quiet rfl
      ((thenBranch.joined _).append (.quiet rfl (elseBranch.followed rfl))))
  | whileLoop _ _ jump body => exact .quiet rfl (jump.append (.quiet rfl (body.followed rfl)))
  | evalCall isCall callLowers made =>
    rw [Phrase.events, Stmt.events, ← Expr.events_stripped, isCall, Expr.events_call]
    exact made.made callLowers (calls_standing _)
  | eval _ _ value => exact value
  | assignField named _ _ value =>
    rw [Phrase.events, Stmt.events, ← Expr.events_stripped, named]
    exact value.followed rfl
  | @assignVariable _ _ _ _ _ _ result _ _ _ named _ _ _ value =>
    rw [Phrase.events, Stmt.events, ← Expr.events_stripped, named]
    refine value.followed ?_
    cases result <;> rfl
  | assignElement indexed _ _ _ array position value =>
    rw [Phrase.events, Stmt.events, ← Expr.events_stripped, indexed, Expr.events,
      List.append_assoc]
    exact array.append (position.append (value.followed rfl))
  | returnNothing => exact .quiet rfl .nil
  | returnValue _ value => exact value.followed rfl

/-! ### Methods -/

/-- What is chosen from a list only once stands in one place. -/
theorem eq_of_filter_eq_singleton {code : List Instr} {chosen : Instr → Bool} {only : Instr}
    (alone : code.filter chosen = [only]) {first second : Nat} {left right : Instr}
    (leftStands : code[first]? = some left) (leftChosen : chosen left = true)
    (rightStands : code[second]? = some right) (rightChosen : chosen right = true) :
    first = second := by
  induction code generalizing first second with
  | nil => cases leftStands
  | cons instr rest inductionHypothesis =>
    cases isChosen : chosen instr with
    | false =>
      rw [List.filter_cons_of_neg (by simp [isChosen])] at alone
      cases first with
      | zero => simp_all
      | succ first =>
        cases second with
        | zero => simp_all
        | succ second => exact congrArg _ (inductionHypothesis alone leftStands rightStands)
    | true =>
      rw [List.filter_cons_of_pos isChosen, List.cons.injEq, List.filter_eq_nil_iff] at alone
      have isFirst {position : Nat} {next : Instr} (stands : (instr :: rest)[position]? = some next)
          (nextChosen : chosen next = true) : position = 0 := by
        cases position with
        | zero => rfl
        | succ position => exact absurd nextChosen (alone.2 next (List.mem_of_getElem? stands))
      rw [isFirst leftStands leftChosen, isFirst rightStands rightChosen]

/-- An object that goes to a temporary goes there in one place. -/
theorem Scope.Introduces.allocates_once {scope : Scope} {start stop : Nat}
    {inputs outputs : List String} {code : List Instr}
    (introduces : scope.Introduces start stop inputs code outputs) {number : Nat}
    (free : scope.lookup? (tempName number) = none) {first second : Nat} {left right : String}
    (leftStands : code[first]? =
      some (.assign (tempName number) (.newObject left) (.named left)))
    (rightStands : code[second]? =
      some (.assign (tempName number) (.newObject right) (.named right))) :
    first = second := by
  have provided := introduces.writes _ (List.mem_of_getElem? leftStands) (tempName number)
    (List.mem_singleton_self _)
  have isTaken : tempName number ∈ scope.taken start stop :=
    provided.resolve_left (not_mem_declared_of_lookup? free)
  have writesLeft : Instr.assign (tempName number) (.newObject left) (.named left) ∈
      writesTo (tempName number) code :=
    List.mem_filter.mpr ⟨List.mem_of_getElem? leftStands, by simp [Instr.written]⟩
  rcases introduces.computes _ isTaken with ⟨rhs, ty, alone⟩ | ⟨diamond, -, pair⟩
  · exact eq_of_filter_eq_singleton alone leftStands (by simp [Instr.written]) rightStands
      (by simp [Instr.written])
  · rw [pair] at writesLeft
    simp at writesLeft

theorem Scope.Compiles.traces {scope : Scope} {body : List Stmt} {method : MethodCode}
    (compiles : scope.Compiles body method) :
    Traces scope (Stmt.eventsBody body) method.body := by
  obtain ⟨before, code, after, lowers, rfl⟩ := compiles
  show Traces scope _ (scope.method.close code)
  rcases scope.method.close_cases code with ⟨-, added⟩ | ⟨same, -⟩
  · rw [added]
    exact lowers.traces.followed rfl
  · rw [same]
    exact lowers.traces

/-- The events of a method's code are those of its body, in order and each once. Every object is
created by an allocation into a temporary, which is followed at once by a constructor call on it,
and by no other one anywhere in the code. -/
theorem Scope.events_of_lowerMethod {scope : Scope} {body : List Stmt} {before : Counters}
    {method : MethodCode} (lowered : (scope.lowerMethod body before).1 = .ok method) :
    method.body.flatMap Instr.events = Stmt.eventsBody body ∧
    ∀ position instr className, method.body[position]? = some instr →
      .create className ∈ instr.events →
      ∃ number, instr = .assign (tempName number) (.newObject className) (.named className) ∧
        method.body[position + 1]? =
          some (.call (constructorCall (.var (tempName number) (.named className)))) ∧
        ∀ other next, method.body[other]? = some next → next.constructs (tempName number) →
          other = position + 1 := by
  have traces := (compiles_of_lowerMethod lowered).traces
  obtain ⟨start, stop, -, introduces⟩ :=
    ((recorded_lowerMethod lowered).sound _ (List.mem_singleton_self _)).introduces
  refine ⟨traces.events_eq, fun position instr className stands creates => ?_⟩
  obtain ⟨number, free, rfl, follows⟩ := (traces.situated stands).constructed creates
  refine ⟨number, rfl, follows, fun other next nextStands constructs => ?_⟩
  obtain ⟨earlier, otherClass, rfl, allocates⟩ := (traces.situated nextStands).allocated constructs
  rw [introduces.allocates_once free allocates stands]

/-- A method `f` of a class `A` that takes an integer and any number of integers, and computes on
new objects in the condition of a loop and in its body, with trailing arguments that are packed and
with an array for them. -/
def Scope.busy : Scope where
  table :=
    { className := "A"
      superClass := none
      imports := ["io.Lib"]
      fields := []
      methods := [method] }
  method := method
where
  method : Signature :=
    { name := "f"
      returnType := .int
      params := [⟨"n", .int⟩, ⟨"rest", .intArray⟩]
      locals := []
      isStatic := false
      isPublic := true
      isVarargs := true
      pos := .nowhere }
  half (op : ArithOp) : Expr :=
    .binary .nowhere (.arith op) (.name .nowhere "n") (.literal .nowhere (.int 2))
  read (method : String) : Expr := .call .nowhere (some (.name .nowhere "Lib")) method []
  created (args : List Expr) : Expr :=
    .call .nowhere (some (.newObject .nowhere "A")) "f" args
  body : List Stmt :=
    [.whileLoop .nowhere
        (.binary .nowhere .less (.name .nowhere "n") (created [half .add, half .mul, read "g"]))
        (.assign .nowhere (.name .nowhere "n")
          (created [half .sub, .arrayLiteral .nowhere [half .div, read "h"]])),
      .ret .nowhere (some (.name .nowhere "n"))]

theorem events_of_lowerMethod_busy :
    ∃ method, (Scope.busy.lowerMethod Scope.busy.body {}).1 = .ok method ∧
      method.body.flatMap Instr.events =
        [.create "A", .compute .add, .compute .mul, .call "g", .call "f",
          .create "A", .compute .sub, .compute .div, .call "h", .call "f"] ∧
      ∃ position number, method.body[position]? =
          some (.assign (tempName number) (.newObject "A") (.named "A")) ∧
        method.body[position + 1]? =
          some (.call (Scope.constructorCall (.var (tempName number) (.named "A")))) := by
  obtain ⟨method, lowered⟩ : ∃ method,
      (Scope.busy.lowerMethod Scope.busy.body {}).1 = .ok method := ⟨_, rfl⟩
  obtain ⟨inOrder, created⟩ := Scope.events_of_lowerMethod lowered
  refine ⟨method, lowered, inOrder, ?_⟩
  have happens : .create "A" ∈ method.body.flatMap Instr.events := inOrder ▸ List.mem_cons_self
  obtain ⟨instr, member, creates⟩ := List.mem_flatMap.mp happens
  obtain ⟨position, stands⟩ := List.mem_iff_getElem?.mp member
  obtain ⟨number, rfl, follows, -⟩ := created position instr "A" stands creates
  exact ⟨position, number, stands, follows⟩

end JavaMinus
