/-
This file shows that lowering preserves meaning. A body that is run from some
state and comes to an end, by a return, at the end of the body or on a trap, has
code that comes to the same end from the same state, with the same result, the
same fields, the same heap and the same values of all declared variables.

A run of the code follows an outcome of the source when it arrives behind the
code if the source falls through, and ends as the source ends otherwise. The
code of a statement follows the statement, by induction over the rules of
lowering; for a loop, by a further induction over its rounds. A branch whose
code ends in a return is not followed by a jump. That is right because such a
branch never falls through, which is a fact about the source.
-/

import JavaMinus.Proofs.Lowering.Realization

namespace JavaMinus

/-! ### Code that is never left at its end -/

/-- The code cannot be left at its end: its last instruction is a jump or a return. -/
def IsClosed (code : List Instr) : Prop := code.getLast?.any Instr.endsBlock = true

theorem not_isClosed_nil : ¬ IsClosed [] := nofun

theorem isClosed_append {first second : List Instr} (closed : IsClosed (first ++ second)) :
    IsClosed second ∨ second = [] ∧ IsClosed first := by
  cases second with
  | nil =>
    rw [List.append_nil] at closed
    exact .inr ⟨rfl, closed⟩
  | cons instr rest =>
    rw [IsClosed, List.getLast?_append_of_ne_nil _ (List.cons_ne_nil instr rest)] at closed
    exact .inl closed

theorem isClosed_concat {first : List Instr} {instr : Instr} :
    IsClosed (first ++ [instr]) ↔ instr.endsBlock = true := by
  rw [IsClosed, List.getLast?_concat, Option.any_some]

theorem not_isClosed_append {first second : List Instr} (firstOpen : ¬ IsClosed first)
    (secondOpen : ¬ IsClosed second) : ¬ IsClosed (first ++ second) := by
  intro closed
  rcases isClosed_append closed with secondClosed | ⟨-, firstClosed⟩
  · exact secondOpen secondClosed
  · exact firstOpen firstClosed

theorem not_isClosed_concat {first : List Instr} {instr : Instr}
    (goesOn : instr.endsBlock = false) :
    ¬ IsClosed (first ++ [instr]) := by
  rw [isClosed_concat, goesOn]
  exact Bool.false_ne_true

theorem not_isClosed_singleton {instr : Instr} (goesOn : instr.endsBlock = false) :
    ¬ IsClosed [instr] := by
  rw [← List.nil_append [instr]]
  exact not_isClosed_concat goesOn

theorem endsBlock_standing (call : Call) : (Scope.standing call).endsBlock = false := by
  rw [Scope.standing]
  split <;> rfl

/-- The code of a phrase that computes values goes on behind its end. -/
def Phrase.IsOpen (code : List Instr) : Phrase → Prop
  | .value _ _ _ | .values _ _ | .fill _ _ _ _ | .pack _ _ _ | .target _ _ _ _ | .call _ _ _ _ _ =>
    ¬ IsClosed code
  | _ => True

theorem Lowers.isOpen {scope : Scope} {phrase : Phrase} {before after : Counters}
    {code : List Instr} (lowers : Lowers scope phrase before code after) : phrase.IsOpen code := by
  induction lowers with
  | int | bool | field | var | this | noValues | filled | implicitStatic | implicitThis | onThis
  | onClass => exact not_isClosed_nil
  | arith | newArray | index | length | callValue => exact not_isClosed_concat rfl
  | newObject => exact not_isClosed_singleton rfl
  | arrayLiteral _ isOpen | paren _ isOpen | onValue _ _ _ isOpen => exact isOpen
  | materialize =>
    exact fun closed => absurd closed (by simp [IsClosed, Scope.diamond, Instr.endsBlock])
  | moreValues _ _ first second | unbound _ _ _ first second | bound _ _ _ _ first second
  | passed _ _ _ _ _ _ first second => exact not_isClosed_append first second
  | fillMore _ _ _ rest =>
    rw [← List.singleton_append, ← List.append_assoc]
    exact not_isClosed_append (not_isClosed_concat rfl) rest
  | pack _ isOpen =>
    rw [← List.singleton_append]
    exact not_isClosed_append (not_isClosed_singleton rfl) isOpen
  | packed _ _ _ _ _ _ first second third =>
    exact not_isClosed_append first (not_isClosed_append second third)
  | _ => trivial

/-- Control does not reach the end of an outcome. -/
def Outcome.Leaves (outcome : Outcome) : Prop := ∀ final, outcome ≠ some (.fellThrough, final)

/-- A statement with closed code is left before its end. -/
def Phrase.Leaves (scope : Scope) (code : List Instr) : Phrase → Prop
  | .stmt single => IsClosed code → ∀ rounds state, (scope.execute rounds single state).Leaves
  | .body stmts => IsClosed code → ∀ rounds state, (scope.executeBody rounds stmts state).Leaves
  | _ => True

theorem Outcome.leaves_andThen {first : Outcome} {next : State → Outcome}
    (leaves : first.Leaves ∨ ∀ state, (next state).Leaves) : (first.andThen next).Leaves := by
  intro final same
  match first with
  | none => cases same
  | some (.fellThrough, middle) =>
    rcases leaves with firstLeaves | nextLeaves
    · exact firstLeaves middle rfl
    · exact nextLeaves middle final same
  | some (.returned result, middle) => cases same
  | some (.stopped trap, middle) => cases same

theorem Scope.leaves_executeReturn (scope : Scope) (value : Option Expr) (state : State) :
    (scope.executeReturn value state).Leaves := by
  intro final same
  cases value with
  | none => cases same
  | some expr =>
    rw [executeReturn, Outcome.after, State.act] at same
    split at same <;> cases same

theorem Lowers.leaves {scope : Scope} {phrase : Phrase} {before after : Counters}
    {code : List Instr} (lowers : Lowers scope phrase before code after) :
    phrase.Leaves scope code := by
  induction lowers with
  | block _ leaves =>
    intro closed rounds state
    rw [Scope.execute]
    exact leaves closed rounds state
  | ifThen | ifElse | whileLoop | assignField | assignVariable | assignElement =>
    exact fun closed => absurd closed (by simp [IsClosed, List.getLast?_cons, Instr.endsBlock])
  | evalCall => exact fun closed => absurd closed (not_isClosed_concat (endsBlock_standing _))
  | eval _ valueLowers => exact fun closed => absurd closed valueLowers.isOpen
  | returnNothing | returnValue =>
    intro _ rounds state
    rw [Scope.execute]
    exact scope.leaves_executeReturn _ state
  | noStmts => exact fun closed => absurd closed not_isClosed_nil
  | moreStmts firstLowers restLowers first rest =>
    intro closed rounds state
    rw [Scope.executeBody]
    refine Outcome.leaves_andThen ?_
    rcases isClosed_append closed with restClosed | ⟨-, firstClosed⟩
    · exact .inr (rest restClosed rounds)
    · exact .inl (first firstClosed rounds state)
  | _ => trivial

/-! ### Following an outcome -/

/-- The states of the source and of the code agree in all but temporaries. -/
structure Scope.Matches (scope : Scope) (source state : State) : Prop where
  keeps : scope.Keeps 0 source.toEnv state.toEnv
  heap : state.heap = source.heap

/-- Where a run stands that has come to an ending: behind the code if control reaches its end. -/
def Point.behind (finish : Nat) (state : State) : Ending → Point
  | .fellThrough => .before finish state
  | ending => .ended ending state

/-- From a position, the code comes to the ending that the source has. -/
def Follows (scope : Scope) (code : List Instr) (position finish : Nat) (state : State)
    (outcome : Outcome) : Prop :=
  ∀ ending final, outcome = some (ending, final) →
    ∃ last, Reaches code (.before position state) (.behind finish last ending) ∧
      scope.Matches final last

namespace Follows

variable {scope : Scope} {code : List Instr} {position middle finish : Nat} {source state : State}
  {outcome : Outcome}

/-- A run in front. -/
theorem prepend {next : State} (run : Reaches code (.before position state) (.before middle next))
    (follows : Follows scope code middle finish next outcome) :
    Follows scope code position finish state outcome := by
  intro ending final same
  obtain ⟨last, rest, matching⟩ := follows ending final same
  exact ⟨last, run.trans rest, matching⟩

/-- A run behind, if control reaches the end. -/
theorem extend (follows : Follows scope code position middle state outcome)
    (run : ¬ outcome.Leaves → ∀ last, Reaches code (.before middle last) (.before finish last)) :
    Follows scope code position finish state outcome := by
  intro ending final same
  obtain ⟨last, start, matching⟩ := follows ending final same
  cases ending with
  | fellThrough =>
    have reaches := run (fun leaves => leaves final same) last
    exact ⟨last, start.trans reaches, matching⟩
  | returned result | stopped trap => exact ⟨last, start, matching⟩

/-- Nothing happens. -/
theorem through (matching : scope.Matches source state) :
    Follows scope code position position state (some (.fellThrough, source)) := by
  intro ending final same
  cases same
  exact ⟨state, .refl, matching⟩

/-- One statement after the other. -/
theorem andThen {next : State → Outcome}
    (first : Follows scope code position middle state outcome)
    (rest : ∀ source state, scope.Matches source state →
      Follows scope code middle finish state (next source)) :
    Follows scope code position finish state (outcome.andThen next) := by
  intro ending final same
  match outcome with
  | none => cases same
  | some (.fellThrough, between) =>
    obtain ⟨last, start, matching⟩ := first _ _ rfl
    exact (rest between last matching).prepend start ending final same
  | some (.returned result, between) =>
    cases same
    exact first _ _ rfl
  | some (.stopped trap, between) =>
    cases same
    exact first _ _ rfl

/-- An action that the code realizes, and what comes after it. -/
theorem after {α : Type} {bound : Nat} {action : Exec α} {arrive : α → Nat}
    {holds : α → State → Prop} {next : α → State → Outcome} (matching : scope.Matches source state)
    (realizes : Realizes scope code bound position state action arrive holds)
    (rest : ∀ result heap state, scope.Matches { source with heap := heap } state →
      holds result state →
      Follows scope code (arrive result) finish state (next result { source with heap := heap })) :
    Follows scope code position finish state (Outcome.after source action next) := by
  unfold Realizes at realizes
  rw [matching.heap] at realizes
  rw [Outcome.after, State.act]
  cases acted : action source.heap with
  | yields result heap =>
    rw [acted] at realizes
    obtain ⟨between, run, keeps, same, held⟩ := realizes
    have agrees := matching.keeps.trans (keeps.mono (Nat.zero_le _))
    exact (rest result heap between ⟨agrees, same⟩ held).prepend run
  | stops trap heap =>
    rw [acted] at realizes
    obtain ⟨last, run, keeps, same⟩ := realizes
    intro ending final ended
    cases ended
    exact ⟨last, run, matching.keeps.trans (keeps.mono (Nat.zero_le _)), same⟩
  | stuck =>
    intro ending final ended
    cases ended

/-- An action whose result is not used. -/
theorem effect {α : Type} {bound : Nat} {action : Exec α} (holds : α → State → Prop)
    (matching : scope.Matches source state)
    (realizes : Realizes scope code bound position state action (fun _ => finish) holds) :
    Follows scope code position finish state
      (Outcome.after source action fun _ state => some (.fellThrough, state)) :=
  after matching realizes fun _ _ _ finalMatches _ => through finalMatches

/-- An instruction at the end of the code. -/
theorem last {instr : Instr} {ending : Ending} {final next : State}
    (fetched : code[position]? = some instr)
    (performs : instr.perform code position state = some (.behind (position + 1) next ending))
    (matching : scope.Matches final next) :
    Follows scope code position (position + 1) state (some (ending, final)) := by
  intro other otherFinal same
  cases same
  exact ⟨next, .single fetched performs, matching⟩

/-- A branch of an `if` leads behind the label where the branches join. -/
theorem joined {target : Label} {branchCode : List Instr} {place : Nat}
    (stands : StandsAt code position (Lower.joined target branchCode))
    (joins : code[place]? = some (.label target)) (once : (placed code).Nodup)
    (leaves : IsClosed branchCode → outcome.Leaves)
    (follows : Follows scope code position (position + branchCode.length) state outcome) :
    Follows scope code position (place + 1) state outcome := by
  refine follows.extend fun reaches last => ?_
  have isOpen : ¬ branchCode.getLast?.any Instr.endsBlock = true :=
    fun closed => reaches (leaves closed)
  rw [Lower.joined, if_neg isOpen] at stands
  refine .cons stands.behind ?_ (.single joins rfl)
  rw [Instr.perform, jumpTo, labelPosition?_eq once joins, Option.map_some]

/-- A loop: the test leads into the body or behind the loop, and the body leads back. -/
theorem repeatWhile {bound inside outside : Nat} {test : Env → Exec Bool} {body : State → Outcome}
    (tests : ∀ {source state : State}, scope.Matches source state →
      Realizes scope code bound position state (test source.toEnv)
        (fun again => if again then inside else outside) fun _ _ => True)
    (round : ∀ {source state : State}, scope.Matches source state →
      Follows scope code inside position state (body source))
    (leave : ∀ state, Reaches code (.before outside state) (.before finish state)) (rounds : Nat)
    (matching : scope.Matches source state) :
    Follows scope code position finish state (Outcome.repeatWhile test body rounds source) := by
  induction rounds generalizing source state with
  | zero =>
    intro ending final ended
    cases ended
  | succ rounds inductionHypothesis =>
    rw [Outcome.repeatWhile]
    refine .after matching (tests matching) fun again heap final finalMatches _ => ?_
    cases again with
    | true => exact (round finalMatches).andThen fun _ _ => inductionHypothesis
    | false => exact .prepend (leave final) (.through finalMatches)

end Follows

namespace Scope.Matches

variable {scope : Scope} {source state : State}

theorem refl (scope : Scope) (state : State) : scope.Matches state state := ⟨.refl _ _ _, rfl⟩

theorem setVar (matching : scope.Matches source state) (name : String) (value : Value) :
    scope.Matches (source.setVar name value) (state.setVar name value) where
  keeps := by
    refine ⟨matching.keeps.self, matching.keeps.fields, fun other spared => ?_⟩
    by_cases same : other = name
    · subst same
      exact (state.setVar_vars_self other value).trans (source.setVar_vars_self other value).symm
    · exact (state.setVar_vars_of_ne value same).trans
        ((matching.keeps.vars other spared).trans (source.setVar_vars_of_ne value same).symm)
  heap := matching.heap

theorem setField (matching : scope.Matches source state) (name : String) (value : Value) :
    scope.Matches (source.setField name value) (state.setField name value) where
  keeps := by
    refine ⟨matching.keeps.self, ?_, matching.keeps.vars⟩
    exact congrArg (Function.update · name value) matching.keeps.fields
  heap := matching.heap

end Scope.Matches

/-! ### Statements -/

/-- Either right-hand side of an assignment to a variable is the value of the operand. -/
theorem compute_rightHandSide (scope : Scope) (operand : Operand) (env : Env) :
    (scope.rightHandSide operand).compute env = pure (operand.read env) := by
  cases operand with
  | field name ty =>
    rw [Scope.rightHandSide, Instr.compute]
    exact if_pos rfl
  | literal _ _ | var _ _ | this _ => rfl

theorem Scope.evaluate_stripped (scope : Scope) (env : Env) (expr : Expr) :
    scope.evaluate env expr.stripped = scope.evaluate env expr := by
  induction expr with
  | paren pos inner inductionHypothesis =>
    rw [Expr.stripped_paren, inductionHypothesis, evaluate]
  | _ => rfl

theorem Scope.executeAssign_of_var (scope : Scope) {target value : Expr} {state : State} {pos : Pos}
    {name : String} {found : Variable} (named : target.stripped = .name pos name)
    (resolved : scope.lookup? name = some found) (notField : found.isField = false) :
    scope.executeAssign target value state =
      Outcome.after state (scope.evaluate state.toEnv value) fun result state =>
        some (.fellThrough, state.setVar name result) := by
  simp only [executeAssign, named, resolved]
  cases found with
  | field binding => cases notField
  | param position binding | loc binding => rfl

/-- The code of a branch stands in front of the jump behind it, if there is one. -/
theorem StandsAt.joined {code branchCode : List Instr} {position : Nat} {target : Label}
    (stands : StandsAt code position (Lower.joined target branchCode)) :
    StandsAt code position branchCode := by
  rw [Lower.joined] at stands
  split at stands
  · exact stands
  · exact stands.left

/-- The code of a statement follows the statement. -/
def Phrase.Followed (scope : Scope) (code : List Instr) (rounds position finish : Nat)
    (source state : State) : Phrase → Prop
  | .stmt single => Follows scope code position finish state (scope.execute rounds single source)
  | .body stmts => Follows scope code position finish state (scope.executeBody rounds stmts source)
  | _ => True

theorem Lowers.followed {scope : Scope} {phrase : Phrase} {before after : Counters}
    {part code : List Instr} (lowers : Lowers scope phrase before part after)
    (once : (placed code).Nodup) (rounds : Nat) {position : Nat} {source state : State}
    (stands : StandsAt code position part) (matching : scope.Matches source state) :
    phrase.Followed scope code rounds position (position + part.length) source state := by
  induction lowers generalizing position source state with
  | block _ body =>
    rw [Phrase.Followed, Scope.execute]
    exact body stands matching
  | ifThen jumpLowers thenLowers _ thenBranch =>
    have thenStands := stands.right.tail
    have elseStands := thenStands.right
    have thenAt := labelPosition?_eq once stands.behind
    have elseAt := labelPosition?_eq once elseStands.head
    rw [Phrase.Followed, Scope.execute, StandsAt.finish_around, List.length_append, ← Nat.add_assoc]
    refine .after matching (jumpLowers.realized once stands.left matching.keeps _ _ thenAt elseAt)
      fun holds heap final finalMatches _ => ?_
    cases holds with
    | true =>
      have follows := thenBranch thenStands.left.joined finalMatches
      exact .prepend (.single stands.behind rfl) (.joined thenStands.left elseStands.tail.head once
        (thenLowers.leaves · rounds _) follows)
    | false =>
      exact .prepend (.cons elseStands.head rfl (.single elseStands.tail.head rfl))
        (.through finalMatches)
  | ifElse jumpLowers thenLowers _ _ thenBranch elseBranch =>
    have thenStands := stands.right.tail
    have elseStands := thenStands.right
    have thenAt := labelPosition?_eq once stands.behind
    have elseAt := labelPosition?_eq once elseStands.head
    have joins := elseStands.tail.behind
    rw [Phrase.Followed, Scope.execute, StandsAt.finish_around, StandsAt.finish_around,
      List.length_append, ← Nat.add_assoc]
    refine .after matching (jumpLowers.realized once stands.left matching.keeps _ _ thenAt elseAt)
      fun holds heap final finalMatches _ => ?_
    cases holds with
    | true =>
      have follows := thenBranch thenStands.left.joined finalMatches
      exact .prepend (.single stands.behind rfl) (.joined thenStands.left joins once
        (thenLowers.leaves · rounds _) follows)
    | false =>
      have follows := elseBranch elseStands.tail.left finalMatches
      exact .prepend (.single elseStands.head rfl)
        (follows.extend fun _ last => .single joins rfl)
  | whileLoop jumpLowers _ _ body =>
    have bodyStands := stands.tail.right.tail
    have insideAt := labelPosition?_eq once stands.tail.behind
    have outsideAt := labelPosition?_eq once bodyStands.right.tail.head
    rw [Phrase.Followed, Scope.execute, StandsAt.finish_cons, StandsAt.finish_around,
      StandsAt.finish_around]
    refine .repeatWhile (fun matching => .label stands.head
        (jumpLowers.realized once stands.tail.left matching.keeps _ _ insideAt outsideAt))
      (fun matching => ?_) (fun last => ?_) rounds matching
    · have follows := body bodyStands.left matching
      refine .prepend (.single stands.tail.behind rfl) (follows.extend fun _ last => ?_)
      refine .single bodyStands.behind ?_
      rw [Instr.perform, jumpTo, labelPosition?_eq once stands.head, Option.map_some]
    · exact .single bodyStands.right.tail.head rfl
  | evalCall isCall =>
    rw [Phrase.Followed, Scope.execute, ← Scope.evaluate_stripped, isCall, Scope.evaluate]
    intro ending final ended
    cases ended
  | eval _ valueLowers =>
    rw [Phrase.Followed, Scope.execute]
    exact .effect _ matching (valueLowers.realized once stands matching.keeps)
  | assignField named found valueLowers =>
    rw [Phrase.Followed, Scope.execute, Scope.executeAssign, named]
    simp only [found]
    rw [List.length_append, ← Nat.add_assoc]
    refine .after matching (valueLowers.realized once stands.left matching.keeps)
      fun result heap final finalMatches read => ?_
    refine .last stands.behind ?_ (finalMatches.setField _ result)
    rw [Instr.perform, Operand.read, if_pos rfl, read]
    rfl
  | assignVariable named resolved notField valueLowers =>
    rw [Phrase.Followed, Scope.execute, scope.executeAssign_of_var named resolved notField]
    rw [List.length_append, ← Nat.add_assoc]
    refine .after matching (valueLowers.realized once stands.left matching.keeps)
      fun result heap final finalMatches read => ?_
    refine .last stands.behind ?_ (finalMatches.setVar _ result)
    rw [Instr.perform, compute_rightHandSide, read]
    rfl
  | assignElement indexed arrayLowers positionLowers valueLowers =>
    rw [Phrase.Followed, Scope.execute, Scope.executeAssign, indexed]
    have positionStands := stands.right
    have valueStands := positionStands.right
    refine .effect (fun _ _ => True) matching (.both arrayLowers
      (arrayLowers.realized once stands.left matching.keeps)
      (positionLowers.realized once positionStands.left) matching.keeps fun final agrees => ?_)
    have valueRealized := valueLowers.realized once valueStands.left agrees
    refine Realizes.bind valueRealized (arrayLowers.grows.trans positionLowers.grows).temps
      fun result last keeps read => ?_
    rw [← keeps.read (arrayLowers.stable.mono positionLowers.grows.temps),
      ← keeps.read positionLowers.stable, ← read]
    refine .store valueStands.behind rfl ?_
    simp only [List.length_append, List.length_cons, List.length_nil]
    omega
  | returnNothing =>
    rw [Phrase.Followed, Scope.execute]
    refine .last stands.head ?_ matching
    rw [Instr.perform]
    simp only [Option.map_none, ite_self]
    rfl
  | returnValue valueLowers =>
    rw [Phrase.Followed, Scope.execute, Scope.executeReturn, List.length_append, ← Nat.add_assoc]
    refine .after matching (valueLowers.realized once stands.left matching.keeps)
      fun result heap final finalMatches read => ?_
    refine .last stands.behind ?_ finalMatches
    rw [Instr.perform, Option.map_some, read]
    rfl
  | noStmts =>
    rw [Phrase.Followed, Scope.executeBody]
    exact .through matching
  | moreStmts _ _ first rest =>
    rw [Phrase.Followed, Scope.executeBody, List.length_append, ← Nat.add_assoc]
    exact (first stands.left matching).andThen fun source state => rest stands.right
  | _ => trivial

/-! ### Methods -/

/-- Whenever a run of the body ends, the run of the code from the same state ends in the same way,
and in no other, with the same fields, the same heap and the same values of all declared
variables. -/
def Scope.Preserves (scope : Scope) (body : List Stmt) (code : List Instr) : Prop :=
  ∀ rounds start ending final, scope.executeBody rounds body start = some (ending, final) →
    ∃ last, Reaches code (.before 0 start) (.ended (scope.method.ending ending) last) ∧
      (∀ other state, Reaches code (.before 0 start) (.ended other state) →
        other = scope.method.ending ending ∧ state = last) ∧
      last.self = final.self ∧ last.fields = final.fields ∧ last.heap = final.heap ∧
      ∀ name ∈ (scope.method.params ++ scope.method.locals).map Binding.name,
        last.vars name = final.vars name

/-- Parameters and locals are spared by all code. -/
theorem Scope.spares_declared (scope : Scope) {name : String}
    (declared : name ∈ (scope.method.params ++ scope.method.locals).map Binding.name) :
    scope.Spares 0 name := by
  refine .inl ((scope.lookup?_isSome_iff name).mpr ?_)
  rw [names, List.append_assoc, List.map_append]
  exact List.mem_append_right _ declared

/-- A method that yields nothing gets a return, unless its code is closed already. -/
theorem Signature.close_cases (method : Signature) (code : List Instr) :
    method.returnType.isVoid = true ∧ method.close code = code ++ [.ret none .void] ∨
      method.close code = code ∧ (method.returnType.isVoid = true → IsClosed code) := by
  rw [close]
  split
  · next added =>
    rw [Bool.and_eq_true] at added
    exact .inl ⟨added.1, rfl⟩
  · next kept =>
    refine .inr ⟨rfl, fun isVoid => ?_⟩
    rw [isVoid, Bool.true_and, Bool.not_eq_true', Bool.not_eq_false] at kept
    obtain ⟨instr, isLast, isReturn⟩ := (Option.any_eq_true _ _).mp kept
    refine (Option.any_eq_true _ _).mpr ⟨instr, isLast, ?_⟩
    cases instr with
    | ret result ty => rfl
    | _ => cases isReturn

/-- A run that arrives behind the body comes to the end of the method. -/
theorem reaches_ending {method : Signature} {code : List Instr} {start : Point} {last : State}
    {ending : Ending} (leaves : IsClosed code → ending ≠ .fellThrough)
    (run : Reaches (method.close code) start (.behind code.length last ending)) :
    Reaches (method.close code) start (.ended (method.ending ending) last) := by
  cases ending with
  | returned result | stopped trap => exact run
  | fellThrough =>
    refine Reaches.trans run ?_
    rw [Signature.ending]
    rcases method.close_cases code with ⟨isVoid, closed⟩ | ⟨same, isClosed⟩
    · rw [closed, if_pos isVoid]
      exact .single (List.getElem?_concat_length ..) rfl
    · have notVoid : ¬ method.returnType.isVoid = true := fun isVoid => leaves (isClosed isVoid) rfl
      rw [same, if_neg notVoid]
      refine Relation.ReflTransGen.single ?_
      rw [Point.behind, advance, List.getElem?_eq_none (Nat.le_refl _)]

theorem Scope.Compiles.preserves {scope : Scope} {body : List Stmt} {method : MethodCode}
    (compiles : scope.Compiles body method) : scope.Preserves body method.body := by
  obtain ⟨before, bodyCode, after, lowers, rfl⟩ := compiles
  intro rounds start ending final executed
  obtain ⟨once, stands⟩ : (placed (scope.method.close bodyCode)).Nodup ∧
      StandsAt (scope.method.close bodyCode) 0 bodyCode := by
    have once := lowers.freshLabels.nodup
    rcases scope.method.close_cases bodyCode with ⟨-, closed⟩ | ⟨same, -⟩
    · rw [closed, placed_append, placed_cons (by simp), placed_nil, List.append_nil]
      exact ⟨once, (StandsAt.whole _).left⟩
    · rw [same]
      exact ⟨once, .whole bodyCode⟩
  obtain ⟨last, run, matching⟩ :=
    lowers.followed once rounds stands (.refl scope start) ending final executed
  rw [Nat.zero_add] at run
  have leaves (closed : IsClosed bodyCode) : ending ≠ .fellThrough := by
    rintro rfl
    exact lowers.leaves closed rounds start final executed
  have reaches := reaches_ending leaves run
  refine ⟨last, reaches, fun other state otherReaches => otherReaches.ended_unique reaches,
    matching.keeps.self, matching.keeps.fields, matching.heap, fun name declared => ?_⟩
  exact matching.keeps.vars name (scope.spares_declared declared)

/-- Lowering a program preserves the meaning of each of its methods. -/
theorem ClassTable.preserves_of_lower {table : ClassTable} {program : Program} {before : Counters}
    {code : ClassCode} (lowered : (table.lower program before).1 = .ok code) :
    ∃ decls, table.scopes program = .ok decls ∧
      List.Forall₂ (fun decl method => decl.2.Preserves decl.1.body method.body) decls
        code.methods := by
  obtain ⟨-, decls, paired, compiled⟩ := compiles_of_lower lowered
  exact ⟨decls, paired, compiled.imp fun _ _ compiles => compiles.2.preserves⟩

/-- A method that lowers keeps its meaning, also if another one of its class does not lower. -/
theorem Scope.lowerMethod_preserves {scope : Scope} {body : List Stmt} {before : Counters}
    {method : MethodCode} (lowered : (scope.lowerMethod body before).1 = .ok method) :
    scope.Preserves body method.body :=
  (compiles_of_lowerMethod lowered).preserves

/-- A class with a method that adds up the elements of an array before the first negative one. -/
def Program.prefixSum : Program where
  imports := []
  classDecl :=
    { name := "Sum"
      superClass := none
      fields := []
      methods :=
        [{ name := "sum"
           isPublic := true
           isStatic := false
           returnType := .ofTy .nowhere .int
           params := [⟨.ofTy .nowhere .intArray, "a", false, .nowhere⟩]
           locals :=
            [⟨.ofTy .nowhere .int, "i", .nowhere⟩, ⟨.ofTy .nowhere .int, "s", .nowhere⟩]
           body :=
            [.assign .nowhere index (.literal .nowhere (.int 0)),
              .assign .nowhere sum (.literal .nowhere (.int 0)),
              .whileLoop .nowhere
                (.binary .nowhere .and
                  (.binary .nowhere .less index (.length .nowhere array))
                  (.not .nowhere (.binary .nowhere .less element (.literal .nowhere (.int 0)))))
                (.block .nowhere
                  [.assign .nowhere sum (.binary .nowhere (.arith .add) sum element),
                    .assign .nowhere index
                      (.binary .nowhere (.arith .add) index (.literal .nowhere (.int 1)))]),
              .ret .nowhere (some sum)]
           pos := .nowhere }]
      pos := .nowhere }
  pos := .nowhere
where
  array : Expr := .name .nowhere "a"
  index : Expr := .name .nowhere "i"
  sum : Expr := .name .nowhere "s"
  element : Expr := .index .nowhere array index

/-- The array has four elements, the third of which is negative. -/
def State.prefixSum : State where
  self := 0
  fields := fun _ => .null
  vars := fun _ => .array 0
  heap := { arrays := [[2, 3, -1, 4]] }

theorem lowerMethod_preserves_prefixSum :
    ∃ decl scope method last,
      (ClassTable.ofProgram .prefixSum).scopes .prefixSum = .ok [(decl, scope)] ∧
      (scope.lowerMethod decl.body {}).1 = .ok method ∧
      Reaches method.body (.before 0 .prefixSum) (.ended (.returned (some (.word 5))) last) ∧
      last.heap = State.prefixSum.heap ∧ last.vars "i" = .word 2 := by
  obtain ⟨decl, scope, method, paired, lowered⟩ : ∃ decl scope method,
      (ClassTable.ofProgram .prefixSum).scopes .prefixSum = .ok [(decl, scope)] ∧
      (scope.lowerMethod decl.body {}).1 = .ok method := ⟨_, _, _, rfl, rfl⟩
  have preserves := Scope.lowerMethod_preserves lowered
  obtain ⟨rfl, rfl⟩ := Prod.mk.inj (List.cons.inj (Except.ok.inj paired)).1
  obtain ⟨last, run, -, -, -, heap, vars⟩ := preserves 4 .prefixSum _ _ rfl
  exact ⟨_, _, method, last, paired, lowered, run, heap, vars "i" (by decide)⟩

end JavaMinus
