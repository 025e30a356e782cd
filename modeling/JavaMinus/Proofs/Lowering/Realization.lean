/-
This file shows that the code of an expression does what evaluating it does. A
run of the code realizes an action when it comes to a given place with the
result of the action, or stops on the same trap, and leaves the same heap; on
the way it writes no variable but new temporaries. Realizing a sequence of
actions follows from realizing its parts, so what happens on a trap is settled
once. The code of a value realizes the value, and the code of a jump realizes
the test, arriving at one label or the other.
-/

import JavaMinus.Proofs.Lowering.Freshness
import JavaMinus.Proofs.Semantics.Source

namespace JavaMinus

open Counters

/-! ### What code leaves alone -/

/-- An environment differs from another at most in variables that are not spared. -/
structure Scope.Keeps (scope : Scope) (bound : Nat) (env env' : Env) : Prop where
  self : env'.self = env.self
  fields : env'.fields = env.fields
  vars : ∀ name, scope.Spares bound name → env'.vars name = env.vars name

namespace Scope.Keeps

variable {scope : Scope} {bound : Nat} {env env' env'' : Env}

theorem refl (scope : Scope) (bound : Nat) (env : Env) : scope.Keeps bound env env :=
  ⟨rfl, rfl, fun _ _ => rfl⟩

theorem trans (first : scope.Keeps bound env env') (second : scope.Keeps bound env' env'') :
    scope.Keeps bound env env'' where
  self := second.self.trans first.self
  fields := second.fields.trans first.fields
  vars name spared := (second.vars name spared).trans (first.vars name spared)

theorem mono {lower : Nat} (keeps : scope.Keeps bound env env') (le : lower ≤ bound) :
    scope.Keeps lower env env' where
  self := keeps.self
  fields := keeps.fields
  vars name spared := keeps.vars name (spared.mono le)

theorem read {operand : Operand} (keeps : scope.Keeps bound env env')
    (stable : operand.Stable scope bound) : operand.read env' = operand.read env := by
  cases operand with
  | literal value ty => rfl
  | var name ty => exact keeps.vars name stable
  | field name ty => exact congrFun keeps.fields name
  | this ty => exact congrArg Value.object keeps.self

/-- A variable that is not spared may be written. -/
theorem setVar (state : State) {name : String} (fresh : ¬ scope.Spares bound name)
    (value : Value) : scope.Keeps bound state.toEnv (state.setVar name value).toEnv where
  self := rfl
  fields := rfl
  vars _ spared := state.setVar_vars_of_ne value (fun same => fresh (same ▸ spared))

end Scope.Keeps

/-! ### Realizing actions -/

/-- From a position, the code does what the action does: it arrives where the result says, in a
state of which something holds, or it stops on the same trap. -/
def Realizes {α : Type} (scope : Scope) (code : List Instr) (bound position : Nat) (state : State)
    (action : Exec α) (arrive : α → Nat) (holds : α → State → Prop) : Prop :=
  match action state.heap with
  | .yields result heap =>
    ∃ final, Reaches code (.before position state) (.before (arrive result) final) ∧
      scope.Keeps bound state.toEnv final.toEnv ∧ final.heap = heap ∧ holds result final
  | .stops trap heap =>
    ∃ final, Reaches code (.before position state) (.ended (.stopped trap) final) ∧
      scope.Keeps bound state.toEnv final.toEnv ∧ final.heap = heap
  | .stuck => True

namespace Realizes

variable {α β : Type} {scope : Scope} {code : List Instr} {bound position : Nat} {state : State}
  {action : Exec α} {arrive : α → Nat} {holds : α → State → Prop}

/-- What yields a result without touching the heap is realized by a run that does not touch it. -/
theorem ofReaches {result : α} (final : State)
    (run : Reaches code (.before position state) (.before (arrive result) final))
    (keeps : scope.Keeps bound state.toEnv final.toEnv) (heap : final.heap = state.heap)
    (held : holds result final) :
    Realizes scope code bound position state (pure result) arrive holds :=
  ⟨final, run, keeps, heap, held⟩

/-- Nothing needs to be done for a result that is there already. -/
theorem done {result : α} (arrived : arrive result = position) (held : holds result state) :
    Realizes scope code bound position state (pure result) arrive holds :=
  ofReaches state (by rw [arrived]; exact .refl) (.refl _ _ _) rfl held

theorem stuck : Realizes scope code bound position state (Exec.stuck : Exec α) arrive holds :=
  trivial

/-- Code that spares more variables may be used where fewer must be spared. -/
theorem mono {lower : Nat} (realizes : Realizes scope code bound position state action arrive holds)
    (le : lower ≤ bound) : Realizes scope code lower position state action arrive holds := by
  unfold Realizes at realizes ⊢
  split at realizes
  · obtain ⟨final, run, keeps, rest⟩ := realizes
    exact ⟨final, run, keeps.mono le, rest⟩
  · obtain ⟨final, run, keeps, same⟩ := realizes
    exact ⟨final, run, keeps.mono le, same⟩
  · trivial

/-- A label only marks a place. -/
theorem label {place : Label} (fetched : code[position]? = some (.label place))
    (realizes : Realizes scope code bound (position + 1) state action arrive holds) :
    Realizes scope code bound position state action arrive holds := by
  unfold Realizes at realizes ⊢
  split at realizes
  · obtain ⟨final, run, rest⟩ := realizes
    exact ⟨final, .cons fetched rfl run, rest⟩
  · obtain ⟨final, run, rest⟩ := realizes
    exact ⟨final, .cons fetched rfl run, rest⟩
  · trivial

/-- A sequence of actions is realized by code for the first and then for the second. -/
theorem bind {inner : Nat} {next : α → Exec β} {arrive' : β → Nat} {holds' : β → State → Prop}
    (first : Realizes scope code inner position state action arrive holds) (le : bound ≤ inner)
    (rest : ∀ result final, scope.Keeps inner state.toEnv final.toEnv → holds result final →
      Realizes scope code bound (arrive result) final (next result) arrive' holds') :
    Realizes scope code bound position state (action >>= next) arrive' holds' := by
  unfold Realizes at first ⊢
  rw [Exec.bind_apply]
  cases acted : action state.heap with
  | yields result heap =>
    rw [acted] at first
    obtain ⟨middle, run, keeps, rfl, held⟩ := first
    have second := rest result middle keeps held
    unfold Realizes at second
    simp only
    cases ended : next result middle.heap with
    | yields last heap =>
      rw [ended] at second
      obtain ⟨final, restRun, restKeeps, same, restHeld⟩ := second
      exact ⟨final, run.trans restRun, (keeps.mono le).trans restKeeps, same, restHeld⟩
    | stops trap heap =>
      rw [ended] at second
      obtain ⟨final, restRun, restKeeps, same⟩ := second
      exact ⟨final, run.trans restRun, (keeps.mono le).trans restKeeps, same⟩
    | stuck => trivial
  | stops trap heap =>
    rw [acted] at first
    obtain ⟨final, run, keeps, same⟩ := first
    exact ⟨final, run, keeps.mono le, same⟩
  | stuck => trivial

/-- An instruction that lets an action change the heap and goes on behind it. -/
theorem instr {instr : Instr} {next : α → State → State}
    (fetched : code[position]? = some instr)
    (performs : instr.perform code position state =
      proceed state action fun result after => some (.before (arrive result) (next result after)))
    (keeps : ∀ result heap, scope.Keeps bound state.toEnv
      (next result { state with heap := heap }).toEnv)
    (sameHeap : ∀ result after, (next result after).heap = after.heap)
    (held : ∀ result heap, holds result (next result { state with heap := heap })) :
    Realizes scope code bound position state action arrive holds := by
  unfold Realizes
  rw [proceed, State.act] at performs
  cases acted : action state.heap with
  | yields result heap =>
    rw [acted] at performs
    exact ⟨_, .single fetched performs, keeps result heap, sameHeap _ _, held result heap⟩
  | stops trap heap =>
    rw [acted] at performs
    exact ⟨_, .single fetched performs, .refl _ _ _, rfl⟩
  | stuck => trivial

/-- An assignment to a new temporary. -/
theorem assign {dest : String} {rhs : Instr} {ty : Ty} {finish : Nat} {action : Exec Value}
    (fetched : code[position]? = some (.assign dest rhs ty))
    (computes : rhs.compute state.toEnv = action) (fresh : ¬ scope.Spares bound dest)
    (arrived : finish = position + 1) :
    Realizes scope code bound position state action (fun _ => finish)
      fun result final => final.vars dest = result := by
  subst computes arrived
  refine instr fetched rfl (fun result heap => ?_) (fun _ _ => rfl) fun result heap => ?_
  · exact .setVar { state with heap := heap } fresh result
  · exact State.setVar_vars_self _ dest result

/-- An instruction that writes no variable and goes on behind it. -/
theorem store {storing : Instr} {finish : Nat} (fetched : code[position]? = some storing)
    (performs : storing.perform code position state =
      proceed state action fun _ after => some (.before (position + 1) after))
    (arrived : finish = position + 1) :
    Realizes scope code bound position state action (fun _ => finish) fun _ _ => True := by
  subst arrived
  exact instr fetched performs (fun _ _ => .refl _ _ _) (fun _ _ => rfl) fun _ _ => trivial

/-- A branch with a jump behind it goes to one of two labels. -/
theorem branch {condition : Condition} {onTrue onFalse : Label} {taken passed : Nat}
    (stands : StandsAt code position [.branch condition onTrue, .goto onFalse])
    (trueAt : labelPosition? code onTrue = some taken)
    (falseAt : labelPosition? code onFalse = some passed) :
    Realizes scope code bound position state (condition.test state.toEnv)
      (fun result => if result then taken else passed) fun _ _ => True := by
  have performs {next : Point}
      (leads : Instr.perform code position state (.branch condition onTrue) = some next) :
      Reaches code (.before position state) next := .single stands.head leads
  rw [Instr.perform, proceed, State.act] at performs
  unfold Realizes
  cases tested : condition.test state.toEnv state.heap with
  | yields result heap =>
    rw [tested] at performs
    refine ⟨{ state with heap := heap }, ?_, .refl _ _ _, rfl, trivial⟩
    cases result with
    | true => exact performs (by simp [jumpTo, trueAt])
    | false =>
      refine (performs rfl).trans (.single stands.tail.head ?_)
      simp [Instr.perform, jumpTo, falseAt]
  | stops trap heap =>
    rw [tested] at performs
    exact ⟨_, performs rfl, .refl _ _ _, rfl⟩
  | stuck => trivial

/-- Allocating an object takes two instructions. -/
theorem newObject {className dest : String} {ty : Ty} {finish : Nat}
    (stands : StandsAt code position
      [.assign dest (.newObject className) ty, .call (Scope.constructorCall (.var dest ty))])
    (fresh : ¬ scope.Spares bound dest) (arrived : finish = position + 2) :
    Realizes scope code bound position state (JavaMinus.newObject className) (fun _ => finish)
      fun result final => final.vars dest = result := by
  subst arrived
  let heap : Heap := { state.heap with objects := state.heap.objects ++ [className] }
  let final := { state with heap := heap }.setVar dest (.object state.heap.objects.length)
  have constructed : (Operand.var dest ty).read final.toEnv = .object state.heap.objects.length :=
    State.setVar_vars_self _ dest _
  have runs : Instr.perform code (position + 1) final
      (.call (Scope.constructorCall (.var dest ty))) = some (.before (position + 2) final) := by
    simp only [Instr.perform, Scope.constructorCall, constructed]
  exact ⟨final, .cons stands.head rfl (.single stands.tail.head runs),
    .setVar { state with heap := heap } fresh _, rfl, constructed⟩

/-- Either way through the diamond leaves the word for the way that was taken. -/
theorem diamond {number : Nat} {result : String}
    (stands : StandsAt code position (Scope.diamond number result)) (once : (placed code).Nodup)
    (fresh : ¬ scope.Spares bound result) (taken : Bool) :
    Realizes scope code bound (if taken then position + 3 else position) state
      (pure (Value.ofBool taken)) (fun _ => position + 6)
      fun value final => final.vars result = value := by
  have doneStands := stands.tail.tail.tail.tail.tail.head
  refine .ofReaches (state.setVar result (.ofBool taken)) ?_ (.setVar state fresh _) rfl
    (state.setVar_vars_self result _)
  cases taken with
  | true =>
    have trueStands := stands.tail.tail.tail
    exact .cons trueStands.head rfl
      (.cons trueStands.tail.head rfl (.single trueStands.tail.tail.head rfl))
  | false =>
    have leaves : Instr.perform code (position + 2) (state.setVar result (.ofBool false))
        (.goto (.numbered "end_" number)) =
          some (.before (position + 5) (state.setVar result (.ofBool false))) := by
      rw [Instr.perform, jumpTo, labelPosition?_eq once doneStands, Option.map_some]
    exact .cons stands.head rfl (.cons stands.tail.head rfl
      (.cons stands.tail.tail.head leaves (.single doneStands rfl)))

end Realizes

/-! ### Expressions -/

/-- The code of a phrase does what evaluating the phrase does. -/
def Phrase.Realized (scope : Scope) (code : List Instr) (bound position finish : Nat)
    (source : Env) (state : State) : Phrase → Prop
  | .value expr _ result =>
    Realizes scope code bound position state (scope.evaluate source expr) (fun _ => finish)
      fun value final => result.read final.toEnv = value
  | .jump expr onTrue onFalse =>
    ∀ holds fails, labelPosition? code onTrue = some holds →
      labelPosition? code onFalse = some fails →
      Realizes scope code bound position state (scope.test source expr)
        (fun result => if result then holds else fails) fun _ _ => True
  | .fill array _ start items =>
    array.Stable scope bound →
      Realizes scope code bound position state
        (scope.evaluateInto source (array.read state.toEnv) start items) (fun _ => finish)
        fun _ _ => True
  | .pack _ items result =>
    Realizes scope code bound position state
      (newArray (.word (Int32.ofNat items.length)) >>= fun array =>
        scope.evaluateInto source array 0 items >>= fun _ => pure array)
      (fun _ => finish) fun value final => result.read final.toEnv = value
  | _ => True

/-- Two values, the left one first: the left operand still has its value behind the code of the
right one. -/
theorem Realizes.both {α : Type} {scope : Scope} {code leftCode rightCode : List Instr}
    {left right : Expr} {leftType rightType : Ty} {leftResult rightResult : Operand}
    {before middle : Counters} {position : Nat} {source : Env} {state : State}
    {next : Value → Value → Exec α} {arrive : α → Nat} {holds : α → State → Prop}
    (leftLowers : Lowers scope (.value left leftType leftResult) before leftCode middle)
    (leftRealized : (Phrase.value left leftType leftResult).Realized scope code before.temps position
      (position + leftCode.length) source state)
    (rightRealized : ∀ {state : State}, scope.Keeps 0 source state.toEnv →
      (Phrase.value right rightType rightResult).Realized scope code middle.temps
        (position + leftCode.length) (position + leftCode.length + rightCode.length) source state)
    (agrees : scope.Keeps 0 source state.toEnv)
    (rest : ∀ final : State, scope.Keeps 0 source final.toEnv →
      Realizes scope code before.temps (position + leftCode.length + rightCode.length) final
        (next (leftResult.read final.toEnv) (rightResult.read final.toEnv)) arrive holds) :
    Realizes scope code before.temps position state
      (scope.evaluate source left >>= fun first =>
        scope.evaluate source right >>= fun second => next first second)
      arrive holds := by
  refine Realizes.bind leftRealized (Nat.le_refl _) fun first middleState leftKeeps leftRead => ?_
  have middleAgrees := agrees.trans (leftKeeps.mono (Nat.zero_le _))
  refine Realizes.bind (rightRealized middleAgrees) leftLowers.grows.temps
    fun second final rightKeeps rightRead => ?_
  have leftStays := rightKeeps.read leftLowers.stable
  rw [← leftRead, ← leftStays, ← rightRead]
  exact rest final (middleAgrees.trans (rightKeeps.mono (Nat.zero_le _)))

/-- A word that is made from a jump tells the outcome of the test. -/
theorem Scope.evaluate_of_isBranching (scope : Scope) (env : Env) {expr : Expr}
    (branching : expr.isBranching = true) :
    scope.evaluate env expr = scope.test env expr >>= fun holds => pure (.ofBool holds) := by
  cases expr with
  | binary pos op left right =>
    cases op with
    | arith op => cases branching
    | less => simp [test_less, evaluate]
    | and =>
      simp only [test, evaluate, bind_assoc]
      refine bind_congr fun first => bind_congr fun holds => ?_
      cases holds <;> simp
    | or =>
      simp only [test, evaluate, bind_assoc]
      refine bind_congr fun first => bind_congr fun holds => ?_
      cases holds <;> simp
  | not pos operand => simp [test, evaluate]
  | _ => cases branching

theorem Lowers.realized {scope : Scope} {phrase : Phrase} {before after : Counters}
    {part code : List Instr} (lowers : Lowers scope phrase before part after)
    (once : (placed code).Nodup) {position : Nat} {source : Env} {state : State}
    (stands : StandsAt code position part) (agrees : scope.Keeps 0 source state.toEnv) :
    phrase.Realized scope code before.temps position (position + part.length) source state := by
  induction lowers generalizing position state with
  | int | bool =>
    rw [Phrase.Realized, Scope.evaluate]
    exact .done rfl rfl
  | field found =>
    rw [Phrase.Realized, Scope.evaluate, Scope.readName, found]
    exact .done rfl (congrFun agrees.fields _)
  | @var pos name found expected counters resolved notField =>
    rw [Phrase.Realized, Scope.evaluate, scope.readName_of_var resolved notField]
    exact .done rfl (agrees.vars name (.inl (Option.isSome_of_eq_some resolved)))
  | this =>
    rw [Phrase.Realized, Scope.evaluate]
    exact .done rfl (congrArg Value.object agrees.self)
  | arith leftLowers rightLowers left right =>
    rw [Phrase.Realized, Scope.evaluate]
    refine .both leftLowers (left stands.left.left agrees) (right stands.left.right) agrees
      fun final _ => ?_
    refine .assign stands.behindBoth rfl ?_ (by simp [Nat.add_assoc])
    exact scope.not_spares_nextTemp (leftLowers.grows.trans rightLowers.grows).temps
  | index arrayLowers positionLowers array index =>
    rw [Phrase.Realized, Scope.evaluate]
    refine .both arrayLowers (array stands.left.left agrees) (index stands.left.right) agrees
      fun final _ => ?_
    refine .assign stands.behindBoth rfl ?_ (by simp [Nat.add_assoc])
    exact scope.not_spares_nextTemp (arrayLowers.grows.trans positionLowers.grows).temps
  | newObject =>
    rw [Phrase.Realized, Scope.evaluate]
    exact .newObject stands (scope.not_spares_nextTemp (Nat.le_refl _)) rfl
  | newArray sizeLowers size =>
    rw [Phrase.Realized, Scope.evaluate]
    refine (size stands.left agrees).bind (Nat.le_refl _) fun count final _ read => ?_
    rw [← read]
    refine .assign stands.behind rfl ?_ (by simp [Nat.add_assoc])
    exact scope.not_spares_nextTemp sizeLowers.grows.temps
  | length arrayLowers array =>
    rw [Phrase.Realized, Scope.evaluate]
    refine (array stands.left agrees).bind (Nat.le_refl _) fun value final _ read => ?_
    rw [← read]
    refine .assign stands.behind rfl ?_ (by simp [Nat.add_assoc])
    exact scope.not_spares_nextTemp arrayLowers.grows.temps
  | callValue =>
    rw [Phrase.Realized, Scope.evaluate]
    exact .stuck
  | arrayLiteral _ pack =>
    rw [Phrase.Realized, Scope.evaluate]
    exact pack stands agrees
  | paren _ inner =>
    rw [Phrase.Realized, Scope.evaluate]
    exact inner stands agrees
  | materialize branching jumpLowers jump =>
    have diamondStands := stands.right
    rw [Phrase.Realized, scope.evaluate_of_isBranching source branching]
    have trueAt := labelPosition?_eq once diamondStands.tail.tail.tail.head
    have falseAt := labelPosition?_eq once diamondStands.head
    refine Realizes.bind (jump stands.left agrees _ _ trueAt falseAt) ?_ fun taken final _ _ => ?_
    · exact ((grows_afterLabel _).trans (grows_afterTemp scope _)).temps
    · rw [List.length_append, ← Nat.add_assoc]
      exact .diamond diamondStands once (scope.not_spares_nextTemp (Nat.le_refl _)) taken
  | @decided pos value onTrue onFalse counters =>
    intro holds fails trueAt falseAt
    rw [Scope.test_bool]
    refine .ofReaches state (.single stands.head ?_) (.refl _ _ _) rfl trivial
    cases value with
    | true => simp [Instr.perform, jumpTo, trueAt]
    | false => simp [Instr.perform, jumpTo, falseAt]
  | less leftLowers rightLowers left right =>
    intro holds fails trueAt falseAt
    rw [Scope.test_less]
    refine .both leftLowers (left stands.left.left agrees) (right stands.left.right) agrees
      fun final _ => ?_
    have branchStands := stands.right
    rw [List.length_append, ← Nat.add_assoc] at branchStands
    exact .branch branchStands trueAt falseAt
  | and leftLowers rightLowers left right =>
    intro holds fails trueAt falseAt
    rw [Scope.test_and]
    have middleAt := labelPosition?_eq once stands.behind
    refine Realizes.bind (left stands.left agrees _ fails middleAt falseAt) (Nat.le_refl _)
      fun taken final keeps _ => ?_
    cases taken with
    | true =>
      have rightRealized := right stands.right.tail (agrees.trans (keeps.mono (Nat.zero_le _)))
      exact .label stands.behind
        (Realizes.mono (rightRealized holds fails trueAt falseAt) leftLowers.grows.temps)
    | false => exact .done rfl trivial
  | or leftLowers rightLowers left right =>
    intro holds fails trueAt falseAt
    rw [Scope.test_or]
    have middleAt := labelPosition?_eq once stands.behind
    refine Realizes.bind (left stands.left agrees holds _ trueAt middleAt) (Nat.le_refl _)
      fun taken final keeps _ => ?_
    cases taken with
    | true => exact .done rfl trivial
    | false =>
      have rightRealized := right stands.right.tail (agrees.trans (keeps.mono (Nat.zero_le _)))
      exact .label stands.behind
        (Realizes.mono (rightRealized holds fails trueAt falseAt) leftLowers.grows.temps)
  | not _ operand =>
    intro holds fails trueAt falseAt
    rw [Scope.test_not]
    refine Realizes.bind (operand stands agrees fails holds falseAt trueAt) (Nat.le_refl _)
      fun taken final _ _ => .done ?_ trivial
    cases taken <;> rfl
  | parenJump _ inner =>
    intro holds fails trueAt falseAt
    rw [Scope.test, Scope.evaluate]
    exact inner stands agrees holds fails trueAt falseAt
  | nonZero _ valueLowers value =>
    intro holds fails trueAt falseAt
    rw [Scope.test]
    refine (value stands.left agrees).bind (Nat.le_refl _) fun result final _ read => ?_
    rw [← read]
    exact .branch stands.right trueAt falseAt
  | filled =>
    intro stable
    rw [Scope.evaluateInto]
    exact .done rfl trivial
  | fillMore firstLowers restLowers first rest =>
    intro stable
    rw [Scope.evaluateInto]
    refine Realizes.bind (first stands.left agrees) (Nat.le_refl _) fun value middle keeps read => ?_
    have middleAgrees := agrees.trans (keeps.mono (Nat.zero_le _))
    rw [← keeps.read stable, ← read]
    refine Realizes.bind (.store stands.behind rfl rfl) firstLowers.grows.temps
      fun _ final storeKeeps _ => ?_
    have finalAgrees := middleAgrees.trans (storeKeeps.mono (Nat.zero_le _))
    have stableLater := stable.mono firstLowers.grows.temps
    rw [← storeKeeps.read stableLater, StandsAt.finish_around]
    exact Realizes.mono (rest stands.right.tail finalAgrees stableLater) firstLowers.grows.temps
  | @pack element items before after fillCode fillLowers fill =>
    have fresh := scope.not_spares_nextTemp (Nat.le_refl before.temps)
    refine Realizes.bind (.assign stands.head rfl fresh rfl) (Nat.le_refl _)
      fun array middle keeps read => ?_
    have middleAgrees := agrees.trans (keeps.mono (Nat.zero_le _))
    have fillRealized := fill stands.tail middleAgrees (scope.spares_nextTemp before)
    rw [Operand.read, read] at fillRealized
    refine Realizes.bind fillRealized (grows_afterTemp scope before).temps
      fun _ final fillKeeps _ => .done ?_ ?_
    · rw [List.length_cons]
      omega
    · exact (fillKeeps.vars _ (scope.spares_nextTemp before)).trans read
  | _ => trivial

end JavaMinus
