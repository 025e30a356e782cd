/-
This file lets runs of three-address code go on behind calls. What a called
method does is not known: it may change the heap and the fields of the receiver
in any way and yield any value, but it does not reach the variables of the method
that calls it. A run is given the fields that calls may touch; if these are all
fields, nothing at all is known about them behind a call.

A run approaches a place when it has not been there before. So a run that
approaches the place behind some code, and that cannot leave this code anywhere
else, is inside it all the time.
-/

import JavaMinus.Proofs.Semantics.Flow

namespace JavaMinus

/-! ### Runs with calls -/

/-- What a call may leave: another heap, and other values in the touched fields. -/
structure State.Disturbed (touched : Set String) (state state' : State) : Prop where
  self : state'.self = state.self
  vars : state'.vars = state.vars
  fields : ∀ name, name ∉ touched → state'.fields name = state.fields name

/-- Where a run can go next if calls may touch some fields. -/
inductive Moves (touched : Set String) (code : List Instr) : Point → Point → Prop
  | step {point next} (advances : advance code point = some next) : Moves touched code point next
  | call {position instr invocation state state'} (fetched : code[position]? = some instr)
      (isCall : instr = .call invocation ∨ instr = .discard (.call invocation))
      (disturbed : State.Disturbed touched state state') :
      Moves touched code (.before position state) (.before (position + 1) state')
  | callValue {position dest invocation ty state state'} (value : Value)
      (fetched : code[position]? = some (.assign dest (.call invocation) ty))
      (disturbed : State.Disturbed touched state state') :
      Moves touched code (.before position state)
        (.before (position + 1) (state'.setVar dest value))

/-- The run stands before the instruction at this position. -/
def Point.IsAt (position : Nat) : Point → Prop
  | .before place _ => place = position
  | .ended _ _ => False

/-- Where a run can come to that has not been at the goal before. -/
def Approaches (touched : Set String) (code : List Instr) (goal : Nat) : Point → Point → Prop :=
  Relation.ReflTransGen fun point next => ¬ point.IsAt goal ∧ Moves touched code point next

/-! ### What a step can do -/

namespace Instr

/-- The variable that an instruction writes. -/
def written : Instr → List String
  | .assign dest _ _ => [dest]
  | _ => []

/-- The field that an instruction writes. -/
def writtenField : Instr → List String
  | .putField _ field _ _ => [field]
  | _ => []

/-- An instruction changes only what it writes and what a call may touch. -/
structure Changes (touched : Set String) (instr : Instr) (state state' : State) : Prop where
  self : state'.self = state.self
  vars : ∀ name, name ∉ instr.written → state'.vars name = state.vars name
  fields : ∀ name, name ∉ instr.writtenField → name ∉ touched →
    state'.fields name = state.fields name

end Instr

/-- An action that goes on changes only the heap before what comes next. -/
theorem proceed_eq_before {α : Type} {state state' : State} {action : Exec α}
    {next : α → State → Option Point} {position : Nat}
    (goesOn : proceed state action next = some (.before position state')) :
    ∃ result heap, next result { state with heap := heap } = some (.before position state') := by
  rw [proceed, State.act] at goesOn
  split at goesOn
  · exact ⟨_, _, goesOn⟩
  · cases Option.some.inj goesOn
  · cases goesOn

/-- A jump leads to its label, in the same state. -/
theorem jumpTo_eq_before {code : List Instr} {target : Label} {state state' : State}
    {position : Nat} (jumps : jumpTo code target state = some (.before position state')) :
    labelPosition? code target = some position ∧ state' = state := by
  obtain ⟨place, found, same⟩ := Option.map_eq_some_iff.mp jumps
  obtain ⟨rfl, rfl⟩ := Point.before.inj same
  exact ⟨found, rfl⟩

/-- An instruction that is performed leads to one of its successors, and changes only what it
writes. -/
theorem changes_of_perform {touched : Set String} {code : List Instr} {instr : Instr}
    {position next : Nat} {state state' : State}
    (performed : instr.perform code position state = some (.before next state')) :
    next ∈ instr.successors code position ∧ instr.Changes touched state state' := by
  cases instr with
  | assign dest rhs ty =>
    obtain ⟨result, heap, same⟩ := proceed_eq_before performed
    obtain ⟨rfl, rfl⟩ := Point.before.inj (Option.some.inj same)
    refine ⟨List.mem_singleton_self _, rfl, fun name other => ?_, fun _ _ _ => rfl⟩
    exact State.setVar_vars_of_ne _ _ (fun same => other (List.mem_singleton.mpr same))
  | putField receiver field ty stored =>
    rw [Instr.perform] at performed
    split at performed
    · obtain ⟨rfl, rfl⟩ := Point.before.inj (Option.some.inj performed)
      refine ⟨List.mem_singleton_self _, rfl, fun _ _ => rfl, fun name other _ => ?_⟩
      exact Function.update_of_ne (fun same => other (List.mem_singleton.mpr same)) ..
    · cases performed
  | storeElement array index stored =>
    obtain ⟨result, heap, same⟩ := proceed_eq_before performed
    obtain ⟨rfl, rfl⟩ := Point.before.inj (Option.some.inj same)
    exact ⟨List.mem_singleton_self _, rfl, fun _ _ => rfl, fun _ _ _ => rfl⟩
  | label place =>
    obtain ⟨rfl, rfl⟩ := Point.before.inj (Option.some.inj performed)
    exact ⟨List.mem_singleton_self _, rfl, fun _ _ => rfl, fun _ _ _ => rfl⟩
  | goto target =>
    obtain ⟨found, rfl⟩ := jumpTo_eq_before performed
    refine ⟨?_, rfl, fun _ _ => rfl, fun _ _ _ => rfl⟩
    rw [Instr.successors, found]
    exact List.mem_singleton_self _
  | branch condition target =>
    obtain ⟨taken, heap, same⟩ := proceed_eq_before performed
    split at same
    · obtain ⟨found, rfl⟩ := jumpTo_eq_before same
      refine ⟨?_, rfl, fun _ _ => rfl, fun _ _ _ => rfl⟩
      rw [Instr.successors, found]
      exact List.mem_cons_of_mem _ (List.mem_singleton_self _)
    · obtain ⟨rfl, rfl⟩ := Point.before.inj (Option.some.inj same)
      exact ⟨List.mem_cons_self, rfl, fun _ _ => rfl, fun _ _ _ => rfl⟩
  | call invocation =>
    rw [Instr.perform] at performed
    split at performed
    · split at performed
      · obtain ⟨rfl, rfl⟩ := Point.before.inj (Option.some.inj performed)
        exact ⟨List.mem_singleton_self _, rfl, fun _ _ => rfl, fun _ _ _ => rfl⟩
      · cases performed
    · cases performed
  | ret result ty => cases Option.some.inj performed
  | _ => cases performed

/-- A run goes on to a successor of the instruction it stands before, and the instruction changes
only what it writes and what calls may touch. -/
theorem Moves.changes {touched : Set String} {code : List Instr} {position next : Nat}
    {state state' : State}
    (moves : Moves touched code (.before position state) (.before next state')) :
    ∃ instr, code[position]? = some instr ∧ next ∈ instr.successors code position ∧
      instr.Changes touched state state' := by
  cases moves with
  | step advances =>
    rw [advance] at advances
    split at advances
    · next instr fetched => exact ⟨instr, fetched, changes_of_perform advances⟩
    · cases Option.some.inj advances
  | call fetched isCall disturbed =>
    refine ⟨_, fetched, ?_, disturbed.self, fun name _ => congrFun disturbed.vars name,
      fun name _ => disturbed.fields name⟩
    rcases isCall with rfl | rfl <;> exact List.mem_singleton_self _
  | @callValue _ dest _ _ _ disturbedState value fetched disturbed =>
    refine ⟨_, fetched, List.mem_singleton_self _, disturbed.self, fun name other => ?_,
      fun name _ => disturbed.fields name⟩
    rw [← congrFun disturbed.vars name]
    exact State.setVar_vars_of_ne _ _ (fun same => other (List.mem_singleton.mpr same))

/-- A run that has ended goes nowhere. -/
theorem not_moves_ended {touched : Set String} {code : List Instr} {ending : Ending} {state : State}
    {next : Point} : ¬ Moves touched code (.ended ending state) next := by
  intro moves
  cases moves with
  | step advances => cases advances

/-! ### Runs through a stretch of code -/

/-- A run that is in a stretch of code stays in it until it comes to its end, and each step on the
way keeps what should be kept. -/
def Stays (touched : Set String) (code : List Instr) (start finish : Nat)
    (keeps : State → State → Prop) : Prop :=
  ∀ ⦃position next : Nat⦄ ⦃state state' : State⦄, start ≤ position → position < finish →
    Moves touched code (.before position state) (.before next state') →
      start ≤ next ∧ next ≤ finish ∧ keeps state state'

namespace Approaches

variable {touched : Set String} {code : List Instr} {start finish goal : Nat}
  {keeps : State → State → Prop}

/-- A run that approaches a goal behind a stretch comes through the end of the stretch, and what
each step keeps is kept until then. -/
theorem through (stays : Stays touched code start finish keeps) (refl : ∀ state, keeps state state)
    (trans : ∀ {first second third}, keeps first second → keeps second third → keeps first third)
    (le : finish ≤ goal) {position : Nat} {state final : State} (enters : start ≤ position)
    (inside : position ≤ finish)
    (run : Approaches touched code goal (.before position state) (.before goal final)) :
    ∃ middle, Approaches touched code goal (.before position state) (.before finish middle) ∧
      Approaches touched code goal (.before finish middle) (.before goal final) ∧
      keeps state middle := by
  -- The induction is on the run from its front: where it stands and in which state changes.
  generalize isStart : Point.before position state = point at run
  induction run using Relation.ReflTransGen.head_induction_on generalizing position state with
  | refl =>
    obtain ⟨rfl, rfl⟩ := Point.before.inj isStart
    obtain rfl := Nat.le_antisymm inside le
    exact ⟨state, .refl, .refl, refl state⟩
  | @head point next step rest inductionHypothesis =>
    subst isStart
    rcases Nat.eq_or_lt_of_le inside with rfl | before
    · exact ⟨state, .refl, .head step rest, refl state⟩
    · cases next with
      | ended ending state' =>
        rcases Relation.ReflTransGen.cases_head rest with same | ⟨_, ⟨-, moves⟩, -⟩
        · cases same
        · exact absurd moves not_moves_ended
      | before next state' =>
        obtain ⟨nextEnters, nextInside, kept⟩ := stays enters before step.2
        obtain ⟨middle, first, second, restKept⟩ := inductionHypothesis nextEnters nextInside rfl
        exact ⟨middle, .head step first, second, trans kept restKept⟩

/-- A run that is at its goal stays there. -/
theorem eq_of_goal {state final : State}
    (run : Approaches touched code goal (.before goal state) (.before goal final)) :
    final = state := by
  rcases Relation.ReflTransGen.cases_head run with same | ⟨_, ⟨notThere, -⟩, -⟩
  · exact (Point.before.inj same).2.symm
  · exact absurd rfl notThere

/-- A run that approaches the end of a stretch keeps what each step in it keeps. -/
theorem kept_of_stays (stays : Stays touched code start goal keeps)
    (refl : ∀ state, keeps state state)
    (trans : ∀ {first second third}, keeps first second → keeps second third → keeps first third)
    (le : start ≤ goal) {state final : State}
    (run : Approaches touched code goal (.before start state) (.before goal final)) :
    keeps state final := by
  obtain ⟨middle, -, rest, kept⟩ :=
    run.through stays refl trans (Nat.le_refl goal) (Nat.le_refl start) le
  rwa [rest.eq_of_goal]

end Approaches

end JavaMinus
