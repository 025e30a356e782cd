/-
The lowering monad. Lowering counts temporaries and labels across a whole class
and appends instructions to the code of the current method. When it fails, the
counters and the instructions stay as they were at the fault: what is lowered
next goes on counting from there. So a step yields its outcome, the counters
after it and the instructions it appended, whether or not it succeeded, and the
code of a phrase is a list of its own that does not depend on what came before
it except through the counters.

The counters are natural numbers and stand for 32-bit words. The two agree while
a class takes fewer than `2 ^ 32` numbers for its temporaries, those that are passed
over because a variable has the name included, and fewer than `2 ^ 32` for its
groups of labels. Behind that a word has no number left to count on to, and
nothing here speaks of what happens then.
-/

import JavaMinus.Typing

namespace JavaMinus

/-- The numbers of the next temporary and of the next group of labels, each below `2 ^ 32` wherever
they stand for words. -/
structure Counters where
  temps : Nat := 0
  labels : Nat := 0
deriving DecidableEq, Repr, Inhabited

/-- The result of a step of lowering. -/
structure Lowered (α : Type) where
  outcome : Except Fault α
  counters : Counters
  code : List Instr

/-- A step of lowering, from the counters before it. -/
def Lower (α : Type) : Type := Counters → Lowered α

namespace Lower

variable {α β : Type}

/-- Go on with the result of a step. The code of both steps is strung together; after a fault
nothing more is done. -/
protected def bind (first : Lower α) (next : α → Lower β) : Lower β := fun counters =>
  let step := first counters
  match step.outcome with
  | .ok result =>
    let rest := next result step.counters
    ⟨rest.outcome, rest.counters, step.code ++ rest.code⟩
  | .error fault => ⟨.error fault, step.counters, step.code⟩

instance : Monad Lower where
  pure result := fun counters => ⟨.ok result, counters, []⟩
  bind := Lower.bind

/-- Append an instruction. -/
def emit (instr : Instr) : Lower Unit := fun counters => ⟨.ok (), counters, [instr]⟩

/-- Stop with a fault. -/
def fail (fault : Fault) : Lower α := fun counters => ⟨.error fault, counters, []⟩

/-- A number for a new group of labels. -/
def labelId : Lower Nat := fun counters =>
  ⟨.ok counters.labels, { counters with labels := counters.labels + 1 }, []⟩

/-- Jump to a place after a step, unless its code already ends in a jump or a return. -/
def joining (target : Label) (body : Lower Unit) : Lower Unit := fun counters =>
  let step := body counters
  match step.outcome with
  | .error _ => step
  | .ok () =>
    if step.code.getLast?.any Instr.endsBlock then step
    else { step with code := step.code ++ [.goto target] }

/-! ### What the steps do -/

@[simp] theorem pure_apply (result : α) (counters : Counters) :
    (pure result : Lower α) counters = ⟨.ok result, counters, []⟩ := rfl

theorem bind_apply (first : Lower α) (next : α → Lower β) (counters : Counters) :
    (first >>= next) counters =
      match (first counters).outcome with
      | .ok result =>
        ⟨(next result (first counters).counters).outcome,
          (next result (first counters).counters).counters,
          (first counters).code ++ (next result (first counters).counters).code⟩
      | .error fault => ⟨.error fault, (first counters).counters, (first counters).code⟩ := rfl

@[simp] theorem emit_apply (instr : Instr) (counters : Counters) :
    emit instr counters = ⟨.ok (), counters, [instr]⟩ := rfl

@[simp] theorem fail_apply (fault : Fault) (counters : Counters) :
    (fail fault : Lower α) counters = ⟨.error fault, counters, []⟩ := rfl

@[simp] theorem labelId_apply (counters : Counters) :
    labelId counters = ⟨.ok counters.labels, { counters with labels := counters.labels + 1 }, []⟩ :=
  rfl

theorem bind_of_ok {first : Lower α} {next : α → Lower β} {counters : Counters} {result : α}
    (ok : (first counters).outcome = .ok result) :
    (first >>= next) counters =
      ⟨(next result (first counters).counters).outcome,
        (next result (first counters).counters).counters,
        (first counters).code ++ (next result (first counters).counters).code⟩ := by
  rw [bind_apply, ok]

theorem bind_of_error {first : Lower α} {next : α → Lower β} {counters : Counters} {fault : Fault}
    (error : (first counters).outcome = .error fault) :
    (first >>= next) counters =
      ⟨.error fault, (first counters).counters, (first counters).code⟩ := by
  rw [bind_apply, error]

/-- A sequence succeeds exactly when its parts do, one after the other. -/
theorem bind_outcome_eq_ok_iff {first : Lower α} {next : α → Lower β} {counters : Counters}
    {final : β} :
    ((first >>= next) counters).outcome = .ok final ↔
      ∃ result, (first counters).outcome = .ok result ∧
        (next result (first counters).counters).outcome = .ok final := by
  rw [bind_apply]
  cases outcome : (first counters).outcome with
  | ok result => simp
  | error fault => simp

instance : LawfulMonad Lower :=
  LawfulMonad.mk' Lower
    (fun step => by
      funext counters
      show (step >>= pure) counters = step counters
      cases outcome : (step counters).outcome with
      | ok result =>
        rw [bind_of_ok outcome, pure_apply, List.append_nil, ← outcome]
      | error fault => rw [bind_of_error outcome, ← outcome])
    (fun result next => by
      funext counters
      rw [bind_apply, pure_apply]
      rfl)
    (fun step next last => by
      funext counters
      cases outcome : (step counters).outcome with
      | ok result =>
        rw [bind_of_ok outcome, bind_apply, bind_of_ok outcome, bind_apply]
        cases (next result (step counters).counters).outcome with
        | ok _ => simp [List.append_assoc]
        | error _ => rfl
      | error fault =>
        rw [bind_of_error outcome, bind_apply, bind_of_error outcome])

end Lower

/-! ### Temporaries -/

/-- The name of a temporary. -/
def tempName (number : Nat) : String := s!"t{number}"

/-- The first number from a start whose temporary is no variable of the method. Among one more
number than there are names in scope, one is free. -/
def Scope.freeTemp (scope : Scope) (start : Nat) : Nat :=
  let candidates := List.range' start (scope.names.length + 1)
  (candidates.find? fun number => (scope.lookup? (tempName number)).isNone).getD start

/-- A new temporary that hides no variable of the method. -/
def Lower.temp (scope : Scope) : Lower String := fun counters =>
  let number := scope.freeTemp counters.temps
  ⟨.ok (tempName number), { counters with temps := number + 1 }, []⟩

@[simp] theorem Lower.temp_apply (scope : Scope) (counters : Counters) :
    Lower.temp scope counters =
      ⟨.ok (tempName (scope.freeTemp counters.temps)),
        { counters with temps := scope.freeTemp counters.temps + 1 }, []⟩ := rfl

/-- Compute a value into a new temporary. -/
def Lower.store (scope : Scope) (rhs : Instr) (ty : Ty) : Lower Operand := do
  let name ← Lower.temp scope
  Lower.emit (.assign name rhs ty)
  return .var name ty

/-- Storing takes one temporary and appends one instruction. -/
theorem Lower.store_apply (scope : Scope) (rhs : Instr) (ty : Ty) (counters : Counters) :
    Lower.store scope rhs ty counters =
      ⟨.ok (.var (tempName (scope.freeTemp counters.temps)) ty),
        { counters with temps := scope.freeTemp counters.temps + 1 },
        [.assign (tempName (scope.freeTemp counters.temps)) rhs ty]⟩ := rfl

end JavaMinus
