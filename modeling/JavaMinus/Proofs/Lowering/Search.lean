/-
This file follows the search for a free temporary round by round. A round makes the
name of the counter, counts on, and ends the search if no variable of the method has
that name. Nothing in a round bounds the search. It ends because the names that are
tried are all different, so each variable of the method can keep it going for one
round only: the search takes one round more than there are variables, or less.

The counter is a 32-bit word. As long as it has room for one number more than there
are variables, it does not start over, and the search ends at the temporary that
lowering takes: the first one from the counter on that is free.
-/

import Mathlib.Algebra.Ring.Nat
import Mathlib.Logic.Function.Iterate
import Mathlib.Order.Bounds.Defs
import JavaMinus.Proofs.Names

namespace JavaMinus

/-! ### The first free number -/

namespace Scope

/-- The temporary that is taken is the first one that is free. -/
theorem isLeast_freeTemp (scope : Scope) (start : Nat) :
    IsLeast {number | start ≤ number ∧ scope.lookup? (tempName number) = none}
      (scope.freeTemp start) := by
  refine ⟨scope.freeTemp_spec start, fun other ⟨behind, free⟩ => ?_⟩
  rw [freeTemp]
  cases found : (List.range' start (scope.names.length + 1)).find?
      fun number => (scope.lookup? (tempName number)).isNone with
  | none => exact behind
  | some number =>
    obtain ⟨-, -, earlierTaken⟩ := List.find?_range'_eq_some.mp found
    by_contra earlier
    have taken := earlierTaken other behind (Nat.lt_of_not_le earlier)
    simp [free] at taken

/-- The first free number is at most as far away as there are variables. -/
theorem freeTemp_le (scope : Scope) (start : Nat) :
    scope.freeTemp start ≤ start + scope.names.length := by
  obtain ⟨witness, member, free⟩ := scope.exists_free start
  obtain ⟨behind, near⟩ := List.mem_range'_1.mp member
  have least := (scope.isLeast_freeTemp start).2 ⟨behind, Option.isNone_iff_eq_none.mp free⟩
  omega

/-- A number that comes before the first free one is taken. -/
theorem lookup?_isSome_of_lt_freeTemp {scope : Scope} {start number : Nat} (behind : start ≤ number)
    (before : number < scope.freeTemp start) :
    (scope.lookup? (tempName number)).isSome = true := by
  rw [Option.isSome_iff_ne_none]
  intro free
  exact Nat.not_le_of_lt before ((scope.isLeast_freeTemp start).2 ⟨behind, free⟩)

end Scope

/-! ### The search -/

/-- A search for a free temporary: the counter, and the name that was found. -/
structure Search where
  counter : UInt32
  found? : Option String := none
deriving DecidableEq, Repr

namespace Scope

/-- One round of a search. When a name is found, nothing is done any more. -/
def round (scope : Scope) (search : Search) : Search :=
  match search.found? with
  | some _ => search
  | none =>
    let name := tempName search.counter.toNat
    { counter := search.counter + 1
      found? := if (scope.lookup? name).isNone then some name else none }

/-- A search after so many rounds. -/
def search (scope : Scope) (start : UInt32) (rounds : Nat) : Search :=
  scope.round^[rounds] { counter := start }

theorem search_succ (scope : Scope) (start : UInt32) (rounds : Nat) :
    scope.search start (rounds + 1) = scope.round (scope.search start rounds) :=
  Function.iterate_succ_apply' _ _ _

variable {scope : Scope} {start : UInt32}

/-- A round at a name that is taken counts on. -/
theorem round_of_taken {counter : UInt32}
    (taken : (scope.lookup? (tempName counter.toNat)).isSome = true) :
    scope.round { counter } = { counter := counter + 1 } := by
  have notFree : (scope.lookup? (tempName counter.toNat)).isNone = false :=
    Option.isNone_eq_false_iff.mpr taken
  simp only [round, notFree, Bool.false_eq_true, if_false]

/-- A round at a name that is free counts on and ends the search. -/
theorem round_of_free {counter : UInt32}
    (free : scope.lookup? (tempName counter.toNat) = none) :
    scope.round { counter } =
      { counter := counter + 1, found? := some (tempName counter.toNat) } := by
  simp only [round, free, Option.isNone_none, if_true]

/-- A word that has room for a number counts up to it. -/
theorem toNat_add_ofNat (start : UInt32) (rounds : Nat) (room : start.toNat + rounds < 2 ^ 32) :
    (start + UInt32.ofNat rounds).toNat = start.toNat + rounds := by
  rw [UInt32.toNat_add, UInt32.toNat_ofNat', Nat.add_mod_mod, Nat.mod_eq_of_lt room]

/-- Up to the first free number, the search only counts. -/
theorem search_of_le {rounds : Nat} (room : start.toNat + scope.names.length < 2 ^ 32 - 1)
    (notYet : start.toNat + rounds ≤ scope.freeTemp start.toNat) :
    scope.search start rounds = { counter := start + UInt32.ofNat rounds } := by
  induction rounds with
  | zero =>
    rw [search, Function.iterate_zero_apply]
    exact congrArg (Search.mk · none) (UInt32.add_zero start).symm
  | succ rounds inductionHypothesis =>
    have near := scope.freeTemp_le start.toNat
    have number := toNat_add_ofNat start rounds (by omega)
    have taken : (scope.lookup? (tempName (start + UInt32.ofNat rounds).toNat)).isSome = true := by
      rw [number]
      exact lookup?_isSome_of_lt_freeTemp (Nat.le_add_right _ _) (by omega)
    rw [search_succ, inductionHypothesis (by omega), round_of_taken taken, UInt32.add_assoc,
      UInt32.ofNat_add]
    rfl

/-- The search for a free temporary ends, after one round more than there are variables in scope or
earlier. It ends at the first number from the counter on whose temporary is no variable of the
method, and leaves the counter behind that number; this is the temporary that lowering takes. -/
theorem search_ends (scope : Scope) (start : UInt32) (labels : Nat)
    (room : start.toNat + scope.names.length < 2 ^ 32 - 1) :
    ∃ rounds number, rounds ≤ scope.names.length + 1 ∧
      (∀ earlier < rounds, (scope.search start earlier).found? = none) ∧
      (scope.search start rounds).found? = some (tempName number) ∧
      (scope.search start rounds).counter.toNat = number + 1 ∧
      IsLeast {number | start.toNat ≤ number ∧ scope.lookup? (tempName number) = none} number ∧
      Lower.temp scope ⟨start.toNat, labels⟩ = ⟨.ok (tempName number), ⟨number + 1, labels⟩, []⟩ := by
  have behind := scope.le_freeTemp start.toNat
  have near := scope.freeTemp_le start.toNat
  obtain ⟨distance, isDistance⟩ := Nat.exists_eq_add_of_le behind
  have number := toNat_add_ofNat start distance (by omega)
  have free : scope.lookup? (tempName (start + UInt32.ofNat distance).toNat) = none := by
    rw [number, ← isDistance]
    exact scope.lookup?_freeTemp start.toNat
  have last : scope.search start (distance + 1) =
      { counter := start + UInt32.ofNat (distance + 1)
        found? := some (tempName (scope.freeTemp start.toNat)) } := by
    rw [search_succ, search_of_le room (by omega), round_of_free free, number, isDistance,
      UInt32.add_assoc, UInt32.ofNat_add]
    rfl
  refine ⟨distance + 1, scope.freeTemp start.toNat, by omega, fun earlier before => ?_, ?_, ?_,
    scope.isLeast_freeTemp start.toNat, rfl⟩
  · rw [search_of_le room (by omega)]
  · rw [last]
  · rw [last, toNat_add_ofNat start (distance + 1) (by omega)]
    omega

/-- A method in whose scope a field, a parameter and two locals are called like temporaries with
numbers that the counter only just holds. The parameter and one of the locals share their name. -/
def brimful : Scope where
  table :=
    { className := "A"
      superClass := none
      imports := []
      fields := [⟨"t4294967291", .int⟩]
      methods := [] }
  method :=
    { name := "f"
      returnType := .void
      params := [⟨"t4294967290", .int⟩]
      locals := [⟨"t4294967293", .int⟩, ⟨"t4294967290", .boolean⟩]
      isStatic := false
      isPublic := true
      isVarargs := false
      pos := .nowhere }

/-- The search skips the parameter and the field and ends in front of the local. -/
theorem search_ends_brimful :
    (4294967290 : UInt32).toNat + brimful.names.length < 2 ^ 32 - 1 ∧
      ∃ rounds ≤ brimful.names.length + 1,
        (brimful.search 4294967290 rounds).found? = some "t4294967292" ∧
        (brimful.search 4294967290 rounds).counter.toNat = 4294967293 := by
  have room : (4294967290 : UInt32).toNat + brimful.names.length < 2 ^ 32 - 1 := by decide
  obtain ⟨rounds, number, few, -, found, counter, -, taken⟩ := brimful.search_ends 4294967290 0 room
  have isNumber : number + 1 = 4294967293 :=
    (congrArg (fun step => step.counters.temps) taken).symm.trans (by decide +kernel)
  obtain rfl := Nat.succ.inj isNumber
  exact ⟨room, rounds, few, found, counter⟩

end Scope

end JavaMinus
