/-
This file shows that the names the lowering makes up are new. A temporary is the
letter `t` with a number, and a label is a family, such as `then_`, with a
number; both numbers are written in decimal digits, so a name determines its
number. Temporaries are numbered on from a counter, skipping those that a
variable of the method is called by. A scope has finitely many names and the
candidates are all different, so the search for the next free one always
succeeds. Labels need no search: nothing but labels is called like them.
-/

import Mathlib.Data.List.Nodup
import Mathlib.Data.List.Perm.Subperm
import JavaMinus.Lowering.Basic

namespace JavaMinus

/-! ### Numerals -/

theorem toDigits_injective : Function.Injective (Nat.toDigits 10) := by
  intro first second same
  have value := congrArg (fun digits => Nat.ofDigitChars 10 digits 0) same
  simpa only [Nat.ofDigitChars_ten_toDigits] using value

theorem toList_toString (number : Nat) : (toString number).toList = Nat.toDigits 10 number :=
  Nat.toList_repr

/-- Different numbers make different temporaries. -/
theorem tempName_injective : Function.Injective tempName := by
  intro first second same
  have letters := congrArg String.toList same
  simp only [tempName, toString, String.toList_append, List.append_cancel_left_eq] at letters
  exact toDigits_injective (by rwa [← Nat.toList_repr, ← Nat.toList_repr])

/-- No temporary is called `this`: after the letter comes a digit. -/
theorem tempName_ne_this (number : Nat) : tempName number ≠ "this" := by
  intro same
  have letters := congrArg String.toList same
  have digits : Nat.toDigits 10 number = ['h', 'i', 's'] := by
    rw [tempName, String.toList_append, toList_toString] at letters
    exact (List.cons_inj_right _).mp letters
  have digit : Char.isDigit 'h' = true :=
    Nat.isDigit_of_mem_toDigits (b := 10) (n := number) (by decide) (by decide)
      (by rw [digits]; exact List.mem_cons_self)
  exact absurd digit (by decide)

/-! ### Labels -/

namespace Label

/-- The label of a family with a number. -/
def numbered (family : String) (number : Nat) : Label := ⟨family ++ toString number⟩

/-- The digits that a label ends in, last one first. -/
def numeral (label : Label) : List Char := label.name.toList.reverse.takeWhile Char.isDigit

/-- A family that does not end in a digit leaves the digits of the number alone. -/
theorem numeral_numbered {family : String} (number : Nat)
    (separated : family.toList.reverse.head?.all (fun char => !char.isDigit) = true) :
    (numbered family number).numeral = (Nat.toDigits 10 number).reverse := by
  have digits : ∀ char ∈ (Nat.toDigits 10 number).reverse, char.isDigit = true := by
    intro char member
    exact Nat.isDigit_of_mem_toDigits (by decide) (by decide) (List.mem_reverse.mp member)
  rw [numeral, numbered, String.toList_append, List.reverse_append, toList_toString,
    List.takeWhile_append_of_pos digits]
  cases letters : family.toList.reverse with
  | nil => rw [List.takeWhile_nil, List.append_nil]
  | cons last rest =>
    rw [letters, List.head?_cons, Option.all_some, Bool.not_eq_true'] at separated
    rw [List.takeWhile_cons_of_neg (by simp [separated]), List.append_nil]

/-- A label whose number lies in a range, from the first bound up to but without the second. -/
def Within (lower upper : Nat) (label : Label) : Prop :=
  ∃ number, lower ≤ number ∧ number < upper ∧ label.numeral = (Nat.toDigits 10 number).reverse

theorem Within.mono {lower upper lower' upper' : Nat} {label : Label}
    (within : label.Within lower upper) (below : lower' ≤ lower) (above : upper ≤ upper') :
    label.Within lower' upper' := by
  obtain ⟨number, lowerBound, upperBound, digits⟩ := within
  exact ⟨number, Nat.le_trans below lowerBound, Nat.lt_of_lt_of_le upperBound above, digits⟩

/-- Labels from ranges that do not overlap are different. -/
theorem Within.ne {lower middle upper : Nat} {first second : Label}
    (firstWithin : first.Within lower middle) (secondWithin : second.Within middle upper) :
    first ≠ second := by
  rintro rfl
  obtain ⟨firstNumber, -, firstBound, firstDigits⟩ := firstWithin
  obtain ⟨secondNumber, secondBound, -, secondDigits⟩ := secondWithin
  have same : firstNumber = secondNumber := by
    apply toDigits_injective
    rw [← List.reverse_inj, ← firstDigits, ← secondDigits]
  omega

theorem within_numbered {family : String} (number : Nat)
    (separated : family.toList.reverse.head?.all (fun char => !char.isDigit) = true) :
    (numbered family number).Within number (number + 1) :=
  ⟨number, Nat.le_refl number, Nat.lt_succ_self number, numeral_numbered number separated⟩

/-- Labels of different families with one number are different. -/
theorem numbered_ne {first second : String} (number : Nat) (different : first ≠ second) :
    numbered first number ≠ numbered second number := by
  intro same
  simp only [numbered, Label.mk.injEq] at same
  exact different ((String.append_left_inj (toString number)).mp same)

end Label

/-! ### Free temporaries -/

namespace Scope

theorem param?_isSome_iff (signature : Signature) (name : String) :
    (signature.param? name).isSome ↔ name ∈ signature.params.map Binding.name := by
  rw [Signature.param?]
  cases found : signature.params.findIdx? fun param => param.name == name with
  | none =>
    have absent := List.findIdx?_eq_none_iff.mp found
    simp only [Option.bind_eq_bind, Option.bind_none, Option.isSome_none, Bool.false_eq_true,
      List.mem_map, false_iff, not_exists, not_and]
    intro param member same
    have different := absent param member
    simp [same] at different
  | some position =>
    obtain ⟨bound, holds, -⟩ := List.findIdx?_eq_some_iff_getElem.mp found
    simp only [Option.bind_eq_bind, Option.bind_some, List.getElem?_eq_getElem bound,
      Option.pure_def, Option.isSome_some, List.mem_map, true_iff]
    exact ⟨signature.params[position], List.getElem_mem bound, by simpa using holds⟩

theorem local?_isSome_iff (signature : Signature) (name : String) :
    (signature.local? name).isSome ↔ name ∈ signature.locals.map Binding.name := by
  simp [Signature.local?, List.find?_isSome]

/-- A name stands for a field, for a parameter or for a local, and is found as one. -/
theorem lookup?_cases {scope : Scope} {name : String} {found : Variable}
    (resolved : scope.lookup? name = some found) :
    (∃ binding, found = .field binding ∧ scope.method.isStatic = false ∧
      scope.table.field? name = some binding) ∨
    (∃ position binding, found = .param position binding ∧
      scope.method.param? name = some (position, binding)) ∨
    (∃ binding, found = .loc binding ∧ scope.method.local? name = some binding) := by
  simp only [lookup?, Option.orElse_eq_orElse, Option.orElse_eq_or, Option.or_eq_some_iff,
    Option.map_eq_some_iff] at resolved
  rcases resolved with ⟨binding, found, rfl⟩ | ⟨-, ⟨⟨position, binding⟩, found, rfl⟩ |
    ⟨-, binding, found, rfl⟩⟩
  · cases isStatic : scope.method.isStatic with
    | true => simp [isStatic] at found
    | false => exact .inl ⟨binding, rfl, rfl, by simpa [isStatic] using found⟩
  · exact .inr (.inl ⟨position, binding, rfl, found⟩)
  · exact .inr (.inr ⟨binding, rfl, found⟩)

/-- A name stands for a variable exactly if it is one of the names of the scope. -/
theorem lookup?_isSome_iff (scope : Scope) (name : String) :
    (scope.lookup? name).isSome ↔ name ∈ scope.names := by
  have params := param?_isSome_iff scope.method name
  have locals := local?_isSome_iff scope.method name
  rw [List.mem_map] at params locals
  cases isStatic : scope.method.isStatic with
  | true =>
    simp [lookup?, names, isStatic, params, locals]
  | false =>
    simp [lookup?, names, isStatic, params, locals, ClassTable.field?, List.find?_isSome]

/-- The name of a variable that is no field is that of a parameter or of a local. -/
theorem mem_declared_of_lookup? {scope : Scope} {name : String} {found : Variable}
    (resolved : scope.lookup? name = some found) (notField : found.isField = false) :
    name ∈ (scope.method.params ++ scope.method.locals).map Binding.name := by
  rw [List.map_append, List.mem_append]
  rcases lookup?_cases resolved with ⟨_, rfl, -⟩ | ⟨_, _, -, param⟩ | ⟨_, -, isLocal⟩
  · cases notField
  · exact .inl ((param?_isSome_iff scope.method name).mp (Option.isSome_of_eq_some param))
  · exact .inr ((local?_isSome_iff scope.method name).mp (Option.isSome_of_eq_some isLocal))

/-- Among one more number than there are names, some number is free. -/
theorem exists_free (scope : Scope) (start : Nat) :
    ∃ number ∈ List.range' start (scope.names.length + 1),
      (scope.lookup? (tempName number)).isNone := by
  by_contra taken
  push Not at taken
  have contained : (List.range' start (scope.names.length + 1)).map tempName ⊆ scope.names := by
    intro name member
    obtain ⟨number, inRange, rfl⟩ := List.mem_map.mp member
    refine (lookup?_isSome_iff scope _).mp ?_
    have busy := taken number inRange
    rwa [ne_eq, Bool.not_eq_true, Option.isNone_eq_false_iff] at busy
  have distinct : ((List.range' start (scope.names.length + 1)).map tempName).Nodup :=
    List.Nodup.map tempName_injective List.nodup_range'
  have count := (distinct.subperm contained).length_le
  rw [List.length_map, List.length_range'] at count
  omega

/-- The next free temporary is numbered from the counter on, and no variable has its name. -/
theorem freeTemp_spec (scope : Scope) (start : Nat) :
    start ≤ scope.freeTemp start ∧ scope.lookup? (tempName (scope.freeTemp start)) = none := by
  obtain ⟨witness, member, free⟩ := scope.exists_free start
  rw [freeTemp]
  cases found : (List.range' start (scope.names.length + 1)).find?
      fun number => (scope.lookup? (tempName number)).isNone with
  | none => exact absurd free (by simpa using List.find?_eq_none.mp found witness member)
  | some number =>
    have free := List.find?_some found
    refine ⟨?_, Option.isNone_iff_eq_none.mp free⟩
    exact (List.mem_range'_1.mp (List.mem_of_find?_eq_some found)).1

theorem le_freeTemp (scope : Scope) (start : Nat) : start ≤ scope.freeTemp start :=
  (scope.freeTemp_spec start).1

theorem lookup?_freeTemp (scope : Scope) (start : Nat) :
    scope.lookup? (tempName (scope.freeTemp start)) = none :=
  (scope.freeTemp_spec start).2

end Scope

end JavaMinus
