/-
This file shows that what lowering makes up does not get in the way of anything
else. The counters only grow, so the code of a phrase takes its temporaries and
labels from the range between the counters before and after it. The operand that
holds a value is a constant, a field, the receiver, a declared variable, or a
temporary from below the counter: what is lowered later leaves it alone. Every
label is placed once in the code of a phrase, so in the code of a whole body it
can be found by name only where it was placed.
-/

import Mathlib.Data.List.Nodup
import JavaMinus.Proofs.Lowering.Derivation
import JavaMinus.Proofs.Semantics.Code

namespace JavaMinus

/-! ### The counters grow -/

namespace Counters

/-- Both counters stay or grow. -/
structure Grows (before after : Counters) : Prop where
  temps : before.temps ≤ after.temps
  labels : before.labels ≤ after.labels

theorem Grows.refl (counters : Counters) : Grows counters counters :=
  ⟨Nat.le_refl _, Nat.le_refl _⟩

theorem Grows.trans {first second third : Counters} (start : Grows first second)
    (rest : Grows second third) : Grows first third :=
  ⟨Nat.le_trans start.temps rest.temps, Nat.le_trans start.labels rest.labels⟩

theorem grows_afterLabel (counters : Counters) : Grows counters counters.afterLabel :=
  ⟨Nat.le_refl _, Nat.le_succ _⟩

theorem grows_afterTemp (scope : Scope) (counters : Counters) :
    Grows counters (scope.afterTemp counters) :=
  ⟨Nat.le_succ_of_le (scope.le_freeTemp _), Nat.le_refl _⟩

end Counters

open Counters

theorem Lowers.grows {scope : Scope} {phrase : Phrase} {before after : Counters}
    {code : List Instr} (lowers : Lowers scope phrase before code after) : Grows before after := by
  induction lowers with
  | int | bool | field | var | this | decided | noValues | filled | implicitStatic | implicitThis
  | onThis | onClass | returnNothing | noStmts => exact .refl _
  | newObject => exact grows_afterTemp scope _
  | newArray _ grows | length _ grows | callValue _ _ grows =>
    exact grows.trans (grows_afterTemp scope _)
  | arith _ _ first second | index _ _ first second =>
    exact (first.trans second).trans (grows_afterTemp scope _)
  | arrayLiteral _ grows | paren _ grows | not _ grows | parenJump _ grows | nonZero _ _ grows
  | onValue _ _ _ grows | block _ grows | evalCall _ _ grows | eval _ _ grows
  | assignField _ _ _ grows | assignVariable _ _ _ _ grows | returnValue _ grows => exact grows
  | materialize _ _ grows =>
    exact ((grows_afterLabel _).trans (grows_afterTemp scope _)).trans grows
  | less _ _ first second | moreValues _ _ first second | fillMore _ _ first second
  | unbound _ _ _ first second | bound _ _ _ _ first second | passed _ _ _ _ _ _ first second
  | moreStmts _ _ first second => exact first.trans second
  | and _ _ first second | or _ _ first second | ifThen _ _ first second
  | whileLoop _ _ first second => exact (grows_afterLabel _).trans (first.trans second)
  | pack _ grows => exact (grows_afterTemp scope _).trans grows
  | packed _ _ _ _ _ _ first second third | assignElement _ _ _ _ first second third =>
    exact first.trans (second.trans third)
  | ifElse _ _ _ first second third =>
    exact (grows_afterLabel _).trans (first.trans (second.trans third))

/-! ### Values are held where they stay -/

namespace Scope

/-- The variables that code with temporaries from a bound on leaves alone: those whose names are
declared, and earlier temporaries. -/
def Spares (scope : Scope) (bound : Nat) (name : String) : Prop :=
  (scope.lookup? name).isSome ∨ ∃ number < bound, name = tempName number

theorem Spares.mono {scope : Scope} {bound larger : Nat} {name : String}
    (spares : scope.Spares bound name) (le : bound ≤ larger) : scope.Spares larger name := by
  rcases spares with declared | ⟨number, below, named⟩
  · exact .inl declared
  · exact .inr ⟨number, Nat.lt_of_lt_of_le below le, named⟩

/-- The next temporary is not spared by what is lowered from an earlier count on. -/
theorem not_spares_nextTemp (scope : Scope) {bound : Nat} {counters : Counters}
    (le : bound ≤ counters.temps) : ¬ scope.Spares bound (scope.nextTemp counters) := by
  rintro (declared | ⟨number, below, named⟩)
  · rw [nextTemp, scope.lookup?_freeTemp] at declared
    cases declared
  · have same := tempName_injective named
    have later := scope.le_freeTemp counters.temps
    omega

/-- Once it is taken, it is. -/
theorem spares_nextTemp (scope : Scope) (counters : Counters) :
    scope.Spares (scope.afterTemp counters).temps (scope.nextTemp counters) :=
  .inr ⟨_, Nat.lt_succ_self _, rfl⟩

end Scope

/-- The operand keeps its value while the variables that are spared keep theirs. -/
def Operand.Stable (scope : Scope) (bound : Nat) : Operand → Prop
  | .var name _ => scope.Spares bound name
  | _ => True

theorem Operand.Stable.mono {scope : Scope} {bound larger : Nat} {operand : Operand}
    (stable : operand.Stable scope bound) (le : bound ≤ larger) : operand.Stable scope larger := by
  cases operand with
  | var name ty => exact Scope.Spares.mono stable le
  | literal _ _ | field _ _ | this _ => trivial

/-- What a phrase leaves keeps its value. -/
def Phrase.Stable (scope : Scope) (bound : Nat) : Phrase → Prop
  | .value _ _ result | .pack _ _ result => result.Stable scope bound
  | _ => True

theorem Lowers.stable {scope : Scope} {phrase : Phrase} {before after : Counters}
    {code : List Instr} (lowers : Lowers scope phrase before code after) :
    phrase.Stable scope after.temps := by
  induction lowers with
  | var resolved => exact .inl (Option.isSome_of_eq_some resolved)
  | arith | newObject | newArray | index | length | callValue => exact scope.spares_nextTemp _
  | arrayLiteral _ stable | paren _ stable => exact stable
  | materialize _ jumpLowers => exact (scope.spares_nextTemp _).mono jumpLowers.grows.temps
  | pack fillLowers => exact (scope.spares_nextTemp _).mono fillLowers.grows.temps
  | _ => trivial

/-! ### Labels are placed once -/

/-- The labels that code places. -/
def placed (code : List Instr) : List Label :=
  code.filterMap fun instr =>
    match instr with
    | .label place => some place
    | _ => none

@[simp] theorem placed_append (first second : List Instr) :
    placed (first ++ second) = placed first ++ placed second :=
  List.filterMap_append

@[simp] theorem placed_label (place : Label) (code : List Instr) :
    placed (.label place :: code) = place :: placed code := rfl

@[simp] theorem placed_nil : placed [] = [] := rfl

/-- An instruction that is no label places none. -/
@[simp] theorem placed_cons {instr : Instr} {code : List Instr}
    (other : ∀ place, instr ≠ .label place) :
    placed (instr :: code) = placed code := by
  rw [placed, List.filterMap_cons_none]
  · rfl
  · cases instr with
    | label place => exact absurd rfl (other place)
    | _ => rfl

@[simp] theorem placed_joined (target : Label) (code : List Instr) :
    placed (Lower.joined target code) = placed code := by
  rw [Lower.joined]
  split
  · rfl
  · rw [placed_append, placed_cons (by simp), placed_nil, List.append_nil]

theorem mem_placed {code : List Instr} {place : Label} :
    place ∈ placed code ↔ Instr.label place ∈ code := by
  rw [placed, List.mem_filterMap]
  constructor
  · rintro ⟨instr, member, found⟩
    split at found
    · next other =>
      rw [Option.some_inj] at found
      rwa [found] at member
    · cases found
  · exact fun member => ⟨_, member, rfl⟩

/-- A label that is placed only once is found where it stands. -/
theorem labelPosition?_eq {code : List Instr} {position : Nat} {place : Label}
    (once : (placed code).Nodup) (stands : code[position]? = some (.label place)) :
    labelPosition? code place = some position := by
  induction code generalizing position with
  | nil => cases stands
  | cons instr rest inductionHypothesis =>
    rw [labelPosition?, List.findIdx?_cons]
    cases position with
    | zero =>
      rw [List.getElem?_cons_zero, Option.some_inj] at stands
      simp [stands]
    | succ position =>
      rw [List.getElem?_cons_succ] at stands
      have member : place ∈ placed rest := mem_placed.mpr (List.mem_of_getElem? stands)
      by_cases first : instr = .label place
      · rw [first, placed_label, List.nodup_cons] at once
        exact absurd member once.1
      · have restOnce : (placed rest).Nodup := by
          cases instr with
          | label other => exact (List.nodup_cons.mp once).2
          | _ => exact once
        have found := inductionHypothesis restOnce stands
        rw [labelPosition?] at found
        simp [first, found]

/-- Different labels with numbers from a range. -/
structure FreshLabels (lower upper : Nat) (labels : List Label) : Prop where
  nodup : labels.Nodup
  within : ∀ label ∈ labels, label.Within lower upper

namespace FreshLabels

variable {lower middle upper : Nat} {first second : List Label}

theorem nil (lower upper : Nat) : FreshLabels lower upper [] :=
  ⟨List.nodup_nil, fun _ member => nomatch member⟩

/-- Labels from two ranges side by side. -/
theorem append (start : FreshLabels lower middle first) (rest : FreshLabels middle upper second)
    (below : lower ≤ middle) (above : middle ≤ upper) :
    FreshLabels lower upper (first ++ second) := by
  constructor
  · rw [List.nodup_append]
    refine ⟨start.nodup, rest.nodup, fun one inFirst other inSecond => ?_⟩
    exact (start.within one inFirst).ne (rest.within other inSecond)
  · intro label member
    rcases List.mem_append.mp member with inFirst | inSecond
    · exact (start.within label inFirst).mono (Nat.le_refl _) above
    · exact (rest.within label inSecond).mono below (Nat.le_refl _)

theorem perm (fresh : FreshLabels lower upper first) (same : second.Perm first) :
    FreshLabels lower upper second :=
  ⟨same.nodup_iff.mpr fresh.nodup, fun label member => fresh.within label (same.mem_iff.mp member)⟩

/-- The labels of different families with one number. -/
theorem group {families : List String} (number : Nat) (different : families.Nodup)
    (separated : ∀ family ∈ families,
      family.toList.reverse.head?.all (fun char => !char.isDigit) = true) :
    FreshLabels number (number + 1) (families.map fun family => Label.numbered family number) := by
  constructor
  · refine List.Nodup.map ?_ different
    intro one other same
    by_contra differ
    exact Label.numbered_ne number differ same
  · intro label member
    obtain ⟨family, inFamilies, rfl⟩ := List.mem_map.mp member
    exact Label.within_numbered number (separated family inFamilies)

/-- A group with a new number and later labels, in whatever order they stand. -/
theorem grouped {number : Nat} (rest : FreshLabels (number + 1) upper first)
    (le : number + 1 ≤ upper) (families : List String) (different : families.Nodup)
    (separated : ∀ family ∈ families,
      family.toList.reverse.head?.all (fun char => !char.isDigit) = true)
    (same : ∀ label, second.count label =
      ((families.map fun family => Label.numbered family number) ++ first).count label) :
    FreshLabels number upper second :=
  ((group number different separated).append rest (Nat.le_succ number) le).perm
    (List.perm_iff_count.mpr same)

/-- A label with a new number between later labels. -/
theorem between {number : Nat} (start : FreshLabels (number + 1) middle first)
    (rest : FreshLabels middle upper second) (below : number + 1 ≤ middle) (above : middle ≤ upper)
    (family : String)
    (separated : family.toList.reverse.head?.all (fun char => !char.isDigit) = true) :
    FreshLabels number upper (first ++ .numbered family number :: second) := by
  refine (start.append rest below above).grouped (Nat.le_trans below above) [family]
    (List.nodup_singleton _) (by simpa using separated) fun label => ?_
  simp only [List.count_append, List.count_cons, List.map_cons, List.map_nil, List.count_nil]
  omega

end FreshLabels

theorem standing_ne_label (call : Call) (place : Label) : Scope.standing call ≠ .label place := by
  rw [Scope.standing]
  split <;> simp

/-- Every label is placed once, with a number from between the counters. -/
theorem Lowers.freshLabels {scope : Scope} {phrase : Phrase} {before after : Counters}
    {code : List Instr} (lowers : Lowers scope phrase before code after) :
    FreshLabels before.labels after.labels (placed code) := by
  induction lowers with
  | int | bool | field | var | this | decided | noValues | filled | implicitStatic | implicitThis
  | onThis | onClass | returnNothing | noStmts | newObject => exact .nil _ _
  | newArray _ fresh | length _ fresh | callValue _ _ fresh | nonZero _ _ fresh
  | assignField _ _ _ fresh | assignVariable _ _ _ _ fresh | returnValue _ fresh =>
    simpa using fresh
  | evalCall _ _ fresh => simpa [standing_ne_label] using fresh
  | arrayLiteral _ fresh | paren _ fresh | not _ fresh | parenJump _ fresh | onValue _ _ _ fresh
  | block _ fresh | eval _ _ fresh | pack _ fresh => exact fresh
  | arith leftLowers rightLowers left right | index leftLowers rightLowers left right
  | less leftLowers rightLowers left right | fillMore leftLowers rightLowers left right
  | moreValues leftLowers rightLowers left right | unbound _ leftLowers rightLowers left right
  | bound _ _ leftLowers rightLowers left right | passed _ _ _ _ leftLowers rightLowers left right
  | moreStmts leftLowers rightLowers left right =>
    simpa using left.append right leftLowers.grows.labels rightLowers.grows.labels
  | packed _ _ _ firstLowers secondLowers thirdLowers first second third
  | assignElement _ firstLowers secondLowers thirdLowers first second third =>
    simpa using first.append (second.append third secondLowers.grows.labels thirdLowers.grows.labels)
      firstLowers.grows.labels (Nat.le_trans secondLowers.grows.labels thirdLowers.grows.labels)
  | materialize _ jumpLowers fresh =>
    refine fresh.grouped jumpLowers.grows.labels ["true_", "false_", "end_"] (by decide) (by decide)
      fun label => ?_
    simp only [Scope.diamond, placed_append, placed_label, placed_nil, placed_cons, ne_eq,
      reduceCtorEq, not_false_eq_true, implies_true, List.count_append, List.count_cons,
      List.map_cons, List.map_nil, List.count_nil]
    omega
  | and leftLowers rightLowers left right =>
    simpa using left.between right leftLowers.grows.labels rightLowers.grows.labels "and_" (by decide)
  | or leftLowers rightLowers left right =>
    simpa using left.between right leftLowers.grows.labels rightLowers.grows.labels "or_" (by decide)
  | ifThen jumpLowers thenLowers jump thenBranch =>
    refine (jump.append thenBranch jumpLowers.grows.labels thenLowers.grows.labels).grouped
      (jumpLowers.grows.trans thenLowers.grows).labels ["then_", "else_", "endif_"] (by decide)
      (by decide) fun label => ?_
    simp only [placed_append, placed_label, placed_joined, placed_nil, List.count_append,
      List.count_cons, List.map_cons, List.map_nil, List.count_nil]
    omega
  | ifElse jumpLowers thenLowers elseLowers jump thenBranch elseBranch =>
    have branches := thenBranch.append elseBranch thenLowers.grows.labels elseLowers.grows.labels
    have branchesGrow := thenLowers.grows.trans elseLowers.grows
    refine (jump.append branches jumpLowers.grows.labels branchesGrow.labels).grouped
      (jumpLowers.grows.trans branchesGrow).labels ["then_", "else_", "endif_"] (by decide)
      (by decide) fun label => ?_
    simp only [placed_append, placed_label, placed_joined, placed_nil, List.count_append,
      List.count_cons, List.map_cons, List.map_nil, List.count_nil]
    omega
  | whileLoop jumpLowers bodyLowers jump body =>
    refine (jump.append body jumpLowers.grows.labels bodyLowers.grows.labels).grouped
      (jumpLowers.grows.trans bodyLowers.grows).labels
      ["while_cond_", "while_body_", "while_end_"] (by decide) (by decide) fun label => ?_
    simp only [placed_append, placed_label, placed_nil, placed_cons, ne_eq, reduceCtorEq,
      not_false_eq_true, implies_true, List.count_append, List.count_cons, List.map_cons,
      List.map_nil, List.count_nil]
    omega

end JavaMinus
