/-
This file says what the code of an expression leaves alone. It writes no field
and no variable but temporaries that are new, and it jumps only to labels that it
places itself; the code of a condition also jumps to the two labels that it
decides between. So a run that enters the code of a value leaves it only at its
end, also if there are calls in it, and finds there what it found before: the
variables of the method, earlier temporaries, and the fields that no call touched.
-/

import JavaMinus.Proofs.Lowering.Freshness
import JavaMinus.Proofs.Semantics.Calls

namespace JavaMinus

open Counters

/-! ### Code that leaves operands alone -/

/-- The labels that an instruction may jump to. -/
def Instr.targets : Instr → List Label
  | .goto target | .branch _ target => [target]
  | _ => []

/-- Control goes on behind an instruction or at a label that it may jump to. -/
theorem Instr.mem_successors {code : List Instr} {position next : Nat} {instr : Instr}
    (leads : next ∈ instr.successors code position) :
    next = position + 1 ∨ ∃ target ∈ instr.targets, labelPosition? code target = some next := by
  cases instr with
  | goto target => exact .inr ⟨target, List.mem_singleton_self _, Option.mem_toList.mp leads⟩
  | branch condition target =>
    rcases List.mem_cons.mp leads with behind | jumps
    · exact .inl behind
    · exact .inr ⟨target, List.mem_singleton_self _, Option.mem_toList.mp jumps⟩
  | ret result ty => cases leads
  | _ => exact .inl (List.mem_singleton.mp leads)

namespace Scope

/-- An instruction that writes no field and no variable that is spared, and jumps only to some
labels. -/
structure Harmless (scope : Scope) (bound : Nat) (labels : List Label) (instr : Instr) : Prop where
  vars : ∀ name ∈ instr.written, ¬ scope.Spares bound name
  fields : instr.writtenField = []
  jumps : ∀ label ∈ instr.targets, label ∈ labels

/-- Code that writes no field and no variable that is spared, and can be left only at its end and
through some exits. -/
def Calm (scope : Scope) (bound : Nat) (exits : List Label) (code : List Instr) : Prop :=
  ∀ instr ∈ code, scope.Harmless bound (exits ++ placed code) instr

namespace Calm

variable {scope : Scope} {bound inner : Nat} {exits others : List Label}
  {code first second : List Instr}

theorem nil : scope.Calm bound exits [] := nofun

/-- Code may be used where fewer variables must be spared, and in the middle of other code that
places some of its exits. -/
theorem within (calm : scope.Calm inner exits first) (le : bound ≤ inner)
    (leaves : ∀ label ∈ exits, label ∈ others ++ placed code)
    (places : ∀ label ∈ placed first, label ∈ placed code) {instr : Instr}
    (member : instr ∈ first) :
    scope.Harmless bound (others ++ placed code) instr where
  vars name written spared := (calm instr member).vars name written (spared.mono le)
  fields := (calm instr member).fields
  jumps label target := by
    rcases List.mem_append.mp ((calm instr member).jumps label target) with isExit | isPlaced
    · exact leaves label isExit
    · exact List.mem_append_right _ (places label isPlaced)

theorem mono (calm : scope.Calm inner exits code) (le : bound ≤ inner) :
    scope.Calm bound exits code :=
  fun _ member => calm.within le (fun _ => List.mem_append_left _) (fun _ => id) member

/-- Code one after the other, if each leads to the exits or into the other. -/
theorem join {leftExits rightExits : List Label} (left : scope.Calm bound leftExits first)
    (right : scope.Calm inner rightExits second) (le : bound ≤ inner)
    (leftLeaves : ∀ label ∈ leftExits, label ∈ exits ++ placed (first ++ second))
    (rightLeaves : ∀ label ∈ rightExits, label ∈ exits ++ placed (first ++ second)) :
    scope.Calm bound exits (first ++ second) := by
  intro instr member
  have placedLeft : ∀ label ∈ placed first, label ∈ placed (first ++ second) := by
    intro label isPlaced
    rw [placed_append]
    exact List.mem_append_left _ isPlaced
  have placedRight : ∀ label ∈ placed second, label ∈ placed (first ++ second) := by
    intro label isPlaced
    rw [placed_append]
    exact List.mem_append_right _ isPlaced
  rcases List.mem_append.mp member with inFirst | inSecond
  · exact left.within (Nat.le_refl _) leftLeaves placedLeft inFirst
  · exact right.within le rightLeaves placedRight inSecond

theorem append (left : scope.Calm bound exits first) (right : scope.Calm inner exits second)
    (le : bound ≤ inner) : scope.Calm bound exits (first ++ second) :=
  left.join right le (fun _ => List.mem_append_left _) (fun _ => List.mem_append_left _)

/-- An instruction that writes nothing and does not jump. -/
theorem plain {instr : Instr} (vars : instr.written = []) (fields : instr.writtenField = [])
    (jumps : instr.targets = []) : scope.Calm bound exits [instr] := by
  intro other member
  rw [List.mem_singleton.mp member]
  exact ⟨by rw [vars]; nofun, fields, by rw [jumps]; nofun⟩

/-- An assignment to a new temporary. -/
theorem assign {rhs : Instr} {ty : Ty} {counters : Counters} (le : bound ≤ counters.temps) :
    scope.Calm bound exits [.assign (scope.nextTemp counters) rhs ty] := by
  intro instr member
  rw [List.mem_singleton.mp member]
  refine ⟨fun name written => ?_, rfl, nofun⟩
  rw [List.mem_singleton.mp written]
  exact scope.not_spares_nextTemp le

/-- A jump to an exit. -/
theorem goto {target : Label} (isExit : target ∈ exits) :
    scope.Calm bound exits [.goto target] := by
  intro instr member
  rw [List.mem_singleton.mp member]
  refine ⟨nofun, rfl, fun label isTarget => ?_⟩
  rw [List.mem_singleton.mp isTarget]
  exact List.mem_append_left _ isExit

/-- A branch with a jump behind it goes to one of two exits. -/
theorem branch (condition : Condition) (onTrue onFalse : Label) :
    scope.Calm bound [onTrue, onFalse] [.branch condition onTrue, .goto onFalse] := by
  intro instr member
  rcases List.mem_cons.mp member with rfl | isGoto
  · exact ⟨nofun, rfl, fun label isTarget => by rw [List.mem_singleton.mp isTarget]; simp⟩
  · exact Calm.goto (by simp) instr isGoto

/-- The diamond writes only its own temporary. -/
theorem diamond (number : Nat) {result : String} (fresh : ¬ scope.Spares bound result) :
    scope.Calm bound exits (diamond number result) := by
  have writes (exits : List Label) (value : Bool) :
      scope.Calm bound exits [.assign result (.value (.bool value)) .boolean] := by
    intro instr member
    rw [List.mem_singleton.mp member]
    refine ⟨fun name written => ?_, rfl, nofun⟩
    rwa [List.mem_singleton.mp written]
  have marks (exits : List Label) (family : String) :
      scope.Calm bound exits [.label (.numbered family number)] := .plain rfl rfl rfl
  have le := Nat.le_refl bound
  have onFalse := (marks _ "false_").append
    ((writes _ false).append (.goto (List.mem_singleton_self (.numbered "end_" number))) le) le
  have onTrue := (marks exits "true_").append ((writes _ true).append (marks _ "end_") le) le
  exact onFalse.join onTrue le (by simp) (fun _ => List.mem_append_left _)

end Calm

end Scope

/-- The code of a phrase leaves operands alone; what is not a statement is left only at its end, or
at the labels that it decides between. -/
def Phrase.Calm (scope : Scope) (bound : Nat) (code : List Instr) : Phrase → Prop
  | .stmt _ | .body _ => True
  | .jump _ onTrue onFalse => scope.Calm bound [onTrue, onFalse] code
  | _ => scope.Calm bound [] code

theorem Lowers.calm {scope : Scope} {phrase : Phrase} {before after : Counters}
    {code : List Instr} (lowers : Lowers scope phrase before code after) :
    phrase.Calm scope before.temps code := by
  induction lowers with
  | int | bool | field | var | this | noValues | filled | implicitStatic | implicitThis
  | onThis | onClass => exact .nil
  | arith leftLowers rightLowers left right | index leftLowers rightLowers left right =>
    refine (left.append right leftLowers.grows.temps).append (.assign (Nat.le_refl _)) ?_
    exact (leftLowers.grows.trans rightLowers.grows).temps
  | newObject =>
    exact (Scope.Calm.assign (Nat.le_refl _)).append (.plain rfl rfl rfl) (Nat.le_refl _)
  | newArray innerLowers inner | length innerLowers inner | callValue innerLowers _ inner =>
    exact inner.append (.assign (Nat.le_refl _)) innerLowers.grows.temps
  | arrayLiteral _ inner | paren _ inner | parenJump _ inner | onValue _ _ _ inner => exact inner
  | @materialize _ _ before _ _ _ _ jump =>
    have fresh : ¬ scope.Spares before.temps (scope.nextTemp before.afterLabel) :=
      scope.not_spares_nextTemp (Nat.le_refl _)
    exact (jump.mono (grows_afterTemp scope _).temps).join (.diamond _ fresh) (Nat.le_refl _)
      (by simp [Scope.diamond]) fun _ => List.mem_append_left _
  | decided => exact .goto (by split <;> simp)
  | less leftLowers rightLowers left right =>
    refine (left.append right leftLowers.grows.temps).join (.branch _ _ _) (Nat.le_refl _)
      (List.forall_mem_nil _) ?_
    exact fun _ => List.mem_append_left _
  | and leftLowers _ left right | or leftLowers _ left right =>
    exact left.join ((Scope.Calm.plain rfl rfl rfl).append right (Nat.le_refl _))
      leftLowers.grows.temps (by simp) (by simp)
  | not _ inner =>
    exact fun instr member => inner.within (Nat.le_refl _) (by simp) (fun _ => id) member
  | nonZero _ valueLowers value =>
    refine value.join (.branch _ _ _) (Nat.le_refl _)
      (List.forall_mem_nil _) ?_
    exact fun _ => List.mem_append_left _
  | moreValues firstLowers _ first rest | unbound _ firstLowers _ first rest
  | bound _ _ firstLowers _ first rest | passed _ _ _ _ firstLowers _ first rest =>
    exact first.append rest firstLowers.grows.temps
  | fillMore firstLowers _ first rest =>
    exact first.append ((Scope.Calm.plain rfl rfl rfl).append rest (Nat.le_refl _))
      firstLowers.grows.temps
  | pack _ fill =>
    exact (Scope.Calm.assign (Nat.le_refl _)).append fill (grows_afterTemp scope _).temps
  | packed _ _ _ targetLowers argsLowers _ target args array =>
    exact target.append (args.append array argsLowers.grows.temps) targetLowers.grows.temps
  | _ => trivial

/-! ### What operands keep -/

/-- The operand is a field that calls may touch. -/
def Operand.IsTouched (touched : Set String) : Operand → Prop
  | .field name _ => name ∈ touched
  | _ => False

/-- A state differs from another at most in variables that are not spared, in touched fields and in
the heap. -/
structure Scope.Retains (scope : Scope) (touched : Set String) (bound : Nat)
    (state state' : State) : Prop where
  self : state'.self = state.self
  vars : ∀ name, scope.Spares bound name → state'.vars name = state.vars name
  fields : ∀ name, name ∉ touched → state'.fields name = state.fields name

namespace Scope.Retains

variable {scope : Scope} {touched : Set String} {bound : Nat} {first second third : State}

theorem refl (state : State) : scope.Retains touched bound state state :=
  ⟨rfl, fun _ _ => rfl, fun _ _ => rfl⟩

theorem trans (start : scope.Retains touched bound first second)
    (rest : scope.Retains touched bound second third) :
    scope.Retains touched bound first third where
  self := rest.self.trans start.self
  vars name spared := (rest.vars name spared).trans (start.vars name spared)
  fields name untouched := (rest.fields name untouched).trans (start.fields name untouched)

theorem read {operand : Operand} (retains : scope.Retains touched bound first second)
    (stable : operand.Stable scope bound) (untouched : ¬ operand.IsTouched touched) :
    operand.read second.toEnv = operand.read first.toEnv := by
  cases operand with
  | literal value ty => rfl
  | var name ty => exact retains.vars name stable
  | field name ty => exact retains.fields name untouched
  | this ty => exact congrArg Value.object retains.self

end Scope.Retains

/-- A run through calm code that stands somewhere stays in it and retains what it spares. -/
theorem Scope.Calm.stays {scope : Scope} {bound start : Nat} {code part : List Instr}
    (calm : scope.Calm bound [] part) (stands : StandsAt code start part)
    (once : (placed code).Nodup) (touched : Set String) :
    Stays touched code start (start + part.length) (scope.Retains touched bound) := by
  intro position next state state' enters inside moves
  obtain ⟨instr, fetched, leads, changes⟩ := moves.changes
  obtain ⟨offset, rfl⟩ := Nat.exists_eq_add_of_le enters
  have member : instr ∈ part := by
    rw [stands.getElem? (Nat.lt_of_add_lt_add_left inside)] at fetched
    exact List.mem_of_getElem? fetched
  have harmless := calm instr member
  have retains : scope.Retains touched bound state state' := by
    refine ⟨changes.self, fun name spared => ?_, fun name untouched => ?_⟩
    · exact changes.vars name fun written => harmless.vars name written spared
    · exact changes.fields name (by rw [harmless.fields]; exact List.not_mem_nil) untouched
  rcases Instr.mem_successors leads with rfl | ⟨target, isTarget, found⟩
  · exact ⟨Nat.le_add_right_of_le enters, inside, retains⟩
  · -- The label is placed in the code itself, and nowhere else.
    obtain ⟨place, placeInside, placedAt⟩ :=
      List.mem_iff_getElem.mp (mem_placed.mp (harmless.jumps target isTarget))
    have stood : code[start + place]? = some (.label target) := by
      rw [stands.getElem? placeInside, List.getElem?_eq_getElem placeInside, placedAt]
    rw [labelPosition?_eq once stood, Option.some_inj] at found
    subst found
    exact ⟨Nat.le_add_right _ _, Nat.add_le_add_left (Nat.le_of_lt placeInside) _, retains⟩

end JavaMinus
