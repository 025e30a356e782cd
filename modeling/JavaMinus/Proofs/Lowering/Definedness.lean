/-
This file shows that a temporary is assigned before it is read, whichever way
control takes through a method. That an assignment stands further up is not
enough: it may stand in the right operand of a conjunction, in one branch of an
`if` or in the body of a loop, and be passed by. So the names that have been
assigned are carried along the way. Before the code of a phrase some names are
ready, and behind it the names of the operand that holds its value are ready as
well; a condition comes to both of its labels, and a statement to its end, with
what was ready before.

A way that has come to an instruction is the list of the positions that control
has come by. What has been assigned on it is what the instructions at these
positions write.
-/

import Mathlib.Data.List.Chain
import JavaMinus.Proofs.Lowering.Completion
import JavaMinus.Proofs.Lowering.Temporaries

namespace JavaMinus

/-! ### What has been assigned on the way -/

/-- The variables that the instruction at a position writes. -/
def writtenAt (code : List Instr) (position : Nat) : List String :=
  code[position]?.toList.flatMap Instr.written

/-- Where control is, and what has been assigned on the way there. -/
structure Sight where
  position : Nat
  assigned : List String

/-- Control goes on by one step. -/
def Sight.Leads (code : List Instr) (sight next : Sight) : Prop :=
  Flows code sight.position next.position ∧
    next.assigned = writtenAt code sight.position ++ sight.assigned

namespace Scope

/-- Each of the names is declared or has been assigned. -/
def Ready (scope : Scope) (assigned names : List String) : Prop :=
  ∀ name ∈ names, name ∈ scope.declared ∨ name ∈ assigned

/-- The instruction where control is reads only what is ready. -/
def ReadsReady (scope : Scope) (code : List Instr) (sight : Sight) : Prop :=
  ∀ instr, code[sight.position]? = some instr → scope.Ready sight.assigned instr.reads

/-- Control is at a position and some names are ready. -/
def At (scope : Scope) (position : Nat) (names : List String) : Set Sight :=
  {sight | sight.position = position ∧ scope.Ready sight.assigned names}

/-- On every way from the entries to the exits, all that is read is ready. -/
abbrev Prepared (scope : Scope) (code : List Instr) (entries exits : Set Sight) : Prop :=
  SafeUntil (Sight.Leads code) (scope.ReadsReady code) entries exits

variable {scope : Scope} {code : List Instr} {position place finish : Nat}
  {ready names outputs : List String} {instr : Instr} {exits : Set Sight}

/-- Names may be forgotten. -/
theorem at_subset_at (subset : names ⊆ ready) :
    scope.At position ready ⊆ scope.At position names :=
  fun _ member => ⟨member.1, fun name isName => member.2 name (subset isName)⟩

theorem readsReady_of_mem_at (fetched : code[position]? = some instr)
    (reads : instr.reads ⊆ ready) : ∀ sight ∈ scope.At position ready,
      scope.ReadsReady code sight := by
  rintro sight ⟨rfl, isReady⟩ other same name isRead
  rw [fetched, Option.some_inj] at same
  subst same
  exact isReady name (reads isRead)

/-- Behind an instruction what it writes is ready. -/
theorem mem_at_of_leads (fetched : code[position]? = some instr) {sight next : Sight}
    (member : sight ∈ scope.At position ready) (leads : sight.Leads code next) :
    next.position ∈ instr.successors code position ∧
      next ∈ scope.At next.position (instr.written ++ ready) := by
  obtain ⟨rfl, isReady⟩ := member
  obtain ⟨flows, assigned⟩ := leads
  refine ⟨(flows_iff fetched).mp flows, rfl, ?_⟩
  rw [assigned, writtenAt, fetched]
  refine List.forall_mem_append.mpr ⟨fun name isWritten => .inr ?_, fun name isName => ?_⟩
  · simpa using .inl isWritten
  · exact (isReady name isName).imp_right (List.mem_append_right _)

namespace Prepared

theorem forget {entries : Set Sight}
    (prepared : scope.Prepared code entries (scope.At finish ready)) (subset : names ⊆ ready) :
    scope.Prepared code entries (scope.At finish names) :=
  prepared.mono (at_subset_at subset)

/-- One instruction that goes on to one place. -/
theorem next (fetched : code[position]? = some instr)
    (leads : instr.successors code position = [place]) (reads : instr.reads ⊆ ready) :
    scope.Prepared code (scope.At position ready) (scope.At place (instr.written ++ ready)) := by
  refine .step (readsReady_of_mem_at fetched reads) (fun sight member next steps => ?_)
    (.here (Set.Subset.refl _))
  obtain ⟨isNext, isAt⟩ := mem_at_of_leads fetched member steps
  rw [leads, List.mem_singleton] at isNext
  rwa [isNext] at isAt

theorem label (scope : Scope) (ready : List String) {mark : Label}
    (fetched : code[position]? = some (.label mark)) :
    scope.Prepared code (scope.At position ready) (scope.At (position + 1) ready) :=
  next fetched rfl (List.nil_subset _)

/-- An instruction behind code that has made ready what it reads. -/
theorem andThen {entries : Set Sight}
    (prepared : scope.Prepared code entries (scope.At place ready))
    (fetched : code[place]? = some instr) (leads : instr.successors code place = [place + 1])
    (reads : instr.reads ⊆ ready) (keeps : names ⊆ instr.written ++ ready)
    (arrived : finish = place + 1) : scope.Prepared code entries (scope.At finish names) := by
  subst arrived
  exact forget (prepared.trans (next fetched leads reads)) keeps

/-- Control does not go on behind a return. -/
theorem returned {result : Option Operand} {ty : Ty}
    (fetched : code[position]? = some (.ret result ty))
    (reads : (Instr.ret result ty).reads ⊆ ready) :
    scope.Prepared code (scope.At position ready) exits := by
  refine .step (readsReady_of_mem_at fetched reads) (fun sight member next steps => ?_)
    (.here (Set.empty_subset exits))
  cases (mem_at_of_leads fetched member steps).1

/-- A branch with a jump behind it, behind code that has made ready what it tests, goes to both
labels. -/
theorem branch {entries : Set Sight} {condition : Condition} {onTrue onFalse : Label}
    {taken passed : Nat} (prepared : scope.Prepared code entries (scope.At position ready))
    (stands : StandsAt code position [.branch condition onTrue, .goto onFalse])
    (trueAt : labelPosition? code onTrue = some taken)
    (falseAt : labelPosition? code onFalse = some passed)
    (reads : condition.operands.flatMap Operand.reads ⊆ ready) (keeps : names ⊆ ready) :
    scope.Prepared code entries (scope.At taken names ∪ scope.At passed names) := by
  have jump : scope.Prepared code (scope.At (position + 1) ready) (scope.At passed ready) :=
    next stands.tail.head (Exits.successors_goto falseAt) (List.nil_subset _)
  have test : scope.Prepared code (scope.At position ready)
      (scope.At taken ready ∪ scope.At passed ready) := by
    refine .step (readsReady_of_mem_at stands.head reads) (fun sight member next steps => ?_)
      (SafeUntil.union (.here Set.subset_union_left) (jump.mono Set.subset_union_right))
    obtain ⟨isNext, isAt⟩ := mem_at_of_leads stands.head member steps
    rw [Instr.successors, trueAt, Option.toList_some, List.mem_cons, List.mem_singleton] at isNext
    rcases isNext with isBehind | isTaken
    · rw [isBehind] at isAt
      exact .inr isAt
    · rw [isTaken] at isAt
      exact .inl isAt
  exact (prepared.trans test).mono
    (Set.union_subset_union (at_subset_at keeps) (at_subset_at keeps))

/-- A branch of an `if` comes to the label where the branches join or, if its code ends in a return
and gets no jump, stays in front of what stands behind it. -/
theorem joined {target : Label} {branchCode : List Instr} {joins : Nat}
    (leaves : scope.Prepared code (scope.At position ready)
      (scope.At (position + branchCode.length) ready))
    (once : (placed code).Nodup) (stands : StandsAt code position (Lower.joined target branchCode))
    (joinsAt : code[joins]? = some (.label target)) :
    scope.Prepared code (scope.At position ready)
      (scope.At joins ready ∪
        scope.At (position + (Lower.joined target branchCode).length) ready) := by
  rw [Lower.joined] at stands ⊢
  split at stands
  · next closed =>
    rw [if_pos closed]
    exact leaves.mono Set.subset_union_right
  · have jump : scope.Prepared code (scope.At (position + branchCode.length) ready)
        (scope.At joins ready) :=
      next stands.behind (Exits.successors_goto (labelPosition?_eq once joinsAt))
        (List.nil_subset _)
    rw [if_neg ‹_›]
    exact (leaves.trans jump).mono Set.subset_union_left

/-- Either way through the diamond its variable is assigned. -/
theorem diamond {number : Nat} {result : String}
    (stands : StandsAt code position (Scope.diamond number result)) (once : (placed code).Nodup) :
    scope.Prepared code (scope.At (position + 3) ready ∪ scope.At position ready)
      (scope.At (position + 6) (result :: ready)) := by
  have trueStands := stands.tail.tail.tail
  have doneStands := trueStands.tail.tail.head
  have falseAt : scope.Prepared code (scope.At position ready)
      (scope.At (position + 6) (result :: ready)) :=
    (label scope ready stands.head).trans <|
      (next stands.tail.head rfl (List.nil_subset _)).trans <|
      (next stands.tail.tail.head (Exits.successors_goto (labelPosition?_eq once doneStands))
        (List.nil_subset _)).trans <|
      label scope _ doneStands
  have trueAt : scope.Prepared code (scope.At (position + 3) ready)
      (scope.At (position + 6) (result :: ready)) :=
    (label scope ready trueStands.head).trans <|
      (next trueStands.tail.head rfl (List.nil_subset _)).trans <|
      label scope _ doneStands
  exact trueAt.union falseAt

/-- Behind a condition one of two ways is taken. The first one joins the second one in front of it
or behind it. -/
theorem conditional {entries : Set Sight} {onTrue : Label} {holds fails joins : Nat}
    (tests : scope.Prepared code entries (scope.At holds ready ∪ scope.At fails ready))
    (holdsAt : code[holds]? = some (.label onTrue))
    (first : scope.Prepared code (scope.At (holds + 1) ready)
      (scope.At joins ready ∪ scope.At fails ready))
    (second : scope.Prepared code (scope.At fails ready) (scope.At finish ready))
    (behind : scope.Prepared code (scope.At joins ready) (scope.At finish ready)) :
    scope.Prepared code entries (scope.At finish ready) :=
  tests.trans (.union ((label scope ready holdsAt).trans
    (first.trans (.union behind second))) second)

/-- A loop is left when its condition fails. -/
theorem loop {again onTrue done : Label} {inside last : Nat} (once : (placed code).Nodup)
    (againAt : code[position]? = some (.label again))
    (insideAt : code[inside]? = some (.label onTrue)) (repeats : code[last]? = some (.goto again))
    (doneAt : code[last + 1]? = some (.label done))
    (tests : scope.Prepared code (scope.At (position + 1) ready)
      (scope.At inside ready ∪ scope.At (last + 1) ready))
    (body : scope.Prepared code (scope.At (inside + 1) ready) (scope.At last ready)) :
    scope.Prepared code (scope.At position ready) (scope.At (last + 2) ready) := by
  have goesBack : scope.Prepared code (scope.At inside ready) (scope.At position ready) :=
    (label scope ready insideAt).trans <| body.trans <|
      next repeats (Exits.successors_goto (labelPosition?_eq once againAt)) (List.nil_subset _)
  have leaves := label scope ready doneAt
  refine SafeUntil.loop (readsReady_of_mem_at againAt (List.nil_subset _))
    (fun sight member next steps => ?_)
    (tests.trans (.union (goesBack.mono Set.subset_union_left)
      (leaves.mono Set.subset_union_right)))
  obtain ⟨isNext, isAt⟩ := mem_at_of_leads againAt member steps
  rwa [List.mem_singleton.mp isNext] at isAt

end Prepared

end Scope

open Scope

/-! ### Lowered code prepares what it reads -/

/-- On every way through the code of a phrase all that is read is ready. A condition comes to its
labels with what was ready before; everything else comes to its end with its outputs as well. -/
def Phrase.Prepares (scope : Scope) (code : List Instr) (ready : List String)
    (position finish : Nat) : Phrase → Prop
  | .jump _ onTrue onFalse =>
    ∀ holds fails, labelPosition? code onTrue = some holds →
      labelPosition? code onFalse = some fails →
      scope.Prepared code (scope.At position ready) (scope.At holds ready ∪ scope.At fails ready)
  | phrase =>
    scope.Prepared code (scope.At position ready) (scope.At finish (phrase.outputs ++ ready))

theorem Lowers.prepares {scope : Scope} {phrase : Phrase} {before after : Counters}
    {part code : List Instr} (lowers : Lowers scope phrase before part after)
    (once : (placed code).Nodup) {position : Nat} (stands : StandsAt code position part)
    {ready : List String} (inputs : phrase.inputs ⊆ ready) :
    phrase.Prepares scope code ready position (position + part.length) := by
  induction lowers generalizing position ready with
  | int | bool | field | this | noValues | filled | implicitStatic | implicitThis | onThis
  | onClass | noStmts => exact .here (Set.Subset.refl _)
  | var resolved notField =>
    have declared := mem_declared_of_lookup? resolved notField
    exact .here fun sight ⟨arrived, isReady⟩ =>
      ⟨arrived, List.forall_mem_cons.mpr ⟨.inl declared, isReady⟩⟩
  | arith _ _ left right | index _ _ left right =>
    exact .andThen ((left stands.left.left (List.nil_subset _)).trans
      (right stands.left.right (List.nil_subset _))) stands.behindBoth rfl
      (by grind [Instr.reads, Instr.operands, Phrase.outputs])
      (by grind [Instr.written, Phrase.outputs, Operand.reads]) (by simp [Nat.add_assoc])
  | @newObject pos className expected counters =>
    exact .andThen (Prepared.next stands.head rfl (List.nil_subset _)) stands.tail.head rfl
      (List.subset_append_left [scope.nextTemp counters] ready) (List.Subset.refl _) rfl
  | newArray _ inner | length _ inner =>
    exact .andThen (inner stands.left (List.nil_subset _)) stands.behind rfl
      (by grind [Instr.reads, Instr.operands, Phrase.outputs])
      (by grind [Instr.written, Phrase.outputs, Operand.reads]) (by simp [Nat.add_assoc])
  | callValue _ _ call =>
    exact .andThen (call stands.left (List.nil_subset _)) stands.behind rfl
      (List.subset_append_left _ _)
      (by grind [Instr.written, Phrase.outputs, Operand.reads]) (by simp [Nat.add_assoc])
  | arrayLiteral _ inner | paren _ inner | parenJump _ inner | block _ inner =>
    exact inner stands inputs
  | not _ inner =>
    intro holds fails trueAt falseAt
    rw [Set.union_comm]
    exact inner stands inputs _ _ falseAt trueAt
  | onValue _ _ _ receiver =>
    exact .forget (receiver stands inputs) (by grind [Phrase.outputs, CallTarget.operands])
  | materialize _ _ jump =>
    have diamondStands := stands.right
    have trueAt := labelPosition?_eq once diamondStands.tail.tail.tail.head
    have falseAt := labelPosition?_eq once diamondStands.head
    rw [List.length_append, ← Nat.add_assoc]
    exact (jump stands.left inputs _ _ trueAt falseAt).trans (Prepared.diamond diamondStands once)
  | @decided pos value onTrue onFalse counters =>
    intro holds fails trueAt falseAt
    cases value with
    | true =>
      exact (Prepared.next stands.head (Exits.successors_goto trueAt) (List.nil_subset _)).mono
        Set.subset_union_left
    | false =>
      exact (Prepared.next stands.head (Exits.successors_goto falseAt) (List.nil_subset _)).mono
        Set.subset_union_right
  | less _ _ left right =>
    intro holds fails trueAt falseAt
    have branchStands := stands.right
    rw [List.length_append, ← Nat.add_assoc] at branchStands
    exact .branch ((left stands.left.left (List.nil_subset _)).trans
      (right stands.left.right (List.nil_subset _))) branchStands trueAt falseAt
      (by grind [Condition.operands, Phrase.outputs]) (by grind)
  | and _ _ left right =>
    intro holds fails trueAt falseAt
    have middleAt := labelPosition?_eq once stands.behind
    have behind := right stands.right.tail inputs _ _ trueAt falseAt
    exact (left stands.left inputs _ _ middleAt falseAt).trans
      (.union ((Prepared.label scope ready stands.behind).trans behind)
        (.here Set.subset_union_right))
  | or _ _ left right =>
    intro holds fails trueAt falseAt
    have middleAt := labelPosition?_eq once stands.behind
    have behind := right stands.right.tail inputs _ _ trueAt falseAt
    exact (left stands.left inputs _ _ trueAt middleAt).trans
      (.union (.here Set.subset_union_left)
        ((Prepared.label scope ready stands.behind).trans behind))
  | nonZero _ _ value =>
    intro holds fails trueAt falseAt
    exact .branch (value stands.left (List.nil_subset _)) stands.right trueAt falseAt
      (by grind [Condition.operands, Phrase.outputs]) (List.subset_append_right _ _)
  | moreValues _ _ first rest | unbound _ _ _ first rest | bound _ _ _ _ first rest
  | passed _ _ _ _ _ _ first rest =>
    rw [List.length_append, ← Nat.add_assoc]
    exact .forget ((first stands.left (List.nil_subset _)).trans
      (rest stands.right (List.nil_subset _))) (by grind [Phrase.outputs, Call.operands])
  | moreStmts _ _ first rest =>
    rw [List.length_append, ← Nat.add_assoc]
    exact (first stands.left inputs).trans (rest stands.right inputs)
  | @fillMore array _ _ _ _ result _ _ _ firstCode _ _ _ first rest =>
    rw [StandsAt.finish_around]
    have stored : scope.Prepared code (scope.At position ready)
        (scope.At (position + firstCode.length + 1) ready) :=
      .andThen (first stands.left (List.nil_subset _)) stands.behind rfl
        (by grind [Instr.reads, Instr.operands, Phrase.outputs, Phrase.inputs, Operand.reads,
          Operand.int])
        (List.subset_append_right _ _) rfl
    exact stored.trans (rest stands.right.tail inputs)
  | pack _ fill =>
    rw [StandsAt.finish_cons]
    exact (Prepared.next stands.head rfl (List.nil_subset _)).trans
      (fill stands.tail (List.subset_append_left _ _))
  | packed _ _ _ _ _ _ first second third =>
    rw [List.length_append, List.length_append, ← Nat.add_assoc, ← Nat.add_assoc]
    exact .forget ((first stands.left (List.nil_subset _)).trans
      ((second stands.right.left (List.nil_subset _)).trans
        (third stands.right.right (List.nil_subset _)))) (by grind [Phrase.outputs, Call.operands])
  | ifThen _ _ jump thenBranch =>
    have thenStands := stands.right.tail
    have elseStands := thenStands.right
    have joinsAt := elseStands.tail.head
    have thenAt := labelPosition?_eq once stands.behind
    have elseAt := labelPosition?_eq once elseStands.head
    rw [StandsAt.finish_around, List.length_append, ← Nat.add_assoc]
    have behind := Prepared.label scope ready joinsAt
    exact .conditional (jump stands.left inputs _ _ thenAt elseAt) stands.behind
      (.joined (thenBranch thenStands.left.joined inputs) once thenStands.left joinsAt)
      ((Prepared.label scope ready elseStands.head).trans behind) behind
  | ifElse _ _ _ jump thenBranch elseBranch =>
    have thenStands := stands.right.tail
    have elseStands := thenStands.right
    have joinsAt := elseStands.tail.behind
    have thenAt := labelPosition?_eq once stands.behind
    have elseAt := labelPosition?_eq once elseStands.head
    rw [StandsAt.finish_around, StandsAt.finish_around, List.length_append, ← Nat.add_assoc]
    have behind := Prepared.label scope ready joinsAt
    exact .conditional (jump stands.left inputs _ _ thenAt elseAt) stands.behind
      (.joined (thenBranch thenStands.left.joined inputs) once thenStands.left joinsAt)
      ((Prepared.label scope ready elseStands.head).trans
        ((elseBranch elseStands.tail.left inputs).trans behind)) behind
  | whileLoop _ _ jump body =>
    have bodyStands := stands.tail.right.tail
    have endStands := bodyStands.right
    have insideAt := stands.tail.behind
    have doneAt := endStands.tail.head
    have tests := jump stands.tail.left inputs _ _ (labelPosition?_eq once insideAt)
      (labelPosition?_eq once doneAt)
    rw [StandsAt.finish_cons, StandsAt.finish_around, List.length_append, ← Nat.add_assoc]
    exact .loop once stands.head insideAt endStands.head doneAt tests
      (body bodyStands.left inputs)
  | evalCall _ _ call =>
    exact .andThen (call stands.left (List.nil_subset _)) stands.behind (successors_standing _ _ _)
      (by rw [reads_standing]; exact List.subset_append_left _ _)
      (by grind [written_standing, Phrase.outputs]) (by simp [Nat.add_assoc])
  | eval _ _ value => exact .forget (value stands inputs) (List.subset_append_right _ _)
  | assignField _ _ _ value =>
    exact .andThen (value stands.left inputs) stands.behind rfl
      (by grind [Instr.reads, Instr.operands, Phrase.outputs, Operand.reads])
      (List.subset_append_right _ _) (by simp [Nat.add_assoc])
  | assignVariable _ resolved notField _ value =>
    exact .andThen (value stands.left inputs) stands.behind rfl
      (List.Subset.trans (scope.reads_rightHandSide _) (List.subset_append_left _ _))
      (by grind [Instr.written, Phrase.outputs]) (by simp [Nat.add_assoc])
  | assignElement _ _ _ _ array index value =>
    have indexStands := stands.right
    have valueStands := indexStands.right
    exact .andThen ((array stands.left inputs).trans ((index indexStands.left
      (List.nil_subset _)).trans (value valueStands.left (List.nil_subset _)))) valueStands.behind
      rfl (by grind [Instr.reads, Instr.operands, Phrase.outputs])
      (by grind [Instr.written, Phrase.outputs]) (by simp [Nat.add_assoc])
  | returnNothing => exact .returned stands.head (List.nil_subset _)
  | returnValue _ value =>
    exact (value stands.left inputs).trans (Prepared.returned stands.behind
      (by grind [Instr.reads, Instr.operands, Phrase.outputs]))

/-! ### Methods -/

/-- From the first instruction of a method on, all that is read is ready, also in the return that is
added, and there is nothing to be read behind its code. -/
theorem Scope.Compiles.prepared {scope : Scope} {body : List Stmt} {method : MethodCode}
    (compiles : scope.Compiles body method) :
    scope.Prepared method.body (scope.At 0 []) ∅ := by
  obtain ⟨before, code, after, lowers, rfl⟩ := compiles
  show scope.Prepared (scope.method.close code) (scope.At 0 []) ∅
  have once : (placed (scope.method.close code)).Nodup := by
    rw [Signature.placed_close]
    exact lowers.freshLabels.nodup
  rcases scope.method.close_cases code with ⟨-, added⟩ | ⟨same, -⟩
  · rw [added] at once ⊢
    have stands := StandsAt.whole (code ++ [Instr.ret none .void])
    exact (lowers.prepares once stands.left (List.nil_subset _)).trans
      (Prepared.returned stands.behind (List.nil_subset _))
  · rw [same] at once ⊢
    refine (lowers.prepares once (.whole code) (List.nil_subset _)).trans
      (.step ?_ ?_ (.here (Set.empty_subset _)))
    all_goals
      rintro sight ⟨arrived, -⟩
      have behind : code[sight.position]? = none := by simp [arrived]
    · intro instr fetched
      rw [behind] at fetched
      cases fetched
    · rintro next ⟨⟨instr, fetched, -⟩, -⟩
      rw [behind] at fetched
      cases fetched

/-! ### Ways as lists of positions -/

instance (code : List Instr) (position next : Nat) : Decidable (Flows code position next) :=
  decidable_of_iff (∃ instr ∈ code[position]?.toList, next ∈ instr.successors code position)
    (by simp [Flows])

/-- A way through the code from its first instruction on: the positions that control comes by. -/
structure IsPath (code : List Instr) (path : List Nat) : Prop where
  starts : path.head? = some 0
  steps : path.IsChain (Flows code)

theorem mem_writtenAt {code : List Instr} {position : Nat} {name : String} :
    name ∈ writtenAt code position ↔ ∃ rhs ty, code[position]? = some (.assign name rhs ty) := by
  constructor
  · intro member
    obtain ⟨instr, fetched, written⟩ := List.mem_flatMap.mp member
    rw [Option.mem_toList] at fetched
    cases instr with
    | assign dest rhs ty =>
      rw [List.mem_singleton.mp written]
      exact ⟨rhs, ty, fetched⟩
    | _ => cases written
  · rintro ⟨rhs, ty, fetched⟩
    simp [writtenAt, fetched, Instr.written]

/-- Along a way is assigned what the instructions on it write. -/
theorem reaches_of_isPath {code : List Instr} {before : List Nat} {place : Nat}
    (isPath : IsPath code (before ++ [place])) :
    Relation.ReflTransGen (Sight.Leads code) ⟨0, []⟩
      ⟨place, before.reverse.flatMap (writtenAt code)⟩ := by
  induction before using List.reverseRecOn generalizing place with
  | nil =>
    obtain rfl : place = 0 := Option.some.inj isPath.starts
    exact .refl
  | append_singleton before last inductionHypothesis =>
    have steps := isPath.steps
    rw [List.append_assoc, List.singleton_append, List.isChain_append_cons_cons] at steps
    obtain ⟨front, leads, -⟩ := steps
    have starts : (before ++ [last]).head? = some 0 := by
      cases before <;> exact isPath.starts
    refine (inductionHypothesis ⟨starts, front⟩).tail ⟨leads, ?_⟩
    rw [List.reverse_concat, List.flatMap_cons]

namespace ClassTable

/-- In all that is lowered, whichever way control takes from the first instruction of a method to
one that reads a temporary, it comes by an assignment to that temporary before. -/
theorem assigned_of_history (table : ClassTable) (programs : List Program) (counters : Counters) :
    (table.history programs counters).map Record.method =
        (table.codes programs counters).flatMap ClassCode.methods ∧
      ∀ record ∈ table.history programs counters, ∀ before place,
        IsPath record.method.body (before ++ [place]) →
        ∀ instr, record.method.body[place]? = some instr →
        ∀ name ∈ instr.reads, name ∈ record.temps →
        ∃ earlier ∈ before, ∃ rhs ty,
          record.method.body[earlier]? = some (.assign name rhs ty) := by
  refine ⟨table.map_method_history programs counters, ?_⟩
  intro record member before place isPath instr fetched name isRead isTemp
  obtain ⟨⟨body, compiles⟩, start, stop, temps, -⟩ :=
    (table.recorded_history programs counters).sound record member
  have notDeclared : name ∉ record.scope.declared := not_mem_declared_of_mem_taken (temps ▸ isTemp)
  have start : (⟨0, []⟩ : Sight) ∈ record.scope.At 0 [] := ⟨rfl, nofun⟩
  rcases compiles.prepared.reaches start (reaches_of_isPath isPath) with isReady | ⟨_, isExit, -⟩
  · have assigned := (isReady instr fetched name isRead).resolve_left notDeclared
    obtain ⟨earlier, onPath, written⟩ := List.mem_flatMap.mp assigned
    exact ⟨earlier, List.mem_reverse.mp onPath, mem_writtenAt.mp written⟩
  · cases isExit

end ClassTable

/-- A class with a method whose second operand is computed only if the first one holds. -/
def Program.bounded : Program where
  imports := []
  classDecl :=
    { name := "A"
      superClass := none
      fields := []
      methods :=
        [{ name := "f"
           isPublic := true
           isStatic := true
           returnType := .ofTy .nowhere .boolean
           params := [⟨.ofTy .nowhere .boolean, "go", false, .nowhere⟩,
             ⟨.ofTy .nowhere .int, "n", false, .nowhere⟩]
           locals := []
           body :=
             [.ret .nowhere (some (.binary .nowhere .and (.name .nowhere "go")
               (.binary .nowhere .less (.name .nowhere "n")
                 (.binary .nowhere (.arith .add) (.name .nowhere "n")
                   (.literal .nowhere (.int 1))))))]
           pos := .nowhere }]
      pos := .nowhere }
  pos := .nowhere

/-- The word for the result is assigned on the way that passes by the sum, and the sum on the way
that compares it. -/
theorem assigned_of_history_bounded :
    ∃ record, (ClassTable.ofProgram .bounded).history [.bounded] {} = [record] ∧
      record.temps = ["t0", "t1"] ∧
      IsPath record.method.body [0, 1, 6, 7, 8, 11, 12] ∧
      (∃ earlier ∈ [0, 1, 6, 7, 8, 11], ∃ rhs ty,
        record.method.body[earlier]? = some (.assign "t0" rhs ty)) ∧
      IsPath record.method.body [0, 2, 3, 4] ∧
      ∃ earlier ∈ [0, 2, 3], ∃ rhs ty,
        record.method.body[earlier]? = some (.assign "t1" rhs ty) := by
  obtain ⟨-, assigned⟩ := ClassTable.assigned_of_history (.ofProgram .bounded) [.bounded] {}
  have passing : ∀ record ∈ (ClassTable.ofProgram .bounded).history [.bounded] {},
      record.temps = ["t0", "t1"] ∧ IsPath record.method.body [0, 1, 6, 7, 8, 11, 12] ∧
        IsPath record.method.body [0, 2, 3, 4] := by
    exact List.forall_mem_singleton.mpr ⟨by decide +kernel, ⟨rfl, by decide⟩, ⟨rfl, by decide⟩⟩
  refine ⟨_, rfl, ?_⟩
  obtain ⟨temps, skips, compares⟩ := passing _ (.head _)
  refine ⟨temps, skips, ?_, compares, ?_⟩
  · exact assigned _ (.head _) _ 12 skips _ rfl _ (.head _) (temps ▸ .head _)
  · exact assigned _ (.head _) _ 4 compares _ rfl _ (.tail _ (.head _)) (temps ▸ .tail _ (.head _))

end JavaMinus
