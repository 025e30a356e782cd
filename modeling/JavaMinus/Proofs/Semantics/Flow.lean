/-
This file says where control can go in three-address code. A jump leads to its
label, a branch to its label or to the next instruction, a return nowhere, and
everything else to the next instruction; what is computed on the way does not
matter. A control path follows these steps.

Control that starts at a position is confined by exits when it stays inside the
code until it comes to one of them. This is shown by a set of positions that no
step leaves except to an exit, so loops need no induction over the length of a
path. The rules for such sets hold of any system that goes on step by step and of
anything that should be safe on the way. A stretch of code exits at the places
of its possible outcomes when it is confined by them and there is a path to each.
-/

import Mathlib.Data.Set.Lattice
import JavaMinus.Proofs.Semantics.Code

namespace JavaMinus

/-! ### Control paths -/

/-- The positions at which control can go on behind an instruction. -/
def Instr.successors (code : List Instr) (position : Nat) : Instr → List Nat
  | .goto target => (labelPosition? code target).toList
  | .branch _ target => (position + 1) :: (labelPosition? code target).toList
  | .ret _ _ => []
  | _ => [position + 1]

/-- Control can go from one position to the other in one step. -/
def Flows (code : List Instr) (position next : Nat) : Prop :=
  ∃ instr, code[position]? = some instr ∧ next ∈ instr.successors code position

/-- Control can go from one position to the other. -/
def ControlPath (code : List Instr) : Nat → Nat → Prop := Relation.ReflTransGen (Flows code)

theorem flows_of_successor {code : List Instr} {position next : Nat} {instr : Instr}
    (fetched : code[position]? = some instr) (leads : next ∈ instr.successors code position) :
    Flows code position next :=
  ⟨instr, fetched, leads⟩

theorem flows_iff {code : List Instr} {position next : Nat} {instr : Instr}
    (fetched : code[position]? = some instr) :
    Flows code position next ↔ next ∈ instr.successors code position := by
  constructor
  · rintro ⟨other, same, leads⟩
    rw [fetched, Option.some_inj] at same
    rwa [same]
  · exact flows_of_successor fetched

/-- A label is found inside the code. -/
theorem lt_length_of_labelPosition? {code : List Instr} {label : Label} {place : Nat}
    (found : labelPosition? code label = some place) : place < code.length :=
  (List.findIdx?_eq_some_iff_findIdx_eq.mp found).1

/-- Nothing leads behind code that ends in a return. -/
theorem not_flows_length {code : List Instr} {last : Instr} (isLast : code.getLast? = some last)
    (isReturn : last.isReturn = true) (position : Nat) : ¬ Flows code position code.length := by
  rintro ⟨instr, fetched, leads⟩
  have inside : position < code.length := (List.getElem?_eq_some_iff.mp fetched).1
  -- A jump stays inside the code, so only the last instruction could lead behind it.
  have atLast (next : code.length = position + 1) : instr = last := by
    rw [List.getLast?_eq_getElem?, next, Nat.add_sub_cancel, fetched] at isLast
    exact Option.some_inj.mp isLast
  have notJump (target : Label) : code.length ∉ (labelPosition? code target).toList := by
    intro member
    rw [Option.mem_toList] at member
    exact Nat.lt_irrefl _ (lt_length_of_labelPosition? member)
  cases instr with
  | goto target => exact notJump target leads
  | branch condition target =>
    rcases List.mem_cons.mp leads with next | jumps
    · rw [← atLast next] at isReturn
      cases isReturn
    · exact notJump target jumps
  | ret result ty => cases leads
  | _ =>
    rw [← atLast (List.mem_singleton.mp leads)] at isReturn
    cases isReturn

/-! ### Safety on the way to an exit -/

/-- A system that starts at one of the entries is safe until it comes to an exit: there is a set of
safe states that no step leaves except to an exit. -/
def SafeUntil {α : Type} (moves : α → α → Prop) (safe : α → Prop) (entries exits : Set α) : Prop :=
  ∃ inside : Set α, entries ⊆ inside ∪ exits ∧
    ∀ state ∈ inside, safe state ∧ ∀ next, moves state next → next ∈ inside ∪ exits

namespace SafeUntil

variable {α : Type} {moves : α → α → Prop} {safe : α → Prop}
  {entries middle exits others : Set α}

theorem here (areExits : entries ⊆ exits) : SafeUntil moves safe entries exits :=
  ⟨∅, Set.subset_union_of_subset_right areExits _,
    fun _ member => absurd member (Set.notMem_empty _)⟩

/-- The system goes on from each of the exits. -/
theorem trans (first : SafeUntil moves safe entries middle)
    (rest : SafeUntil moves safe middle exits) : SafeUntil moves safe entries exits := by
  obtain ⟨before, starts, closedBefore⟩ := first
  obtain ⟨behind, goesOn, closedBehind⟩ := rest
  have enter : before ∪ middle ⊆ (before ∪ behind) ∪ exits := by
    rw [Set.union_assoc]
    exact Set.union_subset_union_right before goesOn
  refine ⟨before ∪ behind, starts.trans enter, ?_⟩
  rintro state (isBefore | isBehind)
  · exact (closedBefore state isBefore).imp id fun leads next steps => enter (leads next steps)
  · refine (closedBehind state isBehind).imp id fun leads next steps => ?_
    rw [Set.union_assoc]
    exact .inr (leads next steps)

theorem mono (safeUntil : SafeUntil moves safe entries middle) (subset : middle ⊆ exits) :
    SafeUntil moves safe entries exits :=
  safeUntil.trans (.here subset)

/-- What holds of each entry holds of all. -/
theorem of_forall (each : ∀ entry ∈ entries, SafeUntil moves safe {entry} exits) :
    SafeUntil moves safe entries exits := by
  choose inside starts closed using each
  refine ⟨{state | ∃ entry member, state ∈ inside entry member}, fun entry member => ?_, ?_⟩
  · exact (starts entry member rfl).imp_left fun isInside => ⟨entry, member, isInside⟩
  · rintro state ⟨entry, member, isInside⟩
    refine (closed entry member state isInside).imp id fun leads next steps => ?_
    exact (leads next steps).imp_left fun staysInside => ⟨entry, member, staysInside⟩

theorem union (left : SafeUntil moves safe entries exits)
    (right : SafeUntil moves safe others exits) :
    SafeUntil moves safe (entries ∪ others) exits :=
  of_forall <| by
    rintro entry (inLeft | inRight)
    · exact (SafeUntil.here (Set.singleton_subset_iff.mpr inLeft)).trans left
    · exact (SafeUntil.here (Set.singleton_subset_iff.mpr inRight)).trans right

/-- A step from each entry, which may also lead back to where it started. -/
theorem loop (areSafe : ∀ entry ∈ entries, safe entry)
    (leads : ∀ entry ∈ entries, ∀ next, moves entry next → next ∈ middle)
    (rest : SafeUntil moves safe middle (entries ∪ exits)) :
    SafeUntil moves safe entries exits := by
  obtain ⟨inside, starts, closed⟩ := rest
  have enter : inside ∪ (entries ∪ exits) ⊆ (entries ∪ inside) ∪ exits := by
    rw [← Set.union_assoc, Set.union_comm inside]
  refine ⟨entries ∪ inside, fun entry member => .inl (.inl member), ?_⟩
  rintro state (isEntry | isInside)
  · exact ⟨areSafe state isEntry, fun next steps =>
      enter (starts (leads state isEntry next steps))⟩
  · exact (closed state isInside).imp id fun leads next steps => enter (leads next steps)

theorem step (areSafe : ∀ entry ∈ entries, safe entry)
    (leads : ∀ entry ∈ entries, ∀ next, moves entry next → next ∈ middle)
    (rest : SafeUntil moves safe middle exits) : SafeUntil moves safe entries exits :=
  loop areSafe leads (rest.mono Set.subset_union_right)

/-- Whatever is reached is safe or behind an exit. -/
theorem reaches (safeUntil : SafeUntil moves safe entries exits) {first last : α}
    (isEntry : first ∈ entries) (path : Relation.ReflTransGen moves first last) :
    safe last ∨ ∃ place ∈ exits, Relation.ReflTransGen moves place last := by
  obtain ⟨inside, starts, closed⟩ := safeUntil
  have stays : last ∈ inside ∨ ∃ place ∈ exits, Relation.ReflTransGen moves place last := by
    induction path with
    | refl =>
      rcases starts isEntry with within | isExit
      · exact .inl within
      · exact .inr ⟨first, isExit, .refl⟩
    | tail _ steps inductionHypothesis =>
      rcases inductionHypothesis with within | ⟨place, isExit, rest⟩
      · rcases (closed _ within).2 _ steps with inside | isExit
        · exact .inl inside
        · exact .inr ⟨_, isExit, .refl⟩
      · exact .inr ⟨place, isExit, rest.tail steps⟩
  exact stays.imp_left fun within => (closed last within).1

end SafeUntil

/-! ### Exits -/

/-- Control that starts at a position stays in the code until it comes to an exit. -/
def Confined (code : List Instr) (entry : Nat) (exits : Set Nat) : Prop :=
  ∃ inside : Set Nat, entry ∈ inside ∪ exits ∧
    ∀ position ∈ inside, position < code.length ∧
      ∀ next, Flows code position next → next ∈ inside ∪ exits

namespace Confined

variable {code : List Instr} {entry : Nat} {middle exits : Set Nat}

theorem iff_safeUntil :
    Confined code entry exits ↔ SafeUntil (Flows code) (· < code.length) {entry} exits := by
  simp only [Confined, SafeUntil, Set.singleton_subset_iff]

theorem here (isExit : entry ∈ exits) : Confined code entry exits :=
  iff_safeUntil.mpr (.here (Set.singleton_subset_iff.mpr isExit))

/-- Control that goes on from each of the exits. -/
theorem trans (first : Confined code entry middle)
    (rest : ∀ position ∈ middle, Confined code position exits) : Confined code entry exits :=
  iff_safeUntil.mpr ((iff_safeUntil.mp first).trans
    (.of_forall fun position member => iff_safeUntil.mp (rest position member)))

theorem mono (confined : Confined code entry middle) (subset : middle ⊆ exits) :
    Confined code entry exits :=
  iff_safeUntil.mpr ((iff_safeUntil.mp confined).mono subset)

/-- Control that comes back to where it started is still inside. -/
theorem loop {instr : Instr} (fetched : code[entry]? = some instr)
    (rest : ∀ next ∈ instr.successors code entry, Confined code next (insert entry exits)) :
    Confined code entry exits := by
  have onward : SafeUntil (Flows code) (· < code.length)
      {next | next ∈ instr.successors code entry} ({entry} ∪ exits) :=
    .of_forall fun next member => iff_safeUntil.mp (rest next member)
  refine iff_safeUntil.mpr (.loop ?_ ?_ onward)
  · rintro _ rfl
    exact (List.getElem?_eq_some_iff.mp fetched).1
  · rintro _ rfl next flows
    exact (flows_iff fetched).mp flows

theorem step {instr : Instr} (fetched : code[entry]? = some instr)
    (rest : ∀ next ∈ instr.successors code entry, Confined code next exits) :
    Confined code entry exits :=
  loop fetched fun next member => (rest next member).mono (Set.subset_insert _ _)

/-- A path leads to a place in the code, or goes through an exit. -/
theorem path (confined : Confined code entry exits) {last : Nat}
    (path : ControlPath code entry last) :
    last < code.length ∨ ∃ place ∈ exits, ControlPath code place last :=
  (iff_safeUntil.mp confined).reaches rfl path

end Confined

/-- Control that starts at a position comes to the places of the possible outcomes, and stays in
the code until then. -/
structure Exits {α : Type} (code : List Instr) (position : Nat) (may : α → Prop)
    (arrive : α → Nat) : Prop where
  confined : Confined code position {place | ∃ outcome, may outcome ∧ arrive outcome = place}
  reached : ∀ outcome, may outcome → ControlPath code position (arrive outcome)

namespace Exits

variable {α β : Type} {code : List Instr} {position : Nat} {may : α → Prop} {arrive : α → Nat}

/-- Control is there already. -/
theorem done (outcome : α) (possible : ∀ other, may other ↔ other = outcome)
    (arrived : arrive outcome = position) : Exits code position may arrive where
  confined := .here ⟨outcome, (possible outcome).mpr rfl, arrived⟩
  reached other isPossible := by
    rw [(possible other).mp isPossible, arrived]
    exact .refl

theorem congr {may' : α → Prop} (leaves : Exits code position may arrive)
    (same : ∀ outcome, may outcome ↔ may' outcome) : Exits code position may' arrive := by
  rwa [← funext fun outcome => propext (same outcome)]

/-- What is possible behind something that is possible. -/
theorem bind {may' : α → β → Prop} {arrive' : β → Nat} (first : Exits code position may arrive)
    (rest : ∀ outcome, may outcome → Exits code (arrive outcome) (may' outcome) arrive') :
    Exits code position (fun last => ∃ outcome, may outcome ∧ may' outcome last) arrive' where
  confined := by
    refine first.confined.trans ?_
    rintro _ ⟨outcome, possible, rfl⟩
    refine (rest outcome possible).confined.mono ?_
    rintro _ ⟨last, isPossible, rfl⟩
    exact ⟨last, ⟨outcome, possible, isPossible⟩, rfl⟩
  reached := by
    rintro last ⟨outcome, possible, isPossible⟩
    exact (first.reached outcome possible).trans ((rest outcome possible).reached last isPossible)

/-- An instruction in front that goes to one place only. -/
theorem cons {instr : Instr} {next : Nat} (fetched : code[position]? = some instr)
    (leads : instr.successors code position = [next]) (rest : Exits code next may arrive) :
    Exits code position may arrive where
  confined := .step fetched fun place member => by
    rw [leads, List.mem_singleton] at member
    rw [member]
    exact rest.confined
  reached outcome possible := by
    refine .head (flows_of_successor fetched ?_) (rest.reached outcome possible)
    rw [leads]
    exact List.mem_singleton_self next

end Exits

end JavaMinus
