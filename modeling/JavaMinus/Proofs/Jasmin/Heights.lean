/-
This file shows that the lines of a method keep to a stack discipline. Every
line pops and pushes a fixed number of values, so each control path through the
lines gives a height of the operand stack at each of them. All paths give the
same height: it is zero at labels and behind jumps, a return finds exactly what
it returns, no line pops more than there is, and the height stays below a bound
that depends only on how many arguments the calls of the method have.

The heights come from adding up what the lines do in the order in which they
stand. The lines of one instruction begin and end at zero, except that an
allocation ends at one and its constructor call begins there; hence what is
added up agrees with every jump.
-/

import JavaMinus.Proofs.Jasmin.Selection
import JavaMinus.Proofs.Lowering.Shape
import JavaMinus.Proofs.Semantics.Machine

namespace JavaMinus

/-- The class that the target of a call belongs to, where the call is made in a class of this
name. -/
def CallTarget.owner (className : String) : CallTarget → String
  | .this => className
  | .receiver operand => operand.ty.base
  | .ofClass name => name

namespace Jasmin

namespace Line

/-! ### What a line does to the stack -/

/-- How many values a line takes from the stack. -/
def pops : Line → Nat
  | .label _ | .goto _ | .retVoid | .newObject _ => 0
  | .iconst _ | .bipush _ | .sipush _ | .ldc _ | .shortLoad _ _ | .load _ _ => 0
  | .shortStore _ _ | .store _ _ | .getField _ _ _ | .dup | .pop | .newIntArray => 1
  | .arrayLength | .ifNonZero _ | .construct _ | .ret _ => 1
  | .putField _ _ _ | .loadElement | .arith _ | .ifLess _ => 2
  | .storeElement => 3
  | .invokeVirtual _ _ descriptor => 1 + descriptor.params.length
  | .invokeStatic _ _ descriptor => descriptor.params.length

/-- How many values a line leaves on the stack. -/
def pushes : Line → Nat
  | .iconst _ | .bipush _ | .sipush _ | .ldc _ | .shortLoad _ _ | .load _ _ => 1
  | .getField _ _ _ | .newObject _ | .newIntArray | .loadElement | .arrayLength | .arith _ => 1
  | .dup => 2
  | .invokeVirtual _ _ descriptor | .invokeStatic _ _ descriptor =>
    if descriptor.result = .void then 0 else 1
  | _ => 0

/-- Where a jump leads. -/
def target? : Line → Option Label
  | .goto target | .ifLess target | .ifNonZero target => some target
  | _ => none

/-- Whether control can go on at the next line. -/
def fallsThrough : Line → Bool
  | .goto _ | .ret _ | .retVoid => false
  | _ => true

/-- Whether a line begins or ends a stretch of lines: labels, jumps and returns. -/
def bounds : Line → Bool
  | .label _ | .goto _ | .ifLess _ | .ifNonZero _ | .ret _ | .retVoid => true
  | _ => false

/-- The height of the stack behind a line. -/
def after (line : Line) (height : Nat) : Nat := height - line.pops + line.pushes

theorem bounds_of_target? {line : Line} {target : Label} (jumps : line.target? = some target) :
    line.bounds = true := by
  cases line with
  | goto | ifLess | ifNonZero => rfl
  | _ => cases jumps

/-- Labels, jumps and returns leave nothing. -/
theorem pushes_of_bounds {line : Line} (bound : line.bounds = true) : line.pushes = 0 := by
  cases line with
  | label | goto | ifLess | ifNonZero | ret | retVoid => rfl
  | _ => cases bound

end Line

/-! ### Control paths -/

/-- Control can go from one position to the other. -/
inductive Leads (lines : List Line) (position : Nat) (line : Line) : Nat → Prop
  | next (through : line.fallsThrough = true) : Leads lines position line (position + 1)
  | jump {target place} (jumps : line.target? = some target)
      (found : linePosition? lines target = some place) : Leads lines position line place

/-- A control path from the first line leads to a position with this height of the stack. Whether
the height is negative is left open. -/
inductive Path (lines : List Line) : Nat → Int → Prop
  | start : Path lines 0 0
  | step {position line next height} (path : Path lines position height)
      (fetched : lines[position]? = some line) (leads : Leads lines position line next) :
      Path lines next (height - line.pops + line.pushes)

/-- There is one height at each position, and it keeps to the discipline. -/
structure Balanced (lines : List Line) (limit : Nat) (height : Nat → Nat) : Prop where
  start : height 0 = 0
  agrees : ∀ position line next, lines[position]? = some line →
    Leads lines position line next → height next = line.after (height position)
  enough : ∀ position line, lines[position]? = some line → line.pops ≤ height position
  label : ∀ position place, lines[position]? = some (.label place) → height position = 0
  jump : ∀ position line, lines[position]? = some line → line.target?.isSome = true →
    height position = line.pops ∧ height (position + 1) = 0
  ret : ∀ position cell, lines[position]? = some (.ret cell) → height position = 1
  retVoid : ∀ position, lines[position]? = some .retVoid → height position = 0
  low : ∀ position, position ≤ lines.length → height position ≤ limit

/-- Every control path comes to a position with the height of the position. -/
theorem Balanced.path {lines : List Line} {limit : Nat} {height : Nat → Nat}
    (balanced : Balanced lines limit height) {position : Nat} {found : Int}
    (path : Path lines position found) : found = height position := by
  induction path with
  | start => rw [balanced.start, Int.natCast_zero]
  | step _ fetched leads inductionHypothesis =>
    have enough := balanced.enough _ _ fetched
    rw [inductionHypothesis, balanced.agrees _ _ _ fetched leads, Line.after]
    omega

/-! ### The stack of the machine -/

theorem act_eq_before {α : Type} {machine after : Machine} {action : Exec α}
    {next : α → Machine → Option Place} {position : Nat}
    (acted : machine.act action next = some (.before position after)) :
    ∃ result heap, next result { machine with heap := heap } = some (.before position after) := by
  rw [Machine.act] at acted
  split at acted
  · next result heap _ => exact ⟨result, heap, acted⟩
  · cases acted
  · cases acted

theorem enter_eq_before {lines : List Line} {target : Label} {machine after : Machine}
    {position : Nat} (entered : enter lines target machine = some (.before position after)) :
    linePosition? lines target = some position ∧ after = machine := by
  obtain ⟨place, found, same⟩ := Option.map_eq_some_iff.mp entered
  obtain ⟨rfl, rfl⟩ := Place.before.inj same
  exact ⟨found, rfl⟩

/-- A branch leads to its label or to the next line, and leaves the stack as it is. -/
theorem leads_of_branch {lines : List Line} {position next : Nat} (line : Line) {target : Label}
    {machine after : Machine} {action : Exec Bool} (through : line.fallsThrough = true)
    (jumps : line.target? = some target)
    (branched : machine.act action (fun taken after =>
      if taken then enter lines target after else some (.before (position + 1) after)) =
        some (.before next after)) :
    Leads lines position line next ∧ after.stack = machine.stack := by
  obtain ⟨taken, heap, branched⟩ := act_eq_before branched
  cases taken with
  | true =>
    obtain ⟨found, rfl⟩ := enter_eq_before branched
    exact ⟨.jump jumps found, rfl⟩
  | false =>
    obtain ⟨rfl, rfl⟩ := Place.before.inj (Option.some.inj branched)
    exact ⟨.next through, rfl⟩

/-- A line pops and pushes as many values as it says, and leads where it says. -/
theorem stack_of_perform {checked : Bool} {lines : List Line} {position next : Nat}
    {machine after : Machine} {line : Line}
    (performed : line.perform checked lines position machine = some (.before next after)) :
    Leads lines position line next ∧ line.pops ≤ machine.stack.length ∧
      after.stack.length = line.after machine.stack.length := by
  obtain ⟨stack, locals, fields, heap⟩ := machine
  have goesOn {other : Machine} (through : line.fallsThrough = true)
      (same : some (Place.before (position + 1) other) = some (.before next after))
      (enough : line.pops ≤ stack.length)
      (found : other.stack.length = line.after stack.length) :
      Leads lines position line next ∧ line.pops ≤ stack.length ∧
        after.stack.length = line.after stack.length := by
    obtain ⟨rfl, rfl⟩ := Place.before.inj (Option.some.inj same)
    exact ⟨.next through, enough, found⟩
  cases line with
  | label | bipush | sipush | ldc => exact goesOn rfl performed (Nat.zero_le _) rfl
  | iconst =>
    rw [Line.perform] at performed
    split at performed
    · exact goesOn rfl performed (Nat.zero_le _) rfl
    · cases performed
  | shortLoad | load =>
    rw [Line.perform, loadFrom] at performed
    split at performed
    · exact goesOn rfl performed (Nat.zero_le _) rfl
    · cases performed
  | shortStore | store =>
    cases stack with
    | nil => cases performed
    | cons value rest =>
      simp only [Line.perform, storeTo, Machine.withTop] at performed
      split at performed
      · exact goesOn rfl performed (Nat.le_add_left 1 _) rfl
      · cases performed
  | getField =>
    cases stack with
    | nil => cases performed
    | cons value rest =>
      cases value with
      | object => exact goesOn rfl performed (Nat.le_add_left 1 _) rfl
      | _ => cases performed
  | construct =>
    cases stack with
    | nil => cases performed
    | cons value rest =>
      cases value with
      | object =>
        simp only [Line.perform, Machine.withTop] at performed
        split at performed
        · exact goesOn rfl performed (Nat.le_add_left 1 _) rfl
        · cases performed
      | _ => cases performed
  | dup | pop =>
    cases stack with
    | nil => cases performed
    | cons value rest => exact goesOn rfl performed (Nat.le_add_left 1 _) rfl
  | newObject =>
    rw [Line.perform, pushResult] at performed
    obtain ⟨result, heap, performed⟩ := act_eq_before performed
    exact goesOn rfl performed (Nat.zero_le _) rfl
  | newIntArray | arrayLength =>
    cases stack with
    | nil => cases performed
    | cons value rest =>
      simp only [Line.perform, Machine.withTop, pushResult] at performed
      obtain ⟨result, heap, performed⟩ := act_eq_before performed
      exact goesOn rfl performed (Nat.le_add_left 1 _) rfl
  | arith | loadElement =>
    match stack with
    | [] | [_] => cases performed
    | second :: first :: rest =>
      simp only [Line.perform, Machine.withTop, pushResult] at performed
      obtain ⟨result, heap, performed⟩ := act_eq_before performed
      exact goesOn rfl performed (Nat.le_add_left 2 _) rfl
  | putField =>
    match stack with
    | [] | [_] => cases performed
    | value :: object :: rest =>
      cases object with
      | object => exact goesOn rfl performed (Nat.le_add_left 2 _) rfl
      | _ => cases performed
  | storeElement =>
    match stack with
    | [] | [_] | [_, _] => cases performed
    | stored :: place :: array :: rest =>
      simp only [Line.perform, Machine.withTop] at performed
      obtain ⟨result, heap, performed⟩ := act_eq_before performed
      exact goesOn rfl performed (Nat.le_add_left 3 _) rfl
  | goto =>
    obtain ⟨found, rfl⟩ := enter_eq_before performed
    exact ⟨.jump rfl found, Nat.zero_le _, rfl⟩
  | ifNonZero target =>
    cases stack with
    | nil => cases performed
    | cons value rest =>
      simp only [Line.perform, Machine.withTop] at performed
      obtain ⟨leads, same⟩ := leads_of_branch (.ifNonZero target) rfl rfl performed
      exact ⟨leads, Nat.le_add_left 1 _, congrArg List.length same⟩
  | ifLess target =>
    match stack with
    | [] | [_] => cases performed
    | second :: first :: rest =>
      simp only [Line.perform, Machine.withTop] at performed
      obtain ⟨leads, same⟩ := leads_of_branch (.ifLess target) rfl rfl performed
      exact ⟨leads, Nat.le_add_left 2 _, congrArg List.length same⟩
  | ret =>
    cases stack with
    | nil => cases performed
    | cons value rest =>
      simp only [Line.perform, Machine.withTop] at performed
      split at performed
      · cases performed
      · cases performed
  | invokeVirtual | invokeStatic | retVoid => cases performed

/-- A run of the machine comes to a position with the height of the position. -/
theorem Balanced.runs {lines : List Line} {limit : Nat} {height : Nat → Nat}
    (balanced : Balanced lines limit height) {checked : Bool} {machine : Machine} {place : Place}
    (empty : machine.stack = []) (run : Runs checked lines (.before 0 machine) place)
    {after : Machine} {position : Nat} (arrives : place = .before position after) :
    after.stack.length = height position := by
  induction run generalizing position after with
  | refl =>
    obtain ⟨rfl, rfl⟩ := Place.before.inj arrives
    rw [empty, balanced.start]
    rfl
  | @tail middle _ _ step inductionHypothesis =>
    subst arrives
    cases middle with
    | ended => cases step
    | before previous machine =>
      rw [follow] at step
      split at step
      · next line fetched =>
        obtain ⟨leads, -, found⟩ := stack_of_perform step
        rw [found, inductionHypothesis rfl, balanced.agrees _ _ _ fetched leads]
      · cases step

/-! ### Adding up -/

/-- The lines lead from one height to the other if they are taken in order, and labels, jumps and
returns find exactly what they pop. -/
inductive Level (limit : Nat) : Nat → List Line → Nat → Prop
  | nil {height} (low : height ≤ limit) : Level limit height [] height
  | cons {height line rest last} (low : height ≤ limit) (enough : line.pops ≤ height)
      (exact : line.bounds = true → height = line.pops)
      (restLevel : Level limit (line.after height) rest last) :
      Level limit height (line :: rest) last

namespace Level

variable {limit height middle last : Nat} {first second lines : List Line}

theorem append (start : Level limit height first middle)
    (rest : Level limit middle second last) : Level limit height (first ++ second) last := by
  induction start with
  | nil => exact rest
  | cons low enough exact _ inductionHypothesis =>
    exact .cons low enough exact (inductionHypothesis rest)

/-- One line that ends at a given height. -/
theorem single {line : Line} (low : height ≤ limit) (enough : line.pops ≤ height)
    (exact : line.bounds = true → height = line.pops) (isLast : line.after height = last)
    (lastLow : last ≤ limit) : Level limit height [line] last := by
  subst isLast
  exact .cons low enough exact (.nil lastLow)

end Level

/-- The height before the line at a position, if the lines before it are taken in order. -/
def heightAt : Nat → List Line → Nat → Nat
  | height, _, 0 => height
  | height, [], _ + 1 => height
  | height, line :: rest, position + 1 => heightAt (line.after height) rest position

theorem heightAt_succ {lines : List Line} {position : Nat} {line : Line} (height : Nat)
    (fetched : lines[position]? = some line) :
    heightAt height lines (position + 1) = line.after (heightAt height lines position) := by
  induction lines generalizing height position with
  | nil => cases fetched
  | cons first rest inductionHypothesis =>
    cases position with
    | zero =>
      obtain rfl := Option.some.inj fetched
      rw [heightAt, heightAt, heightAt]
    | succ position =>
      rw [heightAt, heightAt]
      exact inductionHypothesis (first.after height) fetched

namespace Level

variable {limit height last position : Nat} {lines : List Line} {line : Line}

theorem heightAt_le (level : Level limit height lines last) (position : Nat) :
    heightAt height lines position ≤ limit := by
  induction level generalizing position with
  | nil low => cases position <;> exact low
  | cons low _ _ _ inductionHypothesis =>
    cases position with
    | zero => exact low
    | succ position => exact inductionHypothesis position

/-- What a line finds on the stack. -/
theorem enough_heightAt (level : Level limit height lines last)
    (fetched : lines[position]? = some line) :
    line.pops ≤ heightAt height lines position ∧
      (line.bounds = true → heightAt height lines position = line.pops) := by
  induction level generalizing position with
  | nil => cases fetched
  | cons _ enough exact _ inductionHypothesis =>
    cases position with
    | zero =>
      obtain rfl := Option.some.inj fetched
      exact ⟨enough, exact⟩
    | succ position => exact inductionHypothesis fetched

/-- A jump finds the stack as it is at its label. -/
theorem heightAt_of_leads {next : Nat} (level : Level limit 0 lines last)
    (fetched : lines[position]? = some line) (leads : Leads lines position line next) :
    heightAt 0 lines next = line.after (heightAt 0 lines position) := by
  cases leads with
  | next => exact heightAt_succ 0 fetched
  | @jump target _ jumps found =>
    have bound := Line.bounds_of_target? jumps
    obtain ⟨inRange, isLabel, -⟩ := List.findIdx?_eq_some_iff_getElem.mp found
    have labelled : lines[next]? = some (.label target) := by
      rw [List.getElem?_eq_getElem inRange, eq_of_beq isLabel]
    have atLabel : heightAt 0 lines next = 0 := (level.enough_heightAt labelled).2 rfl
    rw [atLabel, Line.after, (level.enough_heightAt fetched).2 bound, Line.pushes_of_bounds bound,
      Nat.sub_self]

/-- Lines that add up to heights below a limit are balanced. -/
theorem balanced (level : Level limit 0 lines last) : Balanced lines limit (heightAt 0 lines) where
  start := by
    cases lines <;> rfl
  agrees _ _ _ fetched leads := level.heightAt_of_leads fetched leads
  enough _ _ fetched := (level.enough_heightAt fetched).1
  label _ _ fetched := (level.enough_heightAt fetched).2 rfl
  jump position line fetched jumps := by
    obtain ⟨target, jumps⟩ := Option.isSome_iff_exists.mp jumps
    have bound := Line.bounds_of_target? jumps
    have found := (level.enough_heightAt fetched).2 bound
    refine ⟨found, ?_⟩
    rw [heightAt_succ 0 fetched, Line.after, found, Line.pushes_of_bounds bound, Nat.sub_self]
  ret _ _ fetched := (level.enough_heightAt fetched).2 rfl
  retVoid _ fetched := (level.enough_heightAt fetched).2 rfl
  low position _ := level.heightAt_le position

end Level

/-! ### Lines of an instruction -/

namespace Line

theorem pushesOne_push (value : Int32) :
    (push value).pops = 0 ∧ (push value).pushes = 1 ∧ (push value).bounds = false := by
  unfold push
  split
  · exact ⟨rfl, rfl, rfl⟩
  · split
    · exact ⟨rfl, rfl, rfl⟩
    · split <;> exact ⟨rfl, rfl, rfl⟩

theorem pushesOne_loadSlot (cell : Cell) (slot : UInt16) :
    (loadSlot cell slot).pops = 0 ∧ (loadSlot cell slot).pushes = 1 ∧
      (loadSlot cell slot).bounds = false := by
  unfold loadSlot
  split <;> exact ⟨rfl, rfl, rfl⟩

theorem popsOne_storeSlot (cell : Cell) (slot : UInt16) :
    (storeSlot cell slot).pops = 1 ∧ (storeSlot cell slot).pushes = 0 ∧
      (storeSlot cell slot).bounds = false := by
  unfold storeSlot
  split <;> exact ⟨rfl, rfl, rfl⟩

end Line

namespace Level

variable {limit height : Nat}

/-- A line inside a stretch. -/
theorem inner {line : Line} {last : Nat} (isInner : line.bounds = false) (low : height ≤ limit)
    (enough : line.pops ≤ height) (isLast : line.after height = last) (lastLow : last ≤ limit) :
    Level limit height [line] last := by
  refine .single low enough (fun bound => ?_) isLast lastLow
  rw [isInner] at bound
  cases bound

/-- A line that pushes one value. -/
theorem pushing {line : Line} (one : line.pops = 0 ∧ line.pushes = 1 ∧ line.bounds = false)
    (low : height + 1 ≤ limit) : Level limit height [line] (height + 1) := by
  obtain ⟨pops, pushes, isInner⟩ := one
  refine .inner isInner (by omega) (by omega) ?_ low
  rw [Line.after, pops, pushes, Nat.sub_zero]

/-- A line at the end of a stretch that pops all there is. -/
theorem ending {line : Line} (bound : line.bounds = true) (all : height = line.pops)
    (low : height ≤ limit) : Level limit height [line] 0 := by
  refine .single low (Nat.le_of_eq all.symm) (fun _ => all) ?_ (Nat.zero_le _)
  rw [Line.after, Line.pushes_of_bounds bound, all, Nat.sub_self]

end Level

variable {frame : Frame} {limit height : Nat} {lines : List Line}

/-- Loading an operand pushes one value. -/
theorem Frame.Loads.level {operand : Operand} (loads : frame.Loads operand lines)
    (low : height + 1 ≤ limit) : Level limit height lines (height + 1) := by
  cases loads with
  | literal => exact .pushing (Line.pushesOne_push _) low
  | var => exact .pushing (Line.pushesOne_loadSlot _ _) low
  | field =>
    have receiver : Level limit height [Line.loadThis] (height + 1) := .pushing ⟨rfl, rfl, rfl⟩ low
    exact receiver.append (.inner rfl low (Nat.le_add_left 1 height) rfl low)
  | this => exact .pushing ⟨rfl, rfl, rfl⟩ low

theorem Frame.LoadsAll.level {operands : List Operand} (loads : frame.LoadsAll operands lines)
    (low : height + operands.length ≤ limit) :
    Level limit height lines (height + operands.length) := by
  induction loads generalizing height with
  | nil => exact .nil low
  | @cons operand operands first rest firstLoads _ inductionHypothesis =>
    rw [List.length_cons, Nat.add_comm operands.length 1, ← Nat.add_assoc] at low ⊢
    exact (firstLoads.level (Nat.le_of_add_right_le low)).append (inductionHypothesis low)

/-- A descriptor has a parameter for each argument of a call, and a result exactly if the call has
one. -/
def MethodDescriptor.Fits (descriptor : MethodDescriptor) (call : Call) : Prop :=
  descriptor.params.length = call.args.length ∧
    (descriptor.result = .void ↔ call.returnType.isVoid = true)

instance (descriptor : MethodDescriptor) (call : Call) : Decidable (descriptor.Fits call) :=
  inferInstanceAs (Decidable (_ ∧ _))

/-- The call is made with a descriptor that fits it. -/
def Frame.Describes (frame : Frame) (call : Call) : Prop :=
  ∀ descriptor, frame.callDescriptor (call.target.owner frame.code.name) call = .ok descriptor →
    descriptor.Fits call

instance Frame.decidableDescribes (frame : Frame) (call : Call) :
    Decidable (frame.Describes call) :=
  match described : frame.callDescriptor (call.target.owner frame.code.name) call with
  | .error _ => .isTrue fun _ same => absurd (described.symm.trans same) nofun
  | .ok descriptor =>
    decidable_of_iff (descriptor.Fits call)
      ⟨fun fits _ same => Except.ok.inj (described.symm.trans same) ▸ fits,
        fun fits => fits descriptor described⟩

/-- The number of values that a call leaves. -/
def results (call : Call) : Nat := if call.returnType.isVoid then 0 else 1

theorem Frame.Targets.owner_eq {target : CallTarget} {owner : String}
    (targets : frame.Targets target lines owner) : target.owner frame.code.name = owner := by
  cases targets <;> rfl

/-- What a call is made on is one value, unless it is a class. -/
theorem Frame.Targets.level {target : CallTarget} {owner : String}
    (targets : frame.Targets target lines owner) (onValue : ∀ name, target ≠ .ofClass name)
    (low : height + 1 ≤ limit) : Level limit height lines (height + 1) := by
  cases targets with
  | this => exact .pushing ⟨rfl, rfl, rfl⟩ low
  | receiver loads => exact loads.level low
  | ofClass => exact absurd rfl (onValue _)

/-- The results of a call by its descriptor are those of the call. -/
theorem results_eq {descriptor : MethodDescriptor} {call : Call}
    (same : descriptor.result = .void ↔ call.returnType.isVoid = true) :
    (if descriptor.result = .void then 0 else 1) = results call := by
  rw [results]
  by_cases isVoid : call.returnType.isVoid = true
  · rw [if_pos (same.mpr isVoid), if_pos isVoid]
  · rw [if_neg fun result => isVoid (same.mp result), if_neg isVoid]

/-- A call takes its target and its arguments and leaves its result. -/
theorem Frame.Calls.level {call : Call} (calls : frame.Calls call lines)
    (describes : call.kind ≠ .constructor → frame.Describes call)
    (regular : call.kind ≠ .constructor) (low : 1 + call.args.length ≤ limit) :
    Level limit 0 lines (results call) := by
  have few : results call ≤ limit := by
    rw [results]
    split <;> omega
  cases calls with
  | construct isConstructor => exact absurd isConstructor regular
  | @virtual target owner args descriptor isVirtual onValue targets loads described =>
    rw [← targets.owner_eq] at described
    obtain ⟨params, result⟩ := describes regular descriptor described
    have loaded := (targets.level onValue (Nat.le_of_add_right_le low)).append (loads.level low)
    refine loaded.append (.inner rfl low ?_ ?_ few)
    · show 1 + descriptor.params.length ≤ _
      omega
    · show _ - (1 + descriptor.params.length) + (if descriptor.result = .void then 0 else 1) = _
      rw [params, Nat.zero_add, Nat.sub_self, Nat.zero_add, results_eq result]
  | @static owner args descriptor isStatic onClass loads described =>
    have isOwner : call.target.owner frame.code.name = owner := by
      rw [onClass]
      rfl
    rw [← isOwner] at described
    obtain ⟨params, result⟩ := describes regular descriptor described
    have lowArgs : 0 + call.args.length ≤ limit := by omega
    refine (loads.level lowArgs).append (.inner rfl lowArgs ?_ ?_ few)
    · exact Nat.le_of_eq (params.trans (Nat.zero_add _).symm)
    · show _ - descriptor.params.length + (if descriptor.result = .void then 0 else 1) = _
      rw [params, Nat.zero_add, Nat.sub_self, Nat.zero_add, results_eq result]

/-- What is asked of the calls of an instruction. -/
def Frame.CallsFit (frame : Frame) (limit : Nat) (instr : Instr) : Prop :=
  ∀ call ∈ instr.calls,
    (call.kind ≠ .constructor → frame.Describes call) ∧ 1 + call.args.length ≤ limit

/-- A right-hand side leaves one value. -/
theorem Frame.Evaluates.level {scope : Scope} {rhs : Instr} (evaluates : frame.Evaluates rhs lines)
    (computes : scope.Computes rhs) (fit : frame.CallsFit limit rhs) (low : 3 ≤ limit) :
    Level limit 0 lines 1 := by
  have one : 0 + 1 ≤ limit := by omega
  have two : 0 + 2 ≤ limit := by omega
  cases evaluates with
  | value loads => exact loads.level one
  | arith loads | loadElement loads =>
    exact (loads.level two).append (.inner rfl two (Nat.le_refl _) rfl one)
  | newObject => exact computes.elim
  | newArray loads | getField loads | arrayLength loads =>
    exact (loads.level one).append (.inner rfl one (Nat.le_refl _) rfl one)
  | @call invocation _ calls =>
    obtain ⟨describes, few⟩ := fit invocation (List.mem_singleton_self _)
    have level := calls.level describes computes.1 few
    rwa [results, if_neg (by rw [computes.2]; decide)] at level

/-- Storing into a variable pops one value. -/
theorem level_storeSlot (cell : Cell) (slot : UInt16) (low : height + 1 ≤ limit) :
    Level limit (height + 1) [.storeSlot cell slot] height := by
  obtain ⟨pops, pushes, isInner⟩ := Line.popsOne_storeSlot cell slot
  refine .inner isInner low (by omega) ?_ (by omega)
  rw [Line.after, pops, pushes]
  rfl

/-- The lines of a regular instruction begin and end with an empty stack. -/
theorem Frame.Selects.level {scope : Scope} {instr : Instr} (selects : frame.Selects instr lines)
    (regular : scope.Regular instr) (fit : frame.CallsFit limit instr) (low : 3 ≤ limit) :
    Level limit 0 lines 0 := by
  have one : 0 + 1 ≤ limit := by omega
  have two : 0 + 2 ≤ limit := by omega
  cases selects with
  | assign evaluates =>
    exact (evaluates.level regular.performs.2 fit low).append (level_storeSlot _ _ one)
  | @call invocation _ isVoid calls | @discardNothing invocation _ isVoid calls =>
    obtain ⟨describes, few⟩ := fit invocation (List.mem_singleton_self _)
    have level := calls.level describes regular.performs few
    rwa [results, if_pos isVoid] at level
  | @discard invocation lines notVoid calls =>
    obtain ⟨describes, few⟩ := fit invocation (List.mem_singleton_self _)
    have level := calls.level describes regular.performs few
    rw [results, if_neg (by rw [notVoid]; decide)] at level
    exact level.append (.inner rfl one (Nat.le_refl _) rfl (Nat.zero_le _))
  | putField loads =>
    exact (loads.level two).append (.inner rfl two (Nat.le_refl _) rfl (Nat.zero_le _))
  | storeElement loads =>
    have three : 0 + 3 ≤ limit := by omega
    exact (loads.level three).append (.inner rfl three (Nat.le_refl _) rfl (Nat.zero_le _))
  | label | goto | retVoid => exact .ending rfl rfl (Nat.zero_le _)
  | ifLess loads => exact (loads.level two).append (.ending rfl rfl two)
  | ifNonZero loads | ret _ loads => exact (loads.level one).append (.ending rfl rfl one)

/-- An allocation leaves the new object on the stack. -/
theorem Frame.Selects.levelAllocation {dest className : String} {ty : Ty}
    (selects : frame.Selects (.assign dest (.newObject className) ty) lines) (low : 3 ≤ limit) :
    Level limit 0 lines 1 := by
  have one : 0 + 1 ≤ limit := by omega
  have two : 1 + 1 ≤ limit := by omega
  cases selects with
  | assign evaluates =>
    cases evaluates with
    | newObject =>
      have allocated : Level limit 0 [.newObject (frame.code.classPath className)] 1 :=
        .pushing ⟨rfl, rfl, rfl⟩ one
      have doubled : Level limit 1 [.dup] 2 := .inner rfl one (Nat.le_refl _) rfl two
      exact (allocated.append doubled).append (level_storeSlot _ _ two)

/-- A constructor call takes the new object from the stack. -/
theorem Frame.Selects.levelConstructor {operand : Operand}
    (selects : frame.Selects (.call (Scope.constructorCall operand)) lines) (low : 3 ≤ limit) :
    Level limit 1 lines 0 := by
  have one : 1 ≤ limit := by omega
  have two : 1 + 1 ≤ limit := by omega
  cases selects with
  | call isVoid calls =>
    cases calls with
    | virtual isVirtual => cases isVirtual
    | static isStatic => cases isStatic
    | @construct target owner isConstructor targets =>
      have constructed : Level limit 2 [.construct (frame.code.classPath owner)] 1 :=
        .inner rfl two (Nat.le_succ 1) rfl one
      have dropped : Level limit 1 [.pop] 0 := .inner rfl one (Nat.le_refl _) rfl (Nat.zero_le _)
      exact (targets.level nofun two).append (constructed.append dropped)

/-- The lines of arranged code begin and end with an empty stack. -/
theorem level_of_arranged {scope : Scope} {code : List Instr} {blocks : List (List Line)}
    (arranged : scope.Arranged code) (selected : List.Forall₂ frame.Selects code blocks)
    (fit : ∀ instr ∈ code, frame.CallsFit limit instr) (low : 3 ≤ limit) :
    Level limit 0 blocks.flatten 0 := by
  induction arranged generalizing blocks with
  | nil =>
    cases selected
    exact .nil (Nat.zero_le _)
  | allocation _ _ inductionHypothesis =>
    cases selected with
    | cons allocation selected =>
      cases selected with
      | cons constructor selected =>
        have rest := inductionHypothesis selected fun instr member =>
          fit instr (List.mem_cons_of_mem _ (List.mem_cons_of_mem _ member))
        exact (allocation.levelAllocation low).append
          ((constructor.levelConstructor low).append rest)
  | regular isRegular _ inductionHypothesis =>
    obtain ⟨firstFits, restFit⟩ := List.forall_mem_cons.mp fit
    cases selected with
    | cons first selected =>
      exact (first.level isRegular firstFits low).append (inductionHypothesis selected restFit)

/-! ### Methods -/

/-- The bound for the height: three, or one more than the largest number of arguments of a call. -/
def stackLimit (code : List Instr) : Nat :=
  max 3 (1 + ((code.flatMap Instr.calls).map fun call => call.args.length).max?.getD 0)

theorem le_stackLimit {code : List Instr} {call : Call} (member : call ∈ code.flatMap Instr.calls) :
    1 + call.args.length ≤ stackLimit code := by
  refine Nat.le_trans (Nat.add_le_add_left ?_ 1) (Nat.le_max_right ..)
  exact List.le_max?_getD_of_mem (List.mem_map_of_mem member)

/-- If the calls of a method are made with descriptors that fit them, its lines are balanced, and
every control path and every run of the machine finds the one height. -/
theorem lines_balanced {table : ClassTable} {program : Program} {before : Counters}
    {code : ClassCode} (lowered : (table.lower program before).1 = .ok code)
    {method : MethodCode} (member : method ∈ code.methods) {lines : List Line}
    (selected : Frame.lines ⟨code, method⟩ = .ok lines)
    (described : ∀ call ∈ method.body.flatMap Instr.calls, call.kind ≠ .constructor →
      Frame.Describes ⟨code, method⟩ call) :
    ∃ height : Nat → Nat, Balanced lines (stackLimit method.body) height ∧
      (∀ position found, Path lines position found → found = height position) ∧
      ∀ checked machine position after, machine.stack = [] →
        Runs checked lines (.before 0 machine) (.before position after) →
        after.stack.length = height position := by
  obtain ⟨scope, body, compiles⟩ := ClassTable.compiles_of_mem lowered member
  obtain ⟨blocks, each, rfl⟩ := Frame.blocks_of_lines selected
  have selects := each.imp fun _ _ => Frame.selects_of_select
  have level : Level (stackLimit method.body) 0 blocks.flatten 0 := by
    refine level_of_arranged compiles.arranged selects (fun instr inBody call inInstr => ?_)
      (Nat.le_max_left ..)
    have inCode := List.mem_flatMap.mpr ⟨instr, inBody, inInstr⟩
    exact ⟨described call inCode, le_stackLimit inCode⟩
  have balanced := level.balanced
  exact ⟨_, balanced, fun _ _ => balanced.path,
    fun _ _ _ _ empty run => balanced.runs empty run rfl⟩

/-- A class with a method that calls itself with three arguments in a loop, once on a new object and
once for nothing. -/
def stepsProgram : Program where
  imports := []
  classDecl :=
    { name := "Steps"
      superClass := none
      fields := []
      methods :=
        [{ name := "mix"
           isPublic := true
           isStatic := false
           returnType := .ofTy .nowhere .int
           params :=
            [⟨.ofTy .nowhere .int, "a", false, .nowhere⟩,
              ⟨.ofTy .nowhere .int, "b", false, .nowhere⟩,
              ⟨.ofTy .nowhere .int, "c", false, .nowhere⟩]
           locals := [⟨.ofTy .nowhere (.named "Steps"), "p", .nowhere⟩]
           body :=
            [.whileLoop .nowhere (.binary .nowhere .less (.literal .nowhere (.int 0)) first)
                (.block .nowhere
                  [.assign .nowhere other (.newObject .nowhere "Steps"),
                    .assign .nowhere first (mixed other),
                    .eval .nowhere (mixed (.this .nowhere))]),
              .ret .nowhere (some first)]
           pos := .nowhere }]
      pos := .nowhere }
  pos := .nowhere
where
  first : Expr := .name .nowhere "a"
  other : Expr := .name .nowhere "p"
  mixed (receiver : Expr) : Expr := .call .nowhere (some receiver) "mix" [first, first, first]

theorem lines_balanced_steps :
    ∃ code method lines height,
      ((ClassTable.ofProgram stepsProgram).lower stepsProgram {}).1 = .ok code ∧
      method ∈ code.methods ∧ Frame.lines ⟨code, method⟩ = .ok lines ∧ Balanced lines 4 height := by
  obtain ⟨height, balanced, -⟩ := lines_balanced
    (show ((ClassTable.ofProgram stepsProgram).lower stepsProgram {}).1 = .ok _ from rfl)
    List.mem_cons_self (show Frame.lines _ = .ok _ from rfl) (by decide +kernel)
  exact ⟨_, _, _, height, rfl, List.mem_cons_self, rfl, balanced⟩

end Jasmin

end JavaMinus
