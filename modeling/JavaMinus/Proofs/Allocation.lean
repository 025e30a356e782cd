/-
This file says which register each name gets. Names are declared one after the other:
the receiver of an instance method, the parameters, and then what the instructions
name, an assignment its destination before what it reads. However often a name comes
up, the table lists it once, at the place and with the type with which it came up
first, and the slot of an entry is its place in the list, as a 16-bit word. Looking a
name up finds its entry and nothing else. All this is one invariant of tables, which
holds of the empty table and is kept by each declaration.

So parameters with different names have the slots in which a caller leaves the
arguments: those from zero on, or from one on if the receiver comes first.
-/

import JavaMinus.Proofs.Lowering.Shape
import JavaMinus.Proofs.Registers

namespace JavaMinus

/-! ### What an instruction names -/

/-- The variables that an instruction assigns to, the outermost first. -/
def Instr.destinations : Instr → List Binding
  | .assign dest rhs ty => ⟨dest, ty⟩ :: rhs.destinations
  | .discard inner => inner.destinations
  | _ => []

/-- The variable that an operand is, if it is one. -/
def Operand.sources : Operand → List Binding
  | .var name ty => [⟨name, ty⟩]
  | .literal _ _ | .field _ _ | .this _ => []

/-- The variables that an instruction reads, in order. -/
def Instr.sources (instr : Instr) : List Binding := instr.operands.flatMap Operand.sources

@[simp] theorem Operand.mentions_eq : mentions = sources := by
  funext operand
  cases operand <;> rfl

theorem Call.mentions_eq (call : Call) :
    call.mentions = call.operands.flatMap Operand.sources := by
  rw [mentions, operands, List.flatMap_append, Operand.mentions_eq]
  cases call.target <;> simp [CallTarget.operands]

/-- An instruction names what it assigns to, and then what its operands are. -/
theorem Instr.mentions_eq (instr : Instr) :
    instr.mentions = instr.destinations ++ instr.sources := by
  induction instr with
  | assign dest rhs ty inductionHypothesis =>
    rw [mentions, destinations, inductionHypothesis, List.cons_append]
    rfl
  | discard inner inductionHypothesis => exact inductionHypothesis
  | call invocation => exact invocation.mentions_eq
  | branch condition target =>
    cases condition <;> simp [mentions, destinations, sources, operands, Condition.mentions,
      Condition.operands]
  | _ => simp [mentions, destinations, sources, operands]

theorem Instr.flatMap_mentions (code : List Instr) :
    code.flatMap mentions = code.flatMap fun instr => instr.destinations ++ instr.sources :=
  List.flatMap_congr fun instr _ => instr.mentions_eq

namespace Registers

/-! ### What a table lists -/

/-- The names in slot order. -/
def names (registers : Registers) : List String := registers.toList.map Prod.fst

/-- The table lists what was declared. -/
structure Lists (table : Registers) (declared : List Binding) : Prop where
  /-- The names are those that were declared. -/
  mem_names : ∀ name, name ∈ table.names ↔ name ∈ declared.map Binding.name
  /-- Each name is listed once. -/
  nodup : table.names.Nodup
  /-- What was declared first comes first. -/
  ordered : table.names.Pairwise fun first second =>
    (declared.map Binding.name).idxOf first < (declared.map Binding.name).idxOf second
  /-- A name has the type with which it was declared first. -/
  ty : ∀ name register, (name, register) ∈ table.toList →
    declared.find? (·.name == name) = some ⟨name, register.ty⟩
  /-- Slots count the entries, and start over behind the last word. -/
  slot : ∀ position name register, table.toList[position]? = some (name, register) →
    register.slot.toNat = position % 65536
  /-- A name is found exactly if it is listed. -/
  get? : ∀ name register, table.get? name = some register ↔ (name, register) ∈ table.toList
  /-- The index and the entries agree. -/
  valid : table.Valid

theorem Valid.get?_iff_mem {registers : Registers} (valid : registers.Valid) {name : String}
    {register : Register} :
    registers.get? name = some register ↔ (name, register) ∈ registers.toList := by
  rw [valid.get?_eq_some_iff, List.mem_iff_getElem?]
  simp only [toList, Array.getElem?_toList]

theorem Valid.toNat_slot {registers : Registers} (valid : registers.Valid) {position : Nat}
    {name : String} {register : Register}
    (stored : registers.toList[position]? = some (name, register)) :
    register.slot.toNat = position % 65536 := by
  rw [toList, Array.getElem?_toList] at stored
  rw [valid.slot name position register stored]
  exact UInt16.toNat_ofNat'

theorem lists_empty : empty.Lists [] where
  mem_names _ := Iff.rfl
  nodup := .nil
  ordered := .nil
  ty := nofun
  slot := nofun
  get? _ _ := valid_empty.get?_iff_mem
  valid := valid_empty

/-- A name that is known has an entry, and a name that is not is appended to the entries. -/
theorem Valid.declare_cases {registers : Registers} (valid : registers.Valid) (name : String)
    (ty : Ty) :
    (name ∈ registers.names ∧ registers.declare name ty = registers) ∨
      (name ∉ registers.names ∧ (registers.declare name ty).toList =
        registers.toList ++ [(name, ⟨UInt16.ofNat registers.size, ty⟩)]) := by
  cases known : registers.index.contains name with
  | true => exact .inl ⟨(valid.contains_iff name).mp known, declare_of_contains known ty⟩
  | false =>
    refine .inr ⟨fun member => ?_, toList_declare_of_not_contains known ty⟩
    rw [(valid.contains_iff name).mpr member] at known
    cases known

/-! What is declared later leaves the places and the types of earlier names as they are. -/

theorem Lists.idxOf_append {table : Registers} {declared : List Binding}
    (lists : table.Lists declared) (later : List Binding) {name : String}
    (member : name ∈ table.names) :
    ((declared ++ later).map Binding.name).idxOf name =
      (declared.map Binding.name).idxOf name := by
  rw [List.map_append]
  exact List.idxOf_append_of_mem ((lists.mem_names name).mp member)

theorem Lists.ordered_append {table : Registers} {declared : List Binding}
    (lists : table.Lists declared) (later : List Binding) :
    table.names.Pairwise fun first second =>
      ((declared ++ later).map Binding.name).idxOf first <
        ((declared ++ later).map Binding.name).idxOf second := by
  refine lists.ordered.imp_of_mem fun inFirst inSecond before => ?_
  rwa [lists.idxOf_append later inFirst, lists.idxOf_append later inSecond]

theorem Lists.find?_append {table : Registers} {declared : List Binding}
    (lists : table.Lists declared) (later : List Binding) {name : String} {register : Register}
    (member : (name, register) ∈ table.toList) :
    (declared ++ later).find? (·.name == name) = some ⟨name, register.ty⟩ := by
  rw [List.find?_append, lists.ty name register member, Option.some_or]

/-- A declaration keeps the table in order: it adds the name at the end, or it comes too late to
change anything. -/
theorem Lists.declare {table : Registers} {declared : List Binding} (lists : table.Lists declared)
    (binding : Binding) :
    (table.declare binding.name binding.ty).Lists (declared ++ [binding]) := by
  have valid := lists.valid.declare binding.name binding.ty
  rcases lists.valid.declare_cases binding.name binding.ty with ⟨known, same⟩ | ⟨fresh, added⟩
  · rw [same]
    refine ⟨fun name => ?_, lists.nodup, lists.ordered_append _,
      fun _ _ => lists.find?_append _, lists.slot, lists.get?, lists.valid⟩
    rw [List.map_append, List.mem_append, ← lists.mem_names, List.map_singleton,
      List.mem_singleton]
    exact ⟨.inl, fun either => either.elim id fun isLast => isLast ▸ known⟩
  · have undeclared : binding.name ∉ declared.map Binding.name :=
      mt (lists.mem_names binding.name).mpr fresh
    have names : (table.declare binding.name binding.ty).names = table.names ++ [binding.name] := by
      rw [Registers.names, added, List.map_append]
      rfl
    refine ⟨fun name => ?_, ?_, ?_, fun name register member => ?_,
      fun _ _ _ => valid.toNat_slot, fun _ _ => valid.get?_iff_mem, valid⟩
    · rw [names, List.map_append, List.mem_append, List.mem_append, lists.mem_names]
      rfl
    · rw [names, List.nodup_append]
      refine ⟨lists.nodup, List.nodup_singleton _, fun name member last isLast => ?_⟩
      rw [List.mem_singleton.mp isLast]
      exact ne_of_mem_of_not_mem member fresh
    · rw [names, List.pairwise_append]
      refine ⟨lists.ordered_append _, List.pairwise_singleton _ _,
        fun name member last isLast => ?_⟩
      rw [List.mem_singleton.mp isLast, lists.idxOf_append _ member, List.map_append,
        List.idxOf_append_of_notMem undeclared]
      exact Nat.lt_add_right _ (List.idxOf_lt_length_of_mem ((lists.mem_names name).mp member))
    · rw [added, List.mem_append, List.mem_singleton] at member
      rcases member with earlier | isLast
      · exact lists.find?_append _ earlier
      · obtain ⟨rfl, rfl⟩ := Prod.mk.inj isLast
        have absent : declared.find? (·.name == binding.name) = none := by
          refine List.find?_eq_none.mpr fun other inDeclared same => undeclared ?_
          exact List.mem_map.mpr ⟨other, inDeclared, by simpa using same⟩
        rw [List.find?_append, absent, Option.none_or, List.find?_singleton,
          if_pos (beq_self_eq_true _)]

/-- Declarations one after the other keep the table in order. -/
theorem Lists.declareAll {table : Registers} {declared : List Binding}
    (lists : table.Lists declared) (bindings : List Binding) :
    (table.declareAll bindings).Lists (declared ++ bindings) := by
  induction bindings generalizing table declared with
  | nil => rwa [List.append_nil]
  | cons binding rest inductionHypothesis =>
    rw [List.append_cons]
    exact inductionHypothesis (lists.declare binding)

/-! ### Parameters -/

/-- Names that are different and new are listed in order. -/
theorem Valid.toList_declareAll {table : Registers} (valid : table.Valid) {bindings : List Binding}
    (different : (bindings.map Binding.name).Nodup)
    (fresh : ∀ name ∈ bindings.map Binding.name, name ∉ table.names) :
    (table.declareAll bindings).toList = table.toList ++
      bindings.mapIdx fun position binding =>
        (binding.name, ⟨UInt16.ofNat (table.size + position), binding.ty⟩) := by
  induction bindings generalizing table with
  | nil => exact (List.append_nil _).symm
  | cons binding rest inductionHypothesis =>
    rw [List.map_cons, List.nodup_cons] at different
    obtain ⟨isFresh, restFresh⟩ := List.forall_mem_cons.mp fresh
    rcases valid.declare_cases binding.name binding.ty with ⟨known, -⟩ | ⟨-, added⟩
    · exact absurd known isFresh
    · have size : (table.declare binding.name binding.ty).size = table.size + 1 := by
        rw [Registers.size, ← Array.length_toList]
        exact (congrArg List.length added).trans List.length_append
      have rest := inductionHypothesis (valid.declare binding.name binding.ty) different.2 ?_
      · rw [List.mapIdx_cons, List.append_cons, Registers.declareAll, List.foldl_cons]
        refine rest.trans ?_
        simp only [added, size, Nat.add_zero, Nat.add_assoc, Nat.add_comm 1]
      · intro name member
        rw [Registers.names, added, List.map_append, List.mem_append, List.map_singleton,
          List.mem_singleton]
        rintro (known | rfl)
        · exact restFresh name member known
        · exact different.1 member

/-- Parameters with different names are listed in order, behind the receiver if there is one. -/
theorem get?_param {receiver : Option Ty} {params : List Binding} (code : List Instr)
    (different : (params.map Binding.name).Nodup)
    (notThis : receiver.isSome = true → "this" ∉ params.map Binding.name) {position : Nat}
    {param : Binding} (isParam : params[position]? = some param) :
    (allocate receiver params code).get? param.name =
      some ⟨UInt16.ofNat (receiver.toList.length + position), param.ty⟩ := by
  have distinct : (((receiver.toList.map fun ty => (⟨"this", ty⟩ : Binding)) ++ params).map
      Binding.name).Nodup := by
    cases receiver with
    | none => exact different
    | some ty => exact List.nodup_cons.mpr ⟨notThis rfl, different⟩
  have listed := valid_empty.toList_declareAll distinct fun _ _ => List.not_mem_nil
  rw [(valid_allocate receiver params code).get?_eq_some_iff]
  refine ⟨receiver.toList.length + position, ?_⟩
  rw [allocate, declareAll_append]
  refine getElem?_declareAll ?_ _
  rw [← Array.getElem?_toList]
  refine (congrArg (·[receiver.toList.length + position]?) listed).trans ?_
  have isEntry : ((receiver.toList.map fun ty => (⟨"this", ty⟩ : Binding)) ++ params)[
      receiver.toList.length + position]? = some param := by
    rw [List.getElem?_append_right (by simp), List.length_map, Nat.add_sub_cancel_left, isParam]
  rw [toList_empty, List.nil_append, List.getElem?_mapIdx, isEntry]
  simp [size, empty]

/-- The registers of a method are those of the receiver, if it has one, of the parameters, and of
all that its instructions assign to and read: each name once, by its first mention, with the type it
has there; slots count the entries, and a name is found exactly if it is listed. So as long as there
are no more names than slots, different names have different slots. Parameters with different names,
none of them that of the receiver, have the slots from zero on, or from one on behind the receiver.
What holds of the listing holds after any declarations. -/
theorem lists_allocate (receiver : Option Ty) (params : List Binding) (code : List Instr) :
    (allocate receiver params code).Lists
        ((receiver.toList.map fun ty => ⟨"this", ty⟩) ++ params ++
          code.flatMap fun instr => instr.destinations ++ instr.sources) ∧
      ((allocate receiver params code).size ≤ 65536 →
        ∀ first ∈ (allocate receiver params code).toList,
          ∀ second ∈ (allocate receiver params code).toList,
            first.2.slot = second.2.slot → first.1 = second.1) ∧
      ((params.map Binding.name).Nodup →
        (receiver.isSome = true → "this" ∉ params.map Binding.name) →
        ∀ position param, params[position]? = some param →
          (allocate receiver params code).get? param.name =
            some ⟨UInt16.ofNat (if receiver.isSome then position + 1 else position), param.ty⟩) ∧
      empty.Lists [] ∧
      ∀ table declared, Lists table declared →
        ∀ bindings, (table.declareAll bindings).Lists (declared ++ bindings) := by
  have valid := valid_allocate receiver params code
  refine ⟨?_, fun few first inFirst second inSecond same => ?_,
    fun different notThis position param isParam => ?_, lists_empty,
    fun _ _ lists => lists.declareAll⟩
  · rw [← Instr.flatMap_mentions]
    exact lists_empty.declareAll _
  · exact valid.slot_injective few (valid.get?_iff_mem.mpr inFirst)
      (valid.get?_iff_mem.mpr inSecond) same
  · rw [get?_param code different notThis isParam]
    cases receiver with
    | none => simp
    | some ty => simp [Nat.add_comm]

/-- Code that names a variable before the parameters, reads both again, and reads two variables that
are neither parameters nor assigned to, one as an argument and one in a branch. -/
def retold : List Instr :=
  [.assign "t0" (.arith .add (.var "x" .int) (.var "n" .int) .int) .int,
    .assign "x" (.value (.var "t0" .int)) .int,
    .discard (.call ⟨.virtual, .receiver (.var "peer" (.named "A")), "f",
      [.var "x" .int, .field "n" .int, .var "given" .intArray, .var "n" .int], .int⟩),
    .branch (.nonZero (.var "found" .boolean)) ⟨"done"⟩]

/-- The parameters of `Registers.retold`. -/
def retold.params : List Binding := [⟨"n", .int⟩, ⟨"peer", .named "A"⟩]

open retold in
/-- The parameters come right behind the receiver, whatever the code names first, and a variable that
is only read has a register of its own. -/
theorem lists_allocate_retold :
    (params.map Binding.name).Nodup ∧ "this" ∉ params.map Binding.name ∧
      (allocate (some (.named "A")) params retold).names =
        ["this", "n", "peer", "t0", "x", "given", "found"] ∧
      (allocate (some (.named "A")) params retold).get? "peer" = some ⟨2, .named "A"⟩ ∧
      (∀ entry ∈ (allocate (some (.named "A")) params retold).toList,
        entry.2.slot = 2 → entry.1 = "peer") ∧
      ∃ register, (allocate (some (.named "A")) params retold).get? "found" = some register ∧
        register.ty = .boolean := by
  obtain ⟨lists, injective, slots, -⟩ := lists_allocate (some (.named "A")) params retold
  have peer := slots (by decide) (by decide) 1 ⟨"peer", .named "A"⟩ rfl
  have few : (allocate (some (.named "A")) params retold).size ≤ 65536 := by decide +kernel
  have isNamed : "found" ∈ (allocate (some (.named "A")) params retold).names :=
    (lists.mem_names "found").mpr (by decide +kernel)
  obtain ⟨⟨_, register⟩, isEntry, rfl⟩ := List.mem_map.mp isNamed
  have typed := lists.ty _ register isEntry
  refine ⟨by decide, by decide, by decide +kernel, peer, fun entry member same =>
    injective few entry member ("peer", _) ((lists.get? _ _).mp peer) same, register,
    (lists.get? _ _).mpr isEntry, ?_⟩
  exact (congrArg Binding.ty (Option.some.inj typed)).symm

end Registers

end JavaMinus
