/-
This file shows what allocating registers guarantees. The index and the entries
of a table agree: a name is indexed at a position exactly if the entry there has
that name, and the slot of an entry is its position as a 16-bit word. Declaring
names keeps this up. While there are no more registers than words, no two names
share a slot, and the receiver of an instance method, being declared first, has
slot zero.
-/

import JavaMinus.Code.Registers

namespace JavaMinus

namespace Registers

/-- The index and the entries agree, and slots are positions. -/
structure Valid (registers : Registers) : Prop where
  index : ∀ (name : String) (position : Nat), registers.index[name]? = some position ↔
    ∃ register, registers.entries[position]? = some (name, register)
  slot : ∀ (name : String) (position : Nat) (register : Register),
    registers.entries[position]? = some (name, register) → register.slot = UInt16.ofNat position

theorem valid_empty : empty.Valid where
  index name position := by simp [empty]
  slot name position register found := by simp [empty] at found

/-- The entries and the index after a new name is declared. -/
theorem declare_of_not_contains {registers : Registers} {name : String}
    (fresh : registers.index.contains name = false) (ty : Ty) :
    registers.declare name ty =
      { entries := registers.entries.push (name, ⟨UInt16.ofNat registers.entries.size, ty⟩)
        index := registers.index.insert name registers.entries.size } := by
  rw [declare, fresh]
  rfl

theorem Valid.declare {registers : Registers} (valid : registers.Valid) (name : String) (ty : Ty) :
    (registers.declare name ty).Valid := by
  cases known : registers.index.contains name with
  | true => rwa [declare_of_contains known]
  | false =>
    have absent : registers.index[name]? = none := by
      exact Std.TreeMap.getElem?_eq_none_of_contains_eq_false known
    have noEntry (position : Nat) (register : Register) :
        registers.entries[position]? ≠ some (name, register) := by
      intro found
      have indexed := (valid.index name position).mpr ⟨register, found⟩
      rw [absent] at indexed
      cases indexed
    rw [declare_of_not_contains known]
    constructor
    · intro other position
      rw [Std.TreeMap.getElem?_insert, Array.getElem?_push]
      by_cases same : name = other
      · subst same
        by_cases last : position = registers.entries.size
        · simp [last]
        · simp [last, noEntry, eq_comm]
      · by_cases last : position = registers.entries.size
        · simp [last, same, valid.index]
        · simp [last, same, valid.index]
    · intro other position register found
      rw [Array.getElem?_push] at found
      split at found
      · next last =>
        cases found
        rw [last]
      · exact valid.slot other position register found

theorem Valid.declareAll {registers : Registers} (valid : registers.Valid)
    (bindings : List Binding) : (registers.declareAll bindings).Valid := by
  induction bindings generalizing registers with
  | nil => exact valid
  | cons binding rest inductionHypothesis =>
    exact inductionHypothesis (valid.declare binding.name binding.ty)

theorem valid_allocate (receiver : Option Ty) (params : List Binding) (code : List Instr) :
    (allocate receiver params code).Valid :=
  valid_empty.declareAll _

/-- The register of a name is the entry of that name. -/
theorem Valid.get?_eq_some_iff {registers : Registers} (valid : registers.Valid) {name : String}
    {register : Register} :
    registers.get? name = some register ↔
      ∃ position : Nat, registers.entries[position]? = some (name, register) := by
  constructor
  · intro found
    rw [get?, Option.bind_eq_bind, Option.bind_eq_some_iff] at found
    obtain ⟨position, indexed, entry⟩ := found
    obtain ⟨other, stored⟩ := (valid.index name position).mp indexed
    rw [stored] at entry
    obtain rfl := Option.some.inj entry
    exact ⟨position, stored⟩
  · rintro ⟨position, stored⟩
    have indexed := (valid.index name position).mpr ⟨register, stored⟩
    simp [get?, indexed, stored]

/-- A name is indexed exactly if it has an entry. -/
theorem Valid.contains_iff {registers : Registers} (valid : registers.Valid) (name : String) :
    registers.index.contains name = true ↔ name ∈ registers.toList.map Prod.fst := by
  rw [Std.TreeMap.contains_eq_isSome_getElem?, Option.isSome_iff_exists, List.mem_map]
  constructor
  · rintro ⟨position, indexed⟩
    obtain ⟨register, stored⟩ := (valid.index name position).mp indexed
    refine ⟨(name, register), ?_, rfl⟩
    exact List.mem_of_getElem? (by rwa [toList, Array.getElem?_toList])
  · rintro ⟨⟨_, register⟩, member, rfl⟩
    obtain ⟨position, stored⟩ := List.mem_iff_getElem?.mp member
    rw [toList, Array.getElem?_toList] at stored
    exact ⟨position, (valid.index _ position).mpr ⟨register, stored⟩⟩

/-- While there are no more registers than slots, names with one slot are the same. -/
theorem Valid.slot_injective {registers : Registers} (valid : registers.Valid)
    (few : registers.size ≤ UInt16.size) {first second : String}
    {firstRegister secondRegister : Register}
    (firstFound : registers.get? first = some firstRegister)
    (secondFound : registers.get? second = some secondRegister)
    (same : firstRegister.slot = secondRegister.slot) : first = second := by
  obtain ⟨one, oneStored⟩ := valid.get?_eq_some_iff.mp firstFound
  obtain ⟨other, otherStored⟩ := valid.get?_eq_some_iff.mp secondFound
  rw [valid.slot _ _ _ oneStored, valid.slot _ _ _ otherStored] at same
  have oneBound : one < registers.entries.size := (Array.getElem?_eq_some_iff.mp oneStored).1
  have otherBound : other < registers.entries.size := (Array.getElem?_eq_some_iff.mp otherStored).1
  rw [size] at few
  have equal : one = other := by
    have numbers := congrArg UInt16.toNat same
    rw [UInt16.toNat_ofNat', UInt16.toNat_ofNat', Nat.mod_eq_of_lt (Nat.lt_of_lt_of_le oneBound few),
      Nat.mod_eq_of_lt (Nat.lt_of_lt_of_le otherBound few)] at numbers
    exact numbers
  subst equal
  rw [oneStored] at otherStored
  exact congrArg Prod.fst (Option.some.inj otherStored)

/-- Entries stay where they are. -/
theorem getElem?_declare {registers : Registers} {position : Nat} {entry : String × Register}
    (stored : registers.entries[position]? = some entry) (name : String) (ty : Ty) :
    (registers.declare name ty).entries[position]? = some entry := by
  cases known : registers.index.contains name with
  | true => rwa [declare_of_contains known]
  | false =>
    have bound : position < registers.entries.size := (Array.getElem?_eq_some_iff.mp stored).1
    rw [declare_of_not_contains known, Array.getElem?_push, if_neg (by omega), stored]

theorem getElem?_declareAll {registers : Registers} {position : Nat} {entry : String × Register}
    (stored : registers.entries[position]? = some entry) (bindings : List Binding) :
    (registers.declareAll bindings).entries[position]? = some entry := by
  induction bindings generalizing registers with
  | nil => exact stored
  | cons binding rest inductionHypothesis =>
    exact inductionHypothesis (getElem?_declare stored binding.name binding.ty)

/-- A name that is declared has a register, the one it had or a new one. -/
theorem Valid.exists_entry_declare {registers : Registers} (valid : registers.Valid)
    (name : String) (ty : Ty) : ∃ (position : Nat) (register : Register),
      (registers.declare name ty).entries[position]? = some (name, register) := by
  cases known : registers.index.contains name with
  | true =>
    rw [declare_of_contains known]
    obtain ⟨position, indexed⟩ : ∃ position, registers.index[name]? = some position :=
      Option.isSome_iff_exists.mp (by rwa [← Std.TreeMap.contains_eq_isSome_getElem?])
    obtain ⟨register, stored⟩ := (valid.index name position).mp indexed
    exact ⟨position, register, stored⟩
  | false =>
    refine ⟨registers.entries.size, ⟨UInt16.ofNat registers.entries.size, ty⟩, ?_⟩
    rw [declare_of_not_contains known]
    exact Array.getElem?_push_size

/-- Every name that is declared has a register in the end. -/
theorem Valid.get?_declareAll {registers : Registers} (valid : registers.Valid)
    {bindings : List Binding} {binding : Binding} (member : binding ∈ bindings) :
    ∃ register, (registers.declareAll bindings).get? binding.name = some register := by
  induction bindings generalizing registers with
  | nil => cases member
  | cons first rest inductionHypothesis =>
    rcases List.mem_cons.mp member with rfl | inRest
    · obtain ⟨position, register, stored⟩ := valid.exists_entry_declare binding.name binding.ty
      refine ⟨register, (valid.declareAll (binding :: rest)).get?_eq_some_iff.mpr ⟨position, ?_⟩⟩
      exact getElem?_declareAll stored rest
    · exact inductionHypothesis (valid.declare first.name first.ty) inRest

/-- Every name that the code mentions has a register. -/
theorem get?_of_mem_mentions (receiver : Option Ty) (params : List Binding) {code : List Instr}
    {instr : Instr} (inCode : instr ∈ code) {binding : Binding}
    (mentioned : binding ∈ instr.mentions) :
    ∃ register, (allocate receiver params code).get? binding.name = some register := by
  refine valid_empty.get?_declareAll (List.mem_append_right _ ?_)
  exact List.mem_flatMap.mpr ⟨instr, inCode, mentioned⟩

/-- The receiver of an instance method is in the first register. -/
theorem get?_this (receiver : Ty) (params : List Binding) (code : List Instr) :
    (allocate (some receiver) params code).get? "this" = some ⟨0, receiver⟩ := by
  rw [(valid_allocate (some receiver) params code).get?_eq_some_iff]
  have first : (empty.declare "this" receiver).entries[0]? = some ("this", ⟨0, receiver⟩) := rfl
  exact ⟨0, getElem?_declareAll first (params ++ code.flatMap Instr.mentions)⟩

end Registers

end JavaMinus
