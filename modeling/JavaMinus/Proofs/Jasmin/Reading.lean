/-
This file reads assembly back. An assembler sees nothing but text: it cuts a line into words at
the blanks, takes the first word for an opcode and the others for its operands, and cuts these
again at the slash before a member, at the parenthesis before a signature and at the semicolon
behind a path. The opcodes are listed here as the machine knows them, and apart from how lines
are printed.

Every line that can be selected is read back from its text, provided that no name in it has a
blank or one of these signs where it would be taken for the end of the name. So the lines of a
method can be had from its block alone, and what is known of the lines is known of the text.
-/

import JavaMinus.Jasmin.Assembler
import JavaMinus.Proofs.Jasmin.Selection
import JavaMinus.Proofs.Tree.RoundTrip

namespace JavaMinus

/-! ### Cutting a text -/

namespace Text

/-- What stands before the first occurrence of a sign, and what stands behind it. -/
def cut? (sign : Char) : List Char → Option (List Char × List Char)
  | [] => none
  | char :: rest =>
    if char = sign then some ([], rest)
    else (cut? sign rest).map fun (before, behind) => (char :: before, behind)

theorem cut?_append {sign : Char} {before : List Char} (clear : sign ∉ before)
    (behind : List Char) : cut? sign (before ++ sign :: behind) = some (before, behind) := by
  induction before with
  | nil => exact if_pos rfl
  | cons char rest inductionHypothesis =>
    rw [List.cons_append, cut?, if_neg (List.ne_of_not_mem_cons clear).symm,
      inductionHypothesis (List.not_mem_of_not_mem_cons clear)]
    rfl

/-- What stands behind the sign is shorter than the whole. -/
theorem length_lt_of_cut? {sign : Char} {text before behind : List Char}
    (isCut : cut? sign text = some (before, behind)) : behind.length < text.length := by
  induction text generalizing before with
  | nil => cases isCut
  | cons char rest inductionHypothesis =>
    rw [cut?] at isCut
    split at isCut
    · cases isCut
      exact Nat.lt_succ_self _
    · obtain ⟨⟨inRest, behindRest⟩, restCut, same⟩ := Option.map_eq_some_iff.mp isCut
      cases same
      exact Nat.lt_succ_of_lt (inductionHypothesis restCut)

/-- The fields of a text that are not empty. -/
def parts (separates : Char → Bool) (text : List Char) : List (List Char) :=
  (fields separates text).filter fun field => !field.isEmpty

theorem parts_append_cons {separates : Char → Bool} {separator : Char}
    (separating : separates separator = true) (text rest : List Char) :
    parts separates (text ++ separator :: rest) = parts separates text ++ parts separates rest := by
  rw [parts, fields_append_cons separating, List.filter_append]
  rfl

theorem parts_eq_singleton {separates : Char → Bool} {text : List Char} (nonempty : text ≠ [])
    (solid : ∀ char ∈ text, separates char = false) : parts separates text = [text] := by
  rw [parts, fields_eq_singleton solid, List.filter_cons_of_pos (by simpa using nonempty)]
  rfl

/-- The words of a text: what stands between blanks. -/
def words (text : String) : List String := (parts isBlank text.toList).map String.ofList

/-- A text that is one word. -/
structure IsWord (text : String) : Prop where
  nonempty : text ≠ ""
  solid : ∀ char ∈ text.toList, isBlank char = false

instance (text : String) : Decidable (IsWord text) :=
  decidable_of_iff (text ≠ "" ∧ text.toList.all (fun char => !isBlank char) = true) (by
    rw [List.all_eq_true]
    simp only [Bool.not_eq_true']
    exact ⟨fun ⟨nonempty, solid⟩ => ⟨nonempty, solid⟩, fun isWord => ⟨isWord.1, isWord.2⟩⟩)

theorem IsWord.append {first second : String} (isFirst : IsWord first) (isSecond : IsWord second) :
    IsWord (first ++ second) := by
  refine ⟨fun isEmpty => isFirst.nonempty (String.append_eq_empty_iff.mp isEmpty).1, ?_⟩
  rw [String.toList_append]
  exact List.forall_mem_append.mpr ⟨isFirst.solid, isSecond.solid⟩

theorem isBlank_of_isDigit {char : Char} (isDigit : char.isDigit = true) : isBlank char = false := by
  obtain ⟨low, high⟩ := Bool.and_eq_true_iff.mp isDigit
  have above : 48 ≤ char.toNat := of_decide_eq_true low
  have below : char.toNat ≤ 57 := of_decide_eq_true high
  simp only [isBlank, Bool.or_eq_false_iff, Bool.and_eq_false_iff, decide_eq_false_iff_not,
    beq_eq_false_iff_ne]
  omega

/-- A number is written as one word. -/
theorem isWord_toString (value : Int) : IsWord (toString value) := by
  have solid (number : Nat) : ∀ char ∈ Nat.toDigits 10 number, isBlank char = false :=
    fun char member => isBlank_of_isDigit ((isDigits_toDigits number).2 char member)
  rw [Int.toString_eq_repr, Int.repr_eq_if]
  split
  · refine ⟨?_, ?_⟩
    · rw [Ne, ← String.toList_eq_nil_iff, Nat.toList_repr]
      exact Nat.toDigits_ne_nil
    · rw [Nat.toList_repr]
      exact solid _
  · refine ⟨by simp, ?_⟩
    rw [String.toList_append, Nat.toList_repr]
    show ∀ char ∈ '-' :: Nat.toDigits 10 (-value).toNat, isBlank char = false
    exact List.forall_mem_cons.mpr ⟨rfl, solid _⟩

/-- Words with a blank between any two are words again. -/
theorem parts_intercalate {items : List String} (each : ∀ item ∈ items, IsWord item) :
    parts isBlank ([' '].intercalate (items.map String.toList)) = items.map String.toList := by
  induction items with
  | nil => rfl
  | cons first rest inductionHypothesis =>
    obtain ⟨isWord, restWords⟩ := List.forall_mem_cons.mp each
    have isPart := parts_eq_singleton (mt String.toList_eq_nil_iff.mp isWord.nonempty) isWord.solid
    have others := inductionHypothesis restWords
    cases rest with
    | nil => rw [List.map_singleton, List.intercalate_singleton, isPart]
    | cons second remaining =>
      rw [List.map_cons, List.map_cons, List.intercalate_cons_cons, List.append_assoc,
        List.singleton_append, parts_append_cons rfl, isPart, ← List.map_cons, others]
      rfl

/-- The integer that a text stands for, if it lies between two bounds. -/
def intWithin? (low high : Int) (text : String) : Option Int :=
  (int? text.toList).filter fun value => low ≤ value ∧ value ≤ high

theorem intWithin?_toString {low high value : Int} (above : low ≤ value) (below : value ≤ high) :
    intWithin? low high (toString value) = some value := by
  rw [intWithin?, int?_toString, Option.filter_some, if_pos (decide_eq_true ⟨above, below⟩)]

end Text

namespace Jasmin

/-! ### Descriptors -/

namespace Descriptor

/-- Read the descriptor that a text begins with, and tell what stands behind it. -/
def read? : List Char → Option (Descriptor × List Char)
  | 'I' :: rest => some (.int, rest)
  | 'Z' :: rest => some (.boolean, rest)
  | 'V' :: rest => some (.void, rest)
  | 'L' :: rest =>
    (Text.cut? ';' rest).map fun (path, behind) => (.object (String.ofList path), behind)
  | '[' :: rest => (read? rest).map fun (element, behind) => (.array element, behind)
  | _ => none

theorem length_lt_of_read? {text behind : List Char} {descriptor : Descriptor}
    (isRead : read? text = some (descriptor, behind)) : behind.length < text.length := by
  fun_induction read? text generalizing descriptor with
  | case1 | case2 | case3 =>
    cases isRead
    exact Nat.lt_succ_self _
  | case4 rest =>
    obtain ⟨⟨path, behindPath⟩, isCut, same⟩ := Option.map_eq_some_iff.mp isRead
    cases same
    exact Nat.lt_succ_of_lt (Text.length_lt_of_cut? isCut)
  | case5 rest inductionHypothesis =>
    obtain ⟨⟨element, behindElement⟩, restRead, same⟩ := Option.map_eq_some_iff.mp isRead
    cases same
    exact Nat.lt_succ_of_lt (inductionHypothesis restRead)
  | case6 => cases isRead

/-- Read the descriptors up to a closing parenthesis, and tell what stands behind it. -/
def readAll? (text : List Char) : Option (List Descriptor × List Char) :=
  if text.head? = some ')' then some ([], text.tail)
  else
    match _ : read? text with
    | some (first, behind) => (readAll? behind).map fun (others, rest) => (first :: others, rest)
    | none => none
termination_by text.length
decreasing_by exact length_lt_of_read? ‹_›

/-- Read a text that is a descriptor and nothing else. -/
def ofText? (text : List Char) : Option Descriptor :=
  match read? text with
  | some (descriptor, []) => some descriptor
  | _ => none

/-- The paths in a descriptor end at their semicolons. -/
def Delimited : Descriptor → Prop
  | .object path => ';' ∉ path.toList
  | .array element => element.Delimited
  | _ => True

/-- A descriptor sign by sign. -/
theorem toList_text (descriptor : Descriptor) :
    descriptor.text.toList =
      match descriptor with
      | .int => ['I']
      | .boolean => ['Z']
      | .void => ['V']
      | .object path => 'L' :: (path.toList ++ [';'])
      | .array element => '[' :: element.text.toList := by
  cases descriptor <;> simp [text, ToString.toString]

/-- A descriptor can be told from what stands behind it. -/
theorem read?_text_append {descriptor : Descriptor} (delimited : descriptor.Delimited)
    (behind : List Char) :
    read? (descriptor.text.toList ++ behind) = some (descriptor, behind) := by
  induction descriptor with
  | int | boolean | void =>
    rw [toList_text]
    rfl
  | object path =>
    rw [toList_text, List.cons_append, List.append_assoc, List.singleton_append, read?,
      Text.cut?_append delimited, Option.map_some]
    exact congrArg (fun path => some (object path, behind)) String.ofList_toList
  | array element inductionHypothesis =>
    rw [toList_text, List.cons_append, read?, inductionHypothesis delimited]
    rfl

theorem ofText?_text {descriptor : Descriptor} (delimited : descriptor.Delimited) :
    ofText? descriptor.text.toList = some descriptor := by
  have whole := read?_text_append delimited []
  rw [List.append_nil] at whole
  rw [ofText?, whole]

/-- No descriptor begins like the end of the parameters. -/
theorem head?_text_append_ne (descriptor : Descriptor) (behind : List Char) :
    (descriptor.text.toList ++ behind).head? ≠ some ')' := by
  rw [toList_text]
  cases descriptor <;> simp

/-- Descriptors one after the other can be told apart, up to the closing parenthesis. -/
theorem readAll?_texts_append {descriptors : List Descriptor}
    (delimited : ∀ descriptor ∈ descriptors, descriptor.Delimited) (behind : List Char) :
    readAll? (descriptors.flatMap (fun descriptor => descriptor.text.toList) ++ ')' :: behind) =
      some (descriptors, behind) := by
  induction descriptors with
  | nil =>
    rw [readAll?]
    rfl
  | cons first rest inductionHypothesis =>
    obtain ⟨firstDelimited, restDelimited⟩ := List.forall_mem_cons.mp delimited
    rw [List.flatMap_cons, List.append_assoc, readAll?, if_neg (first.head?_text_append_ne _)]
    have isRead := read?_text_append firstDelimited
      (rest.flatMap (fun descriptor => descriptor.text.toList) ++ ')' :: behind)
    split
    · next found =>
      rw [isRead] at found
      cases found
      rw [inductionHypothesis restDelimited]
      rfl
    · next found =>
      rw [isRead] at found
      cases found

end Descriptor

namespace MethodDescriptor

/-- Read a text that is the descriptor of a method. -/
def ofText? : List Char → Option MethodDescriptor
  | '(' :: rest =>
    (Descriptor.readAll? rest).bind fun (params, behind) =>
      (Descriptor.ofText? behind).map fun result => ⟨params, result⟩
  | _ => none

theorem toList_text (descriptor : MethodDescriptor) :
    descriptor.text.toList =
      '(' :: (descriptor.params.flatMap (fun param => param.text.toList) ++
        ')' :: descriptor.result.text.toList) := by
  simp [text, List.flatMap_map]

/-- The paths in a method descriptor end at their semicolons. -/
def Delimited (descriptor : MethodDescriptor) : Prop :=
  ∀ part ∈ descriptor.result :: descriptor.params, part.Delimited

/-- A method descriptor can be read back from its text. -/
theorem ofText?_text {descriptor : MethodDescriptor} (delimited : descriptor.Delimited) :
    ofText? descriptor.text.toList = some descriptor := by
  obtain ⟨resultDelimited, paramsDelimited⟩ := List.forall_mem_cons.mp delimited
  rw [toList_text, ofText?, Descriptor.readAll?_texts_append paramsDelimited, Option.bind_some]
  exact congrArg (Option.map (MethodDescriptor.mk descriptor.params))
    (Descriptor.ofText?_text resultDelimited)

theorem text_inj {first second : MethodDescriptor} (firstDelimited : first.Delimited)
    (secondDelimited : second.Delimited) (same : first.text = second.text) : first = second := by
  have isRead := ofText?_text firstDelimited
  rw [same, ofText?_text secondDelimited] at isRead
  exact (Option.some.inj isRead).symm

end MethodDescriptor

/-! ### Lines -/

namespace Line

/-- The number of a register that can be part of an instruction's name. -/
def shortSlot? (number : Nat) : Option (Fin 4) :=
  if short : number < 4 then some ⟨number, short⟩ else none

/-- The instruction of an opcode that has no operands. -/
def ofOpcode? : String → Option Line
  | "iconst_m1" => some (.iconst (-1))
  | "iconst_0" => some (.iconst 0)
  | "iconst_1" => some (.iconst 1)
  | "iconst_2" => some (.iconst 2)
  | "iconst_3" => some (.iconst 3)
  | "iconst_4" => some (.iconst 4)
  | "iconst_5" => some (.iconst 5)
  | "iload_0" => (shortSlot? 0).map (.shortLoad .word)
  | "iload_1" => (shortSlot? 1).map (.shortLoad .word)
  | "iload_2" => (shortSlot? 2).map (.shortLoad .word)
  | "iload_3" => (shortSlot? 3).map (.shortLoad .word)
  | "aload_0" => (shortSlot? 0).map (.shortLoad .reference)
  | "aload_1" => (shortSlot? 1).map (.shortLoad .reference)
  | "aload_2" => (shortSlot? 2).map (.shortLoad .reference)
  | "aload_3" => (shortSlot? 3).map (.shortLoad .reference)
  | "istore_0" => (shortSlot? 0).map (.shortStore .word)
  | "istore_1" => (shortSlot? 1).map (.shortStore .word)
  | "istore_2" => (shortSlot? 2).map (.shortStore .word)
  | "istore_3" => (shortSlot? 3).map (.shortStore .word)
  | "astore_0" => (shortSlot? 0).map (.shortStore .reference)
  | "astore_1" => (shortSlot? 1).map (.shortStore .reference)
  | "astore_2" => (shortSlot? 2).map (.shortStore .reference)
  | "astore_3" => (shortSlot? 3).map (.shortStore .reference)
  | "dup" => some .dup
  | "pop" => some .pop
  | "iaload" => some .loadElement
  | "iastore" => some .storeElement
  | "arraylength" => some .arrayLength
  | "iadd" => some (.arith .add)
  | "isub" => some (.arith .sub)
  | "imul" => some (.arith .mul)
  | "idiv" => some (.arith .div)
  | "ireturn" => some (.ret .word)
  | "areturn" => some (.ret .reference)
  | "return" => some .retVoid
  | _ => none

/-- Read the number of a register. -/
def slot? (operand : String) : Option UInt16 :=
  (Text.intWithin? 0 65535 operand).map fun value => .ofNat value.toNat

/-- Cut a member off from the path of its class. -/
def member? (place : List Char) : Option (String × String) :=
  (Text.cut? '/' place.reverse).map fun (member, owner) =>
    (String.ofList owner.reverse, String.ofList member.reverse)

/-- Read what a call names: a class, a method and its signature. -/
def callee? (operand : String) : Option (String × String × MethodDescriptor) :=
  (Text.cut? '(' operand.toList).bind fun (place, signature) =>
    (member? place).bind fun (owner, method) =>
      (MethodDescriptor.ofText? ('(' :: signature)).map fun descriptor =>
        (owner, method, descriptor)

/-- The instruction of an opcode that has one operand. -/
def ofOperand? (opcode operand : String) : Option Line :=
  match opcode with
  | "bipush" => (Text.intWithin? Int8.minValue.toInt Int8.maxValue.toInt operand).map fun value =>
    .bipush (.ofInt value)
  | "sipush" => (Text.intWithin? Int16.minValue.toInt Int16.maxValue.toInt operand).map fun value =>
    .sipush (.ofInt value)
  | "ldc" => (Text.int32? operand).map .ldc
  | "iload" => (slot? operand).map (.load .word)
  | "aload" => (slot? operand).map (.load .reference)
  | "istore" => (slot? operand).map (.store .word)
  | "astore" => (slot? operand).map (.store .reference)
  | "new" => some (.newObject operand)
  | "newarray" => if operand = "int" then some .newIntArray else none
  | "goto" => some (.goto ⟨operand⟩)
  | "if_icmplt" => some (.ifLess ⟨operand⟩)
  | "ifne" => some (.ifNonZero ⟨operand⟩)
  | "invokevirtual" => (callee? operand).map fun (owner, method, descriptor) =>
    .invokeVirtual owner method descriptor
  | "invokestatic" => (callee? operand).map fun (owner, method, descriptor) =>
    .invokeStatic owner method descriptor
  | "invokespecial" => (callee? operand).bind fun (owner, method, descriptor) =>
    if method = "<init>" ∧ descriptor = ⟨[], .void⟩ then some (.construct owner) else none
  | _ => none

/-- What an opcode does to a field. -/
def fieldAccess? : String → Option (String → String → Descriptor → Line)
  | "getfield" => some .getField
  | "putfield" => some .putField
  | _ => none

/-- The instruction of an opcode that has a field and its descriptor behind it. -/
def ofField? (opcode place descriptor : String) : Option Line :=
  (fieldAccess? opcode).bind fun access =>
    (member? place.toList).bind fun (owner, field) =>
      (Descriptor.ofText? descriptor.toList).map (access owner field)

/-- The line that consists of these words. One word with a colon at its end is a label. -/
def ofWords? : List String → Option Line
  | [word] =>
    if word.toList.getLast? = some ':' then some (.label ⟨String.ofList word.toList.dropLast⟩)
    else ofOpcode? word
  | [opcode, operand] => ofOperand? opcode operand
  | [opcode, place, descriptor] => ofField? opcode place descriptor
  | _ => none

/-- Read a line. -/
def read? (text : String) : Option Line := ofWords? (Text.words text)

/-! ### Lines that can be read -/

/-- The name of a member and the path of its class, which end where the signs behind them begin. -/
structure IsMember (owner member : String) : Prop where
  path : Text.IsWord owner
  name : Text.IsWord member
  pathOpen : '(' ∉ owner.toList
  nameOpen : '(' ∉ member.toList
  nameSlash : '/' ∉ member.toList

/-- What the names in a line have to be like for the line to be read. -/
def Named : Line → Prop
  | .label place | .goto place | .ifLess place | .ifNonZero place => Text.IsWord place.name
  | .newObject path => Text.IsWord path
  | .construct owner => IsMember owner "<init>"
  | .getField owner field descriptor | .putField owner field descriptor =>
    IsMember owner field ∧ descriptor.Delimited ∧ Text.IsWord descriptor.text
  | .invokeVirtual owner method descriptor | .invokeStatic owner method descriptor =>
    IsMember owner method ∧ descriptor.Delimited ∧ Text.IsWord descriptor.text
  | _ => True

/-! ### The words of a line -/

/-- A line is printed as these words, and they say which line it is. No end of a line stands in
words, so this is also what tells the lines of a text apart. -/
structure Spells (line : Line) (items : List String) : Prop where
  isWord : ∀ item ∈ items, Text.IsWord item
  printed : line.mnemonic.toList = [' '].intercalate (items.map String.toList)
  read : ofWords? items = some line

theorem spells_opcode {line : Line}
    (known : Text.IsWord line.mnemonic ∧ ofWords? [line.mnemonic] = some line) :
    ∃ items, line.Spells items :=
  ⟨[line.mnemonic], List.forall_mem_singleton.mpr known.1, by simp, known.2⟩

theorem spells_operand {line : Line} (opcode operand : String) (isOpcode : Text.IsWord opcode)
    (isOperand : Text.IsWord operand) (printed : line.mnemonic = opcode ++ " " ++ operand)
    (read : ofOperand? opcode operand = some line) : ∃ items, line.Spells items := by
  refine ⟨[opcode, operand], ?_, ?_, read⟩
  · exact List.forall_mem_cons.mpr ⟨isOpcode, List.forall_mem_singleton.mpr isOperand⟩
  · simp [printed, List.intercalate_cons_cons]

theorem slot?_toString (slot : UInt16) : slot? (toString slot.toNat) = some slot := by
  have below : (slot.toNat : Int) ≤ 65535 := by
    have bound := slot.toNat_lt
    omega
  have isRead := Text.intWithin?_toString (Int.natCast_nonneg slot.toNat) below
  refine (congrArg (Option.map _) isRead).trans ?_
  rw [Option.map_some, Int.toNat_natCast, UInt16.ofNat_toNat]

/-- A line whose operand is the number of a register. -/
theorem spells_slot {line : Line} (opcode : String) (slot : UInt16) {ofSlot : UInt16 → Line}
    (isOpcode : Text.IsWord opcode) (printed : line.mnemonic = opcode ++ " " ++ toString slot.toNat)
    (reads : ∀ operand, ofOperand? opcode operand = (slot? operand).map ofSlot)
    (same : ofSlot slot = line) : ∃ items, line.Spells items := by
  have isOperand : Text.IsWord (toString slot.toNat) := Text.isWord_toString slot.toNat
  refine spells_operand opcode _ isOpcode isOperand printed ?_
  rw [reads, slot?_toString, Option.map_some, same]

/-- A member is told from the path of its class by the last slash. -/
theorem member?_append {owner member : String} (clear : '/' ∉ member.toList) :
    member? (owner ++ "/" ++ member).toList = some (owner, member) := by
  have reversed : (owner ++ "/" ++ member).toList.reverse =
      member.toList.reverse ++ '/' :: owner.toList.reverse := by
    simp
  rw [member?, reversed, Text.cut?_append (by rwa [List.mem_reverse])]
  simp

theorem IsMember.isWord {owner member : String} (isMember : IsMember owner member) :
    Text.IsWord (owner ++ "/" ++ member) :=
  (isMember.path.append (by decide +kernel)).append isMember.name

/-- A line that does something to a field. -/
theorem spells_field {line : Line} {owner field : String} {descriptor : Descriptor}
    (opcode : String)
    (named : IsMember owner field ∧ descriptor.Delimited ∧ Text.IsWord descriptor.text)
    (isOpcode : Text.IsWord opcode)
    (printed : line.mnemonic =
      opcode ++ " " ++ (owner ++ "/" ++ field) ++ " " ++ descriptor.text)
    (read : (fieldAccess? opcode).map (fun access => access owner field descriptor) = some line) :
    ∃ items, line.Spells items := by
  obtain ⟨isMember, delimited, isDescriptor⟩ := named
  refine ⟨[opcode, owner ++ "/" ++ field, descriptor.text], ?_, ?_, ?_⟩
  · exact List.forall_mem_cons.mpr ⟨isOpcode, List.forall_mem_cons.mpr
      ⟨isMember.isWord, List.forall_mem_singleton.mpr isDescriptor⟩⟩
  · simp [printed, List.intercalate_cons_cons]
  · rw [ofWords?, ofField?, ← read, Option.map_eq_bind]
    simp only [member?_append isMember.nameSlash, Descriptor.ofText?_text delimited,
      Option.bind_some, Option.map_some, Function.comp_def]

theorem callee?_append {owner method : String} {descriptor : MethodDescriptor}
    (isMember : IsMember owner method) (delimited : descriptor.Delimited) :
    callee? (owner ++ "/" ++ method ++ descriptor.text) = some (owner, method, descriptor) := by
  have clear : '(' ∉ (owner ++ "/" ++ method).toList := by
    simp [isMember.pathOpen, isMember.nameOpen]
  have signature := MethodDescriptor.ofText?_text delimited
  rw [callee?, String.toList_append]
  rw [descriptor.toList_text] at signature ⊢
  rw [Text.cut?_append clear]
  simp only [Option.bind_some, member?_append isMember.nameSlash, signature, Option.map_some]

/-- A line that calls a method. -/
theorem spells_call {line : Line} {owner method : String} {descriptor : MethodDescriptor}
    {ofCallee : String × String × MethodDescriptor → Option Line} (opcode : String)
    (named : IsMember owner method ∧ descriptor.Delimited ∧ Text.IsWord descriptor.text)
    (isOpcode : Text.IsWord opcode)
    (printed : line.mnemonic = opcode ++ " " ++ (owner ++ "/" ++ method ++ descriptor.text))
    (reads : ∀ operand, ofOperand? opcode operand = (callee? operand).bind ofCallee)
    (same : ofCallee (owner, method, descriptor) = some line) : ∃ items, line.Spells items := by
  obtain ⟨isMember, delimited, isDescriptor⟩ := named
  refine spells_operand opcode _ isOpcode (isMember.isWord.append isDescriptor) printed ?_
  rw [reads, callee?_append isMember delimited, Option.bind_some, same]

/-- Every line that can be read is spelled by some words. -/
theorem exists_spells {line : Line} (bounded : line.Bounded) (named : line.Named) :
    ∃ items, line.Spells items := by
  cases line with
  | dup | pop | loadElement | storeElement | arrayLength | retVoid =>
    exact spells_opcode (by decide +kernel)
  | arith op => exact spells_opcode (by cases op <;> decide +kernel)
  | ret cell => exact spells_opcode (by cases cell <;> decide +kernel)
  | shortLoad cell slot | shortStore cell slot =>
    clear bounded named
    exact spells_opcode (by cases cell <;> revert slot <;> decide +kernel)
  | iconst value =>
    have low : -1 ≤ value.toInt := Int8.le_iff_toInt_le.mp bounded.1
    have high : value.toInt ≤ 5 := Int8.le_iff_toInt_le.mp bounded.2
    rw [← value.ofInt_toInt]
    clear bounded named
    generalize value.toInt = number at low high ⊢
    obtain rfl | rfl | rfl | rfl | rfl | rfl | rfl : number = -1 ∨ number = 0 ∨ number = 1 ∨
      number = 2 ∨ number = 3 ∨ number = 4 ∨ number = 5 := by omega
    all_goals exact spells_opcode (by decide +kernel)
  | bipush value =>
    refine spells_operand "bipush" _ (by decide +kernel) (Text.isWord_toString value.toInt) rfl ?_
    show (Text.intWithin? _ _ _).map _ = _
    rw [Text.intWithin?_toString value.minValue_le_toInt value.toInt_le, Option.map_some,
      Int8.ofInt_toInt]
  | sipush value =>
    refine spells_operand "sipush" _ (by decide +kernel) (Text.isWord_toString value.toInt) rfl ?_
    show (Text.intWithin? _ _ _).map _ = _
    rw [Text.intWithin?_toString value.minValue_le_toInt value.toInt_le, Option.map_some,
      Int16.ofInt_toInt]
  | ldc value =>
    refine spells_operand "ldc" _ (by decide +kernel) (Text.isWord_toString value.toInt) rfl ?_
    show (Text.int32? _).map _ = _
    rw [Text.int32?_toString, Option.map_some]
  | load cell slot =>
    cases cell with
    | word => exact spells_slot "iload" slot (by decide +kernel) rfl (fun _ => rfl) rfl
    | reference => exact spells_slot "aload" slot (by decide +kernel) rfl (fun _ => rfl) rfl
  | store cell slot =>
    cases cell with
    | word => exact spells_slot "istore" slot (by decide +kernel) rfl (fun _ => rfl) rfl
    | reference => exact spells_slot "astore" slot (by decide +kernel) rfl (fun _ => rfl) rfl
  | newIntArray =>
    exact spells_operand "newarray" "int" (by decide +kernel) (by decide +kernel) rfl rfl
  | newObject path => exact spells_operand "new" path (by decide +kernel) named rfl rfl
  | goto target => exact spells_operand "goto" target.name (by decide +kernel) named rfl rfl
  | ifLess target => exact spells_operand "if_icmplt" target.name (by decide +kernel) named rfl rfl
  | ifNonZero target => exact spells_operand "ifne" target.name (by decide +kernel) named rfl rfl
  | label place =>
    have printed : (label place).mnemonic = place.name ++ ":" := rfl
    have chars : (place.name ++ ":").toList = place.name.toList ++ [':'] := by simp
    refine spells_opcode ⟨named.append (by decide +kernel), ?_⟩
    rw [printed, ofWords?, chars, if_pos List.getLast?_concat, List.dropLast_concat,
      String.ofList_toList]
  -- Each form is unfolded by itself: `simp` would unfold the printing of all of them.
  | getField owner field descriptor =>
    have printed : (getField owner field descriptor).mnemonic =
      "getfield " ++ owner ++ "/" ++ field ++ " " ++ descriptor.text := rfl
    exact spells_field "getfield" named (by decide +kernel)
      (String.toList_inj.mp (by simp [printed])) rfl
  | putField owner field descriptor =>
    have printed : (putField owner field descriptor).mnemonic =
      "putfield " ++ owner ++ "/" ++ field ++ " " ++ descriptor.text := rfl
    exact spells_field "putfield" named (by decide +kernel)
      (String.toList_inj.mp (by simp [printed])) rfl
  | construct owner =>
    have printed : (construct owner).mnemonic = "invokespecial " ++ owner ++ "/<init>()V" := rfl
    have delimited : MethodDescriptor.Delimited ⟨[], .void⟩ := List.forall_mem_singleton.mpr trivial
    have same : MethodDescriptor.text ⟨[], .void⟩ = "()V" := by decide +kernel
    exact spells_call "invokespecial" ⟨named, delimited, by decide +kernel⟩ (by decide +kernel)
      (String.toList_inj.mp (by simp [printed, same])) (fun _ => rfl) rfl
  | invokeVirtual owner method descriptor =>
    have printed : (invokeVirtual owner method descriptor).mnemonic =
      "invokevirtual " ++ owner ++ "/" ++ method ++ descriptor.text := rfl
    exact spells_call "invokevirtual" named (by decide +kernel)
      (String.toList_inj.mp (by simp [printed])) (fun _ => Option.map_eq_bind) rfl
  | invokeStatic owner method descriptor =>
    have printed : (invokeStatic owner method descriptor).mnemonic =
      "invokestatic " ++ owner ++ "/" ++ method ++ descriptor.text := rfl
    exact spells_call "invokestatic" named (by decide +kernel)
      (String.toList_inj.mp (by simp [printed])) (fun _ => Option.map_eq_bind) rfl

/-- What stands before the instruction. -/
def indent : Line → String
  | .label _ => ""
  | _ => "  "

/-- The text of a line but for its end. -/
def shown (line : Line) : String := line.indent ++ line.mnemonic

theorem toList_text (line : Line) : line.text.toList = line.shown.toList ++ ['\n'] := by
  cases line <;> simp [text, shown, indent]

theorem indent_eq (line : Line) : line.indent.toList = [] ∨ line.indent.toList = [' ', ' '] := by
  cases line <;> simp [indent]

namespace Spells

variable {items : List String} {line : Line}

theorem words_shown (spells : line.Spells items) : Text.words line.shown = items := by
  have indented (rest : List Char) : Text.parts Text.isBlank (line.indent.toList ++ rest) =
      Text.parts Text.isBlank rest := by
    rcases line.indent_eq with none | two
    · rw [none, List.nil_append]
    · rw [two]
      exact (Text.parts_append_cons rfl [] _).trans (Text.parts_append_cons rfl [] _)
  rw [Text.words, shown, String.toList_append, indented, spells.printed,
    Text.parts_intercalate spells.isWord, List.map_map]
  exact (List.map_congr_left fun _ _ => String.ofList_toList).trans (List.map_id _)

theorem read?_shown (spells : line.Spells items) : read? line.shown = some line := by
  rw [read?, spells.words_shown, spells.read]

theorem shown_ne_nil (spells : line.Spells items) : line.shown.toList ≠ [] := by
  intro isEmpty
  have words := spells.words_shown
  have read := spells.read
  rw [Text.words, isEmpty] at words
  subst words
  cases read

theorem newline_not_mem_shown (spells : line.Spells items) : '\n' ∉ line.shown.toList := by
  rw [shown, String.toList_append, List.mem_append, not_or]
  constructor
  · rcases line.indent_eq with none | two <;> simp [*]
  · rw [spells.printed]
    intro member
    rcases Text.mem_intercalate member with isSeparator | ⟨text, isText, inText⟩
    · exact absurd isSeparator (by decide)
    · obtain ⟨item, isItem, rfl⟩ := List.mem_map.mp isText
      exact absurd ((spells.isWord item isItem).solid _ inText) (by decide)

end Spells

/-- A line is read back from its text. -/
theorem read?_text {line : Line} (bounded : line.Bounded) (named : line.Named) :
    read? line.text = some line := by
  obtain ⟨items, spells⟩ := exists_spells bounded named
  have words : Text.words line.text = Text.words line.shown := by
    rw [Text.words, toList_text, Text.parts_append_cons rfl, Text.words]
    exact congrArg _ (List.append_nil _)
  rw [read?, words]
  exact spells.read?_shown

example : read? "  putfield p/A/x [I\n" = some (.putField "p/A" "x" (.array .int)) := by
  decide +kernel

end Line

/-! ### Methods -/

theorem parts_line {text : List Char} (nonempty : text ≠ []) (clear : '\n' ∉ text)
    (rest : List Char) :
    Text.parts (· == '\n') (text ++ '\n' :: rest) = text :: Text.parts (· == '\n') rest := by
  rw [Text.parts_append_cons rfl, Text.parts_eq_singleton nonempty]
  · rfl
  · rintro char member
    exact beq_false_of_ne fun same => clear (same ▸ member)

/-- Lines are told apart, and from what stands behind them. -/
theorem parts_join_append {lines : List Line} (spelled : ∀ line ∈ lines, ∃ items, line.Spells items)
    (rest : List Char) :
    Text.parts (· == '\n') ((String.join (lines.map Line.text)).toList ++ rest) =
      lines.map (fun line => line.shown.toList) ++ Text.parts (· == '\n') rest := by
  induction lines with
  | nil => rfl
  | cons first others inductionHypothesis =>
    obtain ⟨⟨items, spells⟩, othersSpelled⟩ := List.forall_mem_cons.mp spelled
    rw [List.map_cons, String.join_cons, String.toList_append, first.toList_text,
      List.append_assoc, List.append_assoc, List.singleton_append,
      parts_line spells.shown_ne_nil spells.newline_not_mem_shown,
      inductionHypothesis othersSpelled]
    rfl

/-- Read the lines in the block of a method: those between the signature with its limits and the
end. -/
def ofBlock? (text : String) : Option (List Line) :=
  ((Text.parts (· == '\n') text.toList).drop 3).dropLast.mapM fun text =>
    Line.read? (String.ofList text)

theorem mapM_read?_shown {lines : List Line} (spelled : ∀ line ∈ lines, ∃ items, line.Spells items) :
    (lines.map fun line => line.shown.toList).mapM (fun text => Line.read? (String.ofList text)) =
      some lines := by
  induction lines with
  | nil => rfl
  | cons first others inductionHypothesis =>
    obtain ⟨⟨items, spells⟩, othersSpelled⟩ := List.forall_mem_cons.mp spelled
    rw [List.map_cons, List.mapM_cons, String.ofList_toList, spells.read?_shown,
      inductionHypothesis othersSpelled]
    rfl

theorem newline_not_mem_of_isWord {word : String} (isWord : Text.IsWord word) :
    '\n' ∉ word.toList :=
  fun member => absurd (isWord.solid _ member) (by decide)

theorem newline_not_mem_append {first second : String} (inFirst : '\n' ∉ first.toList)
    (inSecond : '\n' ∉ second.toList) : '\n' ∉ (first ++ second).toList := by
  rw [String.toList_append, List.mem_append, not_or]
  exact ⟨inFirst, inSecond⟩

/-- The lines of a method are read back from its block, if its signature stands on one line and
the names in its lines can be read. -/
theorem ofBlock?_methodText {limits : Limits} {code : ClassCode} {method : MethodCode}
    {text : String} (written : methodText limits code method = .ok text)
    (titled : ∀ descriptor,
      code.methodDescriptor (method.params.map Binding.ty) method.returnType = .ok descriptor →
        Text.IsWord (method.name ++ descriptor.text)) :
    ∃ lines, Frame.lines ⟨code, method⟩ = .ok lines ∧
      ((∀ line ∈ lines, line.Named) → ofBlock? text = some lines) := by
  obtain ⟨descriptor, described, written⟩ := bind_eq_ok_iff.mp written
  obtain ⟨lines, selected, written⟩ := bind_eq_ok_iff.mp written
  obtain rfl := Except.ok.inj written
  refine ⟨lines, selected, fun named => ?_⟩
  have spelled : ∀ line ∈ lines, ∃ items, line.Spells items := fun line member =>
    Line.exists_spells (Frame.bounded_of_lines selected line member) (named line member)
  have isPublic : '\n' ∉ (if method.isPublic then "public " else "").toList := by split <;> decide
  have isStatic : '\n' ∉ (if method.isStatic then "static " else "").toList := by split <;> decide
  generalize (if method.isPublic then "public " else "") = access at isPublic ⊢
  generalize (if method.isStatic then "static " else "") = kind at isStatic ⊢
  have title : '\n' ∉ (".method " ++ access ++ kind ++ (method.name ++ descriptor.text)).toList :=
    newline_not_mem_append
      (newline_not_mem_append (newline_not_mem_append (by decide) isPublic) isStatic)
      (newline_not_mem_of_isWord (titled descriptor described))
  have limit (name : String) (clear : '\n' ∉ name.toList) (number : UInt16) :
      '\n' ∉ (name ++ toString number.toNat).toList :=
    newline_not_mem_append clear (newline_not_mem_of_isWord (Text.isWord_toString number.toNat))
  have chars : (s!".method {access}{kind}{method.name}{descriptor.text}\n" ++
      s!"  .limit stack {limits.stack.toNat}\n" ++ s!"  .limit locals {limits.locals.toNat}\n" ++
      String.join (lines.map Line.text) ++ ".end method\n").toList =
      (".method " ++ access ++ kind ++ (method.name ++ descriptor.text)).toList ++ '\n' ::
        (("  .limit stack " ++ toString limits.stack.toNat).toList ++ '\n' ::
          (("  .limit locals " ++ toString limits.locals.toNat).toList ++ '\n' ::
            ((String.join (lines.map Line.text)).toList ++ (".end method".toList ++ ['\n'])))) := by
    clear title limit isPublic isStatic
    simp [ToString.toString]
  rw [ofBlock?, chars, parts_line (by simp) title,
    parts_line (by simp) (limit _ (by decide) _), parts_line (by simp) (limit _ (by decide) _),
    parts_join_append spelled, parts_line (by simp) (by decide)]
  show ((lines.map fun line : Line => line.shown.toList) ++ [_]).dropLast.mapM _ = _
  rw [List.dropLast_concat, mapM_read?_shown spelled]

end Jasmin

end JavaMinus
