/-
This file shows that a descriptor stands for one signature. The path of a class ends in
the name by which the program calls it, whichever rule gave the path: the class itself,
an import, `String`, or a class nobody knows. So different names have different paths.
Paths end at their semicolons, so the descriptor of a method can be read back from its
text, and methods with the same descriptor have the same parameter types and the same
return type, provided that the signs of descriptors and paths do not stand in names.
-/

import Mathlib.Data.Set.Function
import JavaMinus.Proofs.Jasmin.Reading

namespace JavaMinus

/-! ### Paths -/

namespace Text

/-- What stands in a text is a separator, or it stands in a field. -/
theorem separates_or_mem_fields (separates : Char → Bool) {text : List Char} {char : Char}
    (member : char ∈ text) :
    separates char = true ∨ ∃ field ∈ fields separates text, char ∈ field := by
  induction text with
  | nil => cases member
  | cons first rest inductionHypothesis =>
    rw [fields]
    split
    · next separating =>
      rcases List.mem_cons.mp member with rfl | inRest
      · exact .inl separating
      · refine (inductionHypothesis inRest).imp id ?_
        rintro ⟨field, isField, inField⟩
        exact ⟨field, List.mem_cons_of_mem _ isField, inField⟩
    · split
      · next none => exact absurd none (fields_ne_nil separates rest)
      · next field others same =>
        rw [same] at inductionHypothesis
        rcases List.mem_cons.mp member with rfl | inRest
        · exact .inr ⟨_, List.mem_cons_self, List.mem_cons_self⟩
        · refine (inductionHypothesis inRest).imp id ?_
          rintro ⟨other, isField, inField⟩
          rcases List.mem_cons.mp isField with rfl | isOther
          · exact ⟨_, List.mem_cons_self, List.mem_cons_of_mem _ inField⟩
          · exact ⟨other, List.mem_cons_of_mem _ isOther, inField⟩

theorem lastField_eq_self {separates : Char → Bool} {text : List Char}
    (solid : ∀ char ∈ text, separates char = false) : lastField separates text = text := by
  rw [lastField, fields_eq_singleton solid]
  rfl

end Text

namespace Jasmin

/-- A name in which no sign of descriptors and paths stands. -/
def PlainName (name : String) : Prop := ∀ char ∈ name.toList, char ∉ ['.', '/', ';', '[']

instance (name : String) : Decidable (PlainName name) :=
  List.decidableBAll (fun char => char ∉ ['.', '/', ';', '[']) name.toList

theorem PlainName.not_mem {name : String} (plain : PlainName name) {char : Char}
    (sign : char ∈ ['.', '/', ';', '[']) : char ∉ name.toList :=
  fun member => plain char member sign

/-- The segments between slashes are those that stood between dots. -/
theorem fields_slashed {qualified : String} (unslashed : '/' ∉ qualified.toList) :
    Text.fields (· == '/') (slashed qualified).toList =
      Text.fields (· == '.') qualified.toList := by
  rw [slashed, String.toList_ofList]
  generalize qualified.toList = text at unslashed ⊢
  induction text with
  | nil => rfl
  | cons char rest inductionHypothesis =>
    rw [List.mem_cons, not_or] at unslashed
    have same := inductionHypothesis unslashed.2
    by_cases isDot : char = '.'
    · simp [Text.fields, isDot, same]
    · simp [Text.fields, isDot, same, Ne.symm unslashed.1]

end Jasmin

namespace ClassCode

open Jasmin

/-- The segments of all imports are plain. -/
def PlainImports (code : ClassCode) : Prop :=
  ∀ qualified ∈ code.imports, ∀ segment ∈ Text.fields (· == '.') qualified.toList,
    PlainName (String.ofList segment)

/-- A sign that stands in an import is a dot. -/
theorem PlainImports.eq_dot {code : ClassCode} (imports : code.PlainImports) {qualified : String}
    (member : qualified ∈ code.imports) {char : Char} (inside : char ∈ qualified.toList)
    (sign : char ∈ ['.', '/', ';', '[']) : char = '.' := by
  rcases Text.separates_or_mem_fields (· == '.') inside with isDot | ⟨segment, isSegment, inSegment⟩
  · exact beq_iff_eq.mp isDot
  · have plain := imports qualified member segment isSegment
    rw [PlainName, String.toList_ofList] at plain
    exact absurd sign (plain char inSegment)

/-- The path of a class ends in the name by which the class is called. -/
theorem lastField_classPath {code : ClassCode} (imports : code.PlainImports) {name : String}
    (plain : PlainName name) :
    Text.lastField (· == '/') (code.classPath name).toList = name.toList := by
  have whole : Text.lastField (· == '/') name.toList = name.toList := by
    refine Text.lastField_eq_self fun char member => beq_eq_false_iff_ne.mpr ?_
    rintro rfl
    exact plain.not_mem (by decide) member
  rw [classPath]
  split
  · exact whole
  · split
    · next qualified found =>
      have member := List.mem_of_find?_eq_some found
      have unslashed : '/' ∉ qualified.toList := fun inside =>
        absurd (imports.eq_dot member inside (by decide)) (by decide)
      have called : Import.simpleOf qualified = name := by
        simpa using List.find?_some found
      rw [Text.lastField, fields_slashed unslashed, ← called, Import.simpleOf,
        String.toList_ofList, Text.lastField]
    · split
      · next isString =>
        rw [isString]
        decide
      · exact whole

/-- Different names have different paths. -/
theorem injOn_classPath {code : ClassCode} (imports : code.PlainImports) :
    Set.InjOn code.classPath {name | PlainName name} := by
  intro first firstPlain second secondPlain same
  have ends := lastField_classPath imports firstPlain
  rw [same, lastField_classPath imports secondPlain] at ends
  exact (String.toList_inj.mp ends).symm

/-- No semicolon stands in a path. -/
theorem semicolon_not_mem_classPath {code : ClassCode} (imports : code.PlainImports)
    {name : String} (plain : PlainName name) : ';' ∉ (code.classPath name).toList := by
  rw [classPath]
  split
  · exact plain.not_mem (by decide)
  · split
    · next qualified found =>
      rw [slashed, String.toList_ofList, List.mem_map]
      rintro ⟨char, inside, same⟩
      split at same
      · cases same
      · next notDot =>
        subst same
        exact notDot (imports.eq_dot (List.mem_of_find?_eq_some found) inside (by decide))
    · split
      · decide
      · exact plain.not_mem (by decide)

end ClassCode

/-! ### Types -/

namespace Jasmin

/-- The type that a descriptor stands for in a program. -/
def Descriptor.ty : Descriptor → Ty
  | .int => .int
  | .boolean => .boolean
  | .void => .void
  | .object path => .named (String.ofList (Text.lastField (· == '/') path.toList))
  | .array element => .arrayOf element.ty.base

end Jasmin

namespace ClassCode

open Jasmin

variable {code : ClassCode}

/-- The descriptor of a base name can be read, and stands for that name. -/
theorem reads_baseDescriptor? (imports : code.PlainImports) {ty : Ty} (plain : PlainName ty.base)
    {base : Descriptor} (found : code.baseDescriptor? ty = some base) :
    base.Delimited ∧ base.ty = .named ty.base := by
  rw [baseDescriptor?] at found
  split at found
  · next isInt =>
    obtain rfl := Option.some.inj found
    exact ⟨trivial, congrArg Ty.named isInt.symm⟩
  · next isBoolean =>
    obtain rfl := Option.some.inj found
    exact ⟨trivial, congrArg Ty.named isBoolean.symm⟩
  · next isVoid =>
    split at found
    · cases found
    · obtain rfl := Option.some.inj found
      exact ⟨trivial, congrArg Ty.named isVoid.symm⟩
  · cases found
  · obtain rfl := Option.some.inj found
    refine ⟨semicolon_not_mem_classPath imports plain, ?_⟩
    rw [Descriptor.ty, lastField_classPath imports plain, String.ofList_toList]

/-- The descriptor of a type can be read, and stands for that type. -/
theorem reads_descriptor (imports : code.PlainImports) {ty : Ty} (plain : PlainName ty.base)
    {descriptor : Descriptor} (described : code.descriptor ty = .ok descriptor) :
    descriptor.Delimited ∧ descriptor.ty = ty := by
  rw [ClassCode.descriptor] at described
  split at described
  · next base found =>
    obtain ⟨delimited, standsFor⟩ := reads_baseDescriptor? imports plain found
    obtain rfl := Except.ok.inj described
    obtain ⟨name, isArray⟩ := ty
    cases isArray with
    | false => exact ⟨delimited, standsFor⟩
    | true => exact ⟨delimited, congrArg (fun element : Ty => Ty.arrayOf element.base) standsFor⟩
  · cases described

/-- Each of several descriptors can be read, and stands for its type. -/
theorem reads_descriptors (imports : code.PlainImports) {types : List Ty}
    (plain : ∀ ty ∈ types, PlainName ty.base) {descriptors : List Descriptor}
    (described : types.mapM code.descriptor = .ok descriptors) :
    (∀ descriptor ∈ descriptors, descriptor.Delimited) ∧
      descriptors.map Descriptor.ty = types := by
  have inOrder := mapM_eq_ok_iff.mp described
  clear described
  induction inOrder with
  | nil => exact ⟨List.forall_mem_nil _, rfl⟩
  | cons first _ inductionHypothesis =>
    obtain ⟨firstPlain, restPlain⟩ := List.forall_mem_cons.mp plain
    obtain ⟨firstDelimited, firstStandsFor⟩ := reads_descriptor imports firstPlain first
    obtain ⟨restDelimited, restStandFor⟩ := inductionHypothesis restPlain
    refine ⟨List.forall_mem_cons.mpr ⟨firstDelimited, restDelimited⟩, ?_⟩
    rw [List.map_cons, firstStandsFor, restStandFor]

/-- The descriptor of a method can be read, and stands for its types. -/
theorem reads_methodDescriptor (imports : code.PlainImports) {params : List Ty} {result : Ty}
    (plain : ∀ ty ∈ result :: params, PlainName ty.base) {descriptor : MethodDescriptor}
    (described : code.methodDescriptor params result = .ok descriptor) :
    descriptor.Delimited ∧
      descriptor.params.map Descriptor.ty = params ∧ descriptor.result.ty = result := by
  obtain ⟨resultPlain, paramsPlain⟩ := List.forall_mem_cons.mp plain
  obtain ⟨paramDescriptors, each, rest⟩ := bind_eq_ok_iff.mp described
  obtain ⟨resultDescriptor, isResult, same⟩ := bind_eq_ok_iff.mp rest
  obtain rfl := Except.ok.inj same
  obtain ⟨paramsDelimited, paramsStandFor⟩ := reads_descriptors imports paramsPlain each
  obtain ⟨resultDelimited, resultStandsFor⟩ := reads_descriptor imports resultPlain isResult
  exact ⟨List.forall_mem_cons.mpr ⟨resultDelimited, paramsDelimited⟩, paramsStandFor,
    resultStandsFor⟩

/-- Different names have different paths, and methods with the same descriptor have the same
parameter types and the same return type, provided that the segments of the imports and the base
names are plain. Nothing is asked of the name of the class itself, and names may be empty. -/
theorem types_of_methodDescriptor (imports : code.PlainImports) :
    Set.InjOn code.classPath {name | PlainName name} ∧
      ∀ params others result other first second,
        (∀ ty ∈ result :: params, PlainName ty.base) → (∀ ty ∈ other :: others, PlainName ty.base) →
        code.methodDescriptor params result = .ok first →
        code.methodDescriptor others other = .ok second → first.text = second.text →
        params = others ∧ result = other := by
  refine ⟨injOn_classPath imports, ?_⟩
  intro params others result other first second plain otherPlain described otherDescribed same
  obtain ⟨delimited, standFor, standsFor⟩ := reads_methodDescriptor imports plain described
  obtain ⟨otherDelimited, otherStandFor, otherStandsFor⟩ :=
    reads_methodDescriptor imports otherPlain otherDescribed
  obtain rfl := MethodDescriptor.text_inj delimited otherDelimited same
  exact ⟨standFor.symm.trans otherStandFor, standsFor.symm.trans otherStandsFor⟩

end ClassCode

/-- A class with imports, two of them called by one name. -/
def ClassCode.printing : ClassCode where
  name := "A"
  superClass := none
  imports := ["io.Printer", "lang.String", "io.String"]
  fields := []
  methods := []

/-- An import, the first of two, an array of the class, and a class nobody knows. -/
def ClassCode.printing.params : List Ty :=
  [.named "Printer", .named "String", .arrayOf "A", .named "Unknown"]

open Jasmin ClassCode.printing in
/-- The descriptor with the paths of these types belongs to no other types. -/
theorem types_of_methodDescriptor_printing :
    ClassCode.printing.PlainImports ∧ (∀ ty ∈ .int :: params, PlainName ty.base) ∧
      ClassCode.printing.classPath "Unknown" ≠ ClassCode.printing.classPath "A" ∧
      ∃ first, ClassCode.printing.methodDescriptor params .int = .ok first ∧
        first.text = "(Lio/Printer;Llang/String;[LA;LUnknown;)I" ∧
        ∀ others other second, (∀ ty ∈ other :: others, PlainName ty.base) →
          ClassCode.printing.methodDescriptor others other = .ok second →
          second.text = first.text → params = others ∧ .int = other := by
  have imports : ClassCode.printing.PlainImports := by
    unfold ClassCode.PlainImports
    decide +kernel
  have plain : ∀ ty ∈ .int :: params, PlainName ty.base := by decide +kernel
  obtain ⟨paths, types⟩ := ClassCode.types_of_methodDescriptor imports
  refine ⟨imports, plain, ?_, _, rfl, by decide +kernel, ?_⟩
  · have unknownPlain : PlainName "Unknown" := by decide +kernel
    have ownPlain : PlainName "A" := by decide +kernel
    exact fun same => absurd (paths unknownPlain ownPlain same) (by decide)
  · intro others other second otherPlain described same
    exact types params others .int other _ second plain otherPlain rfl described same.symm

end JavaMinus
