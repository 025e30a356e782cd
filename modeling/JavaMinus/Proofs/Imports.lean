/-
This file follows the name of an imported class from the tree of a program to the
path that stands for it in the assembly. In the tree a path is a text, either with
dots between the segments or as a list in brackets with commas; both forms are read
as the segments they were made of, as long as nothing in the segments means anything
to the reader. From then on the class is known by its qualified name, which is one
text again, and called by its last segment. Since no dot stands in a segment, what
stands behind the last dot of a qualified name is the last segment, and slashes in
place of the dots join the same segments. So looking a name up, in the class table or
in the code, finds the first import whose last segment it is, and the path of the
class is made of the segments of that import.
-/

import JavaMinus.Jasmin.Descriptor
import JavaMinus.Proofs.Tree.RoundTrip
import JavaMinus.Proofs.Lowering.Derivation

namespace JavaMinus

/-! ### Reading a path -/

namespace Text

/-- Texts that are joined by a separator with some padding behind it are the fields again, all but
the first with the padding in front. -/
theorem fields_intercalate_padded {separates : Char → Bool} {separator : Char}
    {padding first : List Char} {rest : List (List Char)} (separating : separates separator = true)
    (loose : ∀ char ∈ padding, separates char = false)
    (solid : ∀ text ∈ first :: rest, ∀ char ∈ text, separates char = false) :
    fields separates ((separator :: padding).intercalate (first :: rest)) =
      first :: rest.map (padding ++ ·) := by
  induction rest generalizing first with
  | nil =>
    rw [List.intercalate_singleton]
    exact fields_eq_singleton (solid first List.mem_cons_self)
  | cons second others inductionHypothesis =>
    obtain ⟨firstSolid, restSolid⟩ := List.forall_mem_cons.mp solid
    obtain ⟨secondSolid, othersSolid⟩ := List.forall_mem_cons.mp restSolid
    -- The padding counts as the start of the next text.
    have moved : padding ++ (separator :: padding).intercalate (second :: others) =
        (separator :: padding).intercalate ((padding ++ second) :: others) := by
      cases others with
      | nil => rw [List.intercalate_singleton, List.intercalate_singleton]
      | cons third remaining => simp only [List.intercalate_cons_cons, List.append_assoc]
    have padded : ∀ text ∈ (padding ++ second) :: others, ∀ char ∈ text, separates char = false :=
      List.forall_mem_cons.mpr ⟨List.forall_mem_append.mpr ⟨loose, secondSolid⟩, othersSolid⟩
    rw [List.intercalate_cons_cons, List.append_assoc, List.cons_append,
      fields_append_cons separating, fields_eq_singleton firstSolid, moved,
      inductionHypothesis padded, List.map_cons]
    rfl

/-- Trimming removes the blanks in front of a text without blanks. -/
theorem trim_append_eq_right {padding text : List Char}
    (blank : ∀ char ∈ padding, isBlank char = true)
    (solid : ∀ char ∈ text, isBlank char = false) : trim (padding ++ text) = text := by
  rw [trim, List.dropWhile_append_of_pos blank, dropWhile_eq_self solid, dropEnd_eq_self solid]

/-- A bracket at each end of a text without brackets is removed. -/
theorem bare_of_brackets {text : List Char} (plain : ∀ char ∈ text, char ≠ '[' ∧ char ≠ ']') :
    dropEnd (· == ']') (('[' :: (text ++ [']'])).dropWhile (· == '[')) = text := by
  have opened : (text ++ [']']).dropWhile (· == '[') = text ++ [']'] := by
    refine dropWhile_eq_self (List.forall_mem_append.mpr ⟨fun char member => ?_, ?_⟩)
    · exact beq_false_of_ne (plain char member).1
    · exact List.forall_mem_singleton.mpr rfl
  have closed : text.reverse.dropWhile (· == ']') = text.reverse :=
    dropWhile_eq_self fun char member =>
      beq_false_of_ne (plain char (List.mem_reverse.mp member)).2
  rw [List.dropWhile_cons_of_pos (p := (· == '[')) rfl, opened, dropEnd, List.reverse_append]
  change ((']' :: text.reverse).dropWhile (· == ']')).reverse = text
  rw [List.dropWhile_cons_of_pos (p := (· == ']')) rfl, closed, List.reverse_reverse]

/-- A change that spares the texts only changes what stands between them. -/
theorem map_intercalate {change : Char → Char} {separator : List Char} {texts : List (List Char)}
    (spared : ∀ text ∈ texts, ∀ char ∈ text, change char = char) :
    (separator.intercalate texts).map change = (separator.map change).intercalate texts := by
  induction texts with
  | nil => rfl
  | cons first rest inductionHypothesis =>
    obtain ⟨firstSpared, restSpared⟩ := List.forall_mem_cons.mp spared
    have same : first.map change = first :=
      (List.map_congr_left firstSpared).trans (List.map_id' first)
    cases rest with
    | nil => rw [List.intercalate_singleton, List.intercalate_singleton, same]
    | cons second others =>
      rw [List.intercalate_cons_cons, List.intercalate_cons_cons, List.map_append,
        List.map_append, same, inductionHypothesis restSpared]

end Text

namespace Import

/-- A segment in which neither a separator nor a bracket nor a blank stands. -/
structure PlainSegment (segment : String) : Prop where
  nonempty : segment ≠ ""
  unsigned : ∀ char ∈ segment.toList, char ∉ [',', '.', '[', ']']
  solid : ∀ char ∈ segment.toList, Text.isBlank char = false

theorem plainSegment_iff (segment : String) :
    PlainSegment segment ↔ segment ≠ "" ∧ segment.toList.all
      (fun char => !(List.contains [',', '.', '[', ']'] char) && !Text.isBlank char) = true := by
  simp only [List.all_eq_true, Bool.and_eq_true, Bool.not_eq_true', List.contains_eq_mem,
    decide_eq_false_iff_not, forall_and]
  exact ⟨fun plain => ⟨plain.nonempty, plain.unsigned, plain.solid⟩,
    fun ⟨nonempty, unsigned, solid⟩ => ⟨nonempty, unsigned, solid⟩⟩

instance (segment : String) : Decidable (PlainSegment segment) :=
  decidable_of_iff' _ (plainSegment_iff segment)

/-- The forms in which a path can be written. -/
inductive Form
  /-- With dots between the segments. -/
  | dotted
  /-- As a list in brackets. -/
  | bracketed
deriving DecidableEq, Repr

/-- Write a path. -/
def Form.write : Form → List String → String
  | .dotted, path => String.intercalate "." path
  | .bracketed, path => "[" ++ String.intercalate ", " path ++ "]"

variable {path : List String}

/-- Plain segments stay as they are when they are split off and trimmed. -/
theorem segments_of_intercalate {separator : Char} {padding : List Char}
    (plain : ∀ segment ∈ path, PlainSegment segment)
    (separating : (separator == ',' || separator == '.') = true)
    (loose : ∀ char ∈ padding, (char == ',' || char == '.') = false)
    (blank : ∀ char ∈ padding, Text.isBlank char = true) :
    (((Text.fields (fun char => char == ',' || char == '.')
      ((separator :: padding).intercalate (path.map String.toList))).map Text.trim).filter
        fun segment => !segment.isEmpty).map String.ofList = path := by
  cases path with
  | nil => rfl
  | cons first rest =>
    have solid : ∀ text ∈ first.toList :: rest.map String.toList, ∀ char ∈ text,
        (char == ',' || char == '.') = false := by
      rw [← List.map_cons (f := String.toList), List.forall_mem_map]
      intro segment member char inside
      have unsigned := (plain segment member).unsigned char inside
      simp only [List.mem_cons, not_or] at unsigned
      simp [unsigned.1, unsigned.2.1]
    have trimmed : (first.toList :: (rest.map String.toList).map (padding ++ ·)).map Text.trim =
        (first :: rest).map String.toList := by
      rw [List.map_cons, List.map_map, List.map_map, List.map_cons]
      congr 1
      · exact Text.trim_eq_self (plain first List.mem_cons_self).solid
      · exact List.map_congr_left fun segment member => Text.trim_append_eq_right blank
          (plain segment (List.mem_cons_of_mem _ member)).solid
    rw [List.map_cons, Text.fields_intercalate_padded separating loose solid, trimmed,
      filter_nonempty fun segment member => (plain segment member).nonempty, List.map_map]
    exact List.map_id'' (fun segment => String.ofList_toList) _

/-- No bracket stands in a path of plain segments, if none stands between them. -/
theorem not_bracket_of_mem_intercalate (plain : ∀ segment ∈ path, PlainSegment segment)
    (separator : List Char) (between : ∀ char ∈ separator, char ≠ '[' ∧ char ≠ ']') :
    ∀ char ∈ separator.intercalate (path.map String.toList), char ≠ '[' ∧ char ≠ ']' := by
  intro char member
  rcases Text.mem_intercalate member with inSeparator | ⟨text, isText, inText⟩
  · exact between char inSeparator
  · obtain ⟨segment, isSegment, rfl⟩ := List.mem_map.mp isText
    have unsigned := (plain segment isSegment).unsigned char inText
    simp only [List.mem_cons, not_or] at unsigned
    exact ⟨unsigned.2.2.1, unsigned.2.2.2.1⟩

/-- A path of plain segments is read from either form. -/
theorem segments_write (form : Form) (plain : ∀ segment ∈ path, PlainSegment segment) :
    Import.segments (form.write path) = path := by
  cases form with
  | dotted =>
    have noBrackets := not_bracket_of_mem_intercalate plain ['.'] (by simp)
    have written : (Form.dotted.write path).toList =
        ['.'].intercalate (path.map String.toList) := String.toList_intercalate
    rw [Import.segments, written,
      Text.dropWhile_eq_self fun char member => beq_false_of_ne (noBrackets char member).1,
      Text.dropEnd_eq_self fun char member => beq_false_of_ne (noBrackets char member).2]
    exact segments_of_intercalate plain rfl (List.forall_mem_nil _) (List.forall_mem_nil _)
  | bracketed =>
    have noBrackets := not_bracket_of_mem_intercalate plain [',', ' '] (by simp)
    have written : (Form.bracketed.write path).toList =
        '[' :: ([',', ' '].intercalate (path.map String.toList) ++ [']']) := by
      rw [Form.write, String.toList_append, String.toList_append, String.toList_intercalate]
      rfl
    rw [Import.segments, written, Text.bare_of_brackets noBrackets]
    exact segments_of_intercalate plain rfl (List.forall_mem_singleton.mpr rfl)
      (List.forall_mem_singleton.mpr rfl)

/-- A node of a tree is an import whose path is written in one of the forms. -/
structure WrittenAs (decl : Import) (tree : Tree) : Prop where
  kind : DeclKind.ofName? tree.kind = some .importDecl
  lib : ∃ form : Form, tree.attribute? "lib" = some (form.write decl.path)
  pos : tree.pos = decl.pos
  plain : ∀ segment ∈ decl.path, PlainSegment segment

theorem WrittenAs.ofTree {decl : Import} {tree : Tree} (written : decl.WrittenAs tree) :
    Import.ofTree tree = .ok decl := by
  obtain ⟨form, lib⟩ := written.lib
  have found : tree.required "lib" = .ok (form.write decl.path) := by
    rw [Tree.required, lib]
  rw [Import.ofTree_eq, found, written.pos]
  change Except.ok (Import.mk (Import.segments (form.write decl.path)) decl.pos) = _
  rw [segments_write form written.plain]

end Import

/-- Imports are read one behind the other. -/
theorem ProgramParts.foldlM_written {parent : String} {parts : ProgramParts} {decls : List Import}
    {trees : List Tree} (written : List.Forall₂ Import.WrittenAs decls trees) :
    trees.foldlM (ProgramParts.read parent) parts =
      .ok { parts with imports := parts.imports ++ decls } := by
  induction written generalizing parts with
  | nil => simp; rfl
  | @cons decl tree decls trees first _ inductionHypothesis =>
    have read : parts.read parent tree =
        .ok { parts with imports := parts.imports ++ [decl] } := by
      rw [ProgramParts.read, first.kind]
      change (Import.ofTree tree >>= _) = _
      rw [first.ofTree]
      rfl
    rw [List.foldlM_cons, read]
    change List.foldlM _ _ _ = _
    rw [inductionHypothesis, List.append_assoc, List.singleton_append]

/-- A program is read with the imports that are written around its class, in their order. -/
theorem Program.ofTree_of_written {tree classTree : Tree} {before after : List Tree}
    {earlier later : List Import} {classDecl : ClassDecl}
    (isProgram : tree.declares .program = true)
    (isClass : DeclKind.ofName? classTree.kind = some .classDecl)
    (children : tree.children = before ++ classTree :: after)
    (writtenBefore : List.Forall₂ Import.WrittenAs earlier before)
    (writtenAfter : List.Forall₂ Import.WrittenAs later after)
    (classRead : ClassDecl.ofTree classTree = .ok classDecl) :
    Program.ofTree tree = .ok ⟨earlier ++ later, classDecl, tree.pos⟩ := by
  have read (imports : List Import) : ProgramParts.read tree.kind ⟨imports, none⟩ classTree =
      .ok ⟨imports, some classDecl⟩ := by
    rw [ProgramParts.read, isClass]
    change (ClassDecl.ofTree classTree >>= _) = _
    rw [classRead]
    rfl
  have all : tree.children.foldlM (ProgramParts.read tree.kind) {} =
      .ok ⟨earlier ++ later, some classDecl⟩ := by
    rw [children, List.foldlM_append, ProgramParts.foldlM_written writtenBefore]
    change (ProgramParts.read _ ⟨[] ++ earlier, none⟩ _ >>= _) = _
    rw [List.nil_append, read]
    exact ProgramParts.foldlM_written writtenAfter
  rw [Program.ofTree, if_pos isProgram, all]
  rfl

/-! ### Names and paths of imports -/

namespace Import

variable {decl : Import}

theorem dotless_ofDotted (pos : Pos) (dotted : String) : (ofDotted pos dotted).Dotless := by
  intro segment member
  obtain ⟨text, isText, rfl⟩ := List.mem_map.mp member
  obtain ⟨isField, isNonempty⟩ := List.mem_filter.mp isText
  rw [Bool.not_eq_true', List.isEmpty_eq_false_iff] at isNonempty
  refine ⟨fun isEmpty => isNonempty ?_, ?_⟩
  · rw [← String.toList_ofList (l := text), isEmpty]
    rfl
  · rw [String.toList_ofList]
    exact Text.separates_of_mem_fields isField

/-- What stands behind the last dot of the qualified name is the last segment. -/
theorem Dotless.simpleOf_qualified (dotless : decl.Dotless) :
    simpleOf decl.qualified = decl.simple := by
  by_cases isEmpty : decl.path = []
  · rw [simple, qualified, isEmpty]
    rfl
  · rw [simpleOf, Text.lastField, dotless.fields_qualified isEmpty, List.getLast?_map, simple]
    cases decl.path.getLast? with
    | none => rfl
    | some last => exact String.ofList_toList

/-- Slashes in place of the dots join the same segments. -/
theorem Dotless.slashed_qualified (dotless : decl.Dotless) :
    Jasmin.slashed decl.qualified = String.intercalate "/" decl.path := by
  rw [← String.toList_inj, Jasmin.slashed, String.toList_ofList, toList_qualified,
    String.toList_intercalate]
  refine Text.map_intercalate (List.forall_mem_map.mpr fun segment member char inside => ?_)
  exact if_neg (beq_eq_false_iff_ne.mp ((dotless segment member).2 char inside))

end Import

/-! ### Looking names up -/

/-- The first import whose last segment is the name. -/
def Program.importOf? (program : Program) (name : String) : Option Import :=
  program.imports.find? fun decl => decl.simple == name

/-- The path of the class that the program calls by a name: the class itself, an import, or a class
that needs no import. -/
def Program.pathOf (program : Program) (name : String) : String :=
  if name = program.classDecl.name then name
  else
    match program.importOf? name with
    | some decl => String.intercalate "/" decl.path
    | none => if name = "String" then "java/lang/String" else name

/-- The first qualified name that is called by a name is that of the first import that is. -/
theorem Import.find?_qualified {imports : List Import} (dotless : ∀ decl ∈ imports, decl.Dotless)
    (name : String) :
    Import.find? (imports.map qualified) name =
      (imports.find? fun decl => decl.simple == name).map qualified := by
  induction imports with
  | nil => rfl
  | cons decl rest inductionHypothesis =>
    obtain ⟨first, others⟩ := List.forall_mem_cons.mp dotless
    have found := inductionHypothesis others
    rw [find?] at found
    rw [find?, List.map_cons, List.find?_cons, List.find?_cons, first.simpleOf_qualified]
    cases decl.simple == name with
    | true => rfl
    | false => exact found

namespace Program

variable {program : Program}

theorem importFor?_ofProgram (dotless : ∀ decl ∈ program.imports, decl.Dotless) (name : String) :
    (ClassTable.ofProgram program).importFor? name =
      (program.importOf? name).map Import.qualified :=
  Import.find?_qualified dotless name

variable {before : Counters} {code : ClassCode}

/-- The code of a program has the imports of the program. -/
theorem importFor?_of_lower
    (lowered : ((ClassTable.ofProgram program).lower program before).1 = .ok code) (name : String) :
    code.importFor? name = (ClassTable.ofProgram program).importFor? name := by
  rw [(ClassTable.compiles_of_lower lowered).1]
  rfl

theorem classPath_of_lower (dotless : ∀ decl ∈ program.imports, decl.Dotless)
    (lowered : ((ClassTable.ofProgram program).lower program before).1 = .ok code) (name : String) :
    code.classPath name = program.pathOf name := by
  have className : code.name = program.classDecl.name := by
    rw [(ClassTable.compiles_of_lower lowered).1]
    rfl
  rw [ClassCode.classPath, pathOf, className, importFor?_of_lower lowered,
    importFor?_ofProgram dotless]
  cases found : program.importOf? name with
  | none => rfl
  | some decl =>
    have slashed := (dotless decl (List.mem_of_find?_eq_some found)).slashed_qualified
    simp only [Option.map_some, slashed]

/-- The imports of a program that was read are those of dotted paths. -/
theorem dotless_of_ofTree {tree : Tree} (read : Program.ofTree tree = .ok program) :
    ∀ decl ∈ program.imports, decl.Dotless := by
  intro decl member
  exact Import.dotless_of_isSegment (isSegment_of_ofTree read decl member)

/-- Names of imported classes survive from the tree to the assembly. Paths of plain segments are read
from either form they are written in, wherever the imports stand around the class. If the imports of
a program are made of dotted paths, as they are if the program was read from a tree, then a name is
found in the class table and in the code as the first import whose last segment it is, by its
qualified name, and the path of the class it stands for is made of the segments of that import. -/
theorem imports_survive :
    (∀ (decl : Import) (tree : Tree), decl.WrittenAs tree → Import.ofTree tree = .ok decl) ∧
    (∀ (tree classTree : Tree) (before after : List Tree) (earlier later : List Import)
      (classDecl : ClassDecl), tree.declares .program = true →
      DeclKind.ofName? classTree.kind = some .classDecl →
      tree.children = before ++ classTree :: after →
      List.Forall₂ Import.WrittenAs earlier before → List.Forall₂ Import.WrittenAs later after →
      ClassDecl.ofTree classTree = .ok classDecl →
      Program.ofTree tree = .ok ⟨earlier ++ later, classDecl, tree.pos⟩) ∧
    (∀ (tree : Tree) (program : Program), Program.ofTree tree = .ok program →
      ∀ decl ∈ program.imports, ∃ pos dotted, decl = .ofDotted pos dotted) ∧
    ∀ program : Program, (∀ decl ∈ program.imports, ∃ pos dotted, decl = .ofDotted pos dotted) →
      ∀ name,
        (ClassTable.ofProgram program).importFor? name =
          (program.importOf? name).map Import.qualified ∧
        ∀ before code, ((ClassTable.ofProgram program).lower program before).1 = .ok code →
          code.importFor? name = (program.importOf? name).map Import.qualified ∧
          code.classPath name = program.pathOf name := by
  refine ⟨fun _ _ written => written.ofTree, fun _ _ _ _ _ _ _ isProgram isClass children
    writtenBefore writtenAfter classRead => ofTree_of_written isProgram isClass children
      writtenBefore writtenAfter classRead, fun tree program read decl member => ?_,
    fun program made name => ?_⟩
  · exact ⟨_, _, (dotless_of_ofTree read decl member).eq_ofDotted⟩
  · have dotless : ∀ decl ∈ program.imports, decl.Dotless := by
      intro decl member
      obtain ⟨pos, dotted, rfl⟩ := made decl member
      exact Import.dotless_ofDotted pos dotted
    have table := importFor?_ofProgram dotless name
    refine ⟨table, fun before code lowered => ?_⟩
    exact ⟨(importFor?_of_lower lowered name).trans table, classPath_of_lower dotless lowered name⟩

/-- A class with imports on both sides, two of which are called alike and one like the class. -/
def flanked : Program where
  imports := [⟨["java", "util", "List"], ⟨1, 1⟩⟩, ⟨["awt", "List"], ⟨3, 1⟩⟩, ⟨["lib", "A"], ⟨4, 1⟩⟩]
  classDecl := ⟨"A", none, [], [], ⟨2, 1⟩⟩
  pos := ⟨1, 1⟩

/-- A tree for the program, in which one of the paths is a list. -/
def flanked.tree : Tree where
  kind := "Program"
  attributes := []
  children :=
    [⟨"ImportDecl", [("lib", "[java, util, List]")], [], ⟨1, 1⟩⟩,
      ⟨"ClassDecl", [("name", "A")], [], ⟨2, 1⟩⟩,
      ⟨"ImportDecl", [("lib", "awt.List")], [], ⟨3, 1⟩⟩,
      ⟨"ImportDecl", [("lib", "lib.A")], [], ⟨4, 1⟩⟩]
  pos := ⟨1, 1⟩

/-- The first import that is called by a name is meant, and the class itself before an import. -/
theorem imports_survive_flanked :
    ∃ code, Program.ofTree flanked.tree = .ok flanked ∧
      ((ClassTable.ofProgram flanked).lower flanked {}).1 = .ok code ∧
      (ClassTable.ofProgram flanked).importFor? "List" = some "java.util.List" ∧
      code.importFor? "List" = some "java.util.List" ∧
      code.classPath "List" = "java/util/List" ∧ code.classPath "A" = "A" ∧
      code.classPath "String" = "java/lang/String" := by
  obtain ⟨-, reads, made, found⟩ := imports_survive
  have read : Program.ofTree flanked.tree = .ok flanked :=
    reads flanked.tree ⟨"ClassDecl", [("name", "A")], [], ⟨2, 1⟩⟩ _ _
      [⟨["java", "util", "List"], ⟨1, 1⟩⟩] [⟨["awt", "List"], ⟨3, 1⟩⟩, ⟨["lib", "A"], ⟨4, 1⟩⟩]
      ⟨"A", none, [], [], ⟨2, 1⟩⟩ rfl rfl rfl
      (.cons ⟨rfl, ⟨.bracketed, by decide +kernel⟩, rfl, by decide +kernel⟩ .nil)
      (.cons ⟨rfl, ⟨.dotted, by decide +kernel⟩, rfl, by decide +kernel⟩
        (.cons ⟨rfl, ⟨.dotted, by decide +kernel⟩, rfl, by decide +kernel⟩ .nil)) rfl
  obtain ⟨code, lowered⟩ :
      ∃ code, ((ClassTable.ofProgram flanked).lower flanked {}).1 = .ok code := ⟨_, rfl⟩
  have resolved := found flanked (made _ _ read)
  obtain ⟨inTable, inCode⟩ := resolved "List"
  have path (name : String) : code.classPath name = flanked.pathOf name :=
    ((resolved name).2 {} code lowered).2
  exact ⟨code, read, lowered, inTable, (inCode {} code lowered).1, path "List", path "A",
    path "String"⟩

end Program

end JavaMinus
