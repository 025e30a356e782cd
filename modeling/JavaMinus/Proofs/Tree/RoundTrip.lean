/-
This file shows that a program loses nothing when it is written as a tree. What
the writer makes of a program, the reader turns back into the same program: every
name, operator, literal and modifier, the order of all children, and every
position. So the tree that a program was read from may be replaced by the
canonical one, whatever spellings, orders and unused attributes it had.

Only the path of an import may be spoiled, since it is written as one text and
cut into segments again. The segments that the reader makes have no separators
in them and no blanks around them, so they survive, unless a bracket stands at
an end of the path and is taken for that of a list.
-/

import Mathlib.Data.List.DropRight
import JavaMinus.Proofs.Tree.Acceptance
import JavaMinus.Tree.Writer

namespace JavaMinus

/-! ### Numerals -/

namespace Text

/-- The decimal digits of a number are a numeral of it. -/
theorem isDigits_toDigits (number : Nat) : IsDigits (Nat.toDigits 10 number) :=
  ⟨Nat.toDigits_ne_nil, fun _ member => Nat.isDigit_of_mem_toDigits (by decide) (by decide) member⟩

/-- An integer is read from the text it is written as. -/
theorem int?_toString (value : Int) : int? (toString value).toList = some value := by
  rw [int?_eq_some_iff, Int.toString_eq_repr, Int.repr_eq_if]
  split
  · next isNonneg =>
    refine ⟨Nat.toDigits 10 value.toNat, isDigits_toDigits _, .inl ⟨.inl Nat.toList_repr, ?_⟩⟩
    rw [Nat.ofDigitChars_ten_toDigits, Int.toNat_of_nonneg isNonneg]
  · next isNegative =>
    refine ⟨Nat.toDigits 10 (-value).toNat, isDigits_toDigits _, .inr ⟨?_, ?_⟩⟩
    · rw [String.toList_append, Nat.toList_repr]
      rfl
    · rw [Nat.ofDigitChars_ten_toDigits, Int.toNat_of_nonneg (by omega), Int.neg_neg]

theorem int32?_toString (value : Int32) : int32? (toString value.toInt) = some value := by
  rw [int32?, int?_toString, Option.bind_some, if_pos ⟨value.minValue_le_toInt, value.toInt_le⟩,
    Int32.ofInt_toInt]

end Text

/-- A literal is read from the text it is written as. -/
theorem Literal.ofText?_text (literal : Literal) : ofText? literal.text = some literal := by
  cases literal with
  | bool value => cases value <;> rfl
  | int value =>
    have read := Text.int32?_toString value
    have notWord : ∀ word, Text.int32? word = none → toString value.toInt ≠ word := by
      rintro word unread rfl
      rw [unread] at read
      cases read
    rw [text, ofText?, if_neg (notWord "true" rfl), if_neg (notWord "false" rfl), read]
    rfl

open Tree

/-! ### Expressions and statements -/

theorem Tree.bind_eq_ok_iff {α β : Type} {first : Except TreeError α}
    {next : α → Except TreeError β} {final : β} :
    first >>= next = .ok final ↔ ∃ result, first = .ok result ∧ next result = .ok final := by
  cases first with
  | error error => exact iff_of_false nofun (by simp)
  | ok result => simp [bind, Except.bind]

theorem Tree.required_first (kind key value : String) (rest : List (String × String))
    (children : List Tree) (pos : Pos) :
    Tree.required ⟨kind, (key, value) :: rest, children, pos⟩ key = .ok value := by
  simp [required, attribute?]

theorem Literal.ofTree_text (kind : String) (literal : Literal) (children : List Tree) (pos : Pos) :
    Literal.ofTree ⟨kind, [("name", literal.text)], children, pos⟩ = .ok literal := by
  rw [Literal.ofTree, required_first]
  simp only [bind, Except.bind, ofText?_text]
  rfl

theorem BinaryOp.ofTree_symbol (kind : String) (op : BinaryOp) (children : List Tree) (pos : Pos) :
    BinaryOp.ofTree ⟨kind, [("op", op.symbol)], children, pos⟩ = .ok op := by
  rw [BinaryOp.ofTree, required_first]
  simp only [bind, Except.bind, ofSymbol?_symbol]
  rfl

theorem Expr.ofTrees_toTrees {exprs : List Expr}
    (each : ∀ expr ∈ exprs, Expr.ofTree expr.toTree = .ok expr) :
    Expr.ofTrees (Expr.toTrees exprs) = .ok exprs := by
  induction exprs with
  | nil => rfl
  | cons expr rest inductionHypothesis =>
    obtain ⟨first, others⟩ := List.forall_mem_cons.mp each
    rw [Expr.toTrees, Expr.ofTrees, first, inductionHypothesis others]
    rfl

theorem Expr.ofTree_toTree (expr : Expr) : Expr.ofTree expr.toTree = .ok expr := by
  induction expr with
  | literal pos value =>
    rw [Expr.toTree, Expr.ofTree.eq_def]
    simp only [ExprKind.ofName?_nodeName, Literal.ofTree_text]
    rfl
  | name | this | newObject =>
    rw [Expr.toTree, Expr.ofTree.eq_def]
    rfl
  | binary pos op left right leftHypothesis rightHypothesis =>
    rw [Expr.toTree, Expr.ofTree.eq_def]
    simp only [ExprKind.ofName?_nodeName, BinaryOp.ofTree_symbol, leftHypothesis,
      rightHypothesis]
    rfl
  | not pos inner inductionHypothesis | newArray pos inner inductionHypothesis
  | length pos inner inductionHypothesis | paren pos inner inductionHypothesis =>
    rw [Expr.toTree, Expr.ofTree.eq_def]
    simp only [ExprKind.ofName?_nodeName, inductionHypothesis]
    rfl
  | index pos array position arrayHypothesis positionHypothesis =>
    rw [Expr.toTree, Expr.ofTree.eq_def]
    simp only [ExprKind.ofName?_nodeName, arrayHypothesis, positionHypothesis]
    rfl
  | call pos receiver method args receiverHypothesis argsHypothesis =>
    have argsRead := Expr.ofTrees_toTrees argsHypothesis
    cases receiver with
    | none =>
      rw [Expr.toTree, Expr.ofTree.eq_def]
      simp only [ExprKind.ofName?_nodeName, argsRead]
      rfl
    | some receiver =>
      rw [Expr.toTree, Expr.ofTree.eq_def]
      simp only [ExprKind.ofName?_nodeName, receiverHypothesis receiver rfl, argsRead]
      rfl
  | arrayLiteral pos elements inductionHypothesis =>
    rw [Expr.toTree, Expr.ofTree.eq_def]
    simp only [ExprKind.ofName?_nodeName, Expr.ofTrees_toTrees inductionHypothesis]
    rfl

theorem Stmt.ofTrees_toTrees {stmts : List Stmt}
    (each : ∀ stmt ∈ stmts, Stmt.ofTree stmt.toTree = .ok stmt) :
    Stmt.ofTrees (Stmt.toTrees stmts) = .ok stmts := by
  induction stmts with
  | nil => rfl
  | cons stmt rest inductionHypothesis =>
    obtain ⟨first, others⟩ := List.forall_mem_cons.mp each
    rw [Stmt.toTrees, Stmt.ofTrees, first, inductionHypothesis others]
    rfl

theorem Stmt.ofTree_toTree (stmt : Stmt) : Stmt.ofTree stmt.toTree = .ok stmt := by
  induction stmt with
  | block pos body inductionHypothesis =>
    rw [Stmt.toTree, Stmt.ofTree.eq_def]
    simp only [StmtKind.ofName?_nodeName, Stmt.ofTrees_toTrees inductionHypothesis]
    rfl
  | ifElse pos condition thenBranch elseBranch thenHypothesis elseHypothesis =>
    cases elseBranch with
    | none =>
      rw [Stmt.toTree, Stmt.ofTree.eq_def]
      simp only [StmtKind.ofName?_nodeName, Expr.ofTree_toTree, thenHypothesis]
      rfl
    | some elseBranch =>
      rw [Stmt.toTree, Stmt.ofTree.eq_def]
      simp only [StmtKind.ofName?_nodeName, Expr.ofTree_toTree, thenHypothesis,
        elseHypothesis elseBranch rfl]
      rfl
  | whileLoop pos condition body inductionHypothesis =>
    rw [Stmt.toTree, Stmt.ofTree.eq_def]
    simp only [StmtKind.ofName?_nodeName, Expr.ofTree_toTree, inductionHypothesis]
    rfl
  | eval | assign =>
    rw [Stmt.toTree, Stmt.ofTree.eq_def]
    simp only [StmtKind.ofName?_nodeName, Expr.ofTree_toTree]
    rfl
  | ret pos value =>
    rw [Stmt.toTree, Stmt.ofTree.eq_def]
    cases value with
    | none => rfl
    | some value =>
      simp only [StmtKind.ofName?_nodeName, Option.toList_some, List.map_cons, List.map_nil,
        Expr.ofTree_toTree]
      rfl

/-! ### Declarations -/

theorem TypeName.ofTree_toTree (written : TypeName) :
    TypeName.ofTree written.toTree = .ok written := by
  obtain ⟨name, isArray, pos⟩ := written
  cases isArray <;> rfl

theorem VarDecl.ofTree_toTree (decl : VarDecl) : VarDecl.ofTree decl.toTree = .ok decl := by
  have type : TypeName.ofDeclaration decl.toTree = .ok decl.typeName :=
    decl.typeName.ofTree_toTree
  rw [VarDecl.ofTree, type]
  rfl

theorem Param.ofTree_toTree (param : Param) : Param.ofTree param.toTree = .ok param := by
  have type : TypeName.ofDeclaration param.toTree = .ok param.typeName :=
    param.typeName.ofTree_toTree
  rw [Param.ofTree, type]
  obtain ⟨typeName, name, isVarargs, pos⟩ := param
  cases isVarargs <;> rfl

/-- Trees that are read back one by one are read back together. -/
theorem mapM_map_eq_ok {α : Type} {read : Tree → Except TreeError α} {write : α → Tree}
    (each : ∀ item, read (write item) = .ok item) (items : List α) :
    (items.map write).mapM read = .ok items := by
  induction items with
  | nil => rfl
  | cons item rest inductionHypothesis =>
    rw [List.map_cons, List.mapM_cons, each, inductionHypothesis]
    rfl

theorem Stmt.declares_toTree (stmt : Stmt) (kind : DeclKind) : stmt.toTree.declares kind = false :=
  (Stmt.reads_ofTree_iff.mp ⟨stmt, stmt.ofTree_toTree⟩).not_declares kind

theorem Stmt.ofBodyTree_toTree (parent : String) (stmt : Stmt) :
    Stmt.ofBodyTree parent stmt.toTree = .ok stmt := by
  simp [Stmt.ofBodyTree, Stmt.declares_toTree, Stmt.ofTree_toTree]

/-- The parameters of a method are cut off where they were joined to the other members. -/
theorem MethodDecl.span_params (decl : MethodDecl) :
    (decl.params.map Param.toTree ++ decl.locals.map VarDecl.toTree ++
        decl.body.map Stmt.toTree).span (Tree.declares · .param) =
      (decl.params.map Param.toTree,
        decl.locals.map VarDecl.toTree ++ decl.body.map Stmt.toTree) := by
  rw [List.append_assoc]
  refine span_append (List.forall_mem_map.mpr fun _ _ => rfl) (List.forall_mem_append.mpr ⟨?_, ?_⟩)
  · exact List.forall_mem_map.mpr fun _ _ => rfl
  · exact List.forall_mem_map.mpr fun stmt _ => stmt.declares_toTree .param

theorem MethodDecl.span_locals (decl : MethodDecl) :
    (decl.locals.map VarDecl.toTree ++ decl.body.map Stmt.toTree).span (Tree.declares · .varDecl) =
      (decl.locals.map VarDecl.toTree, decl.body.map Stmt.toTree) :=
  span_append (List.forall_mem_map.mpr fun _ _ => rfl)
    (List.forall_mem_map.mpr fun stmt _ => stmt.declares_toTree .varDecl)

theorem MethodDecl.ofTree_toTree (decl : MethodDecl) :
    MethodDecl.ofTree decl.toTree = .ok decl := by
  have isPublic : decl.toTree.flag "isPublic" = decl.isPublic := by
    rw [MethodDecl.toTree]
    cases decl.isPublic <;> cases decl.isStatic <;> rfl
  have isStatic : decl.toTree.flag "isStatic" = decl.isStatic := by
    rw [MethodDecl.toTree]
    cases decl.isPublic <;> cases decl.isStatic <;> rfl
  rw [MethodDecl.ofTree, isPublic, isStatic, MethodDecl.toTree, required_first]
  simp only [bind, Except.bind, TypeName.ofTree_toTree, span_params, span_locals,
    mapM_map_eq_ok Param.ofTree_toTree, mapM_map_eq_ok VarDecl.ofTree_toTree,
    mapM_map_eq_ok (Stmt.ofBodyTree_toTree _)]
  rfl

/-- Write a member of a class. -/
def Member.toTree : Member → Tree
  | .field decl => decl.toTree
  | .method decl => decl.toTree

theorem Member.ofTree_toTree (parent : String) (member : Member) :
    Member.ofTree parent member.toTree = .ok member := by
  cases member with
  | field decl =>
    change (VarDecl.ofTree decl.toTree >>= fun decl => pure (Member.field decl)) = _
    rw [VarDecl.ofTree_toTree]
    rfl
  | method decl =>
    change (MethodDecl.ofTree decl.toTree >>= fun decl => pure (Member.method decl)) = _
    rw [MethodDecl.ofTree_toTree]
    rfl

/-- The members of a class in the order in which they are written. -/
def ClassDecl.members (decl : ClassDecl) : List Member :=
  decl.fields.map .field ++ decl.methods.map .method

theorem ClassDecl.fields_members (decl : ClassDecl) :
    decl.members.filterMap Member.field? = decl.fields := by
  simp [members, List.filterMap_append, List.filterMap_map, Function.comp_def, Member.field?]

theorem ClassDecl.methods_members (decl : ClassDecl) :
    decl.members.filterMap Member.method? = decl.methods := by
  simp [members, List.filterMap_append, List.filterMap_map, Function.comp_def, Member.method?]

theorem ClassDecl.ofTree_toTree (decl : ClassDecl) : ClassDecl.ofTree decl.toTree = .ok decl := by
  have children : decl.toTree.children = decl.members.map Member.toTree := by
    simp [ClassDecl.toTree, members, Member.toTree, Function.comp_def]
  have superClass : decl.toTree.attribute? "superClass" = decl.superClass := by
    rw [ClassDecl.toTree]
    cases decl.superClass <;> rfl
  have name : decl.toTree.required "name" = .ok decl.name := required_first ..
  rw [ClassDecl.ofTree, name, superClass, children]
  simp only [bind, Except.bind, mapM_map_eq_ok (Member.ofTree_toTree _), fields_members,
    methods_members]
  rfl

/-! ### Paths -/

namespace Text

/-- A field has no separators in it. -/
theorem separates_of_mem_fields {separates : Char → Bool} {text field : List Char}
    (member : field ∈ fields separates text) : ∀ char ∈ field, separates char = false := by
  induction text generalizing field with
  | nil =>
    obtain rfl := List.mem_singleton.mp member
    exact List.forall_mem_nil _
  | cons char rest inductionHypothesis =>
    rw [fields] at member
    split at member
    · rcases List.mem_cons.mp member with rfl | member
      · exact List.forall_mem_nil _
      · exact inductionHypothesis member
    · next solid =>
      rw [Bool.not_eq_true] at solid
      split at member
      · next none => exact absurd none (fields_ne_nil separates rest)
      · next first others same =>
        rw [same] at inductionHypothesis
        rcases List.mem_cons.mp member with rfl | member
        · exact List.forall_mem_cons.mpr ⟨solid, inductionHypothesis List.mem_cons_self⟩
        · exact inductionHypothesis (List.mem_cons_of_mem _ member)

/-- Texts that are joined by a separator are the fields again. -/
theorem fields_intercalate {separates : Char → Bool} {separator : Char} {texts : List (List Char)}
    (nonempty : texts ≠ []) (solid : ∀ text ∈ texts, ∀ char ∈ text, separates char = false)
    (separating : separates separator = true) :
    fields separates ([separator].intercalate texts) = texts := by
  induction texts with
  | nil => exact absurd rfl nonempty
  | cons first rest inductionHypothesis =>
    obtain ⟨firstSolid, restSolid⟩ := List.forall_mem_cons.mp solid
    cases rest with
    | nil => rw [List.intercalate_singleton, fields_eq_singleton firstSolid]
    | cons second others =>
      rw [List.intercalate_cons_cons, List.append_assoc, List.singleton_append,
        fields_append_cons separating, fields_eq_singleton firstSolid,
        inductionHypothesis nofun restSolid]
      rfl

theorem mem_intercalate {separator : List Char} {texts : List (List Char)} {char : Char}
    (member : char ∈ separator.intercalate texts) :
    char ∈ separator ∨ ∃ text ∈ texts, char ∈ text := by
  induction texts with
  | nil => cases member
  | cons first rest inductionHypothesis =>
    cases rest with
    | nil =>
      rw [List.intercalate_singleton] at member
      exact .inr ⟨first, List.mem_cons_self, member⟩
    | cons second others =>
      rw [List.intercalate_cons_cons, List.mem_append, List.mem_append] at member
      rcases member with (inFirst | inSeparator) | inRest
      · exact .inr ⟨first, List.mem_cons_self, inFirst⟩
      · exact .inl inSeparator
      · refine (inductionHypothesis inRest).imp_right ?_
        rintro ⟨text, isText, inText⟩
        exact ⟨text, List.mem_cons_of_mem _ isText, inText⟩

/-- What is left after trimming stands in the text. -/
theorem mem_of_mem_trim {text : List Char} {char : Char} (member : char ∈ trim text) :
    char ∈ text :=
  (List.dropWhile_suffix isBlank).subset ((List.rdropWhile_prefix isBlank _).subset member)

/-- A text that was trimmed has nothing left to trim. -/
theorem trim_trim (text : List Char) : trim (trim text) = trim text := by
  have start : (trim text).dropWhile isBlank = trim text := by
    have isPrefix : trim text <+: text.dropWhile isBlank := List.rdropWhile_prefix isBlank _
    cases trimmed : trim text with
    | nil => rfl
    | cons first rest =>
      rw [trimmed] at isPrefix
      obtain ⟨others, same⟩ := isPrefix
      have solid := List.dropWhile_eq_self_iff.mp (List.dropWhile_idempotent isBlank text)
      simp only [← same] at solid
      exact List.dropWhile_cons_of_neg (solid (Nat.zero_lt_succ _))
  rw [trim, start]
  exact List.rdropWhile_idempotent isBlank _

end Text

namespace Import

/-- What the reader takes for a segment of a path: it is not empty, it has no separators in it, and
there are no blanks around it. -/
structure IsSegment (segment : String) : Prop where
  nonempty : segment.toList ≠ []
  solid : ∀ char ∈ segment.toList, (char == ',' || char == '.') = false
  trimmed : Text.trim segment.toList = segment.toList

theorem isSegment_of_mem_segments (written : String) :
    ∀ segment ∈ Import.segments written, IsSegment segment := by
  intro segment member
  obtain ⟨text, isText, rfl⟩ := List.mem_map.mp member
  obtain ⟨isTrimmed, isNonempty⟩ := List.mem_filter.mp isText
  obtain ⟨field, isField, rfl⟩ := List.mem_map.mp isTrimmed
  have solid := Text.separates_of_mem_fields isField
  rw [Bool.not_eq_true', List.isEmpty_eq_false_iff] at isNonempty
  refine ⟨?_, ?_, ?_⟩ <;> rw [String.toList_ofList]
  · exact isNonempty
  · exact fun char member => solid char (Text.mem_of_mem_trim member)
  · exact Text.trim_trim field

theorem toList_qualified (decl : Import) :
    decl.qualified.toList = ['.'].intercalate (decl.path.map String.toList) :=
  String.toList_intercalate

/-- Texts that are not empty stay when empty ones are dropped. -/
theorem filter_nonempty {path : List String} (nonempty : ∀ segment ∈ path, segment ≠ "") :
    (path.map String.toList).filter (fun segment => !segment.isEmpty) =
      path.map String.toList := by
  refine List.filter_eq_self.mpr (List.forall_mem_map.mpr fun segment member => ?_)
  simpa using nonempty segment member

/-- No segment is empty, and no dot stands in one. -/
def Dotless (decl : Import) : Prop :=
  ∀ segment ∈ decl.path, segment ≠ "" ∧ ∀ char ∈ segment.toList, (char == '.') = false

theorem dotless_of_isSegment {decl : Import} (legible : ∀ segment ∈ decl.path, IsSegment segment) :
    decl.Dotless := by
  intro segment member
  refine ⟨fun isEmpty => (legible segment member).nonempty (String.toList_eq_nil_iff.mpr isEmpty),
    fun char inside => ?_⟩
  exact (Bool.or_eq_false_iff.mp ((legible segment member).solid char inside)).2

/-- The fields of a qualified name are the segments. -/
theorem Dotless.fields_qualified {decl : Import} (dotless : decl.Dotless)
    (nonempty : decl.path ≠ []) :
    Text.fields (· == '.') decl.qualified.toList = decl.path.map String.toList := by
  rw [toList_qualified]
  exact Text.fields_intercalate (mt List.map_eq_nil_iff.mp nonempty)
    (List.forall_mem_map.mpr fun segment member => (dotless segment member).2) rfl

/-- An import without dots in its segments is that of its qualified name. -/
theorem Dotless.eq_ofDotted {decl : Import} (dotless : decl.Dotless) :
    decl = ofDotted decl.pos decl.qualified := by
  obtain ⟨path, pos⟩ := decl
  cases path with
  | nil => rfl
  | cons first rest =>
    rw [ofDotted, dotless.fields_qualified nofun,
      filter_nonempty fun segment member => (dotless segment member).1, List.map_map]
    exact congrArg (Import.mk · pos) (List.map_id'' (fun segment => String.ofList_toList) _).symm

/-- Joining the segments and cutting them apart again changes nothing. -/
theorem ofDotted_segments (pos : Pos) (written : String) :
    ofDotted pos (String.intercalate "." (segments written)) = ⟨segments written, pos⟩ :=
  have dotless : Dotless ⟨segments written, pos⟩ :=
    dotless_of_isSegment (isSegment_of_mem_segments written)
  dotless.eq_ofDotted.symm

theorem ofTree_eq (tree : Tree) :
    Import.ofTree tree = do return ⟨segments (← tree.required "lib"), tree.pos⟩ := by
  simp only [Import.ofTree, ofDotted_segments]

theorem not_bracket_of_mem_qualified {decl : Import}
    (plain : ∀ segment ∈ decl.path, '[' ∉ segment.toList ∧ ']' ∉ segment.toList) :
    ∀ char ∈ decl.qualified.toList, (char == '[') = false ∧ (char == ']') = false := by
  intro char member
  rw [toList_qualified] at member
  rcases Text.mem_intercalate member with isDot | ⟨text, isText, inText⟩
  · obtain rfl := List.mem_singleton.mp isDot
    exact ⟨rfl, rfl⟩
  · obtain ⟨segment, isSegment, rfl⟩ := List.mem_map.mp isText
    obtain ⟨notOpening, notClosing⟩ := plain segment isSegment
    exact ⟨beq_false_of_ne (ne_of_mem_of_not_mem inText notOpening),
      beq_false_of_ne (ne_of_mem_of_not_mem inText notClosing)⟩

/-- A path of segments without brackets is read from the text it is written as. -/
theorem segments_qualified {decl : Import} (legible : ∀ segment ∈ decl.path, IsSegment segment)
    (plain : ∀ segment ∈ decl.path, '[' ∉ segment.toList ∧ ']' ∉ segment.toList) :
    Import.segments decl.qualified = decl.path := by
  have noBrackets := not_bracket_of_mem_qualified plain
  rw [Import.segments, Text.dropWhile_eq_self fun char member => (noBrackets char member).1,
    Text.dropEnd_eq_self fun char member => (noBrackets char member).2, toList_qualified]
  by_cases isEmpty : decl.path = []
  · rw [isEmpty]
    rfl
  · have cut : Text.fields (fun char => char == ',' || char == '.')
        (['.'].intercalate (decl.path.map String.toList)) = decl.path.map String.toList :=
      Text.fields_intercalate (mt List.map_eq_nil_iff.mp isEmpty)
        (List.forall_mem_map.mpr fun segment member => (legible segment member).solid) rfl
    have trimmed : (decl.path.map String.toList).map Text.trim = decl.path.map String.toList := by
      rw [List.map_map]
      exact List.map_congr_left fun segment member => (legible segment member).trimmed
    have dotless := dotless_of_isSegment legible
    rw [cut, trimmed, filter_nonempty fun segment member => (dotless segment member).1,
      List.map_map]
    exact List.map_id'' (fun segment => String.ofList_toList) _

theorem ofTree_toTree {decl : Import} (legible : Import.segments decl.qualified = decl.path) :
    Import.ofTree decl.toTree = .ok decl := by
  rw [Import.ofTree_eq, Import.toTree, required_first]
  change Except.ok (Import.mk (Import.segments decl.qualified) decl.pos) = _
  rw [legible]

end Import

/-! ### Programs -/

namespace ProgramParts

variable {parent : String} {parts : ProgramParts}

/-- Imports are read back behind those that were read before. -/
theorem foldlM_imports {imports : List Import}
    (legible : ∀ decl ∈ imports, Import.segments decl.qualified = decl.path) :
    (imports.map Import.toTree).foldlM (ProgramParts.read parent) parts =
      .ok { parts with imports := parts.imports ++ imports } := by
  induction imports generalizing parts with
  | nil => simp; rfl
  | cons decl rest inductionHypothesis =>
    obtain ⟨first, others⟩ := List.forall_mem_cons.mp legible
    have read : parts.read parent decl.toTree =
        .ok { parts with imports := parts.imports ++ [decl] } := by
      change (Import.ofTree decl.toTree >>= _) = _
      rw [Import.ofTree_toTree first]
      rfl
    rw [List.map_cons, List.foldlM_cons, read]
    change List.foldlM _ _ _ = _
    rw [inductionHypothesis others, List.append_assoc, List.singleton_append]

/-- All imports that were read so far have paths of segments. -/
def Legible (parts : ProgramParts) : Prop :=
  ∀ decl ∈ parts.imports, ∀ segment ∈ decl.path, Import.IsSegment segment

theorem Legible.read {tree : Tree} {next : ProgramParts} (legible : parts.Legible)
    (read : parts.read parent tree = .ok next) : next.Legible := by
  rw [ProgramParts.read] at read
  split at read
  · obtain ⟨decl, importRead, same⟩ := bind_eq_ok_iff.mp read
    obtain rfl := Except.ok.inj same
    rw [Import.ofTree_eq] at importRead
    obtain ⟨written, -, same⟩ := bind_eq_ok_iff.mp importRead
    obtain rfl := Except.ok.inj same
    refine List.forall_mem_append.mpr ⟨legible, List.forall_mem_singleton.mpr ?_⟩
    exact Import.isSegment_of_mem_segments written
  · obtain ⟨decl, -, same⟩ := bind_eq_ok_iff.mp read
    obtain rfl := Except.ok.inj same
    exact legible
  · cases read

theorem Legible.foldlM {children : List Tree} {final : ProgramParts} (legible : parts.Legible)
    (read : children.foldlM (ProgramParts.read parent) parts = .ok final) : final.Legible := by
  induction children generalizing parts with
  | nil =>
    obtain rfl := Except.ok.inj read
    exact legible
  | cons child rest inductionHypothesis =>
    rw [List.foldlM_cons] at read
    obtain ⟨next, childRead, restRead⟩ := bind_eq_ok_iff.mp read
    exact inductionHypothesis (legible.read childRead) restRead

end ProgramParts

namespace Program

/-- The imports of a program that was read have paths of segments. -/
theorem isSegment_of_ofTree {tree : Tree} {program : Program}
    (read : Program.ofTree tree = .ok program) :
    ∀ decl ∈ program.imports, ∀ segment ∈ decl.path, Import.IsSegment segment := by
  rw [Program.ofTree] at read
  split at read
  · obtain ⟨parts, childrenRead, same⟩ := bind_eq_ok_iff.mp read
    have start : ProgramParts.Legible {} := List.forall_mem_nil _
    have legible := start.foldlM childrenRead
    split at same
    · obtain rfl := Except.ok.inj same
      exact legible
    · cases same
  · cases read

/-- A program is read from the tree it is written as if the paths of its imports are. -/
theorem ofTree_toTree {program : Program}
    (legible : ∀ decl ∈ program.imports, Import.segments decl.qualified = decl.path) :
    Program.ofTree program.toTree = .ok program := by
  have classRead (imports : List Import) :
      ProgramParts.read program.toTree.kind ⟨imports, none⟩ program.classDecl.toTree =
        .ok ⟨imports, some program.classDecl⟩ := by
    change (ClassDecl.ofTree program.classDecl.toTree >>= _) = _
    rw [ClassDecl.ofTree_toTree]
    rfl
  have children : program.toTree.children.foldlM (ProgramParts.read program.toTree.kind) {} =
      .ok ⟨program.imports, some program.classDecl⟩ := by
    rw [Program.toTree, List.foldlM_append, ProgramParts.foldlM_imports legible]
    change (ProgramParts.read _ ⟨[] ++ program.imports, none⟩ _ >>= pure) = _
    rw [List.nil_append, bind_pure]
    exact classRead program.imports
  have isProgram : program.toTree.declares .program = true := rfl
  rw [Program.ofTree, if_pos isProgram, children]
  rfl

/-- Whatever tree a program was read from, it is also read from the tree it is written as, unless
there are brackets in the paths of its imports. -/
theorem ofTree_toTree_of_ofTree {tree : Tree} {program : Program}
    (read : Program.ofTree tree = .ok program)
    (plain : ∀ decl ∈ program.imports, ∀ segment ∈ decl.path,
      '[' ∉ segment.toList ∧ ']' ∉ segment.toList) :
    Program.ofTree program.toTree = .ok program :=
  ofTree_toTree fun decl member =>
    Import.segments_qualified (isSegment_of_ofTree read decl member) (plain decl member)

end Program

/-- A tree that is far from canonical: the class stands between two imports, a method in front of a
field, an import is written as a list, flags are written although they are not set, a literal has a
sign, and nobody looks at the origin. -/
def Tree.sprawling : Tree where
  kind := "Program"
  attributes := [("origin", "shell")]
  children :=
    [⟨"ImportDecl", [("lib", "[io, Printer]")], [], ⟨1, 1⟩⟩,
      ⟨"ClassDecl", [("superClass", "Base"), ("name", "A")],
        [⟨"MethodDecl", [("name", "f"), ("isStatic", "false"), ("isPublic", "true")],
            [⟨"Type", [("name", "int"), ("isArray", "false")], [], ⟨3, 3⟩⟩,
              ⟨"Param", [("name", "xs"), ("isVarArg", "true")],
                [⟨"Type", [("name", "int")], [], ⟨3, 9⟩⟩], ⟨3, 8⟩⟩,
              ⟨"IfStmt", [],
                [⟨"BinaryExpr", [("op", "<")],
                    [⟨"LengthExpr", [], [⟨"VarRefExpr", [("name", "xs")], [], ⟨4, 7⟩⟩], ⟨4, 7⟩⟩,
                      ⟨"Literal", [("name", "+07")], [], ⟨4, 19⟩⟩], ⟨4, 7⟩⟩,
                  ⟨"ExprStmt", [],
                    [⟨"MethodCallExpr", [("hasReceiver", "true"), ("name", "print")],
                      [⟨"VarRefExpr", [("name", "Printer")], [], ⟨5, 5⟩⟩,
                        ⟨"ArrayAccessExpr", [], [⟨"VarRefExpr", [("name", "xs")], [], ⟨5, 19⟩⟩,
                          ⟨"Literal", [("name", "-0")], [], ⟨5, 22⟩⟩], ⟨5, 19⟩⟩], ⟨5, 5⟩⟩],
                    ⟨5, 5⟩⟩], ⟨4, 3⟩⟩,
              ⟨"ReturnStmt", [], [⟨"VarRefExpr", [("name", "n")], [], ⟨6, 10⟩⟩], ⟨6, 3⟩⟩], ⟨3, 3⟩⟩,
          ⟨"VarDecl", [("name", "n")], [⟨"Type", [("name", "int")], [], ⟨2, 3⟩⟩], ⟨2, 3⟩⟩],
        ⟨2, 1⟩⟩,
      ⟨"ImportDecl", [("lib", "java.util..List")], [], ⟨9, 1⟩⟩]
  pos := ⟨1, 1⟩

/-- The program that the tree stands for. -/
def Program.sprawling : Program where
  imports := [⟨["io", "Printer"], ⟨1, 1⟩⟩, ⟨["java", "util", "List"], ⟨9, 1⟩⟩]
  classDecl :=
    { name := "A"
      superClass := some "Base"
      fields := [⟨⟨"int", false, ⟨2, 3⟩⟩, "n", ⟨2, 3⟩⟩]
      methods :=
        [{ name := "f"
           isPublic := true
           isStatic := false
           returnType := ⟨"int", false, ⟨3, 3⟩⟩
           params := [⟨⟨"int", false, ⟨3, 9⟩⟩, "xs", true, ⟨3, 8⟩⟩]
           locals := []
           body :=
             [.ifElse ⟨4, 3⟩
                 (.binary ⟨4, 7⟩ .less (.length ⟨4, 7⟩ (.name ⟨4, 7⟩ "xs"))
                   (.literal ⟨4, 19⟩ (.int 7)))
                 (.eval ⟨5, 5⟩ (.call ⟨5, 5⟩ (some (.name ⟨5, 5⟩ "Printer")) "print"
                   [.index ⟨5, 19⟩ (.name ⟨5, 19⟩ "xs") (.literal ⟨5, 22⟩ (.int 0))]))
                 none,
               .ret ⟨6, 3⟩ (some (.name ⟨6, 10⟩ "n"))]
           pos := ⟨3, 3⟩ }]
      pos := ⟨2, 1⟩ }
  pos := ⟨1, 1⟩

theorem ofTree_toTree_of_ofTree_sprawling :
    Program.ofTree .sprawling = .ok .sprawling ∧
      Program.ofTree (Program.toTree .sprawling) = .ok .sprawling := by
  have read : Program.ofTree .sprawling = .ok .sprawling := by rfl
  exact ⟨read, Program.ofTree_toTree_of_ofTree read (by decide)⟩

end JavaMinus
