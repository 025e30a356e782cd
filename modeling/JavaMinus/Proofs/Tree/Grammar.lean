/-
This file gives the grammar of the trees that are programs. It says for each kind
of node which attributes it must have, how many children, and what the children
must be in turn. It says nothing about attributes and children that a kind of
node does not use: a node may carry them, and nobody looks at them.

At the leaves stand literals. Their texts are the two truth values and the
decimal numerals that fit a word, with an optional sign in front.
-/

import Mathlib.Algebra.Ring.Nat
import JavaMinus.Tree.Reader

namespace JavaMinus

/-! ### Numerals and literals -/

namespace Text

/-- One or more digits. -/
def IsDigits (text : List Char) : Prop := text ≠ [] ∧ ∀ char ∈ text, char.isDigit = true

/-- Digits behind an optional sign, whose value fits a 32-bit word. -/
inductive IsInt32 : List Char → Prop
  | unsigned {digits : List Char} (isDigits : IsDigits digits)
      (fits : Nat.ofDigitChars 10 digits 0 < 2 ^ 31) : IsInt32 digits
  | plus {digits : List Char} (isDigits : IsDigits digits)
      (fits : Nat.ofDigitChars 10 digits 0 < 2 ^ 31) : IsInt32 ('+' :: digits)
  | minus {digits : List Char} (isDigits : IsDigits digits)
      (fits : Nat.ofDigitChars 10 digits 0 ≤ 2 ^ 31) : IsInt32 ('-' :: digits)

theorem digit?_eq_some_iff {char : Char} {value : Nat} :
    digit? char = some value ↔ char.isDigit = true ∧ value = char.toNat - '0'.toNat := by
  have isDigit : char.isDigit = true ↔ '0' ≤ char ∧ char ≤ '9' := by
    simp [Char.isDigit, Char.le_def]
  rw [digit?, isDigit]
  split
  · next inside => rw [Option.some_inj, and_iff_right inside, eq_comm]
  · next outside => simp only [outside, reduceCtorEq, false_and]

theorem readDigits_eq_some_iff {start value : Nat} {text : List Char} :
    readDigits start text = some value ↔
      (∀ char ∈ text, char.isDigit = true) ∧ value = Nat.ofDigitChars 10 text start := by
  induction text generalizing start with
  | nil =>
    rw [readDigits, Option.some_inj, Nat.ofDigitChars_nil, eq_comm]
    exact (and_iff_right (List.forall_mem_nil _)).symm
  | cons char rest inductionHypothesis =>
    simp only [readDigits, Option.bind_eq_some_iff, digit?_eq_some_iff, inductionHypothesis,
      List.forall_mem_cons, Nat.ofDigitChars_cons]
    constructor
    · rintro ⟨_, ⟨first, rfl⟩, others, same⟩
      exact ⟨⟨first, others⟩, same⟩
    · rintro ⟨⟨first, others⟩, same⟩
      exact ⟨_, ⟨first, rfl⟩, others, same⟩

theorem nat?_eq_some_iff {text : List Char} {value : Nat} :
    nat? text = some value ↔ IsDigits text ∧ value = Nat.ofDigitChars 10 text 0 := by
  cases text with
  | nil => simp [nat?, IsDigits]
  | cons char rest =>
    rw [nat?, readDigits_eq_some_iff]
    · simp [IsDigits]
    · exact nofun

/-- The value of a numeral as an integer. -/
theorem cast_nat?_eq_some_iff {text : List Char} {value : Int} :
    (do let number ← nat? text; pure (number : Int)) = some value ↔
      IsDigits text ∧ value = Nat.ofDigitChars 10 text 0 := by
  simp only [Option.bind_eq_bind, Option.bind_eq_some_iff, nat?_eq_some_iff, Option.pure_def,
    Option.some_inj]
  constructor
  · rintro ⟨_, ⟨isDigits, rfl⟩, rfl⟩
    exact ⟨isDigits, rfl⟩
  · rintro ⟨isDigits, rfl⟩
    exact ⟨_, ⟨isDigits, rfl⟩, rfl⟩

/-- A numeral is digits behind an optional sign. -/
theorem int?_eq_some_iff {text : List Char} {value : Int} :
    int? text = some value ↔ ∃ digits, IsDigits digits ∧
      ((text = digits ∨ text = '+' :: digits) ∧ value = Nat.ofDigitChars 10 digits 0 ∨
        text = '-' :: digits ∧ value = -Nat.ofDigitChars 10 digits 0) := by
  constructor
  · intro read
    rw [int?.eq_def] at read
    split at read
    · next digits =>
      obtain ⟨number, found, rfl⟩ := Option.map_eq_some_iff.mp read
      obtain ⟨isDigits, rfl⟩ := cast_nat?_eq_some_iff.mp found
      exact ⟨digits, isDigits, .inr ⟨rfl, rfl⟩⟩
    · next digits =>
      obtain ⟨number, found, rfl⟩ := Option.map_eq_some_iff.mp read
      obtain ⟨isDigits, rfl⟩ := cast_nat?_eq_some_iff.mp found
      exact ⟨digits, isDigits, .inl ⟨.inr rfl, rfl⟩⟩
    · obtain ⟨number, found, rfl⟩ := Option.map_eq_some_iff.mp read
      obtain ⟨isDigits, rfl⟩ := cast_nat?_eq_some_iff.mp found
      exact ⟨text, isDigits, .inl ⟨.inl rfl, rfl⟩⟩
  · rintro ⟨digits, isDigits, ⟨rfl | rfl, rfl⟩ | ⟨rfl, rfl⟩⟩
    · -- A sign is no digit, so the text is read as digits throughout.
      rw [int?.eq_def]
      split
      · exact absurd (isDigits.2 '-' List.mem_cons_self) (by decide)
      · exact absurd (isDigits.2 '+' List.mem_cons_self) (by decide)
      · rw [cast_nat?_eq_some_iff.mpr ⟨isDigits, rfl⟩]
        rfl
    · rw [int?, cast_nat?_eq_some_iff.mpr ⟨isDigits, rfl⟩]
      rfl
    · rw [int?, cast_nat?_eq_some_iff.mpr ⟨isDigits, rfl⟩]
      rfl

/-- The texts that stand for a word are the numerals that fit it. -/
theorem int32?_isSome_iff (text : String) :
    (int32? text).isSome ↔ IsInt32 text.toList := by
  have lowest : Int32.minValue.toInt = -2 ^ 31 := rfl
  have highest : Int32.maxValue.toInt = 2 ^ 31 - 1 := rfl
  have reads : (int32? text).isSome ↔
      ∃ value, int? text.toList = some value ∧ -2 ^ 31 ≤ value ∧ value ≤ 2 ^ 31 - 1 := by
    rw [int32?, lowest, highest]
    cases int? text.toList <;> simp
  simp only [reads, int?_eq_some_iff]
  generalize text.toList = characters
  constructor
  · rintro ⟨value, ⟨digits, isDigits, ⟨rfl | rfl, rfl⟩ | ⟨rfl, rfl⟩⟩, low, high⟩
    · exact .unsigned isDigits (by omega)
    · exact .plus isDigits (by omega)
    · exact .minus isDigits (by omega)
  · intro isInt
    cases isInt with
    | unsigned isDigits fits =>
      exact ⟨_, ⟨_, isDigits, .inl ⟨.inl rfl, rfl⟩⟩, by omega, by omega⟩
    | plus isDigits fits =>
      exact ⟨_, ⟨_, isDigits, .inl ⟨.inr rfl, rfl⟩⟩, by omega, by omega⟩
    | minus isDigits fits => exact ⟨_, ⟨_, isDigits, .inr ⟨rfl, rfl⟩⟩, by omega, by omega⟩

end Text

/-- The texts of literals: the two truth values and the numerals that fit a word. -/
def Literal.IsText (text : String) : Prop :=
  text = "true" ∨ text = "false" ∨ Text.IsInt32 text.toList

theorem Literal.ofText?_isSome_iff (text : String) :
    (ofText? text).isSome ↔ IsText text := by
  rw [ofText?, IsText, ← Text.int32?_isSome_iff]
  split
  · next isTrue => simp [isTrue]
  · next notTrue =>
    split
    · next isFalse => simp [isFalse]
    · next notFalse => simp [notTrue, notFalse]

/-! ### The grammar -/

namespace Tree

/-- The node has the attribute, whatever its value. -/
def Has (tree : Tree) (key : String) : Prop := ∃ value, tree.attribute? key = some value

/-- The trees that are expressions. -/
inductive IsExpr : Tree → Prop
  | this {tree : Tree} (kind : tree.kind = "ThisExpr") : IsExpr tree
  | named {tree : Tree} (kind : tree.kind ∈ ["VarRefExpr", "NewObjectExpr"])
      (name : tree.Has "name") : IsExpr tree
  | literal {tree : Tree} {text : String} (kind : tree.kind = "Literal")
      (name : tree.attribute? "name" = some text) (isText : Literal.IsText text) : IsExpr tree
  | binary {tree left right : Tree} {symbol : String} (kind : tree.kind = "BinaryExpr")
      (op : tree.attribute? "op" = some symbol)
      (isOperator : symbol ∈ ["+", "-", "*", "/", "<", "&&", "||"])
      (children : tree.children = [left, right]) (leftIs : IsExpr left) (rightIs : IsExpr right) :
      IsExpr tree
  | unary {tree operand : Tree}
      (kind : tree.kind ∈ ["NotExpr", "NewArrayExpr", "LengthExpr", "ParenExpr"])
      (children : tree.children = [operand]) (operandIs : IsExpr operand) : IsExpr tree
  | index {tree array position : Tree} (kind : tree.kind = "ArrayAccessExpr")
      (children : tree.children = [array, position]) (arrayIs : IsExpr array)
      (positionIs : IsExpr position) : IsExpr tree
  | arrayLiteral {tree : Tree} (kind : tree.kind = "ArrayLiteralExpr")
      (elementsAre : ∀ element ∈ tree.children, IsExpr element) : IsExpr tree
  | call {tree : Tree} (kind : tree.kind = "MethodCallExpr") (name : tree.Has "name")
      (receiver : tree.attribute? "hasReceiver" = some "true" → tree.children ≠ [])
      (operandsAre : ∀ operand ∈ tree.children, IsExpr operand) : IsExpr tree

/-- The trees that are statements. -/
inductive IsStmt : Tree → Prop
  | block {tree : Tree} (kind : tree.kind = "BlockStmt")
      (bodyIs : ∀ stmt ∈ tree.children, IsStmt stmt) : IsStmt tree
  | ifThen {tree condition thenBranch : Tree} (kind : tree.kind = "IfStmt")
      (children : tree.children = [condition, thenBranch]) (conditionIs : IsExpr condition)
      (thenIs : IsStmt thenBranch) : IsStmt tree
  | ifElse {tree condition thenBranch elseBranch : Tree} (kind : tree.kind = "IfStmt")
      (children : tree.children = [condition, thenBranch, elseBranch])
      (conditionIs : IsExpr condition) (thenIs : IsStmt thenBranch)
      (elseIs : IsStmt elseBranch) : IsStmt tree
  | whileLoop {tree condition body : Tree} (kind : tree.kind = "WhileStmt")
      (children : tree.children = [condition, body]) (conditionIs : IsExpr condition)
      (bodyIs : IsStmt body) : IsStmt tree
  | eval {tree expr : Tree} (kind : tree.kind = "ExprStmt") (children : tree.children = [expr])
      (exprIs : IsExpr expr) : IsStmt tree
  | assign {tree target value : Tree} (kind : tree.kind = "AssignStmt")
      (children : tree.children = [target, value]) (targetIs : IsExpr target)
      (valueIs : IsExpr value) : IsStmt tree
  | ret {tree : Tree} (kind : tree.kind = "ReturnStmt") (children : tree.children.length ≤ 1)
      (valueIs : ∀ value ∈ tree.children, IsExpr value) : IsStmt tree

/-- The trees that are types. -/
structure IsType (tree : Tree) : Prop where
  kind : tree.kind = "Type"
  name : tree.Has "name"

/-- The trees that declare a variable: parameters, and fields and locals. -/
structure IsVariable (nodeKind : String) (tree : Tree) : Prop where
  kind : tree.kind = nodeKind
  name : tree.Has "name"
  type : ∃ typeTree, tree.children = [typeTree] ∧ typeTree.IsType

/-- The trees that declare a method. -/
structure IsMethod (tree : Tree) : Prop where
  kind : tree.kind = "MethodDecl"
  name : tree.Has "name"
  members : ∃ returned params locals body,
    tree.children = returned :: (params ++ (locals ++ body)) ∧ IsType returned ∧
      (∀ param ∈ params, IsVariable "Param" param) ∧
      (∀ declared ∈ locals, IsVariable "VarDecl" declared) ∧ ∀ stmt ∈ body, IsStmt stmt

/-- The trees that declare a class. -/
structure IsClass (tree : Tree) : Prop where
  kind : tree.kind = "ClassDecl"
  name : tree.Has "name"
  members : ∀ member ∈ tree.children, IsVariable "VarDecl" member ∨ IsMethod member

/-- The trees that import a class. -/
structure IsImport (tree : Tree) : Prop where
  kind : tree.kind = "ImportDecl"
  lib : tree.Has "lib"

/-- One class, with imports on both sides of it. -/
def OneClass (children : List Tree) : Prop :=
  ∃ first classTree second, children = first ++ classTree :: second ∧ IsClass classTree ∧
    ∀ member ∈ first ++ second, IsImport member

/-- The trees that are programs. -/
structure IsProgram (tree : Tree) : Prop where
  kind : tree.kind = "Program"
  members : OneClass tree.children

end Tree

end JavaMinus
