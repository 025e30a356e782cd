/-
Reading a program from a tree. The reader goes through the tree in source order
and stops at the first node that is not as it should be: at each node it asks
for the attributes, then for the number of children, and only then reads the
children. A node of no known kind, or of a kind that has no place where it
stands, is an error at that node.
-/

import JavaMinus.Syntax.Program
import JavaMinus.Text.Blank
import JavaMinus.Text.Decimal
import JavaMinus.Tree.Basic
import JavaMinus.Tree.Kind

namespace JavaMinus

/-! ### Leaves -/

/-- The literal that is written this way. -/
def Literal.ofText? (text : String) : Option Literal :=
  if text = "true" then some (.bool true)
  else if text = "false" then some (.bool false)
  else (Text.int32? text).map .int

/-- Read the value of a literal node. -/
def Literal.ofTree (tree : Tree) : Except TreeError Literal := do
  let text ← tree.required "name"
  match Literal.ofText? text with
  | some value => return value
  | none => throw (.invalidLiteral tree.pos text)

/-- Read the operator of a binary node. -/
def BinaryOp.ofTree (tree : Tree) : Except TreeError BinaryOp := do
  let symbol ← tree.required "op"
  match BinaryOp.ofSymbol? symbol with
  | some op => return op
  | none => throw (.invalidOperator tree.pos symbol)

/-! ### Expressions and statements -/

mutual

/-- Read an expression. -/
def Expr.ofTree (tree : Tree) : Except TreeError Expr :=
  match tree with
  | ⟨kind, _, children, pos⟩ =>
    match ExprKind.ofName? kind with
    | none => .error (.unknownKind pos kind)
    | some .name => do return .name pos (← tree.required "name")
    | some .literal => do return .literal pos (← Literal.ofTree tree)
    | some .this => .ok (.this pos)
    | some .binary => do
      let op ← BinaryOp.ofTree tree
      match children with
      | [left, right] => return .binary pos op (← Expr.ofTree left) (← Expr.ofTree right)
      | _ => throw (tree.miscounted .two)
    | some .not =>
      match children with
      | [operand] => do return .not pos (← Expr.ofTree operand)
      | _ => .error (tree.miscounted .one)
    | some .call => do
      let method ← tree.required "name"
      if tree.flag "hasReceiver" then
        match children with
        | [] => throw (tree.miscounted .atLeastOne)
        | receiver :: args =>
          return .call pos (some (← Expr.ofTree receiver)) method (← Expr.ofTrees args)
      else return .call pos none method (← Expr.ofTrees children)
    | some .newObject => do return .newObject pos (← tree.required "name")
    | some .newArray =>
      match children with
      | [size] => do return .newArray pos (← Expr.ofTree size)
      | _ => .error (tree.miscounted .one)
    | some .index =>
      match children with
      | [array, position] => do return .index pos (← Expr.ofTree array) (← Expr.ofTree position)
      | _ => .error (tree.miscounted .two)
    | some .length =>
      match children with
      | [array] => do return .length pos (← Expr.ofTree array)
      | _ => .error (tree.miscounted .one)
    | some .arrayLiteral => do return .arrayLiteral pos (← Expr.ofTrees children)
    | some .paren =>
      match children with
      | [inner] => do return .paren pos (← Expr.ofTree inner)
      | _ => .error (tree.miscounted .one)
termination_by structural tree

/-- Read expressions one after the other. -/
def Expr.ofTrees (trees : List Tree) : Except TreeError (List Expr) :=
  match trees with
  | [] => .ok []
  | tree :: rest => do return (← Expr.ofTree tree) :: (← Expr.ofTrees rest)
termination_by structural trees

end

mutual

/-- Read a statement. -/
def Stmt.ofTree (tree : Tree) : Except TreeError Stmt :=
  match tree with
  | ⟨kind, _, children, pos⟩ =>
    match StmtKind.ofName? kind with
    | none => .error (.unknownKind pos kind)
    | some .block => do return .block pos (← Stmt.ofTrees children)
    | some .ifElse =>
      match children with
      | [condition, thenBranch] => do
        return .ifElse pos (← Expr.ofTree condition) (← Stmt.ofTree thenBranch) none
      | [condition, thenBranch, elseBranch] => do
        return .ifElse pos (← Expr.ofTree condition) (← Stmt.ofTree thenBranch)
          (some (← Stmt.ofTree elseBranch))
      | _ => .error (tree.miscounted .twoOrThree)
    | some .whileLoop =>
      match children with
      | [condition, body] => do
        return .whileLoop pos (← Expr.ofTree condition) (← Stmt.ofTree body)
      | _ => .error (tree.miscounted .two)
    | some .eval =>
      match children with
      | [expr] => do return .eval pos (← Expr.ofTree expr)
      | _ => .error (tree.miscounted .one)
    | some .assign =>
      match children with
      | [target, value] => do return .assign pos (← Expr.ofTree target) (← Expr.ofTree value)
      | _ => .error (tree.miscounted .two)
    | some .ret =>
      match children with
      | [] => .ok (.ret pos none)
      | [value] => do return .ret pos (some (← Expr.ofTree value))
      | _ => .error (tree.miscounted .atMostOne)
termination_by structural tree

/-- Read statements one after the other. -/
def Stmt.ofTrees (trees : List Tree) : Except TreeError (List Stmt) :=
  match trees with
  | [] => .ok []
  | tree :: rest => do return (← Stmt.ofTree tree) :: (← Stmt.ofTrees rest)
termination_by structural trees

end

/-! ### Declarations -/

/-- Read a type as it is written in a declaration. -/
def TypeName.ofTree (tree : Tree) : Except TreeError TypeName := do
  if DeclKind.ofName? tree.kind = some .type then
    return ⟨← tree.required "name", tree.flag "isArray", tree.pos⟩
  else throw (tree.misplaced "declaration")

/-- Read the type of a declaration, which is its only child. -/
def TypeName.ofDeclaration (tree : Tree) : Except TreeError TypeName :=
  match tree.children with
  | [child] => TypeName.ofTree child
  | _ => .error (tree.miscounted .one)

/-- Read the declaration of a field or a local. -/
def VarDecl.ofTree (tree : Tree) : Except TreeError VarDecl := do
  let name ← tree.required "name"
  return ⟨← TypeName.ofDeclaration tree, name, tree.pos⟩

/-- Read the declaration of a parameter. -/
def Param.ofTree (tree : Tree) : Except TreeError Param := do
  let name ← tree.required "name"
  return ⟨← TypeName.ofDeclaration tree, name, tree.flag "isVarArg", tree.pos⟩

/-- Whether a node is of a declaring kind. -/
def Tree.declares (tree : Tree) (kind : DeclKind) : Bool :=
  DeclKind.ofName? tree.kind == some kind

/-- Read a statement of a method body, where no declaration may stand any more. -/
def Stmt.ofBodyTree (parent : String) (tree : Tree) : Except TreeError Stmt :=
  if tree.declares .param || tree.declares .varDecl || tree.declares .type then
    .error (tree.misplaced parent)
  else Stmt.ofTree tree

/-- Read a method: its return type, then parameters, then locals, then statements. -/
def MethodDecl.ofTree (tree : Tree) : Except TreeError MethodDecl := do
  let name ← tree.required "name"
  match tree.children with
  | [] => throw (tree.miscounted .atLeastOne)
  | returned :: members =>
    let returnType ← TypeName.ofTree returned
    let (params, afterParams) := members.span (Tree.declares · .param)
    let (locals, body) := afterParams.span (Tree.declares · .varDecl)
    return {
      name
      isPublic := tree.flag "isPublic"
      isStatic := tree.flag "isStatic"
      returnType
      params := ← params.mapM Param.ofTree
      locals := ← locals.mapM VarDecl.ofTree
      body := ← body.mapM (Stmt.ofBodyTree tree.kind)
      pos := tree.pos }

/-- A member of a class. -/
inductive Member
  | field (decl : VarDecl)
  | method (decl : MethodDecl)

/-- Read a member of a class. -/
def Member.ofTree (parent : String) (tree : Tree) : Except TreeError Member :=
  match DeclKind.ofName? tree.kind with
  | some .varDecl => do return .field (← VarDecl.ofTree tree)
  | some .methodDecl => do return .method (← MethodDecl.ofTree tree)
  | _ => .error (tree.misplaced parent)

/-- The field that a member declares. -/
def Member.field? : Member → Option VarDecl
  | .field decl => some decl
  | .method _ => none

/-- The method that a member declares. -/
def Member.method? : Member → Option MethodDecl
  | .field _ => none
  | .method decl => some decl

/-- Read a class. Fields and methods may be mixed; each keep their order. -/
def ClassDecl.ofTree (tree : Tree) : Except TreeError ClassDecl := do
  let name ← tree.required "name"
  let members ← tree.children.mapM (Member.ofTree tree.kind)
  return {
    name
    superClass := tree.attribute? "superClass"
    fields := members.filterMap Member.field?
    methods := members.filterMap Member.method?
    pos := tree.pos }

/-- The segments of an imported path. It is written with dots, or as a list in brackets with
commas; blanks around a segment and empty segments do not count. -/
def Import.segments (written : String) : List String :=
  let bare := Text.dropEnd (· == ']') (written.toList.dropWhile (· == '['))
  let segments := (Text.fields (fun char => char == ',' || char == '.') bare).map Text.trim
  (segments.filter fun segment => !segment.isEmpty).map String.ofList

/-- Read an import. The segments are joined by dots, and the import is that of the dotted path. -/
def Import.ofTree (tree : Tree) : Except TreeError Import := do
  let segments := Import.segments (← tree.required "lib")
  return .ofDotted tree.pos (String.intercalate "." segments)

/-- What was read of a program so far: the imports, and the class once it was met. -/
structure ProgramParts where
  imports : List Import := []
  classDecl : Option ClassDecl := none

/-- Read one more child of a program. A second class has no place in it. -/
def ProgramParts.read (parent : String) (parts : ProgramParts) (tree : Tree) :
    Except TreeError ProgramParts :=
  match DeclKind.ofName? tree.kind, parts.classDecl with
  | some .importDecl, _ => do
    return { parts with imports := parts.imports ++ [← Import.ofTree tree] }
  | some .classDecl, none => do
    return { parts with classDecl := some (← ClassDecl.ofTree tree) }
  | _, _ => .error (tree.misplaced parent)

/-- Read a program. -/
def Program.ofTree (tree : Tree) : Except TreeError Program := do
  if tree.declares .program then
    let parts ← tree.children.foldlM (ProgramParts.read tree.kind) {}
    match parts.classDecl with
    | some classDecl => return ⟨parts.imports, classDecl, tree.pos⟩
    | none => throw (tree.miscounted .oneClass)
  else throw (tree.misplaced "<root>")

end JavaMinus
