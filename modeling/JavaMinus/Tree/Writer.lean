/-
Writing a program as a tree. This is the canonical form of what the reader
accepts: paths are joined by dots, literals are decimal, and a yes-or-no
attribute is written only when it is set. Every position goes back to the node
it came from.
-/

import JavaMinus.Tree.Reader

namespace JavaMinus

/-- A yes-or-no attribute, written only when it is set. -/
def Tree.flagAttribute (key : String) (isSet : Bool) : List (String × String) :=
  if isSet then [(key, "true")] else []

mutual

/-- Write an expression. -/
def Expr.toTree (expr : Expr) : Tree :=
  match expr with
  | .literal pos value => ⟨ExprKind.literal.nodeName, [("name", value.text)], [], pos⟩
  | .name pos text => ⟨ExprKind.name.nodeName, [("name", text)], [], pos⟩
  | .this pos => ⟨ExprKind.this.nodeName, [], [], pos⟩
  | .binary pos op left right =>
    ⟨ExprKind.binary.nodeName, [("op", op.symbol)], [left.toTree, right.toTree], pos⟩
  | .not pos operand => ⟨ExprKind.not.nodeName, [], [operand.toTree], pos⟩
  | .call pos none method args =>
    ⟨ExprKind.call.nodeName, [("name", method)], Expr.toTrees args, pos⟩
  | .call pos (some receiver) method args =>
    ⟨ExprKind.call.nodeName, [("name", method), ("hasReceiver", "true")],
      receiver.toTree :: Expr.toTrees args, pos⟩
  | .newObject pos className => ⟨ExprKind.newObject.nodeName, [("name", className)], [], pos⟩
  | .newArray pos size => ⟨ExprKind.newArray.nodeName, [], [size.toTree], pos⟩
  | .index pos array position =>
    ⟨ExprKind.index.nodeName, [], [array.toTree, position.toTree], pos⟩
  | .length pos array => ⟨ExprKind.length.nodeName, [], [array.toTree], pos⟩
  | .arrayLiteral pos elements => ⟨ExprKind.arrayLiteral.nodeName, [], Expr.toTrees elements, pos⟩
  | .paren pos inner => ⟨ExprKind.paren.nodeName, [], [inner.toTree], pos⟩
termination_by structural expr

/-- Write expressions one after the other. -/
def Expr.toTrees (exprs : List Expr) : List Tree :=
  match exprs with
  | [] => []
  | expr :: rest => expr.toTree :: Expr.toTrees rest
termination_by structural exprs

end

mutual

/-- Write a statement. -/
def Stmt.toTree (stmt : Stmt) : Tree :=
  match stmt with
  | .block pos body => ⟨StmtKind.block.nodeName, [], Stmt.toTrees body, pos⟩
  | .ifElse pos condition thenBranch none =>
    ⟨StmtKind.ifElse.nodeName, [], [condition.toTree, thenBranch.toTree], pos⟩
  | .ifElse pos condition thenBranch (some elseBranch) =>
    ⟨StmtKind.ifElse.nodeName, [],
      [condition.toTree, thenBranch.toTree, elseBranch.toTree], pos⟩
  | .whileLoop pos condition body =>
    ⟨StmtKind.whileLoop.nodeName, [], [condition.toTree, body.toTree], pos⟩
  | .eval pos expr => ⟨StmtKind.eval.nodeName, [], [expr.toTree], pos⟩
  | .assign pos target value =>
    ⟨StmtKind.assign.nodeName, [], [target.toTree, value.toTree], pos⟩
  | .ret pos value => ⟨StmtKind.ret.nodeName, [], value.toList.map Expr.toTree, pos⟩
termination_by structural stmt

/-- Write statements one after the other. -/
def Stmt.toTrees (stmts : List Stmt) : List Tree :=
  match stmts with
  | [] => []
  | stmt :: rest => stmt.toTree :: Stmt.toTrees rest
termination_by structural stmts

end

/-- Write a type. -/
def TypeName.toTree (written : TypeName) : Tree :=
  ⟨DeclKind.type.nodeName,
    ("name", written.name) :: Tree.flagAttribute "isArray" written.isArray, [], written.pos⟩

/-- Write the declaration of a field or a local. -/
def VarDecl.toTree (decl : VarDecl) : Tree :=
  ⟨DeclKind.varDecl.nodeName, [("name", decl.name)], [decl.typeName.toTree], decl.pos⟩

/-- Write the declaration of a parameter. -/
def Param.toTree (param : Param) : Tree :=
  ⟨DeclKind.param.nodeName,
    ("name", param.name) :: Tree.flagAttribute "isVarArg" param.isVarargs,
    [param.typeName.toTree], param.pos⟩

/-- Write a method. -/
def MethodDecl.toTree (decl : MethodDecl) : Tree :=
  ⟨DeclKind.methodDecl.nodeName,
    ("name", decl.name) :: (Tree.flagAttribute "isPublic" decl.isPublic
      ++ Tree.flagAttribute "isStatic" decl.isStatic),
    decl.returnType.toTree :: (decl.params.map Param.toTree ++ decl.locals.map VarDecl.toTree
      ++ decl.body.map Stmt.toTree),
    decl.pos⟩

/-- Write a class, its fields before its methods. -/
def ClassDecl.toTree (decl : ClassDecl) : Tree :=
  ⟨DeclKind.classDecl.nodeName,
    ("name", decl.name) :: (decl.superClass.toList.map fun parent => ("superClass", parent)),
    decl.fields.map VarDecl.toTree ++ decl.methods.map MethodDecl.toTree, decl.pos⟩

/-- Write an import. -/
def Import.toTree (decl : Import) : Tree :=
  ⟨DeclKind.importDecl.nodeName, [("lib", decl.qualified)], [], decl.pos⟩

/-- Write a program, its imports before its class. -/
def Program.toTree (program : Program) : Tree :=
  ⟨DeclKind.program.nodeName, [],
    program.imports.map Import.toTree ++ [program.classDecl.toTree], program.pos⟩

end JavaMinus
