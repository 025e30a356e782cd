/-
The names of node kinds. Declarations, statements and expressions are three
families of kinds, and no name belongs to two of them. Each family is an
enumeration with the name of every kind; a name is read back by looking for it
among the names of the family.
-/

namespace JavaMinus

section

variable {Kind : Type} {nodeName : Kind → String} {kinds : List Kind}

/-- The first of some kinds that has a name. -/
def kindOf? (nodeName : Kind → String) (kinds : List Kind) (name : String) : Option Kind :=
  kinds.find? fun kind => nodeName kind == name

/-- If no two of the kinds share a name, each is found by its own. -/
theorem kindOf?_nodeName (different : (kinds.map nodeName).Nodup) {kind : Kind}
    (listed : kind ∈ kinds) : kindOf? nodeName kinds (nodeName kind) = some kind := by
  induction kinds with
  | nil => cases listed
  | cons first rest inductionHypothesis =>
    rw [List.map_cons, List.nodup_cons] at different
    rw [kindOf?, List.find?_cons]
    rcases List.mem_cons.mp listed with rfl | inRest
    · rw [beq_self_eq_true]
    · have other : nodeName first ≠ nodeName kind := fun same =>
        different.1 (same ▸ List.mem_map_of_mem inRest)
      rw [beq_false_of_ne other]
      exact inductionHypothesis different.2 inRest

theorem kindOf?_eq_some_iff (different : (kinds.map nodeName).Nodup)
    (listed : ∀ kind, kind ∈ kinds) {name : String} {kind : Kind} :
    kindOf? nodeName kinds name = some kind ↔ name = nodeName kind := by
  constructor
  · intro found
    have named := List.find?_some (p := fun kind => nodeName kind == name) found
    exact (beq_iff_eq.mp named).symm
  · rintro rfl
    exact kindOf?_nodeName different (listed kind)

end

/-- Kinds of nodes that declare something. -/
inductive DeclKind
  | program
  | importDecl
  | classDecl
  | varDecl
  | methodDecl
  | param
  | type
deriving DecidableEq, Repr, Inhabited

namespace DeclKind

def nodeName : DeclKind → String
  | .program => "Program"
  | .importDecl => "ImportDecl"
  | .classDecl => "ClassDecl"
  | .varDecl => "VarDecl"
  | .methodDecl => "MethodDecl"
  | .param => "Param"
  | .type => "Type"

def all : List DeclKind :=
  [.program, .importDecl, .classDecl, .varDecl, .methodDecl, .param, .type,
    ]

theorem mem_all (kind : DeclKind) : kind ∈ all := by
  cases kind <;> decide

/-- The kind with a name. -/
def ofName? : String → Option DeclKind := kindOf? nodeName all

theorem ofName?_eq_some_iff {name : String} {kind : DeclKind} :
    ofName? name = some kind ↔ name = kind.nodeName :=
  kindOf?_eq_some_iff (by decide) mem_all

@[simp] theorem ofName?_nodeName (kind : DeclKind) : ofName? kind.nodeName = some kind :=
  ofName?_eq_some_iff.mpr rfl

end DeclKind

/-- Kinds of nodes that are statements. -/
inductive StmtKind
  | block
  | ifElse
  | whileLoop
  | eval
  | assign
  | ret
deriving DecidableEq, Repr, Inhabited

namespace StmtKind

def nodeName : StmtKind → String
  | .block => "BlockStmt"
  | .ifElse => "IfStmt"
  | .whileLoop => "WhileStmt"
  | .eval => "ExprStmt"
  | .assign => "AssignStmt"
  | .ret => "ReturnStmt"

def all : List StmtKind :=
  [.block, .ifElse, .whileLoop, .eval, .assign, .ret]

theorem mem_all (kind : StmtKind) : kind ∈ all := by
  cases kind <;> decide

/-- The kind with a name. -/
def ofName? : String → Option StmtKind := kindOf? nodeName all

theorem ofName?_eq_some_iff {name : String} {kind : StmtKind} :
    ofName? name = some kind ↔ name = kind.nodeName :=
  kindOf?_eq_some_iff (by decide) mem_all

@[simp] theorem ofName?_nodeName (kind : StmtKind) : ofName? kind.nodeName = some kind :=
  ofName?_eq_some_iff.mpr rfl

end StmtKind

/-- Kinds of nodes that are expressions. -/
inductive ExprKind
  | name
  | literal
  | this
  | binary
  | not
  | call
  | newObject
  | newArray
  | index
  | length
  | arrayLiteral
  | paren
deriving DecidableEq, Repr, Inhabited

namespace ExprKind

def nodeName : ExprKind → String
  | .name => "VarRefExpr"
  | .literal => "Literal"
  | .this => "ThisExpr"
  | .binary => "BinaryExpr"
  | .not => "NotExpr"
  | .call => "MethodCallExpr"
  | .newObject => "NewObjectExpr"
  | .newArray => "NewArrayExpr"
  | .index => "ArrayAccessExpr"
  | .length => "LengthExpr"
  | .arrayLiteral => "ArrayLiteralExpr"
  | .paren => "ParenExpr"

def all : List ExprKind :=
  [.name, .literal, .this, .binary, .not, .call, .newObject, .newArray,
    .index, .length, .arrayLiteral, .paren]

theorem mem_all (kind : ExprKind) : kind ∈ all := by
  cases kind <;> decide

/-- The kind with a name. -/
def ofName? : String → Option ExprKind := kindOf? nodeName all

theorem ofName?_eq_some_iff {name : String} {kind : ExprKind} :
    ofName? name = some kind ↔ name = kind.nodeName :=
  kindOf?_eq_some_iff (by decide) mem_all

@[simp] theorem ofName?_nodeName (kind : ExprKind) : ofName? kind.nodeName = some kind :=
  ofName?_eq_some_iff.mpr rfl

end ExprKind

end JavaMinus
