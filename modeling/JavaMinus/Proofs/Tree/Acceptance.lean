/-
This file shows that reading accepts exactly the trees of the grammar. Which error
is reported for a tree outside the grammar depends on the order in which its nodes
are visited. Whether there is an error does not: a reading gives a result exactly
if each of its parts does, so every reader has a condition on its tree alone.

The members of a method are cut into parameters, locals and statements by their
kinds; this finds the groups of the grammar because no kind belongs to two of
them. The children of a program are read from left to right with what was found
so far, and the class may come anywhere.
-/

import Mathlib.Data.List.TakeDrop
import Mathlib.Data.List.TakeWhile
import JavaMinus.Proofs.Tree.Grammar

namespace JavaMinus

/-! ### Readings that give a result -/

namespace Tree

variable {α β : Type}

/-- The reading gives a result, and no error. -/
def Reads (reading : Except TreeError α) : Prop := ∃ result, reading = .ok result

theorem reads_ok (result : α) : Reads (.ok result) := ⟨result, rfl⟩

theorem not_reads_error {error : TreeError} : ¬ Reads (.error error : Except TreeError α) := nofun

theorem reads_bind {first : Except TreeError α} {next : α → Except TreeError β} :
    Reads (first >>= next) ↔ ∃ result, first = .ok result ∧ Reads (next result) := by
  cases first with
  | error error => exact iff_of_false not_reads_error (by simp)
  | ok result => simp [bind, Except.bind]

/-- Whether it is the first reading that fails or the second, there is no result. -/
theorem reads_bind_iff {first : Except TreeError α} {next : α → Except TreeError β} {rest : Prop}
    (same : ∀ result, Reads (next result) ↔ rest) :
    Reads (first >>= next) ↔ Reads first ∧ rest := by
  rw [reads_bind]
  constructor
  · rintro ⟨result, read, reads⟩
    exact ⟨⟨result, read⟩, (same result).mp reads⟩
  · rintro ⟨⟨result, read⟩, holds⟩
    exact ⟨result, read, (same result).mpr holds⟩

/-- What is made of a result does not matter. -/
theorem reads_map_iff {first : Except TreeError α} {change : α → β} :
    Reads (first >>= fun result => pure (change result)) ↔ Reads first :=
  (reads_bind_iff fun _ => iff_of_true (reads_ok _) trivial).trans (and_iff_left trivial)

theorem reads_mapM_iff {each : α → Except TreeError β} {items : List α} :
    Reads (items.mapM each) ↔ ∀ item ∈ items, Reads (each item) := by
  induction items with
  | nil => exact iff_of_true (reads_ok []) (List.forall_mem_nil _)
  | cons item rest inductionHypothesis =>
    rw [List.mapM_cons, List.forall_mem_cons, ← inductionHypothesis]
    exact reads_bind_iff fun _ => reads_map_iff

theorem reads_required_iff {tree : Tree} {key : String} :
    Reads (tree.required key) ↔ tree.Has key := by
  rw [required, Has]
  cases tree.attribute? key with
  | none => exact iff_of_false not_reads_error (by simp)
  | some value => exact iff_of_true (reads_ok value) ⟨value, rfl⟩

/-- Induction over trees: what holds of a node if it holds of its children holds of every tree. -/
@[elab_as_elim]
theorem induct {motive : Tree → Prop}
    (node : ∀ tree : Tree, (∀ child ∈ tree.children, motive child) → motive tree) (tree : Tree) :
    motive tree :=
  @Tree.rec motive (fun trees => ∀ child ∈ trees, motive child)
    (fun _ _ _ _ children => node _ children)
    (List.forall_mem_nil _)
    (fun _ _ first rest => List.forall_mem_cons.mpr ⟨first, rest⟩)
    tree

end Tree

open Tree

/-! ### Leaves -/

theorem BinaryOp.ofSymbol?_isSome_iff (symbol : String) :
    (ofSymbol? symbol).isSome ↔ symbol ∈ ["+", "-", "*", "/", "<", "&&", "||"] := by
  rw [ofSymbol?.eq_def]
  split
  all_goals simp_all

theorem Literal.reads_ofTree_iff {tree : Tree} :
    Reads (Literal.ofTree tree) ↔ ∃ text, tree.attribute? "name" = some text ∧ IsText text := by
  rw [Literal.ofTree, reads_bind, required]
  cases tree.attribute? "name" with
  | none => simp
  | some text =>
    simp only [Except.ok.injEq, exists_eq_left', Option.some_inj, ← ofText?_isSome_iff]
    cases ofText? text with
    | none => exact iff_of_false not_reads_error (by simp)
    | some value => exact iff_of_true (reads_ok value) rfl

theorem BinaryOp.reads_ofTree_iff {tree : Tree} :
    Reads (BinaryOp.ofTree tree) ↔ ∃ symbol, tree.attribute? "op" = some symbol ∧
      symbol ∈ ["+", "-", "*", "/", "<", "&&", "||"] := by
  rw [BinaryOp.ofTree, reads_bind, required]
  cases tree.attribute? "op" with
  | none => simp
  | some symbol =>
    simp only [Except.ok.injEq, exists_eq_left', Option.some_inj, ← ofSymbol?_isSome_iff]
    cases ofSymbol? symbol with
    | none => exact iff_of_false not_reads_error (by simp)
    | some op => exact iff_of_true (reads_ok op) rfl

/-! ### Expressions -/

theorem Expr.reads_ofTrees_iff {trees : List Tree} :
    Reads (Expr.ofTrees trees) ↔ ∀ tree ∈ trees, Reads (Expr.ofTree tree) := by
  induction trees with
  | nil =>
    rw [Expr.ofTrees]
    exact iff_of_true (reads_ok []) (List.forall_mem_nil _)
  | cons tree rest inductionHypothesis =>
    rw [Expr.ofTrees, List.forall_mem_cons, ← inductionHypothesis]
    exact reads_bind_iff fun _ => reads_map_iff

/-- Two readings one after the other, whatever is made of the results. -/
theorem Tree.reads_both_iff {α β γ : Type} {first : Except TreeError α}
    {second : Except TreeError β} {combine : α → β → γ} :
    Reads (first >>= fun one => second >>= fun other => pure (combine one other)) ↔
      Reads first ∧ Reads second :=
  reads_bind_iff fun _ => reads_map_iff

/-- A tree that is read as an expression is one. -/
theorem Tree.isExpr_of_reads {tree : Tree} (reads : Reads (Expr.ofTree tree)) : tree.IsExpr := by
  induction tree using Tree.induct with
  | node tree inductionHypothesis =>
    obtain ⟨kind, attributes, children, pos⟩ := tree
    rw [Expr.ofTree.eq_def] at reads
    cases known : ExprKind.ofName? kind with
    | none =>
      simp only [known] at reads
      exact absurd reads not_reads_error
    | some exprKind =>
      obtain rfl := ExprKind.ofName?_eq_some_iff.mp known
      simp only [known] at reads
      cases exprKind with
      | name | newObject =>
        exact .named (by simp [ExprKind.nodeName]) (reads_required_iff.mp (reads_map_iff.mp reads))
      | literal =>
        obtain ⟨text, named, isText⟩ := Literal.reads_ofTree_iff.mp (reads_map_iff.mp reads)
        exact .literal rfl named isText
      | this => exact .this rfl
      | binary =>
        obtain ⟨op, opRead, childrenRead⟩ := reads_bind.mp reads
        obtain ⟨symbol, hasOp, isOperator⟩ := BinaryOp.reads_ofTree_iff.mp ⟨op, opRead⟩
        clear reads
        split at childrenRead
        · next left right =>
          obtain ⟨leftReads, rightReads⟩ := reads_both_iff.mp childrenRead
          exact .binary rfl hasOp isOperator rfl (inductionHypothesis left (by simp) leftReads)
            (inductionHypothesis right (by simp) rightReads)
        · exact absurd childrenRead not_reads_error
      | not | newArray | length | paren =>
        dsimp only at reads
        split at reads
        · next operand =>
          exact .unary (by simp [ExprKind.nodeName]) rfl
            (inductionHypothesis operand (by simp) (reads_map_iff.mp reads))
        · exact absurd reads not_reads_error
      | index =>
        dsimp only at reads
        split at reads
        · next array position =>
          obtain ⟨arrayReads, positionReads⟩ := reads_both_iff.mp reads
          exact .index rfl rfl (inductionHypothesis array (by simp) arrayReads)
            (inductionHypothesis position (by simp) positionReads)
        · exact absurd reads not_reads_error
      | arrayLiteral =>
        have each := Expr.reads_ofTrees_iff.mp (reads_map_iff.mp reads)
        exact .arrayLiteral rfl fun element member =>
          inductionHypothesis element member (each element member)
      | call =>
        obtain ⟨method, named, childrenRead⟩ := reads_bind.mp reads
        have hasName := reads_required_iff.mp ⟨method, named⟩
        clear reads
        split at childrenRead
        · split at childrenRead
          · exact absurd childrenRead not_reads_error
          · next receiver args _ =>
            obtain ⟨receiverReads, argsRead⟩ := reads_both_iff.mp childrenRead
            have each : ∀ operand ∈ receiver :: args, Reads (Expr.ofTree operand) :=
              List.forall_mem_cons.mpr ⟨receiverReads, Expr.reads_ofTrees_iff.mp argsRead⟩
            exact .call rfl hasName (fun _ => by simp) fun operand member =>
              inductionHypothesis operand member (each operand member)
        · next noReceiver =>
          have each := Expr.reads_ofTrees_iff.mp (reads_map_iff.mp childrenRead)
          refine .call rfl hasName (fun isSet => absurd ?_ noReceiver) fun operand member =>
            inductionHypothesis operand member (each operand member)
          rw [flag, isSet, beq_self_eq_true]

/-- An expression can be read. -/
theorem Tree.IsExpr.reads {tree : Tree} (isExpr : tree.IsExpr) : Reads (Expr.ofTree tree) := by
  induction isExpr with
  | @this tree kind =>
    obtain ⟨_, attributes, children, pos⟩ := tree
    subst kind
    rw [Expr.ofTree.eq_def]
    exact reads_ok _
  | @named tree kind name =>
    obtain ⟨_, attributes, children, pos⟩ := tree
    rw [Expr.ofTree.eq_def]
    simp only [List.mem_cons, List.not_mem_nil, or_false] at kind
    rcases kind with rfl | rfl <;> exact reads_map_iff.mpr (reads_required_iff.mpr name)
  | @literal tree text kind name isText =>
    obtain ⟨_, attributes, children, pos⟩ := tree
    subst kind
    rw [Expr.ofTree.eq_def]
    exact reads_map_iff.mpr (Literal.reads_ofTree_iff.mpr ⟨text, name, isText⟩)
  | @binary tree left right symbol kind op isOperator isChildren _ _ leftReads rightReads =>
    obtain ⟨_, attributes, children, pos⟩ := tree
    subst kind isChildren
    rw [Expr.ofTree.eq_def]
    exact (reads_bind_iff fun _ => reads_both_iff).mpr
      ⟨BinaryOp.reads_ofTree_iff.mpr ⟨symbol, op, isOperator⟩, leftReads, rightReads⟩
  | @unary tree operand kind isChildren _ operandReads =>
    obtain ⟨_, attributes, children, pos⟩ := tree
    subst isChildren
    rw [Expr.ofTree.eq_def]
    simp only [List.mem_cons, List.not_mem_nil, or_false] at kind
    rcases kind with rfl | rfl | rfl | rfl <;> exact reads_map_iff.mpr operandReads
  | @index tree array position kind isChildren _ _ arrayReads positionReads =>
    obtain ⟨_, attributes, children, pos⟩ := tree
    subst kind isChildren
    rw [Expr.ofTree.eq_def]
    exact reads_both_iff.mpr ⟨arrayReads, positionReads⟩
  | @arrayLiteral tree kind _ elementsRead =>
    obtain ⟨_, attributes, children, pos⟩ := tree
    subst kind
    rw [Expr.ofTree.eq_def]
    exact reads_map_iff.mpr (Expr.reads_ofTrees_iff.mpr elementsRead)
  | @call tree kind name receiver _ operandsRead =>
    obtain ⟨_, attributes, children, pos⟩ := tree
    subst kind
    rw [Expr.ofTree.eq_def]
    obtain ⟨method, named⟩ := reads_required_iff.mpr name
    refine reads_bind.mpr ⟨method, named, ?_⟩
    split
    · next hasReceiver =>
      split
      · exact absurd rfl (receiver (by simpa [flag] using hasReceiver))
      · next first args =>
        obtain ⟨firstReads, argsRead⟩ := List.forall_mem_cons.mp operandsRead
        exact reads_both_iff.mpr ⟨firstReads, Expr.reads_ofTrees_iff.mpr argsRead⟩
    · exact reads_map_iff.mpr (Expr.reads_ofTrees_iff.mpr operandsRead)

/-! ### Statements -/

theorem Stmt.reads_ofTrees_iff {trees : List Tree} :
    Reads (Stmt.ofTrees trees) ↔ ∀ tree ∈ trees, Reads (Stmt.ofTree tree) := by
  induction trees with
  | nil =>
    rw [Stmt.ofTrees]
    exact iff_of_true (reads_ok []) (List.forall_mem_nil _)
  | cons tree rest inductionHypothesis =>
    rw [Stmt.ofTrees, List.forall_mem_cons, ← inductionHypothesis]
    exact reads_bind_iff fun _ => reads_map_iff

/-- A tree that is read as a statement is one. -/
theorem Tree.isStmt_of_reads {tree : Tree} (reads : Reads (Stmt.ofTree tree)) : tree.IsStmt := by
  induction tree using Tree.induct with
  | node tree inductionHypothesis =>
    obtain ⟨kind, attributes, children, pos⟩ := tree
    rw [Stmt.ofTree.eq_def] at reads
    cases known : StmtKind.ofName? kind with
    | none =>
      simp only [known] at reads
      exact absurd reads not_reads_error
    | some stmtKind =>
      obtain rfl := StmtKind.ofName?_eq_some_iff.mp known
      simp only [known] at reads
      cases stmtKind with
      | block =>
        have each := Stmt.reads_ofTrees_iff.mp (reads_map_iff.mp reads)
        exact .block rfl fun stmt member => inductionHypothesis stmt member (each stmt member)
      | ifElse =>
        dsimp only at reads
        split at reads
        · next condition thenBranch =>
          obtain ⟨conditionReads, thenReads⟩ := reads_both_iff.mp reads
          exact .ifThen rfl rfl (isExpr_of_reads conditionReads)
            (inductionHypothesis thenBranch (by simp) thenReads)
        · next condition thenBranch elseBranch =>
          obtain ⟨conditionReads, thenReads, elseReads⟩ :=
            (reads_bind_iff fun _ => reads_both_iff).mp reads
          exact .ifElse rfl rfl (isExpr_of_reads conditionReads)
            (inductionHypothesis thenBranch (by simp) thenReads)
            (inductionHypothesis elseBranch (by simp) elseReads)
        · exact absurd reads not_reads_error
      | whileLoop =>
        dsimp only at reads
        split at reads
        · next condition body =>
          obtain ⟨conditionReads, bodyReads⟩ := reads_both_iff.mp reads
          exact .whileLoop rfl rfl (isExpr_of_reads conditionReads)
            (inductionHypothesis body (by simp) bodyReads)
        · exact absurd reads not_reads_error
      | eval =>
        dsimp only at reads
        split at reads
        · exact .eval rfl rfl (isExpr_of_reads (reads_map_iff.mp reads))
        · exact absurd reads not_reads_error
      | assign =>
        dsimp only at reads
        split at reads
        · obtain ⟨targetReads, valueReads⟩ := reads_both_iff.mp reads
          exact .assign rfl rfl (isExpr_of_reads targetReads) (isExpr_of_reads valueReads)
        · exact absurd reads not_reads_error
      | ret =>
        dsimp only at reads
        split at reads
        · exact .ret rfl (Nat.zero_le 1) (List.forall_mem_nil _)
        · exact .ret rfl (Nat.le_refl 1)
            (List.forall_mem_singleton.mpr (isExpr_of_reads (reads_map_iff.mp reads)))
        · exact absurd reads not_reads_error

/-- A statement can be read. -/
theorem Tree.IsStmt.reads {tree : Tree} (isStmt : tree.IsStmt) : Reads (Stmt.ofTree tree) := by
  induction isStmt with
  | @block tree kind _ bodyReads =>
    obtain ⟨_, attributes, children, pos⟩ := tree
    subst kind
    rw [Stmt.ofTree.eq_def]
    exact reads_map_iff.mpr (Stmt.reads_ofTrees_iff.mpr bodyReads)
  | @ifThen tree condition thenBranch kind isChildren conditionIs _ thenReads =>
    obtain ⟨_, attributes, children, pos⟩ := tree
    subst kind isChildren
    rw [Stmt.ofTree.eq_def]
    exact reads_both_iff.mpr ⟨conditionIs.reads, thenReads⟩
  | @ifElse tree condition thenBranch elseBranch kind isChildren conditionIs _ _ thenReads
      elseReads =>
    obtain ⟨_, attributes, children, pos⟩ := tree
    subst kind isChildren
    rw [Stmt.ofTree.eq_def]
    exact (reads_bind_iff fun _ => reads_both_iff).mpr ⟨conditionIs.reads, thenReads, elseReads⟩
  | @whileLoop tree condition body kind isChildren conditionIs _ bodyReads =>
    obtain ⟨_, attributes, children, pos⟩ := tree
    subst kind isChildren
    rw [Stmt.ofTree.eq_def]
    exact reads_both_iff.mpr ⟨conditionIs.reads, bodyReads⟩
  | @eval tree expr kind isChildren exprIs =>
    obtain ⟨_, attributes, children, pos⟩ := tree
    subst kind isChildren
    rw [Stmt.ofTree.eq_def]
    exact reads_map_iff.mpr exprIs.reads
  | @assign tree target value kind isChildren targetIs valueIs =>
    obtain ⟨_, attributes, children, pos⟩ := tree
    subst kind isChildren
    rw [Stmt.ofTree.eq_def]
    exact reads_both_iff.mpr ⟨targetIs.reads, valueIs.reads⟩
  | @ret tree kind few valueIs =>
    obtain ⟨_, attributes, children, pos⟩ := tree
    subst kind
    rw [Stmt.ofTree.eq_def]
    match children with
    | [] => exact reads_ok _
    | [value] => exact reads_map_iff.mpr (List.forall_mem_singleton.mp valueIs).reads
    | _ :: _ :: _ => exact absurd few (by simp)

theorem Stmt.reads_ofTree_iff {tree : Tree} : Reads (Stmt.ofTree tree) ↔ tree.IsStmt :=
  ⟨isStmt_of_reads, IsStmt.reads⟩

/-- A statement is of none of the kinds that declare something. -/
theorem Tree.IsStmt.not_declares {tree : Tree} (isStmt : tree.IsStmt) (kind : DeclKind) :
    tree.declares kind = false := by
  have unknown : DeclKind.ofName? tree.kind = none := by
    cases isStmt with
    | block isKind | ifThen isKind | ifElse isKind | whileLoop isKind | eval isKind
    | assign isKind | ret isKind =>
      rw [isKind]
      rfl
  rw [declares, unknown]
  rfl

/-! ### Declarations -/

theorem Tree.declares_iff {tree : Tree} {kind : DeclKind} :
    tree.declares kind = true ↔ tree.kind = kind.nodeName := by
  rw [declares, beq_iff_eq, DeclKind.ofName?_eq_some_iff]

theorem TypeName.reads_ofTree_iff {tree : Tree} : Reads (TypeName.ofTree tree) ↔ tree.IsType := by
  rw [TypeName.ofTree]
  split
  · next isType =>
    refine reads_map_iff.trans (reads_required_iff.trans ⟨fun name => ⟨?_, name⟩, IsType.name⟩)
    exact DeclKind.ofName?_eq_some_iff.mp isType
  · next notType =>
    refine iff_of_false not_reads_error fun isType => notType ?_
    exact DeclKind.ofName?_eq_some_iff.mpr isType.kind

theorem TypeName.reads_ofDeclaration_iff {tree : Tree} :
    Reads (TypeName.ofDeclaration tree) ↔
      ∃ typeTree, tree.children = [typeTree] ∧ typeTree.IsType := by
  rw [TypeName.ofDeclaration]
  split
  · next child isChild => simp [TypeName.reads_ofTree_iff, isChild]
  · next notSingle =>
    refine iff_of_false not_reads_error ?_
    rintro ⟨child, isChild, -⟩
    exact notSingle child isChild

theorem VarDecl.reads_ofTree_iff {tree : Tree} (kind : tree.kind = "VarDecl") :
    Reads (VarDecl.ofTree tree) ↔ tree.IsVariable "VarDecl" := by
  rw [VarDecl.ofTree, reads_both_iff, reads_required_iff, TypeName.reads_ofDeclaration_iff]
  exact ⟨fun ⟨name, type⟩ => ⟨kind, name, type⟩, fun ⟨_, name, type⟩ => ⟨name, type⟩⟩

theorem Param.reads_ofTree_iff {tree : Tree} (kind : tree.kind = "Param") :
    Reads (Param.ofTree tree) ↔ tree.IsVariable "Param" := by
  rw [Param.ofTree, reads_both_iff, reads_required_iff, TypeName.reads_ofDeclaration_iff]
  exact ⟨fun ⟨name, type⟩ => ⟨kind, name, type⟩, fun ⟨_, name, type⟩ => ⟨name, type⟩⟩

theorem Stmt.reads_ofBodyTree_iff {parent : String} {tree : Tree} :
    Reads (Stmt.ofBodyTree parent tree) ↔ tree.IsStmt := by
  rw [Stmt.ofBodyTree]
  split
  · next declares =>
    refine iff_of_false not_reads_error fun isStmt => ?_
    simp [isStmt.not_declares] at declares
  · exact Stmt.reads_ofTree_iff

/-- A list is cut where the property ends. -/
theorem span_append {α : Type} {holds : α → Bool} {first second : List α}
    (all : ∀ item ∈ first, holds item = true) (none : ∀ item ∈ second, holds item = false) :
    (first ++ second).span holds = (first, second) := by
  have noneTaken : second.takeWhile holds = [] ∧ second.dropWhile holds = second := by
    cases second with
    | nil => exact ⟨rfl, rfl⟩
    | cons item rest => simp [none item List.mem_cons_self]
  rw [List.span_eq_takeWhile_dropWhile, List.takeWhile_append_of_pos all,
    List.dropWhile_append_of_pos all, noneTaken.1, noneTaken.2, List.append_nil]

/-- The members of a method are read in their groups. -/
theorem MethodDecl.reads_ofTree {tree returned : Tree} {members : List Tree}
    (isChildren : tree.children = returned :: members) :
    Reads (MethodDecl.ofTree tree) ↔ tree.Has "name" ∧ returned.IsType ∧
      (∀ param ∈ (members.span (Tree.declares · .param)).1, Reads (Param.ofTree param)) ∧
      (∀ declared ∈ ((members.span (Tree.declares · .param)).2.span
        (Tree.declares · .varDecl)).1, Reads (VarDecl.ofTree declared)) ∧
      ∀ stmt ∈ ((members.span (Tree.declares · .param)).2.span (Tree.declares · .varDecl)).2,
        stmt.IsStmt := by
  rw [MethodDecl.ofTree, ← reads_required_iff, ← TypeName.reads_ofTree_iff]
  refine reads_bind_iff fun name => ?_
  rw [isChildren]
  refine reads_bind_iff fun returnType => ?_
  rw [← reads_mapM_iff, ← reads_mapM_iff]
  refine reads_bind_iff fun params => reads_bind_iff fun locals => reads_map_iff.trans ?_
  rw [reads_mapM_iff]
  simp only [Stmt.reads_ofBodyTree_iff]
  rfl

theorem MethodDecl.reads_ofTree_iff {tree : Tree} (kind : tree.kind = "MethodDecl") :
    Reads (MethodDecl.ofTree tree) ↔ tree.IsMethod := by
  constructor
  · intro reads
    cases isChildren : tree.children with
    | nil =>
      obtain ⟨name, -, childrenRead⟩ := reads_bind.mp reads
      rw [isChildren] at childrenRead
      exact absurd childrenRead not_reads_error
    | cons returned members =>
      obtain ⟨name, returnedIs, paramsRead, localsRead, bodyIs⟩ :=
        (MethodDecl.reads_ofTree isChildren).mp reads
      simp only [List.span_eq_takeWhile_dropWhile] at paramsRead localsRead bodyIs
      refine ⟨kind, name, returned, members.takeWhile (Tree.declares · .param),
        (members.dropWhile (Tree.declares · .param)).takeWhile (Tree.declares · .varDecl),
        (members.dropWhile (Tree.declares · .param)).dropWhile (Tree.declares · .varDecl), ?_,
        returnedIs, fun param member => ?_, fun declared member => ?_, bodyIs⟩
      · rw [List.takeWhile_append_dropWhile, List.takeWhile_append_dropWhile, isChildren]
      · have isParam := List.mem_takeWhile_imp member
        exact (Param.reads_ofTree_iff (declares_iff.mp isParam)).mp (paramsRead param member)
      · have isLocal := List.mem_takeWhile_imp member
        exact (VarDecl.reads_ofTree_iff (declares_iff.mp isLocal)).mp (localsRead declared member)
  · rintro ⟨-, name, returned, params, locals, body, isChildren, returnedIs, paramsAre, localsAre,
      bodyIs⟩
    have cutParams : (params ++ (locals ++ body)).span (Tree.declares · .param) =
        (params, locals ++ body) := by
      refine span_append (fun param member => declares_iff.mpr (paramsAre param member).kind) ?_
      refine List.forall_mem_append.mpr ⟨fun declared member => ?_, fun stmt member => ?_⟩
      · rw [declares, (localsAre declared member).kind]
        rfl
      · exact (bodyIs stmt member).not_declares .param
    have cutLocals : (locals ++ body).span (Tree.declares · .varDecl) = (locals, body) :=
      span_append (fun declared member => declares_iff.mpr (localsAre declared member).kind)
        fun stmt member => (bodyIs stmt member).not_declares .varDecl
    rw [MethodDecl.reads_ofTree isChildren, cutParams, cutLocals]
    refine ⟨name, returnedIs, fun param member => ?_, fun declared member => ?_, bodyIs⟩
    · exact (Param.reads_ofTree_iff (paramsAre param member).kind).mpr (paramsAre param member)
    · exact (VarDecl.reads_ofTree_iff (localsAre declared member).kind).mpr
        (localsAre declared member)

theorem Member.reads_ofTree_iff {parent : String} {tree : Tree} :
    Reads (Member.ofTree parent tree) ↔ tree.IsVariable "VarDecl" ∨ tree.IsMethod := by
  rw [Member.ofTree]
  split
  · next known =>
    have kind := DeclKind.ofName?_eq_some_iff.mp known
    refine reads_map_iff.trans ((VarDecl.reads_ofTree_iff kind).trans ?_)
    refine (or_iff_left fun isMethod => ?_).symm
    rw [isMethod.kind] at kind
    exact absurd kind (by decide)
  · next known =>
    have kind := DeclKind.ofName?_eq_some_iff.mp known
    refine reads_map_iff.trans ((MethodDecl.reads_ofTree_iff kind).trans ?_)
    refine (or_iff_right fun isField => ?_).symm
    rw [isField.kind] at kind
    exact absurd kind (by decide)
  · next notField notMethod =>
    refine iff_of_false not_reads_error ?_
    rintro (isField | isMethod)
    · exact notField (DeclKind.ofName?_eq_some_iff.mpr isField.kind)
    · exact notMethod (DeclKind.ofName?_eq_some_iff.mpr isMethod.kind)

theorem ClassDecl.reads_ofTree_iff {tree : Tree} (kind : tree.kind = "ClassDecl") :
    Reads (ClassDecl.ofTree tree) ↔ tree.IsClass := by
  rw [ClassDecl.ofTree, reads_both_iff, reads_required_iff, reads_mapM_iff]
  simp only [Member.reads_ofTree_iff]
  exact ⟨fun ⟨name, members⟩ => ⟨kind, name, members⟩, fun ⟨_, name, members⟩ => ⟨name, members⟩⟩

theorem Import.reads_ofTree_iff {tree : Tree} (kind : tree.kind = "ImportDecl") :
    Reads (Import.ofTree tree) ↔ tree.IsImport := by
  rw [Import.ofTree, reads_map_iff, reads_required_iff]
  exact ⟨fun lib => ⟨kind, lib⟩, IsImport.lib⟩

/-! ### Programs -/

/-- The first child is an import and the class comes later, or it is the class and the others are
imports. -/
theorem Tree.oneClass_cons {child : Tree} {rest : List Tree} :
    OneClass (child :: rest) ↔
      child.IsImport ∧ OneClass rest ∨ child.IsClass ∧ ∀ member ∈ rest, member.IsImport := by
  constructor
  · rintro ⟨first, classTree, second, split, classIs, importsAre⟩
    cases first with
    | nil =>
      obtain ⟨rfl, rfl⟩ := List.cons.inj split
      exact .inr ⟨classIs, importsAre⟩
    | cons member first =>
      obtain ⟨rfl, rfl⟩ := List.cons.inj split
      obtain ⟨importIs, others⟩ := List.forall_mem_cons.mp importsAre
      exact .inl ⟨importIs, first, classTree, second, rfl, classIs, others⟩
  · rintro (⟨importIs, first, classTree, second, rfl, classIs, importsAre⟩ | ⟨classIs, importsAre⟩)
    · exact ⟨child :: first, classTree, second, rfl, classIs,
        List.forall_mem_cons.mpr ⟨importIs, importsAre⟩⟩
    · exact ⟨[], child, rest, rfl, classIs, importsAre⟩

namespace ProgramParts

variable {parent : String} {parts : ProgramParts} {tree : Tree}

/-- A child that is read is an import, or the class if there was none before. -/
theorem read_cases {next : ProgramParts} (read : parts.read parent tree = .ok next) :
    tree.IsImport ∧ next.classDecl = parts.classDecl ∨
      tree.IsClass ∧ parts.classDecl = none ∧ next.classDecl.isSome := by
  rw [ProgramParts.read] at read
  split at read
  · next known =>
    obtain ⟨decl, importRead, -⟩ := reads_bind.mp ⟨next, read⟩
    rw [importRead] at read
    obtain rfl := Except.ok.inj read
    have kind := DeclKind.ofName?_eq_some_iff.mp known
    exact .inl ⟨(Import.reads_ofTree_iff kind).mp ⟨decl, importRead⟩, rfl⟩
  · next known noClass =>
    obtain ⟨decl, classRead, -⟩ := reads_bind.mp ⟨next, read⟩
    rw [classRead] at read
    obtain rfl := Except.ok.inj read
    have kind := DeclKind.ofName?_eq_some_iff.mp known
    exact .inr ⟨(ClassDecl.reads_ofTree_iff kind).mp ⟨decl, classRead⟩, noClass, rfl⟩
  · cases read

theorem read_import (parent : String) (parts : ProgramParts) (importIs : tree.IsImport) :
    ∃ next, parts.read parent tree = .ok next ∧ next.classDecl = parts.classDecl := by
  obtain ⟨decl, importRead⟩ := (Import.reads_ofTree_iff importIs.kind).mpr importIs
  refine ⟨{ parts with imports := parts.imports ++ [decl] }, ?_, rfl⟩
  have isImport : DeclKind.ofName? tree.kind = some .importDecl :=
    DeclKind.ofName?_eq_some_iff.mpr importIs.kind
  simp only [ProgramParts.read, isImport, importRead]
  rfl

theorem read_class (parent : String) (classIs : tree.IsClass) (noClass : parts.classDecl = none) :
    ∃ next, parts.read parent tree = .ok next ∧ next.classDecl.isSome := by
  obtain ⟨decl, classRead⟩ := (ClassDecl.reads_ofTree_iff classIs.kind).mpr classIs
  refine ⟨{ parts with classDecl := some decl }, ?_, rfl⟩
  have isClass : DeclKind.ofName? tree.kind = some .classDecl :=
    DeclKind.ofName?_eq_some_iff.mpr classIs.kind
  simp only [ProgramParts.read, isClass, noClass, classRead]
  rfl

/-- The children are read to the end, and a class is among them or was read before. -/
def Completes (parent : String) (parts : ProgramParts) (children : List Tree) : Prop :=
  ∃ final, children.foldlM (ProgramParts.read parent) parts = .ok final ∧ final.classDecl.isSome

theorem completes_cons {children : List Tree} :
    Completes parent parts (tree :: children) ↔
      ∃ next, parts.read parent tree = .ok next ∧ Completes parent next children := by
  rw [Completes, List.foldlM_cons]
  cases parts.read parent tree with
  | error error => exact iff_of_false nofun (by simp)
  | ok next => simp [Completes, bind, Except.bind]

/-- Once the class was read, the other children are imports. -/
theorem completes_of_class {children : List Tree} (hasClass : parts.classDecl.isSome) :
    Completes parent parts children ↔ ∀ member ∈ children, member.IsImport := by
  induction children generalizing parts with
  | nil => exact iff_of_true ⟨parts, rfl, hasClass⟩ (List.forall_mem_nil _)
  | cons child rest inductionHypothesis =>
    rw [completes_cons, List.forall_mem_cons]
    constructor
    · rintro ⟨next, read, completes⟩
      rcases read_cases read with ⟨importIs, same⟩ | ⟨-, noClass, -⟩
      · exact ⟨importIs, (inductionHypothesis (by rwa [same])).mp completes⟩
      · rw [noClass] at hasClass
        cases hasClass
    · rintro ⟨importIs, importsAre⟩
      obtain ⟨next, read, same⟩ := read_import parent parts importIs
      exact ⟨next, read, (inductionHypothesis (by rwa [same])).mpr importsAre⟩

theorem completes_iff {children : List Tree} (noClass : parts.classDecl = none) :
    Completes parent parts children ↔ OneClass children := by
  induction children generalizing parts with
  | nil =>
    refine iff_of_false ?_ (by simp [OneClass])
    rintro ⟨final, same, hasClass⟩
    obtain rfl := Except.ok.inj same
    rw [noClass] at hasClass
    cases hasClass
  | cons child rest inductionHypothesis =>
    rw [completes_cons, oneClass_cons]
    constructor
    · rintro ⟨next, read, completes⟩
      rcases read_cases read with ⟨importIs, same⟩ | ⟨classIs, -, hasClass⟩
      · exact .inl ⟨importIs, (inductionHypothesis (by rwa [same])).mp completes⟩
      · exact .inr ⟨classIs, (completes_of_class hasClass).mp completes⟩
    · rintro (⟨importIs, oneClass⟩ | ⟨classIs, importsAre⟩)
      · obtain ⟨next, read, same⟩ := read_import parent parts importIs
        exact ⟨next, read, (inductionHypothesis (by rwa [same])).mpr oneClass⟩
      · obtain ⟨next, read, hasClass⟩ := read_class parent classIs noClass
        exact ⟨next, read, (completes_of_class hasClass).mpr importsAre⟩

end ProgramParts

/-- Reading gives a program exactly for the trees of the grammar. -/
theorem Program.ofTree_succeeds_iff (tree : Tree) :
    (∃ program, Program.ofTree tree = .ok program) ↔ tree.IsProgram := by
  have completes : ProgramParts.Completes tree.kind {} tree.children ↔ OneClass tree.children :=
    ProgramParts.completes_iff rfl
  rw [Program.ofTree]
  split
  · next isProgram =>
    have kind : tree.kind = "Program" := declares_iff.mp isProgram
    constructor
    · rintro ⟨program, read⟩
      obtain ⟨parts, childrenRead, hasResult⟩ := reads_bind.mp ⟨program, read⟩
      refine ⟨kind, completes.mp ⟨parts, childrenRead, ?_⟩⟩
      split at hasResult
      · next found => exact Option.isSome_of_eq_some found
      · exact absurd hasResult not_reads_error
    · rintro ⟨-, oneClass⟩
      obtain ⟨parts, childrenRead, hasClass⟩ := completes.mpr oneClass
      obtain ⟨decl, found⟩ := Option.isSome_iff_exists.mp hasClass
      refine reads_bind.mpr ⟨parts, childrenRead, ?_⟩
      rw [found]
      exact reads_ok _
  · next notProgram =>
    exact iff_of_false not_reads_error fun isProgram => notProgram (declares_iff.mpr isProgram.kind)

end JavaMinus
