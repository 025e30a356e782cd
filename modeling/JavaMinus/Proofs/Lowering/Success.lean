/-
This file has the means to say exactly when lowering succeeds. Each step of lowering
succeeds or not whatever the counters are, so there is something that decides it.
What decides a sequence of steps is what decides its parts, and a program is lowered
exactly if what decides the bodies of its methods holds. What that is for expressions
and statements is said elsewhere.
-/

import JavaMinus.Proofs.Lowering.Derivation
import JavaMinus.Syntax.Observer

namespace JavaMinus

theorem Expr.stripped_of_isThis {expr : Expr} (isThis : expr.isThis = true) :
    ∃ pos, expr.stripped = .this pos := by
  rw [Expr.isThis] at isThis
  split at isThis
  · exact ⟨_, ‹_›⟩
  · cases isThis

/-! ### Steps that succeed or not -/

namespace Lower

variable {α β : Type} {holds others : Prop}

/-- The step succeeds exactly if something holds, whatever the counters are. -/
def Decides (step : Lower α) (holds : Prop) : Prop :=
  ∀ counters, (∃ result, (step counters).outcome = .ok result) ↔ holds

theorem Decides.congr {step : Lower α} (decides : step.Decides holds) (same : holds ↔ others) :
    step.Decides others :=
  fun counters => (decides counters).trans same

theorem decides_pure (result : α) : (pure result : Lower α).Decides True :=
  fun _ => iff_of_true ⟨result, rfl⟩ trivial

theorem decides_emit (instr : Instr) : (emit instr).Decides True :=
  fun _ => iff_of_true ⟨(), rfl⟩ trivial

theorem decides_labelId : labelId.Decides True :=
  fun _ => iff_of_true ⟨_, rfl⟩ trivial

theorem decides_temp (scope : Scope) : (temp scope).Decides True :=
  fun _ => iff_of_true ⟨_, rfl⟩ trivial

theorem decides_store (scope : Scope) (rhs : Instr) (ty : Ty) : (store scope rhs ty).Decides True :=
  fun _ => iff_of_true ⟨_, rfl⟩ trivial

theorem decides_fail (fault : Fault) : (fail fault : Lower α).Decides False := by
  intro counters
  refine iff_of_false ?_ id
  rintro ⟨result, same⟩
  cases same

/-- A sequence succeeds if both parts do; the second may rest on what the first gave. -/
theorem Decides.bind {first : Lower α} {next : α → Lower β} (start : first.Decides holds)
    (rest : ∀ counters result, (first counters).outcome = .ok result →
      (next result).Decides others) : (first >>= next).Decides (holds ∧ others) := by
  intro counters
  simp only [bind_outcome_eq_ok_iff]
  constructor
  · rintro ⟨final, result, firstOk, restOk⟩
    exact ⟨(start counters).mp ⟨result, firstOk⟩,
      (rest counters result firstOk _).mp ⟨final, restOk⟩⟩
  · rintro ⟨firstHolds, restHolds⟩
    obtain ⟨result, firstOk⟩ := (start counters).mpr firstHolds
    obtain ⟨final, restOk⟩ := (rest counters result firstOk (first counters).counters).mpr restHolds
    exact ⟨final, result, firstOk, restOk⟩

/-- Behind a step, one that succeeds anyway. -/
theorem Decides.followed {first : Lower α} {next : α → Lower β} (start : first.Decides holds)
    (rest : ∀ result, (next result).Decides True) : (first >>= next).Decides holds :=
  (start.bind fun _ result _ => rest result).congr (and_iff_left trivial)

/-- Behind a step that succeeds anyway, another one. -/
theorem Decides.after {first : Lower α} {next : α → Lower β} (start : first.Decides True)
    (rest : ∀ result, (next result).Decides others) : (first >>= next).Decides others :=
  (start.bind fun _ result _ => rest result).congr (and_iff_right trivial)

theorem Decides.joining {body : Lower Unit} (decides : body.Decides holds) (target : Label) :
    (joining target body).Decides holds := by
  intro counters
  rw [← decides counters, Lower.joining]
  cases outcome : (body counters).outcome with
  | error fault => simp only [outcome]
  | ok result =>
    simp only
    split <;> simp only [outcome]

/-- Steps side by side succeed if each does. -/
theorem decides_mapM {items : List α} {step : α → Lower β} {each : α → Prop}
    (decides : ∀ item ∈ items, (step item).Decides (each item)) :
    (items.mapM step).Decides (∀ item ∈ items, each item) := by
  induction items with
  | nil => exact (decides_pure []).congr (iff_of_true trivial nofun)
  | cons item rest inductionHypothesis =>
    obtain ⟨first, others⟩ := List.forall_mem_cons.mp decides
    rw [List.mapM_cons]
    refine (first.bind fun _ _ _ => ?_).congr List.forall_mem_cons.symm
    exact (inductionHypothesis others).followed fun _ => decides_pure _

end Lower

/-! ### Expressions -/

namespace Emission

open Lower

variable {scope : Scope} {holds others : Ty → Prop}

/-- Both ways to lower an expression succeed exactly if something holds that may depend on the type
that is asked for. A jump asks for a truth value. -/
structure Decides (emission : Emission) (holds : Ty → Prop) : Prop where
  value : ∀ expected, (emission.value expected).Decides (holds expected)
  jump : ∀ onTrue onFalse, (emission.jump onTrue onFalse).Decides (holds .boolean)

theorem Decides.congr {emission : Emission} (decides : emission.Decides holds)
    (same : ∀ expected, holds expected ↔ others expected) : emission.Decides others where
  value expected := (decides.value expected).congr (same expected)
  jump onTrue onFalse := (decides.jump onTrue onFalse).congr (same .boolean)

theorem decides_ofValue {value : Ty → Lower Operand}
    (decides : ∀ expected, (value expected).Decides (holds expected)) :
    (ofValue value).Decides holds where
  value := decides
  jump _ _ := (decides .boolean).followed fun _ => (decides_emit _).after fun _ => decides_emit _

theorem decides_ofJump {jump : Label → Label → Lower Unit} {always : Prop}
    (decides : ∀ onTrue onFalse, (jump onTrue onFalse).Decides always) :
    (ofJump scope jump).Decides fun _ => always where
  value _ := by
    refine decides_labelId.after fun _ => (decides_temp scope).after fun _ => ?_
    refine (decides _ _).followed fun _ => ?_
    refine (decides_emit _).after fun _ => (decides_emit _).after fun _ => ?_
    refine (decides_emit _).after fun _ => (decides_emit _).after fun _ => ?_
    exact (decides_emit _).after fun _ => (decides_emit _).after fun _ => decides_pure _
  jump := decides

theorem decides_literal (value : Literal) : (literal value).Decides fun _ => True := by
  cases value with
  | int value => exact decides_ofValue fun _ => decides_pure _
  | bool value => exact ⟨fun _ => decides_pure _, fun _ _ => decides_emit _⟩

theorem decides_name (pos : Pos) (name : String) :
    (Emission.name scope pos name).Decides fun _ => (scope.lookup? name).isSome = true := by
  refine decides_ofValue fun _ => ?_
  split
  · next found => exact (decides_pure _).congr (iff_of_true trivial (by rw [found]; rfl))
  · next found => exact (decides_pure _).congr (iff_of_true trivial (by rw [found]; rfl))
  · next absent => exact (decides_fail _).congr (iff_of_false id (by rw [absent]; decide))

theorem decides_newObject (className : String) : (newObject scope className).Decides fun _ => True :=
  decides_ofValue fun _ => (decides_store _ _ _).after fun _ =>
    (decides_emit _).after fun _ => decides_pure _

end Emission

namespace Scope

variable {scope : Scope}

/-! ### Calls -/

/-- The fixed arguments are the first ones. -/
theorem map_fst_fixedItems (callee : Signature) (args : List Expr) :
    (fixedItems callee args).map Prod.fst = args.take callee.fixedArity := by
  have count : (callee.params.take callee.fixedArity).length = callee.fixedArity := by
    rw [List.length_take, Signature.fixedArity]
    split <;> omega
  rw [fixedItems, List.map_map]
  show List.map Prod.fst _ = _
  rw [List.zip_eq_zip_take_min, List.map_fst_zip, List.take_eq_take_iff, count]
  · omega
  · simp only [List.length_take]
    omega

theorem map_fst_bareItems (scope : Scope) (args : List Expr) :
    (args.map scope.bareItem).map Prod.fst = args := by
  rw [List.map_map]
  exact List.map_id args

theorem map_fst_boundItems (scope : Scope) (callee : Signature) (args : List Expr) :
    (fixedItems callee args ++ (args.drop callee.fixedArity).map scope.bareItem).map Prod.fst =
      args := by
  rw [List.map_append, map_fst_fixedItems, map_fst_bareItems, List.take_append_drop]

theorem map_fst_passedItems {callee : Signature} {args : List Expr} {arg : Expr}
    (single : args.drop callee.fixedArity = [arg]) (ty : Ty) :
    (fixedItems callee args ++ [(arg, ty)]).map Prod.fst = args := by
  rw [List.map_append, map_fst_fixedItems, List.map_singleton, ← single, List.take_append_drop]

/-- The method that a call binds to is declared in the class. -/
theorem method?_of_callee? {receiver : Option Expr} {method : String} {callee : Signature}
    (bound : scope.callee? receiver method = some callee) :
    scope.table.method? method = some callee := by
  cases receiver with
  | none => exact bound
  | some receiver =>
    rw [callee?] at bound
    split at bound
    · exact bound
    · cases bound

/-- A call of a known type binds to a method of the class. -/
theorem callee?_of_known {pos : Pos} {receiver : Option Expr} {method : String} {args : List Expr}
    (known : scope.typeOf (.call pos receiver method args) ≠ .unknown) :
    ∃ callee, scope.callee? receiver method = some callee ∧
      scope.typeOf (.call pos receiver method args) = callee.returnType := by
  rw [typeOf_call] at known ⊢
  cases bound : scope.callee? receiver method with
  | none =>
    rw [bound] at known
    exact absurd rfl known
  | some callee => exact ⟨callee, rfl, rfl⟩

end Scope

namespace Observer

/-- Notes every expression. -/
def everyExpr : Observer Expr where
  expr := fun expr => [expr]

/-- Notes every statement. -/
def everyStmt : Observer Stmt where
  stmt := fun stmt => [stmt]

theorem mem_everyExpr (expr : Expr) : expr ∈ everyExpr.onExpr expr := by
  rw [onExpr.eq_def]
  exact List.mem_append_left _ (List.mem_singleton_self expr)

theorem forall_onExprs {Note : Type} {observer : Observer Note} {exprs : List Expr}
    {each : Note → Prop} :
    (∀ note ∈ observer.onExprs exprs, each note) ↔
      ∀ expr ∈ exprs, ∀ note ∈ observer.onExpr expr, each note := by
  rw [onExprs_eq_flatMap, List.forall_mem_flatMap]

/-- A call is noted, then its receiver if there is one, then its arguments. -/
theorem forall_onExpr_call {Note : Type} {observer : Observer Note} {pos : Pos}
    {receiver : Option Expr} {method : String} {args : List Expr} {each : Note → Prop} :
    (∀ note ∈ observer.onExpr (.call pos receiver method args), each note) ↔
      (∀ note ∈ observer.expr (.call pos receiver method args), each note) ∧
      (∀ expr, receiver = some expr → ∀ note ∈ observer.onExpr expr, each note) ∧
      ∀ arg ∈ args, ∀ note ∈ observer.onExpr arg, each note := by
  cases receiver with
  | none =>
    rw [onExpr, List.forall_mem_append, forall_onExprs]
    exact ⟨fun ⟨itself, rest⟩ => ⟨itself, nofun, rest⟩, fun ⟨itself, _, rest⟩ => ⟨itself, rest⟩⟩
  | some receiver =>
    rw [onExpr, List.forall_mem_append, List.forall_mem_append, forall_onExprs]
    simp only [Option.some.injEq, forall_eq']

/-- What is noted inside the parentheses is noted. -/
theorem forall_onExpr_stripped {Note : Type} {observer : Observer Note} {expr : Expr}
    {each : Note → Prop} (all : ∀ note ∈ observer.onExpr expr, each note) :
    ∀ note ∈ observer.onExpr expr.stripped, each note := by
  induction expr with
  | paren pos inner inductionHypothesis =>
    rw [onExpr, List.forall_mem_append] at all
    rw [Expr.stripped_paren]
    exact inductionHypothesis all.2
  | _ => exact all

theorem forall_onBody {Note : Type} {observer : Observer Note} {body : List Stmt}
    {each : Note → Prop} :
    (∀ note ∈ observer.onBody body, each note) ↔
      ∀ stmt ∈ body, ∀ note ∈ observer.onStmt stmt, each note := by
  rw [onBody_eq_flatMap, List.forall_mem_flatMap]

end Observer

namespace Scope

/-! ### Methods -/

/-- Changing a result does not change whether there is one. -/
theorem exists_map_eq_ok_iff {α β : Type} {outcome : Except Fault α} (change : α → β) :
    (∃ final, outcome.map change = .ok final) ↔ ∃ result, outcome = .ok result := by
  cases outcome with
  | error fault =>
    constructor
    · rintro ⟨final, same⟩
      cases same
    · rintro ⟨result, same⟩
      cases same
  | ok result => exact iff_of_true ⟨_, rfl⟩ ⟨_, rfl⟩

/-- Methods are lowered if each of their bodies is. -/
theorem lowerMethods_succeeds_iff {decls : List (MethodDecl × Scope)}
    (each : MethodDecl × Scope → Prop)
    (decides : ∀ decl ∈ decls, (decl.2.lowerBody decl.1.body).Decides (each decl))
    (counters : Counters) :
    (∃ methods, (lowerMethods decls counters).1 = .ok methods) ↔ ∀ decl ∈ decls, each decl := by
  induction decls generalizing counters with
  | nil => exact iff_of_true ⟨[], rfl⟩ nofun
  | cons decl rest inductionHypothesis =>
    obtain ⟨first, others⟩ := List.forall_mem_cons.mp decides
    have firstDecides := first counters
    rw [List.forall_mem_cons, lowerMethods, lowerMethod]
    cases outcome : (decl.2.lowerBody decl.1.body counters).outcome with
    | error fault =>
      rw [outcome] at firstDecides
      constructor
      · rintro ⟨methods, same⟩
        cases same
      · rintro ⟨holds, -⟩
        obtain ⟨_, same⟩ := firstDecides.mpr holds
        cases same
    | ok result =>
      have firstHolds := firstDecides.mp ⟨result, outcome⟩
      have restSucceeds :=
        inductionHypothesis others (decl.2.lowerBody decl.1.body counters).counters
      rw [and_iff_right firstHolds, ← restSucceeds]
      exact exists_map_eq_ok_iff _

end Scope

namespace ClassTable

/-- The methods of a program are in the scopes that its own table has for them. -/
theorem scopes_ofProgram (program : Program) :
    (ofProgram program).scopes program =
      .ok (program.classDecl.methods.map fun decl => (decl, ⟨ofProgram program, .ofDecl decl⟩)) := by
  rw [scopes]
  show (ofProgram program).pair _ (program.classDecl.methods.map Signature.ofDecl) = _
  generalize program.classDecl.methods = decls
  induction decls with
  | nil => rfl
  | cons decl rest inductionHypothesis =>
    rw [List.map_cons, pair, inductionHypothesis]
    rfl

/-- The code of a program holds the code of each of its methods, in order. -/
theorem compiles_of_lower_ofProgram {program : Program} {before : Counters} {code : ClassCode}
    (lowered : ((ofProgram program).lower program before).1 = .ok code) :
    List.Forall₂
      (fun decl method => Scope.Compiles ⟨ofProgram program, .ofDecl decl⟩ decl.body method)
      program.classDecl.methods code.methods := by
  obtain ⟨-, decls, paired, compiled⟩ := compiles_of_lower lowered
  rw [scopes_ofProgram] at paired
  obtain rfl := Except.ok.inj paired
  exact (List.forall₂_map_left_iff.mp compiled).imp fun _ _ compiles => compiles.2

/-- The parameter of a declared method that takes all trailing arguments is an array. -/
theorem isArray_of_restParam? {program : Program} {method : String} {callee : Signature}
    {param : Binding} (declared : (ofProgram program).method? method = some callee)
    (rest : callee.restParam? = some param) : param.ty.isArray = true := by
  obtain ⟨decl, -, rfl⟩ := List.mem_map.mp (List.mem_of_find?_eq_some declared)
  rw [Signature.restParam?] at rest
  split at rest
  · next isVarargs =>
    obtain ⟨last, isLast, takesRest⟩ := (Option.any_eq_true _ _).mp isVarargs
    simp only [Signature.ofDecl, List.getLast?_map, isLast, Option.map_some, Option.some_inj]
      at rest
    rw [← rest]
    show (last.typeName.isArray || last.isVarargs) = true
    rw [takesRest, Bool.or_true]
  · cases rest

/-- A program is lowered exactly if what decides the bodies of its methods holds. -/
theorem lower_succeeds_of_decides {program : Program} {each : MethodDecl → Prop}
    (decides : ∀ decl ∈ program.classDecl.methods,
      (Scope.lowerBody ⟨ofProgram program, .ofDecl decl⟩ decl.body).Decides (each decl))
    (counters : Counters) :
    (∃ code, ((ofProgram program).lower program counters).1 = .ok code) ↔
      ∀ decl ∈ program.classDecl.methods, each decl := by
  rw [lower, scopes_ofProgram]
  refine (Scope.exists_map_eq_ok_iff _).trans ?_
  refine (Scope.lowerMethods_succeeds_iff (fun decl => each decl.1) ?_ counters).trans ?_
  · rw [List.forall_mem_map]
    exact decides
  · rw [List.forall_mem_map]

end ClassTable

end JavaMinus
