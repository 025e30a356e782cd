/-
This file counts what the check on declarations reports. Names are declared in
scopes: the fields are one, the methods are one, and the parameters and locals of
each method are one. Two declarations of a name in one scope are an error at the
later one. So a declaration with `j` declarations of its name before it is the place
of `j` errors, and a name with `n` declarations gives `n * (n - 1) / 2` in all. There
is no error exactly if all names of every scope are different.

Warnings are another matter: there is one for every parameter or local of an instance
method that has the name of a field.
-/

import Mathlib.Data.List.Perm.Basic
import Mathlib.Data.Nat.Choose.Basic
import JavaMinus.Check.Suite

namespace JavaMinus

namespace Check

/-! ### Pairs of declarations -/

/-- What is reported of a name depends on the declarations of that name only. -/
theorem filter_repeats (name : String) (declared : List Declared) :
    (repeats declared).filter (·.name == name) = repeats (declared.filter (·.name == name)) := by
  induction declared with
  | nil => rfl
  | cons first rest inductionHypothesis =>
    rw [repeats, List.filter_append, inductionHypothesis, List.filter_filter]
    by_cases isName : first.name = name
    · rw [List.filter_cons, if_pos (beq_iff_eq.mpr isName), repeats, List.filter_filter, isName]
    · rw [List.filter_cons, if_neg (mt beq_iff_eq.mp isName)]
      have none : rest.filter (fun later =>
          later.name == name && later.name == first.name) = [] := by
        refine List.filter_eq_nil_iff.mpr fun later _ both => isName ?_
        simp only [Bool.and_eq_true, beq_iff_eq] at both
        exact both.2.symm.trans both.1
      rw [none, List.nil_append]

/-- If all names are the same, each declaration is one half of a pair with each later one. -/
theorem repeats_of_same {name : String} {first : Declared} {rest : List Declared}
    (same : ∀ declared ∈ first :: rest, declared.name = name) :
    repeats (first :: rest) = rest ++ repeats rest := by
  obtain ⟨firstSame, restSame⟩ := List.forall_mem_cons.mp same
  rw [repeats, List.filter_eq_self.mpr]
  intro later member
  rw [beq_iff_eq, restSame later member, firstSame]

theorem length_repeats {name : String} {declared : List Declared}
    (same : ∀ one ∈ declared, one.name = name) :
    (repeats declared).length = declared.length.choose 2 := by
  induction declared with
  | nil => rfl
  | cons first rest inductionHypothesis =>
    rw [repeats_of_same same, List.length_append,
      inductionHypothesis (List.forall_mem_cons.mp same).2, List.length_cons,
      Nat.choose_succ_succ, Nat.choose_one_right]

/-- One more declaration ahead is one more report of each. -/
theorem perm_flatMap_replicate (declared : List Declared) (start : Nat) :
    ((declared.zipIdx (start + 1)).flatMap fun entry => List.replicate entry.2 entry.1).Perm
      (declared ++ (declared.zipIdx start).flatMap fun entry =>
        List.replicate entry.2 entry.1) := by
  rw [List.zipIdx_succ, List.flatMap_map]
  refine (List.flatMap_append_perm (declared.zipIdx start) (fun entry => [entry.1])
    fun entry => List.replicate entry.2 entry.1).symm.trans ?_
  rw [← List.map_eq_flatMap, List.zipIdx_map_fst]

/-- A declaration is reported as often as there are declarations of its name ahead of it. -/
theorem perm_repeats {name : String} {declared : List Declared}
    (same : ∀ one ∈ declared, one.name = name) :
    (repeats declared).Perm
      (declared.zipIdx.flatMap fun entry => List.replicate entry.2 entry.1) := by
  induction declared with
  | nil => exact .nil
  | cons first rest inductionHypothesis =>
    rw [repeats_of_same same, List.zipIdx_cons, List.flatMap_cons, List.replicate_zero,
      List.nil_append]
    have restSame := (List.forall_mem_cons.mp same).2
    -- In the whole list each of the rest has one more declaration ahead of it, the first.
    exact ((inductionHypothesis restSame).append_left rest).trans
      (perm_flatMap_replicate rest 0).symm

theorem mem_of_mem_repeats {declared : List Declared} {later : Declared}
    (member : later ∈ repeats declared) : later ∈ declared := by
  induction declared with
  | nil => cases member
  | cons first rest inductionHypothesis =>
    rcases List.mem_append.mp member with paired | inRest
    · exact List.mem_cons_of_mem _ (List.mem_of_mem_filter paired)
    · exact List.mem_cons_of_mem _ (inductionHypothesis inRest)

/-- Nothing is reported exactly if all names are different. -/
theorem repeats_eq_nil_iff {declared : List Declared} :
    repeats declared = [] ↔ (declared.map Declared.name).Nodup := by
  induction declared with
  | nil => simp [repeats]
  | cons first rest inductionHypothesis =>
    rw [repeats, List.append_eq_nil_iff, inductionHypothesis, List.map_cons, List.nodup_cons,
      List.filter_eq_nil_iff, List.mem_map]
    refine and_congr_left fun _ => ?_
    simp

/-! ### Scopes of names -/

/-- What is declared in one scope, and how a repeated name is told. -/
structure NameScope where
  declared : List Declared
  message : String → String
  distinguishes : Function.Injective message

/-- The names of the fields. -/
def fieldScope (decl : ClassDecl) : NameScope where
  declared := decl.fields.map fun field => ⟨field.name, field.pos⟩
  message name := s!"Field '{name}' declared more than 1 time"
  distinguishes first second same := by
    simpa [ToString.toString] using same

/-- The names of the methods. -/
def methodScope (decl : ClassDecl) : NameScope where
  declared := decl.methods.map fun method => ⟨method.name, method.pos⟩
  message name := s!"Method '{name}' declared more than 1 time"
  distinguishes first second same := by
    simpa [ToString.toString] using same

/-- The names of the parameters of a method, and behind them those of its locals. -/
def variableScope (method : MethodDecl) : NameScope where
  declared := (method.params.map fun param => ⟨param.name, param.pos⟩) ++
    method.locals.map fun binding => ⟨binding.name, binding.pos⟩
  message name := s!"Variable '{name}' declared more than 1 time in method '{method.name}'"
  distinguishes first second same := by
    simpa [ToString.toString] using same

/-- All scopes of a class. -/
def nameScopes (decl : ClassDecl) : List NameScope :=
  fieldScope decl :: methodScope decl :: decl.methods.map variableScope

/-! What the check collects in a scope is what is declared there. -/

theorem declaredFields_eq (decl : ClassDecl) :
    declaredFields decl = (fieldScope decl).declared := rfl

theorem declaredMethods_eq (decl : ClassDecl) :
    declaredMethods decl = (methodScope decl).declared := rfl

theorem declaredVariables_eq (method : MethodDecl) :
    declaredVariables method = (variableScope method).declared := rfl

namespace NameScope

/-- The reports are the errors of a scope: a name that is declared `n` times has `n * (n - 1) / 2`
of them, as many at each of its declarations as there are others ahead of that, and no other name
has any. -/
structure Reports (scope : NameScope) (reports : List Diagnostic) : Prop where
  counted : ∀ name, (reports.filter (·.message == scope.message name)).length =
    scope.declared.countP (·.name == name) * (scope.declared.countP (·.name == name) - 1) / 2
  placed : ∀ name, (reports.filter (·.message == scope.message name)).Perm
    ((scope.declared.filter (·.name == name)).zipIdx.flatMap fun entry =>
      List.replicate entry.2 (.error entry.1.pos (scope.message name)))
  named : ∀ report ∈ reports, ∃ one ∈ scope.declared, report.message = scope.message one.name

/-- The error at a declaration of a name that was declared before. -/
def report (scope : NameScope) (later : Declared) : Diagnostic :=
  .error later.pos (scope.message later.name)

/-- The errors of a scope. -/
def errors (scope : NameScope) : List Diagnostic := (repeats scope.declared).map scope.report

/-- The errors that tell a name are those at its declarations. -/
theorem filter_errors (scope : NameScope) (name : String) :
    scope.errors.filter (·.message == scope.message name) =
      (repeats (scope.declared.filter (·.name == name))).map scope.report := by
  rw [errors, List.filter_map, ← filter_repeats]
  congr 2
  funext later
  rw [Function.comp_apply, report, Bool.eq_iff_iff, beq_iff_eq, beq_iff_eq]
  exact scope.distinguishes.eq_iff

theorem reports_errors (scope : NameScope) : scope.Reports scope.errors where
  counted name := by
    have same : ∀ one ∈ scope.declared.filter (·.name == name), one.name = name := fun one member =>
      beq_iff_eq.mp (List.mem_filter.mp member).2
    rw [filter_errors, List.length_map, length_repeats same, Nat.choose_two_right,
      List.countP_eq_length_filter]
  placed name := by
    have same : ∀ one ∈ scope.declared.filter (·.name == name), one.name = name := fun one member =>
      beq_iff_eq.mp (List.mem_filter.mp member).2
    rw [filter_errors]
    refine ((perm_repeats same).map scope.report).trans (.of_eq ?_)
    rw [List.map_flatMap]
    refine List.flatMap_congr fun entry member => ?_
    have named := same entry.1 (List.fst_mem_of_mem_zipIdx member)
    rw [List.map_replicate, report, named]
  named report member := by
    obtain ⟨later, isLater, rfl⟩ := List.mem_map.mp member
    exact ⟨later, mem_of_mem_repeats isLater, rfl⟩

theorem isError_of_mem_errors {scope : NameScope} {note : Diagnostic}
    (member : note ∈ scope.errors) : note.isError = true := by
  obtain ⟨later, -, rfl⟩ := List.mem_map.mp member
  rfl

theorem isWarning_of_mem_errors {scope : NameScope} {note : Diagnostic}
    (member : note ∈ scope.errors) : note.isWarning = false := by
  obtain ⟨later, -, rfl⟩ := List.mem_map.mp member
  rfl

/-- There is no error exactly if all names of the scope are different. -/
theorem errors_eq_nil_iff (scope : NameScope) :
    scope.errors = [] ↔ (scope.declared.map Declared.name).Nodup := by
  rw [errors, List.map_eq_nil_iff, repeats_eq_nil_iff]

end NameScope

/-! ### The whole report -/

/-- The parameters and locals of a method that a field hides. A static method sees no fields. -/
def hiddenVariables (decl : ClassDecl) (method : MethodDecl) : List Declared :=
  if method.isStatic then []
  else (variableScope method).declared.filter fun one => one.name ∈ decl.fields.map VarDecl.name

/-- The warning at a parameter or local that a field hides. -/
def hiddenWarning (method : MethodDecl) (one : Declared) : Diagnostic :=
  .warning one.pos
    s!"Variable '{one.name}' in method '{method.name}' is hidden by the field of the same name"

theorem methodDuplicates_eq (decl : ClassDecl) (method : MethodDecl) :
    methodDuplicates (declaredFields decl) method =
      (variableScope method).errors ++
        (hiddenVariables decl method).map (hiddenWarning method) := by
  have hidden : ((variableScope method).declared.filter fun one =>
      !method.isStatic && (fieldScope decl).declared.any fun field => field.name == one.name) =
        hiddenVariables decl method := by
    rw [hiddenVariables]
    cases method.isStatic with
    | true => simp
    | false => simp [fieldScope, List.any_eq]
  rw [methodDuplicates, declaredVariables_eq, declaredFields_eq, hidden]
  rfl

theorem duplicates_eq (decl : ClassDecl) :
    duplicates decl = (fieldScope decl).errors ++ (methodScope decl).errors ++
      decl.methods.flatMap fun method => (variableScope method).errors ++
        (hiddenVariables decl method).map (hiddenWarning method) := by
  rw [duplicates, List.flatMap_congr fun method _ => methodDuplicates_eq decl method,
    declaredFields_eq, declaredMethods_eq]
  rfl

/-- The errors are those of the scopes, one after the other. -/
theorem filter_isError_duplicates (decl : ClassDecl) :
    (duplicates decl).filter Diagnostic.isError = (nameScopes decl).flatMap NameScope.errors := by
  have all (scope : NameScope) : scope.errors.filter Diagnostic.isError = scope.errors :=
    List.filter_eq_self.mpr fun _ => NameScope.isError_of_mem_errors
  have none (method : MethodDecl) :
      ((hiddenVariables decl method).map (hiddenWarning method)).filter Diagnostic.isError = [] :=
    List.filter_eq_nil_iff.mpr (by simp [hiddenWarning, Diagnostic.warning, Diagnostic.isError])
  simp only [duplicates_eq, List.filter_append, List.filter_flatMap, all, none, List.append_nil,
    nameScopes, List.flatMap_cons, List.flatMap_map, List.append_assoc]

/-- The warnings are those at the variables that fields hide, method by method. -/
theorem filter_isWarning_duplicates (decl : ClassDecl) :
    (duplicates decl).filter Diagnostic.isWarning =
      decl.methods.flatMap fun method =>
        (hiddenVariables decl method).map (hiddenWarning method) := by
  have none (scope : NameScope) : scope.errors.filter Diagnostic.isWarning = [] :=
    List.filter_eq_nil_iff.mpr fun _ member =>
      Bool.eq_false_iff.mp (NameScope.isWarning_of_mem_errors member)
  have all (method : MethodDecl) :
      ((hiddenVariables decl method).map (hiddenWarning method)).filter Diagnostic.isWarning =
        (hiddenVariables decl method).map (hiddenWarning method) :=
    List.filter_eq_self.mpr (by simp [hiddenWarning, Diagnostic.warning, Diagnostic.isWarning])
  simp only [duplicates_eq, List.filter_append, List.filter_flatMap, all, none, List.nil_append]

/-- What the check on declarations reports on a program: in each scope, for every pair of
declarations of a name, an error at the later one, and so no errors exactly if the names of every
scope are different; and a warning at each parameter or local that a field hides. -/
theorem reports_of_duplicateDeclarations (program : Program) (table : ClassTable) :
    ∃ notes, Check.duplicateDeclarations.run program table = .ok notes ∧
      (∃ reports, List.Forall₂ NameScope.Reports (nameScopes program.classDecl) reports ∧
        notes.filter Diagnostic.isError = reports.flatten) ∧
      ((∀ note ∈ notes, note.isError = false) ↔
        ∀ scope ∈ nameScopes program.classDecl, (scope.declared.map Declared.name).Nodup) ∧
      notes.filter Diagnostic.isWarning = program.classDecl.methods.flatMap fun method =>
        (hiddenVariables program.classDecl method).map (hiddenWarning method) := by
  refine ⟨_, rfl, ⟨(nameScopes program.classDecl).map NameScope.errors, ?_, ?_⟩, ?_,
    filter_isWarning_duplicates _⟩
  · rw [List.forall₂_map_right_iff, List.forall₂_same]
    exact fun scope _ => scope.reports_errors
  · rw [filter_isError_duplicates, List.flatMap_def]
  · simp only [← Bool.not_eq_true]
    rw [← List.filter_eq_nil_iff, filter_isError_duplicates, List.flatMap_eq_nil_iff]
    exact forall₂_congr fun scope _ => scope.errors_eq_nil_iff

/-- A method with a parameter that two of its locals repeat, and with one that has the name of a
field. -/
def crowdedMethod : MethodDecl where
  name := "f"
  isPublic := true
  isStatic := false
  returnType := .ofTy .nowhere .int
  params := [⟨.ofTy .nowhere .int, "v", false, ⟨3, 9⟩⟩, ⟨.ofTy .nowhere .int, "x", false, ⟨3, 16⟩⟩]
  locals := [⟨.ofTy .nowhere .int, "v", ⟨4, 5⟩⟩, ⟨.ofTy .nowhere .int, "w", ⟨5, 5⟩⟩,
    ⟨.ofTy .nowhere .boolean, "v", ⟨6, 5⟩⟩]
  body := []
  pos := ⟨3, 1⟩

/-- A class with the method, and with another of the same parameters that is static. -/
def crowded : Program where
  imports := []
  classDecl :=
    { name := "A"
      superClass := none
      fields := [⟨.ofTy .nowhere .int, "x", ⟨2, 1⟩⟩]
      methods := [crowdedMethod,
        { crowdedMethod with name := "g", isStatic := true, locals := [], pos := ⟨8, 1⟩ }]
      pos := ⟨1, 1⟩ }
  pos := ⟨1, 1⟩

/-- Of three declarations of a name across parameters and locals the second is the place of one error
and the third that of two, and the warning is at the parameter of the instance method only. -/
theorem reports_of_duplicateDeclarations_crowded :
    ∃ notes earlier reports later,
      Check.duplicateDeclarations.run crowded (.ofProgram crowded) = .ok notes ∧
      notes.filter Diagnostic.isError = earlier ++ reports ++ later ∧
      (reports.filter
        (·.message == "Variable 'v' declared more than 1 time in method 'f'")).Perm
        [.error ⟨4, 5⟩ "Variable 'v' declared more than 1 time in method 'f'",
          .error ⟨6, 5⟩ "Variable 'v' declared more than 1 time in method 'f'",
          .error ⟨6, 5⟩ "Variable 'v' declared more than 1 time in method 'f'"] ∧
      ¬(∀ note ∈ notes, note.isError = false) ∧
      notes.filter Diagnostic.isWarning =
        [.warning ⟨3, 16⟩
          "Variable 'x' in method 'f' is hidden by the field of the same name"] := by
  obtain ⟨notes, ran, ⟨reports, each, errors⟩, silent, warnings⟩ :=
    reports_of_duplicateDeclarations crowded (.ofProgram crowded)
  obtain ⟨ofFields, _, -, rest, rfl⟩ := List.forall₂_cons_left_iff.mp each
  obtain ⟨ofMethods, _, -, inMethods, rfl⟩ := List.forall₂_cons_left_iff.mp rest
  obtain ⟨ofVariables, later, inMethod, -, rfl⟩ := List.forall₂_cons_left_iff.mp inMethods
  refine ⟨notes, ofFields ++ ofMethods, ofVariables, later.flatten, ran, ?_, ?_, ?_, ?_⟩
  · rw [errors]
    simp only [List.flatten_cons, List.append_assoc]
  · exact (inMethod.placed "v").trans (.of_eq (by decide +kernel))
  · rw [silent]
    intro different
    have inScope := different (variableScope crowdedMethod) (by simp [nameScopes, crowded])
    revert inScope
    decide +kernel
  · rw [warnings]
    decide +kernel

end Check

end JavaMinus
