/-
This file shows that jumps always find their place. A label is placed at most
once, not only in a method but in all that is ever lowered with the same
counters: a later program takes later numbers, also if an earlier one failed half
way. Every jump in the code of a method leads to a label that the method places.
The code of a condition is the one exception on the way there: it jumps to the
two labels that it decides between and leaves it to the statement around it to
place them. Its last instruction is such a jump, so control never comes out
behind it.
-/

import JavaMinus.Proofs.Lowering.Counting
import JavaMinus.Proofs.Lowering.Order

namespace JavaMinus

/-! ### Jumps are closed -/

/-- Code that jumps only to some exits and to labels that it places itself. -/
def Enclosed (exits : List Label) (code : List Instr) : Prop :=
  ∀ instr ∈ code, ∀ target ∈ instr.targets, target ∈ exits ++ placed code

namespace Enclosed

variable {exits leftExits rightExits : List Label} {code first second : List Instr}

theorem nil : Enclosed exits [] := nofun

/-- Code one after the other, if the exits of each are exits of both or places in them. -/
theorem join (left : Enclosed leftExits first) (right : Enclosed rightExits second)
    (leftLeaves : ∀ label ∈ leftExits, label ∈ exits ++ placed (first ++ second))
    (rightLeaves : ∀ label ∈ rightExits, label ∈ exits ++ placed (first ++ second)) :
    Enclosed exits (first ++ second) := by
  intro instr member target isTarget
  rcases List.mem_append.mp member with inFirst | inSecond
  · rcases List.mem_append.mp (left instr inFirst target isTarget) with isExit | isPlaced
    · exact leftLeaves target isExit
    · rw [placed_append]
      exact List.mem_append_right _ (List.mem_append_left _ isPlaced)
  · rcases List.mem_append.mp (right instr inSecond target isTarget) with isExit | isPlaced
    · exact rightLeaves target isExit
    · rw [placed_append]
      exact List.mem_append_right _ (List.mem_append_right _ isPlaced)

theorem append (left : Enclosed exits first) (right : Enclosed exits second) :
    Enclosed exits (first ++ second) :=
  left.join right (fun _ => List.mem_append_left _) fun _ => List.mem_append_left _

/-- An instruction that does not jump. -/
theorem plain {instr : Instr} (quiet : instr.targets = []) : Enclosed exits [instr] := by
  intro other member target isTarget
  rw [List.mem_singleton.mp member, quiet] at isTarget
  cases isTarget

theorem goto (target : Label) : Enclosed [target] [.goto target] := by
  intro instr member label isTarget
  rw [List.mem_singleton.mp member] at isTarget
  exact List.mem_append_left _ isTarget

theorem joined (enclosed : Enclosed [] code) (target : Label) :
    Enclosed [target] (Lower.joined target code) := by
  rw [Lower.joined]
  split
  · intro instr member label isTarget
    exact List.mem_append_right _ (enclosed instr member label isTarget)
  · exact enclosed.join (.goto target) (List.forall_mem_nil _) fun _ => List.mem_append_left _

/-- Code behind a label. -/
theorem label (place : Label) (enclosed : Enclosed exits code) :
    Enclosed exits (.label place :: code) :=
  (Enclosed.plain rfl).append enclosed

end Enclosed

theorem Scope.Calm.enclosed {scope : Scope} {bound : Nat} {exits : List Label} {code : List Instr}
    (calm : scope.Calm bound exits code) : Enclosed exits code :=
  fun instr member => (calm instr member).jumps

theorem targets_standing (call : Call) : (Scope.standing call).targets = [] := by
  rw [Scope.standing]
  split <;> rfl

/-- The code of a statement jumps only to labels that it places. -/
def Phrase.Encloses (code : List Instr) : Phrase → Prop
  | .stmt _ | .body _ => Enclosed [] code
  | _ => True

theorem Lowers.encloses {scope : Scope} {phrase : Phrase} {before after : Counters}
    {code : List Instr} (lowers : Lowers scope phrase before code after) :
    phrase.Encloses code := by
  induction lowers with
  | block _ body => exact body
  | ifThen jumpLowers _ _ thenBranch =>
    exact jumpLowers.calm.enclosed.join
      (.label _ ((thenBranch.joined _).append (.label _ (.label _ .nil)))) (by simp) (by simp)
  | ifElse jumpLowers _ _ _ thenBranch elseBranch =>
    exact jumpLowers.calm.enclosed.join
      (.label _ ((thenBranch.joined _).join (.label _ (elseBranch.append (.label _ .nil)))
        (fun _ => List.mem_append_left _) nofun)) (by simp) (by simp)
  | whileLoop jumpLowers _ _ body =>
    -- The jump back leads to the label in front of all.
    have start (place : Label) : Enclosed [] [.label place] := .plain rfl
    have again (place done : Label) : Enclosed [place] [.goto place, .label done] :=
      (Enclosed.goto place).append (.label done .nil)
    exact (start _).join (jumpLowers.calm.enclosed.join (.label _ (body.join (again _ _) nofun
      fun _ => List.mem_append_left _)) (by simp) fun _ => List.mem_append_left _) nofun (by simp)
  | evalCall _ callLowers =>
    exact callLowers.calm.enclosed.append (.plain (targets_standing _))
  | eval _ valueLowers => exact valueLowers.calm.enclosed
  | assignField _ _ valueLowers | assignVariable _ _ _ valueLowers | returnValue valueLowers =>
    exact valueLowers.calm.enclosed.append (.plain rfl)
  | assignElement _ arrayLowers positionLowers valueLowers =>
    exact arrayLowers.calm.enclosed.append (positionLowers.calm.enclosed.append
      (valueLowers.calm.enclosed.append (.plain rfl)))
  | returnNothing => exact .plain rfl
  | noStmts => exact .nil
  | moreStmts _ _ first rest => exact first.append rest
  | _ => trivial

/-- The last instruction of a condition's code jumps to one of the labels it decides between. -/
def Phrase.JumpsAtLast (code : List Instr) : Phrase → Prop
  | .jump _ onTrue onFalse => ∃ target ∈ [onTrue, onFalse], code.getLast? = some (.goto target)
  | _ => True

theorem Lowers.jumpsAtLast {scope : Scope} {phrase : Phrase} {before after : Counters}
    {code : List Instr} (lowers : Lowers scope phrase before code after) :
    phrase.JumpsAtLast code := by
  induction lowers with
  | decided => exact ⟨_, by split <;> simp, rfl⟩
  | less | nonZero => exact ⟨_, by simp, List.getLast?_append_of_ne_nil _ (by simp)⟩
  | and _ _ _ right | or _ _ _ right =>
    obtain ⟨target, isExit, last⟩ := right
    exact ⟨target, isExit, by simp [List.getLast?_cons, last]⟩
  | not _ operand =>
    obtain ⟨target, isExit, last⟩ := operand
    exact ⟨target, by simpa [or_comm] using isExit, last⟩
  | parenJump _ inner => exact inner
  | _ => trivial

/-! ### Labels are placed once -/

/-- The labels that the code of a class places, method after method. -/
def ClassCode.labels (code : ClassCode) : List Label :=
  code.methods.flatMap fun method => placed method.body

namespace Scope

/-- A method takes its labels from the range that its lowering counts through. -/
theorem freshLabels_lowerMethod {scope : Scope} {body : List Stmt} {before : Counters}
    {method : MethodCode} (lowered : (scope.lowerMethod body before).1 = .ok method) :
    FreshLabels before.labels (scope.lowerMethod body before).2.labels (placed method.body) := by
  rw [lowerMethod] at lowered ⊢
  cases outcome : (scope.lowerBody body before).outcome with
  | error fault =>
    rw [outcome] at lowered
    cases lowered
  | ok result =>
    rw [outcome] at lowered
    obtain rfl := Except.ok.inj lowered
    show FreshLabels _ _ (placed (scope.method.close _))
    rw [Signature.placed_close]
    exact (lowers_body (Lower.gives_of_ok outcome)).freshLabels

/-- Each method takes its labels from behind those of the methods before it. -/
theorem freshLabels_lowerMethods {decls : List (MethodDecl × Scope)} {before : Counters}
    {methods : List MethodCode} (lowered : (lowerMethods decls before).1 = .ok methods) :
    FreshLabels before.labels (lowerMethods decls before).2.labels
      (methods.flatMap fun method => placed method.body) := by
  induction decls generalizing before methods with
  | nil =>
    obtain rfl := Except.ok.inj lowered
    exact .nil _ _
  | cons decl rest inductionHypothesis =>
    rw [lowerMethods] at lowered ⊢
    cases first : (decl.2.lowerMethod decl.1.body before).1 with
    | error fault =>
      simp only [first] at lowered
      cases lowered
    | ok method =>
      simp only [first] at lowered ⊢
      cases others : (lowerMethods rest (decl.2.lowerMethod decl.1.body before).2).1 with
      | error fault =>
        rw [others] at lowered
        cases lowered
      | ok restMethods =>
        rw [others] at lowered
        obtain rfl := Except.ok.inj lowered
        rw [List.flatMap_cons]
        exact (freshLabels_lowerMethod first).append (inductionHypothesis others)
          (decl.2.grows_lowerMethod decl.1.body before).labels (grows_lowerMethods rest _).labels

end Scope

namespace ClassTable

theorem freshLabels_lower {table : ClassTable} {program : Program} {before : Counters}
    {code : ClassCode} (lowered : (table.lower program before).1 = .ok code) :
    FreshLabels before.labels (table.lower program before).2.labels code.labels := by
  rw [lower] at lowered ⊢
  cases paired : table.scopes program with
  | error fault =>
    rw [paired] at lowered
    cases lowered
  | ok decls =>
    simp only [paired] at lowered ⊢
    cases methods : (Scope.lowerMethods decls before).1 with
    | error fault =>
      rw [methods] at lowered
      cases lowered
    | ok methodCodes =>
      rw [methods] at lowered
      obtain rfl := Except.ok.inj lowered
      exact Scope.freshLabels_lowerMethods methods

/-! ### One program after the other -/

/-- Lower programs one after the other, each from where the counters were left, whether or not the
programs before it could be lowered. -/
def lowerAll (table : ClassTable) :
    List Program → Counters → List (Except Fault ClassCode) × Counters
  | [], counters => ([], counters)
  | program :: rest, counters =>
    let first := table.lower program counters
    let others := table.lowerAll rest first.2
    (first.1 :: others.1, others.2)

/-- The code of the programs that could be lowered. -/
def codes (table : ClassTable) (programs : List Program) (counters : Counters) : List ClassCode :=
  (table.lowerAll programs counters).1.filterMap Except.toOption

theorem grows_lowerAll (table : ClassTable) (programs : List Program) (counters : Counters) :
    counters.Grows (table.lowerAll programs counters).2 := by
  induction programs generalizing counters with
  | nil => exact .refl counters
  | cons program rest inductionHypothesis =>
    exact (table.grows_lower program counters).trans (inductionHypothesis _)

/-- The code of the first program, if there is any, comes before that of the others. -/
theorem codes_cons (table : ClassTable) (program : Program) (rest : List Program)
    (counters : Counters) :
    table.codes (program :: rest) counters =
      (table.lower program counters).1.toOption.toList ++
        table.codes rest (table.lower program counters).2 := by
  rw [codes, lowerAll, List.filterMap_cons]
  cases (table.lower program counters).1 <;> rfl

/-- All code that is lowered takes its labels from the range that is counted through. -/
theorem freshLabels_codes (table : ClassTable) (programs : List Program) (counters : Counters) :
    FreshLabels counters.labels (table.lowerAll programs counters).2.labels
      ((table.codes programs counters).flatMap ClassCode.labels) := by
  induction programs generalizing counters with
  | nil => exact .nil _ _
  | cons program rest inductionHypothesis =>
    rw [codes_cons, List.flatMap_append]
    refine FreshLabels.append ?_ (inductionHypothesis _) (table.grows_lower program counters).labels
      (table.grows_lowerAll rest _).labels
    cases lowered : (table.lower program counters).1 with
    | error fault => exact .nil _ _
    | ok code =>
      rw [Except.toOption, Option.toList_some, List.flatMap_singleton]
      exact freshLabels_lower lowered

/-- All code that is lowered comes from one of the programs. -/
theorem lowered_of_mem_codes {table : ClassTable} {programs : List Program} {counters : Counters}
    {code : ClassCode} (member : code ∈ table.codes programs counters) :
    ∃ program before, (table.lower program before).1 = .ok code := by
  induction programs generalizing counters with
  | nil => cases member
  | cons program rest inductionHypothesis =>
    rw [codes_cons, List.mem_append, Option.mem_toList] at member
    rcases member with isFirst | inRest
    · refine ⟨program, counters, ?_⟩
      cases outcome : (table.lower program counters).1 with
      | error fault =>
        rw [outcome] at isFirst
        cases isFirst
      | ok other =>
        rw [outcome] at isFirst
        exact congrArg Except.ok (Option.some.inj isFirst)
    · exact inductionHypothesis inRest

end ClassTable

/-- The jumps of a method lead to labels that it places. -/
theorem Scope.Compiles.enclosed {scope : Scope} {body : List Stmt} {method : MethodCode}
    (compiles : scope.Compiles body method) : Enclosed [] method.body := by
  obtain ⟨before, code, after, lowers, rfl⟩ := compiles
  have enclosed : Enclosed [] code := lowers.encloses
  show Enclosed [] (scope.method.close code)
  rcases scope.method.close_cases code with ⟨-, added⟩ | ⟨same, -⟩
  · rw [added]
    exact enclosed.append (.plain rfl)
  · rwa [same]

namespace ClassTable

/-- In all that is lowered with the same counters, failures included, no label is placed twice;
every jump of a method leads to a label in the same method; and the code of a condition ends in a
jump to one of the labels that it decides between, so it is never left behind its last
instruction. -/
theorem labels_of_codes (table : ClassTable) (programs : List Program) (counters : Counters) :
    ((table.codes programs counters).flatMap ClassCode.labels).Nodup ∧
      (∀ code ∈ table.codes programs counters, ∀ method ∈ code.methods, ∀ instr ∈ method.body,
        ∀ target ∈ instr.targets, Instr.label target ∈ method.body) ∧
      ∀ (scope : Scope) (condition : Expr) (onTrue onFalse : Label) (before : Counters),
        (scope.lowerJump condition onTrue onFalse before).outcome = .ok () →
        ∃ target ∈ [onTrue, onFalse],
          (scope.lowerJump condition onTrue onFalse before).code.getLast? = some (.goto target) := by
  refine ⟨(table.freshLabels_codes programs counters).nodup, ?_, ?_⟩
  · intro code inCodes method inMethods instr inBody target isTarget
    obtain ⟨program, before, lowered⟩ := lowered_of_mem_codes inCodes
    obtain ⟨scope, body, compiles⟩ := compiles_of_mem lowered inMethods
    exact mem_placed.mp (compiles.enclosed instr inBody target isTarget)
  · intro scope condition onTrue onFalse before succeeds
    exact ((scope.sound condition).jump (Lower.gives_of_ok succeeds)).jumpsAtLast

end ClassTable

/-- A class with a method that loops while a truth value decides, and then does one more thing. -/
def Program.looping (last : Stmt) : Program where
  imports := []
  classDecl :=
    { name := "A"
      superClass := none
      fields := []
      methods :=
        [{ name := "f"
           isPublic := true
           isStatic := false
           returnType := .ofTy .nowhere .void
           params := [⟨.ofTy .nowhere .boolean, "go", false, .nowhere⟩]
           locals := []
           body :=
             [.whileLoop .nowhere
                (.binary .nowhere .and (.name .nowhere "go") (.literal .nowhere (.bool true)))
                (.block .nowhere []),
              last]
           pos := .nowhere }]
      pos := .nowhere }
  pos := .nowhere

/-- Three programs, of which the second fails behind its loop. -/
def Program.attempts : List Program :=
  [.looping (.block .nowhere []), .looping (.eval .nowhere (.name .nowhere "missing")),
    .looping (.block .nowhere [])]

theorem labels_of_codes_attempts :
    ∃ first fault third,
      ((ClassTable.ofProgram (.looping (.block .nowhere []))).lowerAll Program.attempts {}).1 =
        [.ok first, .error fault, .ok third] ∧
      first.labels.length = 4 ∧ third.labels.length = 4 ∧
      (first.labels ++ third.labels).Nodup ∧
      (∀ method ∈ third.methods, ∀ instr ∈ method.body, ∀ target ∈ instr.targets,
        Instr.label target ∈ method.body) ∧
      ∃ target ∈ [Label.mk "yes", Label.mk "no"],
        (Scope.lowerJump default (.literal .nowhere (.bool false)) ⟨"yes"⟩ ⟨"no"⟩
          {}).code.getLast? = some (.goto target) := by
  obtain ⟨unique, closed, last⟩ := ClassTable.labels_of_codes
    (.ofProgram (.looping (.block .nowhere []))) Program.attempts {}
  refine ⟨_, _, _, rfl, rfl, rfl, ?_, closed _ (.tail _ (.head _)), last _ _ _ _ _ rfl⟩
  have both : ∀ one other : ClassCode,
      [one, other].flatMap ClassCode.labels = one.labels ++ other.labels := by simp
  exact (both _ _) ▸ unique

end JavaMinus
