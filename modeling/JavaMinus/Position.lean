/-
Source positions. Every node of a program remembers the line and the column it
was read at, so that a diagnostic can point there. The position `0:0` stands
for "nowhere in particular": it is what a node without a position carries, and
what faults raised after the source is gone report.
-/

namespace JavaMinus

/-- A line and a column of the source text. -/
structure Pos where
  line : Nat
  col : Nat
deriving DecidableEq, Repr, Inhabited

/-- The position of things that were not read from a source text. -/
def Pos.nowhere : Pos := ⟨0, 0⟩

/-- Where a text begins. -/
def Pos.first : Pos := ⟨1, 1⟩

/-- A position is written as line and column with a colon between them. -/
def Pos.text (pos : Pos) : String := s!"{pos.line}:{pos.col}"

end JavaMinus
