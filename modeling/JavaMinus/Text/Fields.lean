/-
Splitting a text at separators. A text with `n` separators has `n + 1` fields,
some of which may be empty; the separators themselves belong to no field. Names
with dots in them are read this way, and the part after the last dot is the name
that the rest of a program uses.
-/

namespace JavaMinus.Text

/-- The fields of a text between the separators. -/
def fields (separates : Char → Bool) : List Char → List (List Char)
  | [] => [[]]
  | char :: rest =>
    if separates char then [] :: fields separates rest
    else
      match fields separates rest with
      | [] => [[char]]
      | field :: others => (char :: field) :: others

/-- The field behind the last separator; the whole text if it has none. -/
def lastField (separates : Char → Bool) (text : List Char) : List Char :=
  ((fields separates text).getLast?).getD []

/-- There is always a field. -/
theorem fields_ne_nil (separates : Char → Bool) (text : List Char) :
    fields separates text ≠ [] := by
  cases text with
  | nil => simp [fields]
  | cons char rest =>
    rw [fields]
    split
    · simp
    · split <;> simp

/-- A text without separators is its own only field. -/
theorem fields_eq_singleton {separates : Char → Bool} {text : List Char}
    (solid : ∀ char ∈ text, separates char = false) : fields separates text = [text] := by
  induction text with
  | nil => rfl
  | cons char rest inductionHypothesis =>
    have whole := inductionHypothesis fun other member => solid other (List.mem_cons_of_mem _ member)
    simp [fields, solid char List.mem_cons_self, whole]

/-- A separator ends the last field before it. -/
theorem fields_append_cons {separates : Char → Bool} {separator : Char}
    (separating : separates separator = true) (text rest : List Char) :
    fields separates (text ++ separator :: rest) = fields separates text ++ fields separates rest := by
  induction text with
  | nil => simp [fields, separating]
  | cons char others inductionHypothesis =>
    rw [List.cons_append, fields, fields, inductionHypothesis]
    split
    · rfl
    · split
      · next none => exact absurd none (List.append_ne_nil_of_left_ne_nil (fields_ne_nil _ _) _)
      · next field remaining same =>
        cases others : fields separates others with
        | nil => exact absurd others (fields_ne_nil _ _)
        | cons first behind =>
          rw [others] at same
          cases same
          rfl

end JavaMinus.Text
