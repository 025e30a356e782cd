/-
Blank characters. A blank is a character with the White_Space property of the
Unicode standard: the tabulation and line control characters, the space, the
next-line control, and the spaces and separators of the general punctuation
block and its neighbours. Trimming removes blanks at both ends of a text and
none inside it.
-/

namespace JavaMinus.Text

/-- The code points with the White_Space property. -/
def isBlank (char : Char) : Bool :=
  let code := char.toNat
  (0x09 ≤ code && code ≤ 0x0D) || code == 0x20 || code == 0x85 || code == 0xA0 ||
    code == 0x1680 || (0x2000 ≤ code && code ≤ 0x200A) || code == 0x2028 || code == 0x2029 ||
    code == 0x202F || code == 0x205F || code == 0x3000

/-- Drop the characters with a property from the end of a text. -/
def dropEnd (drops : Char → Bool) (text : List Char) : List Char :=
  (text.reverse.dropWhile drops).reverse

/-- Remove the blanks at both ends. -/
def trim (text : List Char) : List Char := dropEnd isBlank (text.dropWhile isBlank)

/-- A text that starts with nothing to drop keeps its start. -/
theorem dropWhile_eq_self {drops : Char → Bool} {text : List Char}
    (kept : ∀ char ∈ text, drops char = false) : text.dropWhile drops = text := by
  cases text with
  | nil => rfl
  | cons first rest =>
    rw [List.dropWhile_cons, kept first List.mem_cons_self]
    rfl

theorem dropEnd_eq_self {drops : Char → Bool} {text : List Char}
    (kept : ∀ char ∈ text, drops char = false) : dropEnd drops text = text := by
  rw [dropEnd, dropWhile_eq_self fun char member => kept char (List.mem_reverse.mp member),
    List.reverse_reverse]

/-- Trimming leaves a text without blanks as it is. -/
theorem trim_eq_self {text : List Char} (solid : ∀ char ∈ text, isBlank char = false) :
    trim text = text := by
  rw [trim, dropWhile_eq_self solid, dropEnd_eq_self solid]

end JavaMinus.Text
