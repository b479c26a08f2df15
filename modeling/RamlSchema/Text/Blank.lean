/-
RamlSchema/Text/Blank.lean

Blank characters and the two things that are done with them: cutting them off
at both ends of a text, and dropping them everywhere.

A character is blank when Unicode gives it the property `White_Space`.  There
are twenty-five of them, listed here in order; the six that core's
`Char.isWhitespace` knows are among them, as are the no-break spaces and the
two Unicode line separators.  The zero-width space and the byte order mark are
not.
-/

namespace RamlSchema.Text

/-- A character with the Unicode property `White_Space`. -/
def isBlank (c : Char) : Bool :=
  ('\t' ≤ c && c ≤ '\r') || c = ' ' || c = '\u0085' || c = '\u00a0' || c = '\u1680'
    || ('\u2000' ≤ c && c ≤ '\u200a') || c = '\u2028' || c = '\u2029' || c = '\u202f'
    || c = '\u205f' || c = '\u3000'

/-- Every character of core's class of white space is blank. -/
theorem isBlank_of_isWhitespace {c : Char} (h : c.isWhitespace = true) : isBlank c = true := by
  simp only [Char.isWhitespace, Bool.or_eq_true, decide_eq_true_eq] at h
  rcases h with ((rfl | rfl) | rfl) | rfl <;> decide

/-! ### Trimming -/

/-- The characters without the blank ones at either end. -/
def trimChars (cs : List Char) : List Char :=
  ((cs.dropWhile isBlank).reverse.dropWhile isBlank).reverse

/-- The text without the blank characters at either end. -/
def trim (s : String) : String :=
  String.ofList (trimChars s.toList)

/-! ### Stripping -/

/-- The characters that are not blank. -/
def stripChars (cs : List Char) : List Char :=
  cs.filter fun c => !isBlank c

theorem isBlank_of_mem_stripChars {cs : List Char} {c : Char} (h : c ∈ stripChars cs) :
    isBlank c = false := by
  simpa using (List.mem_filter.1 h).2

end RamlSchema.Text
