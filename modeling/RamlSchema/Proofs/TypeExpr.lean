/-
RamlSchema/Proofs/TypeExpr.lean

What reading a type expression leaves of its text.

The element of an array is a stretch of the text: what stands before the brackets
at the end, without the blanks and the parentheses around it.  So an expression
has fewer pairs of brackets with every array suffix that is taken off
(`bracketPairs_of_parse?`), and there is an end to taking them off.
-/
import RamlSchema.TypeExpr
import Mathlib.Data.List.DropRight
import Mathlib.Data.List.Infix
import Mathlib.Data.List.TakeWhile

namespace RamlSchema

theorem Text.infix_trimChars (cs : List Char) : trimChars cs <:+: cs := by
  have hstart : cs.dropWhile isBlank <:+ cs := List.dropWhile_suffix _
  have hend := List.reverse_prefix.mpr
    (List.dropWhile_suffix isBlank (l := (cs.dropWhile isBlank).reverse))
  rw [List.reverse_reverse] at hend
  exact hend.isInfix.trans hstart.isInfix

/-- A text that is trimmed has nothing left to trim. -/
theorem Text.trimChars_trimChars (cs : List Char) : trimChars (trimChars cs) = trimChars cs := by
  have hstart : (cs.dropWhile isBlank).dropWhile isBlank = cs.dropWhile isBlank :=
    List.dropWhile_idempotent isBlank cs
  -- what is trimmed begins as the text without the blanks before it does
  have hfirst : (trimChars cs).dropWhile isBlank = trimChars cs := by
    have hfront : trimChars cs <+: cs.dropWhile isBlank :=
      List.rdropWhile_prefix isBlank (cs.dropWhile isBlank)
    refine List.dropWhile_eq_self_iff.mpr fun hlength => ?_
    rw [hfront.getElem hlength]
    exact List.dropWhile_eq_self_iff.mp hstart _
  have hlast : List.rdropWhile isBlank (trimChars cs) = trimChars cs :=
    List.rdropWhile_idempotent isBlank (cs.dropWhile isBlank)
  show List.rdropWhile isBlank ((trimChars cs).dropWhile isBlank) = trimChars cs
  rw [hfirst, hlast]

theorem Text.trim_trim (s : String) : trim (trim s) = trim s := by
  rw [trim, trim, String.toList_ofList, trimChars_trimChars]

namespace TypeExpr

/-! ### The element of an array -/

theorem arrayElement?_eq_some {cs element : List Char} (h : arrayElement? cs = some element) :
    cs = element ++ ['[', ']'] := by
  unfold arrayElement? at h
  split at h
  · rename_i r hr
    obtain rfl := Option.some.inj h
    simpa using congrArg List.reverse hr
  · cases h

theorem infix_of_group? {cs inner : List Char} (h : group? cs = some inner) : inner <:+: cs := by
  unfold group? at h
  split at h
  · rename_i r
    split at h
    · rename_i r' hr
      obtain rfl := Option.some.inj h
      have hgroup : r = r'.reverse ++ [')'] := by simpa using congrArg List.reverse hr
      exact ⟨['('], [')'], by simp [hgroup]⟩
    · cases h
  · cases h

theorem infix_stripGroup (cs : List Char) : stripGroup cs <:+: cs := by
  unfold stripGroup
  split
  · rename_i inner h
    split
    · exact List.infix_rfl
    · exact (Text.infix_trimChars inner).trans (infix_of_group? h)
  · exact List.infix_rfl

/-! ### Pairs of brackets -/

/-- The pairs of brackets in a text; each array suffix is one. -/
def bracketPairs : List Char → Nat
  | '[' :: ']' :: cs => bracketPairs cs + 1
  | _ :: cs => bracketPairs cs
  | [] => 0

theorem bracketPairs_le_cons (c : Char) (cs : List Char) :
    bracketPairs cs ≤ bracketPairs (c :: cs) := by
  rw [bracketPairs.eq_def (c :: cs)]
  split
  · rename_i ds h
    obtain ⟨rfl, rfl⟩ : c = '[' ∧ cs = ']' :: ds := by simpa using h
    simp [bracketPairs]
  · simp_all
  · simp_all

theorem bracketPairs_append_le (cs ds : List Char) :
    bracketPairs cs + bracketPairs ds ≤ bracketPairs (cs ++ ds) := by
  fun_induction bracketPairs cs with
  | case1 cs ih =>
    simp only [List.cons_append, bracketPairs]
    omega
  | case2 c cs _ ih => exact ih.trans (bracketPairs_le_cons c (cs ++ ds))
  | case3 => simp

theorem bracketPairs_le_of_infix {cs ds : List Char} (h : cs <:+: ds) :
    bracketPairs cs ≤ bracketPairs ds := by
  obtain ⟨before, behind, rfl⟩ := h
  have hbefore := bracketPairs_append_le before cs
  have hbehind := bracketPairs_append_le (before ++ cs) behind
  omega

/-- The element of an array has a pair of brackets less. -/
theorem bracketPairs_of_parse? {text element : String}
    (h : parse? text = some (.arrayOf element)) :
    bracketPairs element.toList + 1 ≤ bracketPairs text.toList := by
  simp only [parse?] at h
  split at h
  · split at h <;> simp at h
  · split at h
    · rename_i cs hcs
      obtain rfl : String.ofList (stripGroup (Text.trimChars cs)) = element := by simpa using h
      have hinfix := (infix_stripGroup (Text.trimChars cs)).trans (Text.infix_trimChars cs)
      have helement := bracketPairs_le_of_infix hinfix
      have htext := bracketPairs_append_le cs ['[', ']']
      rw [← arrayElement?_eq_some hcs] at htext
      simp only [bracketPairs] at htext
      rw [String.toList_ofList]
      omega
    · cases h

end TypeExpr

end RamlSchema
