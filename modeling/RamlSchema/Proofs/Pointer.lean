/-
RamlSchema/Proofs/Pointer.lean

Pointers read back.

Two replacements make an escaped step of a text, and two undo it (`replaceAll`).  Their
order counts.  Were slashes replaced first, the tilde in `~1` would be escaped as well;
and were `~0` undone first, the `~01` that stands for `~1` would end as a slash.  In the
right order both come down to a single pass, which treats each character by itself
(`escapeChars_eq`) or looks one character ahead (`unescapeChars_eq`).

An escaped step has no slash, so those of a pointer are the ones between its steps, and
what stands behind the parent is read back by cutting it there (`read_trail`).

Main results: `escape_eq_iff`, by which the escaped form of a step is the only text that
is escaped and stands for the step, and `append_inj`, by which the steps of a pointer can
be told from it.
-/
import RamlSchema.Pointer
import Mathlib.Data.List.Basic

namespace RamlSchema

namespace Pointer

variable {cs : List Char}

/-! ### Replacing -/

/-- The characters with each occurrence of a pattern, found from the left, replaced by a
text. -/
def replaceAll (pattern text : List Char) : List Char → List Char
  | [] => []
  | c :: cs =>
    if pattern.isPrefixOf (c :: cs) then
      text ++ replaceAll pattern text (cs.drop (pattern.length - 1))
    else c :: replaceAll pattern text cs
termination_by cs => cs.length
decreasing_by
  all_goals
    simp only [List.length_drop, List.length_cons]
    omega

theorem replaceAll_singleton (a : Char) (text cs : List Char) :
    replaceAll [a] text cs = cs.flatMap fun c => if c = a then text else [c] := by
  induction cs with
  | nil => simp [replaceAll]
  | cons c cs ih =>
    rw [List.flatMap_cons, ← ih, replaceAll]
    by_cases h : c = a
    · simp [h]
    · simp [h, Ne.symm h]

theorem replaceAll_cons {pattern text : List Char} {c : Char} (h : ¬ pattern <+: c :: cs) :
    replaceAll pattern text (c :: cs) = c :: replaceAll pattern text cs := by
  rw [replaceAll, if_neg fun hprefix => h (List.isPrefixOf_iff_prefix.mp hprefix)]

/-- **Escaping in one pass** is replacing first each tilde and then each slash. -/
theorem escapeChars_eq (cs : List Char) :
    escapeChars cs = replaceAll ['/'] ['~', '1'] (replaceAll ['~'] ['~', '0'] cs) := by
  rw [replaceAll_singleton, replaceAll_singleton, List.flatMap_assoc, escapeChars]
  refine List.flatMap_congr fun c _ => ?_
  by_cases h : c = '~' <;> by_cases h' : c = '/' <;> simp_all [escapeChar]

/-- In the other order, a slash would be spelled as `~1` is. -/
example :
    replaceAll ['~'] ['~', '0'] (replaceAll ['/'] ['~', '1'] ['/']) = escapeChars ['~', '1'] := by
  cbv

/-- Undoing each `~1` brings no zero to the front. -/
theorem zero_prefix_of_replaceAll (h : ['0'] <+: replaceAll ['~', '1'] ['/'] cs) :
    ['0'] <+: cs := by
  rcases cs with - | ⟨c, cs⟩
  · simp [replaceAll] at h
  · rw [replaceAll] at h
    split at h
    · simp at h
    · simpa using h

/-- **Reading in one pass** is undoing first each `~1` and then each `~0`. -/
theorem unescapeChars_eq (cs : List Char) :
    unescapeChars cs = replaceAll ['~', '0'] ['~'] (replaceAll ['~', '1'] ['/'] cs) := by
  fun_induction unescapeChars cs with
  | case1 cs ih => simp [replaceAll, ih]
  | case2 cs ih => simp [replaceAll, ih]
  | case3 c cs hzero hone ih =>
    have hslash : ¬ ['~', '1'] <+: c :: cs := by
      rintro ⟨rest, hrest⟩
      obtain ⟨rfl, rfl⟩ := List.cons_eq_cons.mp hrest
      exact hone rest rfl rfl
    -- a `~0` is found in what the first replacement leaves, so it was there before
    have htilde : ¬ ['~', '0'] <+: c :: replaceAll ['~', '1'] ['/'] cs := by
      intro hprefix
      obtain ⟨rfl, hfront⟩ := List.cons_prefix_cons.mp hprefix
      obtain ⟨rest, rfl⟩ := zero_prefix_of_replaceAll hfront
      exact hzero rest rfl rfl
    rw [replaceAll_cons hslash, replaceAll_cons htilde, ih]
  | case4 => simp [replaceAll]

/-! ### Escaped texts -/

/-- A text that has no slash, and no tilde but in `~0` and `~1`. -/
structure Escaped (cs : List Char) : Prop where
  slash : '/' ∉ cs
  tilde : ∀ rest, '~' :: rest <:+ cs → rest.head? = some '0' ∨ rest.head? = some '1'

theorem Escaped.of_cons {c : Char} (h : Escaped (c :: cs)) : Escaped cs where
  slash hmem := h.slash (List.mem_cons_of_mem c hmem)
  tilde rest hrest := h.tilde rest (hrest.trans (List.suffix_cons c cs))

theorem Escaped.cons {c : Char} (hc : c ≠ '/')
    (htilde : c = '~' → cs.head? = some '0' ∨ cs.head? = some '1') (h : Escaped cs) :
    Escaped (c :: cs) where
  slash hmem := (List.mem_cons.mp hmem).elim (fun he => hc he.symm) h.slash
  tilde rest hrest := by
    rcases List.suffix_cons_iff.mp hrest with heq | hrest
    · obtain ⟨rfl, rfl⟩ := List.cons_eq_cons.mp heq
      exact htilde rfl
    · exact h.tilde rest hrest

theorem escaped_escapeChars (cs : List Char) : Escaped (escapeChars cs) := by
  induction cs with
  | nil => exact ⟨List.not_mem_nil, fun rest h => nomatch List.suffix_nil.mp h⟩
  | cons c cs ih =>
    have hcons : escapeChars (c :: cs) = escapeChar c ++ escapeChars cs := rfl
    rw [hcons, escapeChar]
    -- neither the digit behind a tilde nor a character that stands for itself needs an escape
    have hplain : ∀ d, d ≠ '/' → d ≠ '~' → Escaped (d :: escapeChars cs) :=
      fun d hslash htilde => .cons hslash (fun h => absurd h htilde) ih
    split
    · exact .cons (by decide) (fun _ => .inl rfl) (hplain '0' (by decide) (by decide))
    · split
      · exact .cons (by decide) (fun _ => .inr rfl) (hplain '1' (by decide) (by decide))
      · rename_i htilde hslash
        exact hplain c hslash htilde

/-- An escaped text is the escaped form of what it stands for. -/
theorem Escaped.escapeChars_unescapeChars (h : Escaped cs) :
    escapeChars (unescapeChars cs) = cs := by
  fun_induction unescapeChars cs with
  | case1 cs ih => exact congrArg (['~', '0'] ++ ·) (ih h.of_cons.of_cons)
  | case2 cs ih => exact congrArg (['~', '1'] ++ ·) (ih h.of_cons.of_cons)
  | case3 c cs hzero hone ih =>
    have htilde : c ≠ '~' := by
      rintro rfl
      rcases h.tilde cs List.suffix_rfl with hd | hd
      · obtain ⟨rest, rfl⟩ := List.head?_eq_some_iff.mp hd
        exact hzero rest rfl rfl
      · obtain ⟨rest, rfl⟩ := List.head?_eq_some_iff.mp hd
        exact hone rest rfl rfl
    have hslash : c ≠ '/' := fun he => h.slash (he ▸ List.mem_cons_self)
    have hc : escapeChar c = [c] := by simp [escapeChar, htilde, hslash]
    rw [escapeChars, List.flatMap_cons, hc]
    exact congrArg (c :: ·) (ih h.of_cons)
  | case4 => rfl

/-- What an escaped text stands for: first each `~1` becomes a slash, then each `~0` a
tilde. -/
def unescape (text : String) : String :=
  .ofList (replaceAll ['~', '0'] ['~'] (replaceAll ['~', '1'] ['/'] text.toList))

/-- **The escaped form of a step** is the only text that is escaped and stands for it. -/
theorem escape_eq_iff {step text : String} :
    escape step = text ↔ Escaped text.toList ∧ unescape text = step := by
  rw [unescape, ← unescapeChars_eq]
  constructor
  · rintro rfl
    rw [escape, String.toList_ofList, unescapeChars_escapeChars, String.ofList_toList]
    exact ⟨escaped_escapeChars _, rfl⟩
  · rintro ⟨h, rfl⟩
    rw [escape, String.toList_ofList, h.escapeChars_unescapeChars, String.ofList_toList]

/-! ### Steps behind a parent -/

/-- The text that steps add to a pointer. -/
def trail (steps : List String) : List Char :=
  steps.flatMap fun step => '/' :: escapeChars step.toList

/-- The steps of a text behind a parent. -/
def read (cs : List Char) : List String :=
  (cs.splitOn '/').tail.map fun step => .ofList (unescapeChars step)

/-- The steps are what stands behind the slashes, whatever stands before the first one. -/
theorem splitOn_append_trail (hcs : '/' ∉ cs) (names : List String) :
    (cs ++ trail names).splitOn '/' = cs :: names.map fun name => escapeChars name.toList := by
  induction names generalizing cs with
  | nil => simpa [trail] using List.splitOn_eq_singleton hcs
  | cons name names ih =>
    have htrail : trail (name :: names) = '/' :: (escapeChars name.toList ++ trail names) := rfl
    rw [htrail, List.splitOn_append_cons_self_of_not_mem hcs, ih (escaped_escapeChars _).slash]
    rfl

/-- **Steps are read back** from what they add to a pointer. -/
theorem read_trail (names : List String) : read (trail names) = names := by
  have hread : ∀ name : String, .ofList (unescapeChars (escapeChars name.toList)) = name :=
    fun name => by rw [unescapeChars_escapeChars, String.ofList_toList]
  have hsplit := splitOn_append_trail List.not_mem_nil names
  rw [List.nil_append] at hsplit
  simp [read, hsplit, Function.comp_def, hread]

theorem toList_append (parent : String) (steps : List String) :
    (append parent steps).toList = parent.toList ++ trail steps := by
  induction steps generalizing parent with
  | nil => simp [append, trail]
  | cons step steps ih =>
    have happend : append parent (step :: steps) = append (parent ++ "/" ++ escape step) steps := rfl
    rw [happend, ih]
    simp [trail, escape]

/-- **Steps can be told** from the pointer that they lead to. -/
theorem append_inj {parent : String} {names others : List String} :
    append parent names = append parent others ↔ names = others := by
  refine ⟨fun h => ?_, fun h => h ▸ rfl⟩
  have htrail : trail names = trail others := by
    have hlist := congrArg String.toList h
    rw [toList_append, toList_append] at hlist
    exact List.append_cancel_left hlist
  rw [← read_trail names, htrail, read_trail]

theorem append_append (parent : String) (names others : List String) :
    append parent (names ++ others) = append (append parent names) others :=
  List.foldl_append

end Pointer

end RamlSchema
