/-
RamlSchema/Proofs/TypeExpr/Unions.lean

What bars make of a text.

`bars` are the positions of the bars outside parentheses, found without going through
the reader: at each position, the parentheses that are open before it are counted anew.
They cut the text into stretches (`Splits`).  A bar inside parentheses or a blank
anywhere makes no difference to the cuts, so what the reader makes of a text can be told
from the stretches of the text without its blanks (`parse?_eq_union_iff`,
`parse?_eq_none_iff`).

Main result: `read_by_bars`, for every text that is not blank.  It is a union if and only
if it has bars and no stretch is blank, and then the members are the stretches without
their blanks; without bars it is an array or a name.
-/
import RamlSchema.Normalize.NodeShape
import RamlSchema.Proofs.TypeExpr.Grammar

namespace RamlSchema

namespace TypeExpr

variable {depth : Nat} {cs m : List Char} {ms : List (List Char)} {s : String}

/-! ### Bars -/

/-- The positions of the bars outside parentheses, where `depth` of them are open at the
start. -/
def bars (depth : Nat) (cs : List Char) : List Nat :=
  (List.range cs.length).filter fun i =>
    cs[i]? = some '|' ∧ (cs.take i).foldl depthAfter depth = 0

theorem bars_cons (c : Char) :
    bars depth (c :: cs) =
      (if c = '|' ∧ depth = 0 then [0] else []) ++ (bars (depthAfter depth c) cs).map Nat.succ := by
  -- behind the first character, positions are one less
  have hlater : (List.range cs.length).filter ((fun i => decide ((c :: cs)[i]? = some '|' ∧
      ((c :: cs).take i).foldl depthAfter depth = 0)) ∘ Nat.succ) = bars (depthAfter depth c) cs :=
    List.filter_congr fun i _ => decide_eq_decide.mpr (by simp)
  rw [bars, List.length_cons, List.range_succ_eq_map, List.filter_cons, List.filter_map, hlater]
  by_cases hc : c = '|' ∧ depth = 0 <;> simp [hc]

/-- Each bar outside parentheses is followed by one more stretch. -/
theorem length_splitBars : (splitBars depth cs).2.length = (bars depth cs).length := by
  induction cs generalizing depth with
  | nil => rfl
  | cons c cs ih =>
    rw [bars_cons, splitBars]
    by_cases hc : c = '|' ∧ depth = 0
    · obtain ⟨rfl, rfl⟩ := hc
      simp [ih, depthAfter]
    · simp [hc, ih]

theorem barless_iff_bars : Barless 0 cs ↔ bars 0 cs = [] := by
  rw [barless_iff, ← List.length_eq_zero_iff, length_splitBars, List.length_eq_zero_iff]

/-! ### Stretches -/

theorem Splits.ne_nil (h : Splits cs ms) : ms ≠ [] := by
  cases h <;> simp

theorem Splits.length_eq (h : Splits cs ms) : ms.length = (bars 0 cs).length + 1 := by
  rw [splits_iff.mp h, List.length_cons, length_splitBars]

/-- With the bars between them, the stretches are the whole text. -/
theorem Splits.intercalate_eq (h : Splits cs ms) : ['|'].intercalate ms = cs := by
  induction h with
  | last _ => exact List.intercalate_singleton
  | @bar m cs ms _ _ hsplits ih =>
    obtain ⟨m', rest, rfl⟩ := List.exists_cons_of_ne_nil hsplits.ne_nil
    rw [List.intercalate_cons_cons, ih, List.append_assoc, List.singleton_append]

theorem Splits.barless (h : Splits cs ms) : ∀ m ∈ ms, Barless 0 m := by
  induction h with
  | last hm => simpa using hm
  | bar hm _ _ ih => simpa using ⟨hm, ih⟩

theorem Splits.infix_of_mem (h : Splits cs ms) : ∀ m ∈ ms, m <:+: cs := by
  induction h with
  | last _ => simp
  | @bar m cs ms _ _ _ ih =>
    have hbehind : cs <:+ m ++ '|' :: cs := ⟨m ++ ['|'], by simp⟩
    simp only [List.forall_mem_cons]
    exact ⟨(List.prefix_append m _).isInfix, fun m' hm' => (ih m' hm').trans hbehind.isInfix⟩

/-! ### Without blanks -/

theorem depthAfter_of_isBlank {c : Char} (h : Text.isBlank c = true) :
    c ≠ '|' ∧ depthAfter depth c = depth := by
  have hne : ∀ d, Text.isBlank d = false → c ≠ d := by
    rintro d hd rfl
    cases hd.symm.trans h
  refine ⟨hne '|' (by decide), ?_⟩
  rw [depthAfter, if_neg (hne '(' (by decide)), if_neg (hne ')' (by decide))]

/-- Blanks are neither bars nor parentheses, so a text without them splits as it does with
them. -/
theorem splitBars_stripChars : splitBars depth (Text.stripChars cs) =
    (Text.stripChars (splitBars depth cs).1, (splitBars depth cs).2.map Text.stripChars) := by
  induction cs generalizing depth with
  | nil => rfl
  | cons c cs ih =>
    rcases hblank : Text.isBlank c
    · have hstrip : ∀ ds, Text.stripChars (c :: ds) = c :: Text.stripChars ds := by
        simp [Text.stripChars, hblank]
      by_cases hc : c = '|' ∧ depth = 0
      · obtain ⟨rfl, rfl⟩ := hc
        simp [splitBars, hstrip, ih, show Text.stripChars [] = [] from rfl]
      · simp [splitBars, hstrip, hc, ih]
    · obtain ⟨hbar, hdepth⟩ : c ≠ '|' ∧ depthAfter depth c = depth :=
        depthAfter_of_isBlank hblank
      have hstrip : ∀ ds, Text.stripChars (c :: ds) = Text.stripChars ds := by
        simp [Text.stripChars, hblank]
      simp [splitBars, hstrip, hbar, hdepth, ih]

theorem Splits.stripChars (h : Splits cs ms) :
    Splits (Text.stripChars cs) (ms.map Text.stripChars) := by
  rw [splits_iff, splitBars_stripChars, splits_iff.mp h, List.map_cons]

/-! ### Members -/

/-- A text with bars outside parentheses is a union of its stretches without the blanks,
unless one of them is blank. -/
theorem parse?_of_two_le (h : Splits (Text.stripChars s.toList) ms) (hlength : 2 ≤ ms.length) :
    parse? s = if [] ∈ ms then none else some (.union (ms.map String.ofList)) := by
  have hms := splits_iff.mp h
  rw [splitBars_stripChars] at hms
  rcases hsplit : splitBars 0 s.toList with ⟨m, - | ⟨m', rest⟩⟩
  · simp [hms, hsplit] at hlength
  · have hempty : (ms.any List.isEmpty) = true ↔ [] ∈ ms := by simp
    simp only [hsplit, ← List.map_cons] at hms
    simp only [parse?, hsplit, ← hms, hempty]

/-- A text without one is an array or a name. -/
theorem parse?_of_bars_eq_nil (h : bars 0 s.toList = []) :
    parse? s = match arrayElement? s.toList with
      | some element => some (.arrayOf (String.ofList (stripGroup (Text.trimChars element))))
      | none => some (.named s) := by
  have hsplit : splitBars 0 s.toList = (s.toList, []) :=
    splitBars_of_barless (barless_iff_bars.mpr h)
  rcases harray : arrayElement? s.toList with - | element <;> simp only [parse?, hsplit, harray]

theorem Splits.unique {ms' : List (List Char)} (h : Splits cs ms) (h' : Splits cs ms') :
    ms = ms' :=
  (splits_iff.mp h).trans (splits_iff.mp h').symm

/-- Without the blanks, a text has as many bars. -/
theorem length_bars_stripChars : (bars 0 (Text.stripChars cs)).length = (bars 0 cs).length := by
  rw [← length_splitBars, splitBars_stripChars, List.length_map, length_splitBars]

theorem Splits.two_le_iff (h : Splits (Text.stripChars cs) ms) :
    2 ≤ ms.length ↔ bars 0 cs ≠ [] := by
  rw [h.length_eq, length_bars_stripChars, ← List.length_pos_iff]
  omega

/-- Only a text with a bar outside parentheses is a union, or one with a blank member. -/
theorem bars_ne_nil (h : parse? s = none ∨ ∃ us, parse? s = some (.union us)) :
    bars 0 s.toList ≠ [] := by
  intro hbars
  rw [parse?_of_bars_eq_nil hbars] at h
  split at h <;> simp at h

/-- Whether a text is a union, and of what, is told by its stretches without the blanks. -/
theorem parse?_eq_union_iff {us : List String} :
    parse? s = some (.union us) ↔
      ∃ ms, Splits (Text.stripChars s.toList) ms ∧ 2 ≤ ms.length ∧ [] ∉ ms ∧
        us = ms.map String.ofList := by
  constructor
  · intro h
    have hsplits := splits_splitBars (Text.stripChars s.toList)
    have hlength := hsplits.two_le_iff.mpr (bars_ne_nil (.inr ⟨us, h⟩))
    rw [parse?_of_two_le hsplits hlength] at h
    split at h
    · cases h
    · exact ⟨_, hsplits, hlength, ‹_›, by simpa using h.symm⟩
  · rintro ⟨ms, hsplits, hlength, hempty, rfl⟩
    rw [parse?_of_two_le hsplits hlength, if_neg hempty]

/-- So is whether it is a union with a blank member. -/
theorem parse?_eq_none_iff :
    parse? s = none ↔
      ∃ ms, Splits (Text.stripChars s.toList) ms ∧ 2 ≤ ms.length ∧ [] ∈ ms := by
  constructor
  · intro h
    have hsplits := splits_splitBars (Text.stripChars s.toList)
    have hlength := hsplits.two_le_iff.mpr (bars_ne_nil (.inl h))
    rw [parse?_of_two_le hsplits hlength] at h
    split at h
    · exact ⟨_, hsplits, hlength, ‹_›⟩
    · cases h
  · rintro ⟨ms, hsplits, hlength, hempty⟩
    rw [parse?_of_two_le hsplits hlength, if_pos hempty]

/-- A member is blank if and only if the stretch is of which it is what is left. -/
theorem parse?_eq_none_iff_blank (hs : ¬ Blank s.toList) :
    parse? s = none ↔ ∃ ms, Splits s.toList ms ∧ ∃ m ∈ ms, Blank m := by
  have hblank : ∀ m : List Char, Text.stripChars m = [] ↔ Blank m := fun m => by
    rw [← stripChars_isEmpty_iff, List.isEmpty_iff]
  rw [parse?_eq_none_iff]
  constructor
  · rintro ⟨ms, hsplits, -, hempty⟩
    have hstretches := splits_splitBars s.toList
    rw [hsplits.unique hstretches.stripChars] at hempty
    obtain ⟨m, hm, hnil⟩ := List.mem_map.mp hempty
    exact ⟨_, hstretches, m, hm, (hblank m).mp hnil⟩
  · rintro ⟨ms, hsplits, m, hm, hmblank⟩
    refine ⟨_, hsplits.stripChars, ?_, List.mem_map.mpr ⟨m, hm, (hblank m).mpr hmblank⟩⟩
    -- the text itself is not blank, so there is another stretch
    generalize s.toList = cs at hs hsplits
    cases hsplits with
    | last _ =>
      obtain rfl := List.mem_singleton.mp hm
      exact absurd hmblank hs
    | bar _ _ hrest => simpa [Nat.succ_le_iff] using List.length_pos_of_ne_nil hrest.ne_nil

/-- A text with a bar outside parentheses is a union, or one with a blank member. -/
theorem of_bars_ne_nil (h : bars 0 s.toList ≠ []) :
    (∃ us, parse? s = some (.union us)) ∨ parse? s = none := by
  have hsplits := splits_splitBars (Text.stripChars s.toList)
  rw [parse?_of_two_le hsplits (hsplits.two_le_iff.mpr h)]
  split
  · exact .inr rfl
  · exact .inl ⟨_, rfl⟩

/-- The members of a union are as many as its bars and one, they are the text without its
blanks when they are joined, and none of them is a union in turn. -/
theorem of_parse?_eq_union {us : List String} (h : parse? s = some (.union us)) :
    us.length = (bars 0 s.toList).length + 1 ∧
      "|".intercalate us = String.ofList (Text.stripChars s.toList) ∧
      ∀ u ∈ us, u ≠ "" ∧ (∀ c ∈ u.toList, Text.isBlank c = false) ∧ bars 0 u.toList = [] := by
  obtain ⟨ms, hsplits, -, hempty, rfl⟩ := parse?_eq_union_iff.mp h
  have hjoin : (ms.map String.ofList).map String.toList = ms := by simp [Function.comp_def]
  refine ⟨?_, ?_, fun u hu => ?_⟩
  · rw [List.length_map, hsplits.length_eq, length_bars_stripChars]
  · rw [← String.toList_inj, String.toList_intercalate, hjoin]
    exact hsplits.intercalate_eq.trans String.toList_ofList.symm
  · obtain ⟨m, hm, rfl⟩ := List.mem_map.mp hu
    rw [String.toList_ofList]
    refine ⟨?_, fun c hc => ?_, barless_iff_bars.mp (hsplits.barless m hm)⟩
    · rw [ne_eq, String.ofList_eq_empty_iff]
      rintro rfl
      exact hempty hm
    · exact Text.isBlank_of_mem_stripChars ((hsplits.infix_of_mem m hm).subset hc)

end TypeExpr

/-! ### The type of a node -/

namespace NodeShape

open TypeExpr

variable {s : String}

theorem typeOf_eq_ok_iff {t : TypeExpr} : typeOf s = .ok t ↔ parse? s = some t := by
  unfold typeOf
  split <;> simp [*]

theorem typeOf_eq_error_iff {cause : Malformation} :
    typeOf s = .error cause ↔ parse? s = none ∧ cause = .emptyMember s := by
  unfold typeOf
  split <;> simp [*, eq_comm]

/-- **What a text is read as is told by its bars.**  It is a union, or is refused for an
empty member, if and only if it has bars outside parentheses.  A union has one member more
than there are bars.  Joined by bars its members are the text without its blanks, none of
them is empty or has a blank or a bar outside parentheses.  A text is refused if and only
if one of the stretches between its bars is blank, so texts that differ in their blanks
alone have the same members.  A text without bars is an array if it ends in brackets, and
a name otherwise. -/
theorem read_by_bars (hs : ¬ Blank s.toList) :
    (((∃ us, typeOf s = .ok (.union us)) ∨ typeOf s = .error (.emptyMember s)) ↔
      bars 0 s.toList ≠ []) ∧
    (∀ us, typeOf s = .ok (.union us) →
      us.length = (bars 0 s.toList).length + 1 ∧
      "|".intercalate us = String.ofList (Text.stripChars s.toList) ∧
      ∀ u ∈ us, u ≠ "" ∧ (∀ c ∈ u.toList, Text.isBlank c = false) ∧ bars 0 u.toList = []) ∧
    (∀ cause, typeOf s = .error cause ↔
      cause = .emptyMember s ∧ ∃ ms, Splits s.toList ms ∧ ∃ m ∈ ms, Blank m) ∧
    (∀ s', Text.stripChars s'.toList = Text.stripChars s.toList →
      (∀ us, typeOf s' = .ok (.union us) ↔ typeOf s = .ok (.union us)) ∧
      (typeOf s' = .error (.emptyMember s') ↔ typeOf s = .error (.emptyMember s))) ∧
    (bars 0 s.toList = [] →
      (∀ element, s.toList = element ++ ['[', ']'] →
        ∃ e, Ungroups (Text.trimChars element) e ∧ typeOf s = .ok (.arrayOf (String.ofList e))) ∧
      ((∀ element, s.toList ≠ element ++ ['[', ']']) → typeOf s = .ok (.named s))) := by
  simp only [typeOf_eq_ok_iff, typeOf_eq_error_iff, and_true]
  refine ⟨⟨fun h => bars_ne_nil h.symm, of_bars_ne_nil⟩, fun us => of_parse?_eq_union,
    fun cause => ?_, fun s' hstrip => ⟨fun us => ?_, ?_⟩,
    fun hbars => ⟨fun element h => ?_, fun h => ?_⟩⟩
  · rw [parse?_eq_none_iff_blank hs, and_comm]
  · rw [parse?_eq_union_iff, parse?_eq_union_iff, hstrip]
  · rw [parse?_eq_none_iff, parse?_eq_none_iff, hstrip]
  · rw [parse?_of_bars_eq_nil hbars, arrayElement?_eq_some_iff.mpr h]
    exact ⟨_, ungroups_stripGroup _, rfl⟩
  · have hnone : arrayElement? s.toList = none :=
      Option.eq_none_iff_forall_ne_some.mpr fun element he =>
        h element (arrayElement?_eq_some_iff.mp he)
    rw [parse?_of_bars_eq_nil hbars, hnone]

/-- Three members, with parentheses that close nothing or enclose a bar, and blanks of two
kinds. -/
def crookedText : String :=
  " a |) (b | c)[]|d\u3000e"

theorem read_by_bars_crooked :
    ¬ Blank crookedText.toList ∧
      typeOf crookedText = .ok (.union ["a", ")(b|c)[]", "de"]) ∧
      3 = (bars 0 crookedText.toList).length + 1 ∧
      "|".intercalate ["a", ")(b|c)[]", "de"]
        = String.ofList (Text.stripChars crookedText.toList) := by
  have hs : ¬ Blank crookedText.toList := by decide
  obtain ⟨hlength, hjoin, -⟩ := (read_by_bars hs).2.1 _ rfl
  exact ⟨hs, rfl, hlength, hjoin⟩

end NodeShape

end RamlSchema
