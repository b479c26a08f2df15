/-
RamlSchema/Proofs/TypeExpr/Grammar.lean

The grammar of type expressions.

The reader goes through the characters once and counts the parentheses that are
open.  Here the notations are told by what stands where in the text: `Splits cs ms`
says that `cs` falls into the members `ms` at its bars outside parentheses, and
`Reads cs t` that `cs` is an expression for `t`, with one rule for each notation.

Main results: `splits_iff` and `reads_iff`.  The members are those that the reader
finds, and a text is read as `t` if and only if the grammar says so.
-/
import RamlSchema.Proofs.TypeExpr
import Mathlib.Data.List.TakeWhile

namespace RamlSchema

namespace TypeExpr

/-! ### The notations -/

/-- No bar stands outside parentheses, where `depth` of them are open at the start. -/
def Barless (depth : Nat) (cs : List Char) : Prop :=
  ∀ before behind, cs = before ++ '|' :: behind → before.foldl depthAfter depth ≠ 0

/-- A text falls into members at its bars outside parentheses. -/
inductive Splits : List Char → List (List Char) → Prop
  | last {m} : Barless 0 m → Splits m [m]
  | bar {m cs ms} :
      Barless 0 m → m.foldl depthAfter 0 = 0 → Splits cs ms → Splits (m ++ '|' :: cs) (m :: ms)

/-- A text of blanks only. -/
def Blank (cs : List Char) : Prop :=
  ∀ c ∈ cs, Text.isBlank c = true

/-- What remains of a text when a pair of parentheses around it is taken off, unless
it encloses a bar. -/
inductive Ungroups : List Char → List Char → Prop
  | group {inner} : '|' ∉ inner → Ungroups ('(' :: (inner ++ [')'])) (Text.trimChars inner)
  | bare {cs} : (∀ inner, cs = '(' :: (inner ++ [')']) → '|' ∈ inner) → Ungroups cs cs

/-- A text that is an expression. -/
inductive Reads : List Char → TypeExpr → Prop
  /-- Two members or more, none of them blank. -/
  | union {cs ms} :
      Splits cs ms → 2 ≤ ms.length → (∀ m ∈ ms, ¬ Blank m) →
      Reads cs (.union (ms.map fun m => String.ofList (Text.stripChars m)))
  | array {element e} :
      Barless 0 (element ++ ['[', ']']) → Ungroups (Text.trimChars element) e →
      Reads (element ++ ['[', ']']) (.arrayOf (String.ofList e))
  | named {cs} :
      Barless 0 cs → (∀ element, cs ≠ element ++ ['[', ']']) → Reads cs (.named (String.ofList cs))

variable {depth : Nat} {cs m : List Char} {ms : List (List Char)}

/-! ### Members -/

theorem barless_nil : Barless depth [] := by
  intro before behind h
  cases before <;> cases h

theorem barless_cons {c : Char} :
    Barless depth (c :: cs) ↔ ¬(c = '|' ∧ depth = 0) ∧ Barless (depthAfter depth c) cs := by
  constructor
  · intro h
    refine ⟨?_, fun before behind hcs => h (c :: before) behind (by rw [hcs]; rfl)⟩
    rintro ⟨rfl, rfl⟩
    exact h [] cs rfl rfl
  · rintro ⟨hc, hcs⟩ (- | ⟨d, before⟩) behind h
    · obtain ⟨rfl, -⟩ := List.cons.inj h
      exact fun hdepth => hc ⟨rfl, hdepth⟩
    · obtain ⟨rfl, htail⟩ := List.cons.inj h
      exact hcs before behind htail

theorem barless_of_not_mem (h : '|' ∉ cs) : Barless depth cs := by
  intro before behind hcs
  exact absurd (by simp [hcs]) h

/-- Without a bar outside parentheses there is one member. -/
theorem splitBars_of_barless (h : Barless depth cs) : splitBars depth cs = (cs, []) := by
  induction cs generalizing depth with
  | nil => rfl
  | cons c cs ih =>
    obtain ⟨hc, hcs⟩ := barless_cons.mp h
    rw [splitBars, if_neg hc, ih hcs]

/-- The first bar outside parentheses ends the first member. -/
theorem splitBars_append_bar (h : Barless depth m) (hdepth : m.foldl depthAfter depth = 0) :
    splitBars depth (m ++ '|' :: cs) = (m, (splitBars 0 cs).1 :: (splitBars 0 cs).2) := by
  induction m generalizing depth with
  | nil =>
    obtain rfl : depth = 0 := hdepth
    rfl
  | cons c m ih =>
    obtain ⟨hc, hm⟩ := barless_cons.mp h
    rw [List.cons_append, splitBars, if_neg hc, ih hm hdepth]

/-- There is no bar outside parentheses, or a first one. -/
theorem barless_or_first_bar (depth : Nat) (cs : List Char) :
    Barless depth cs ∨ ∃ m behind, cs = m ++ '|' :: behind ∧ Barless depth m ∧
      m.foldl depthAfter depth = 0 := by
  induction cs generalizing depth with
  | nil => exact .inl barless_nil
  | cons c cs ih =>
    by_cases hc : c = '|' ∧ depth = 0
    · obtain ⟨rfl, rfl⟩ := hc
      exact .inr ⟨[], cs, rfl, barless_nil, rfl⟩
    · rcases ih (depthAfter depth c) with hcs | ⟨m, behind, rfl, hm, hdepth⟩
      · exact .inl (barless_cons.mpr ⟨hc, hcs⟩)
      · exact .inr ⟨c :: m, behind, rfl, barless_cons.mpr ⟨hc, hm⟩, hdepth⟩

/-- What the reader finds are members. -/
theorem splits_splitBars (cs : List Char) :
    Splits cs ((splitBars 0 cs).1 :: (splitBars 0 cs).2) := by
  -- from one bar to the next one
  induction h : cs.length using Nat.strong_induction_on generalizing cs with
  | _ length ih =>
    rcases barless_or_first_bar 0 cs with hcs | ⟨m, behind, rfl, hm, hdepth⟩
    · rw [splitBars_of_barless hcs]
      exact .last hcs
    · rw [splitBars_append_bar hm hdepth]
      rw [List.length_append, List.length_cons] at h
      exact .bar hm hdepth (ih behind.length (by omega) behind rfl)

/-- **The members of a text are those that the reader finds.** -/
theorem splits_iff : Splits cs ms ↔ ms = (splitBars 0 cs).1 :: (splitBars 0 cs).2 := by
  constructor
  · intro h
    induction h with
    | last hm => rw [splitBars_of_barless hm]
    | bar hm hdepth _ ih => rw [splitBars_append_bar hm hdepth, ih]
  · rintro rfl
    exact splits_splitBars cs

theorem barless_iff : Barless 0 cs ↔ (splitBars 0 cs).2 = [] := by
  constructor
  · intro h
    rw [splitBars_of_barless h]
  · intro h
    rcases barless_or_first_bar 0 cs with hcs | ⟨m, behind, rfl, hm, hdepth⟩
    · exact hcs
    · rw [splitBars_append_bar hm hdepth] at h
      cases h

/-! ### Elements -/

theorem arrayElement?_eq_some_iff {element : List Char} :
    arrayElement? cs = some element ↔ cs = element ++ ['[', ']'] := by
  refine ⟨arrayElement?_eq_some, ?_⟩
  rintro rfl
  simp [arrayElement?]

theorem group?_eq_some_iff {inner : List Char} :
    group? cs = some inner ↔ cs = '(' :: (inner ++ [')']) := by
  constructor
  · intro h
    unfold group? at h
    split at h
    · split at h
      · rename_i r hr
        obtain rfl := Option.some.inj h
        rw [List.reverse_eq_iff.mp hr, List.reverse_cons]
      · cases h
    · cases h
  · rintro rfl
    simp [group?]

theorem ungroups_stripGroup (cs : List Char) : Ungroups cs (stripGroup cs) := by
  unfold stripGroup
  split
  · rename_i inner hgroup
    obtain rfl := group?_eq_some_iff.mp hgroup
    split
    · rename_i hbar
      refine .bare fun other h => ?_
      obtain rfl : inner = other := by simpa using h
      exact hbar
    · exact .group ‹_›
  · rename_i hgroup
    exact .bare fun inner h => nomatch hgroup.symm.trans (group?_eq_some_iff.mpr h)

theorem ungroups_iff {e : List Char} : Ungroups cs e ↔ e = stripGroup cs := by
  constructor
  · rintro (hbar | hbare)
    · rw [stripGroup, group?_eq_some_iff.mpr rfl]
      exact (if_neg hbar).symm
    · unfold stripGroup
      split
      · rename_i inner hgroup
        rw [if_pos (hbare inner (group?_eq_some_iff.mp hgroup))]
      · rfl
  · rintro rfl
    exact ungroups_stripGroup cs

/-! ### Blanks -/

theorem trimChars_eq_nil_iff : Text.trimChars cs = [] ↔ Blank cs := by
  rw [Text.trimChars, List.reverse_eq_nil_iff, List.dropWhile_eq_nil_iff]
  simp only [List.mem_reverse]
  constructor
  · -- a blank is dropped at the front, or is among those that remain
    intro h c hc
    rw [← List.takeWhile_append_dropWhile (p := Text.isBlank) (l := cs)] at hc
    exact (List.mem_append.mp hc).elim List.mem_takeWhile_imp (h c)
  · exact fun h c hc => h c ((List.dropWhile_suffix _).subset hc)

theorem stripChars_isEmpty_iff : (Text.stripChars cs).isEmpty = true ↔ Blank cs := by
  simp [Text.stripChars, Blank]

instance : DecidablePred Blank := fun _ =>
  decidable_of_iff _ stripChars_isEmpty_iff

/-! ### Expressions -/

/-- An expression is read as what it stands for. -/
theorem Reads.parse?_eq {t : TypeExpr} (h : Reads cs t) : parse? (String.ofList cs) = some t := by
  rw [parse?, String.toList_ofList]
  cases h with
  | @union _ ms hsplits hlength hblank =>
    -- there is a second member
    obtain ⟨m, m', ms, rfl⟩ : ∃ m m' rest, ms = m :: m' :: rest := by
      rcases ms with - | ⟨m, - | ⟨m', rest⟩⟩
      · simp at hlength
      · simp at hlength
      · exact ⟨m, m', rest, rfl⟩
    obtain ⟨hm, hms⟩ := List.cons.inj (splits_iff.mp hsplits)
    have hnone : ((m :: m' :: ms).map Text.stripChars).any List.isEmpty = false := by
      rw [List.any_map, List.any_eq_false]
      exact fun m hm hempty => hblank m hm (stripChars_isEmpty_iff.mp hempty)
    have hsplit : splitBars 0 cs = (m, m' :: ms) := Prod.ext hm.symm hms.symm
    simp only [hsplit, hnone]
    simp [Function.comp_def]
  | @array element e hbarless hungroups =>
    have harray : arrayElement? (element ++ ['[', ']']) = some element :=
      arrayElement?_eq_some_iff.mpr rfl
    simp only [splitBars_of_barless hbarless, harray, ungroups_iff.mp hungroups]
  | named hbarless hnone =>
    have harray : arrayElement? cs = none :=
      Option.eq_none_iff_forall_ne_some.mpr fun element h =>
        hnone element (arrayElement?_eq_some_iff.mp h)
    simp only [splitBars_of_barless hbarless, harray]

/-- What is read is an expression. -/
theorem reads_of_parse? {t : TypeExpr} (h : parse? (String.ofList cs) = some t) : Reads cs t := by
  rw [parse?, String.toList_ofList] at h
  split at h
  · rename_i m m' ms hsplit
    dsimp only at h
    split at h
    · cases h
    · rename_i hnone
      obtain rfl := Option.some.inj h
      have hsplits : Splits cs (m :: m' :: ms) := splits_iff.mpr (by rw [hsplit])
      rw [List.map_map]
      refine .union hsplits (by simp) fun m hm hblank => hnone ?_
      rw [List.any_map, List.any_eq_true]
      exact ⟨m, hm, stripChars_isEmpty_iff.mpr hblank⟩
  · rename_i hsplit
    have hbarless : Barless 0 cs := barless_iff.mpr (by rw [hsplit])
    split at h
    · rename_i element harray
      obtain rfl := Option.some.inj h
      obtain rfl := arrayElement?_eq_some_iff.mp harray
      exact .array hbarless (ungroups_stripGroup _)
    · rename_i harray
      obtain rfl := Option.some.inj h
      refine .named hbarless fun element h => ?_
      cases harray.symm.trans (arrayElement?_eq_some_iff.mpr h)

/-- **The reader follows the grammar.** -/
theorem reads_iff {t : TypeExpr} : Reads cs t ↔ parse? (String.ofList cs) = some t :=
  ⟨Reads.parse?_eq, reads_of_parse?⟩

/-- A text without a bar names a type, or an array with an element without one. -/
theorem of_parse?_of_hasBar {text : String} {t : TypeExpr} (hbar : hasBar text = false)
    (h : parse? text = some t) :
    t = .named text ∨ ∃ element, t = .arrayOf element ∧ hasBar element = false := by
  have hnone : '|' ∉ text.toList := by simpa [hasBar] using hbar
  rw [parse?, splitBars_of_barless (barless_of_not_mem hnone)] at h
  dsimp only at h
  split at h
  · rename_i cs hcs
    refine .inr ⟨_, (Option.some.inj h).symm, ?_⟩
    -- the element is a stretch of the text
    have hstretch : stripGroup (Text.trimChars cs) <:+: text.toList :=
      ((infix_stripGroup _).trans (Text.infix_trimChars cs)).trans
        ⟨[], ['[', ']'], (arrayElement?_eq_some_iff.mp hcs).symm⟩
    simpa [hasBar] using fun hmem => hnone (hstretch.subset hmem)
  · exact .inl (Option.some.inj h).symm

/-- A bar inside parentheses does not end a member. -/
example : parse? "A | (B | C)[]" = some (.union ["A", "(B|C)[]"]) := rfl

end TypeExpr

end RamlSchema
