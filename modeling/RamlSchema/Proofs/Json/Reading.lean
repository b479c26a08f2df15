/-
RamlSchema/Proofs/Json/Reading.lean

Texts of a JSON value, read.

A reader takes a text if it answers the value of it and leaves what follows
(`Takes`).  Only a numeral depends on what follows, for it would go on with a digit.
A container is taken part by part, each part in the state in which those before it have
left the reader (`TakesParts`), so that the readers of items, of members and of other
things between brackets have one lemma, `readContainer_of_takes`.

Main results: `takes_of_spells`, by which every spelling of a value is taken;
`takes_skimValue`, by which a value that is only skimmed may nest as it likes and hold
any numbers; and `read_of_spells` for whole documents.
-/
import RamlSchema.Proofs.Json.Numeral
import RamlSchema.Proofs.Json.Spelling

namespace RamlSchema.Json

/-! ### Strings -/

theorem hexValue?_hexDigit {n : Nat} : Text.hexValue? (hexDigit n) = some (n % 16) := by
  have h : ∀ k < 16, Text.hexValue? (Nat.digitChar k) = some k := by decide
  exact h (n % 16) (Nat.mod_lt n (by decide))

/-- A character below U+0020 has a numeric escape. -/
theorem codeUnit?_control {n : Nat} (hn : n < 32) :
    codeUnit? '0' '0' (hexDigit (n / 16)) (hexDigit n) = some n := by
  have hzero : Text.hexValue? '0' = some 0 := by decide
  have hvalue : 16 * (n / 16 % 16) + n % 16 = n := by omega
  simp [codeUnit?, Text.hexNumber?, hzero, hexValue?_hexDigit, hvalue]

theorem readString_letter {s : Strictness} {e c : Char} (he : unescape? e = some c)
    (cs : List Char) : readString s ('\\' :: e :: cs) = consChar c (readString s cs) := by
  have hu : e ≠ 'u' := by
    rintro rfl
    cases he
  simp [readString, he, hu]

theorem readString_control {s : Strictness} {c : Char} (hc : c < ' ') (cs : List Char) :
    readString s ('\\' :: 'u' :: '0' :: '0' :: hexDigit (c.toNat / 16) :: hexDigit c.toNat :: cs)
      = consChar c (readString s cs) := by
  have hn : c.toNat < 32 := hc
  have hlow : isLowSurrogate c.toNat = false := by
    simp only [isLowSurrogate, Bool.and_eq_false_iff, decide_eq_false_iff_not]
    omega
  have hhigh : isHighSurrogate c.toNat = false := by
    simp only [isHighSurrogate, Bool.and_eq_false_iff, decide_eq_false_iff_not]
    omega
  simp [readString, codeUnit?_control hn, hlow, hhigh]

/-- What a character is escaped as is read as the character. -/
theorem readString_escapeChar (s : Strictness) (c : Char) (cs : List Char) :
    readString s (escapeChar c ++ cs) = consChar c (readString s cs) := by
  unfold escapeChar
  split_ifs with hquote hbackslash hb hf hn hr ht hcontrol
  · subst hquote
    exact readString_letter rfl cs
  · subst hbackslash
    exact readString_letter rfl cs
  · subst hb
    exact readString_letter rfl cs
  · subst hf
    exact readString_letter rfl cs
  · subst hn
    exact readString_letter rfl cs
  · subst hr
    exact readString_letter rfl cs
  · subst ht
    exact readString_letter rfl cs
  · exact readString_control hcontrol cs
  · rw [List.singleton_append, readString.eq_def]
    simp [hquote, hbackslash, hcontrol]

/-- **A string that is written is read**, up to and with its closing quote. -/
theorem readString_escaped (s : Strictness) (t rest : List Char) :
    readString s (t.flatMap escapeChar ++ '\x22' :: rest) = .ok (t, rest) := by
  induction t with
  | nil =>
    rw [List.flatMap_nil, List.nil_append, readString.eq_def]
    rfl
  | cons c t ih =>
    rw [List.flatMap_cons, List.append_assoc, readString_escapeChar, ih]
    rfl

/-! ### Texts that a reader takes -/

variable {p q rest : List Char}

theorem skipBlanks_append (hp : Blanks p) (cs : List Char) : skipBlanks (p ++ cs) = skipBlanks cs :=
  List.dropWhile_append_of_pos hp

theorem ends_append (hq : Blanks q) (hrest : Ends rest) : Ends (q ++ rest) := by
  cases q with
  | nil => exact hrest
  | cons c q =>
    rintro _ ⟨⟩
    have hc := hq c List.mem_cons_self
    simp only [isJsonBlank, Bool.or_eq_true, decide_eq_true_eq] at hc
    rcases hc with ((rfl | rfl) | rfl) | rfl <;> decide

theorem skipBlanks_cons {c : Char} (hc : isJsonBlank c = false) (cs : List Char) :
    skipBlanks (c :: cs) = c :: cs :=
  List.dropWhile_cons_of_neg (by simp [hc])

/-- The reader takes the text, whatever blanks stand before it, and leaves what follows
it, unless a numeral at its end would go on there. -/
def Takes {α : Type} (reader : List Char → Read α) (t : List Char) (v : α) : Prop :=
  ∀ p rest, Blanks p → Ends rest → reader (p ++ (t ++ rest)) = .ok (v, rest)

section

variable {α β : Type} {reader : List Char → Read α} {t : List Char} {v : α}

theorem Takes.map (h : Takes reader t v) (f : α → β) :
    Takes (fun cs => (reader cs).map fun (x, rest) => (f x, rest)) t (f v) := by
  intro p rest hp hrest
  simp only [h p rest hp hrest]
  rfl

end

/-! ### Containers -/

/-- The text from the first part of a container up to its closing bracket.  Each part is
taken in the state in which those before it have left the reader. -/
inductive TakesParts {σ : Type} (closing : Char) (part : σ → List Char → Read σ) :
    σ → List Char → σ → Prop
  | last {s s' t q} : Takes (part s) t s' → Blanks q →
      TakesParts closing part s (t ++ (q ++ [closing])) s'
  | more {s s' s'' t q p u} : Takes (part s) t s' → Blanks q → Blanks p →
      TakesParts closing part s' u s'' →
      TakesParts closing part s (t ++ (q ++ ',' :: (p ++ u))) s''

section

variable {σ : Type} {closing : Char} {part : σ → List Char → Read σ} {s s' : σ} {t : List Char}

/-- A closing bracket. -/
def IsClosing (c : Char) : Prop :=
  c = ']' ∨ c = '\x7d'

theorem readParts_of_takes (hclosing : IsClosing closing) (h : TakesParts closing part s t s')
    {bound : Nat} (hbound : t.length ≤ bound) (hp : Blanks p) :
    readParts closing part bound s (p ++ (t ++ rest)) = .ok (s', rest) := by
  have hends : Ends (closing :: rest) := by
    rcases hclosing with rfl | rfl <;> rintro _ ⟨⟩ <;> decide
  have hblank : isJsonBlank closing = false ∧ closing ≠ ',' := by
    rcases hclosing with rfl | rfl <;> decide
  induction h generalizing bound p with
  | @last s s' t q hpart hq =>
    have hread := hpart p (q ++ closing :: rest) hp (ends_append hq hends)
    simp only [List.length_append, List.length_singleton] at hbound
    obtain ⟨bound, rfl⟩ : ∃ b, bound = b + 1 := ⟨bound - 1, by omega⟩
    simp [readParts, hread, skipBlanks_append hq, skipBlanks_cons hblank.1, bind, Except.bind, pure,
      Except.pure]
  | @more s s' s'' t q p' u hpart hq hp' _ ih =>
    have hcomma : Ends (',' :: (p' ++ (u ++ rest))) := by
      rintro _ ⟨⟩
      decide
    have hread := hpart p _ hp (ends_append hq hcomma)
    simp only [List.length_append, List.length_cons] at hbound
    obtain ⟨bound, rfl⟩ : ∃ b, bound = b + 1 := ⟨bound - 1, by omega⟩
    have hrest := @ih p' bound (by omega) hp'
    have hskip : skipBlanks (q ++ ',' :: (p' ++ (u ++ rest))) = ',' :: (p' ++ (u ++ rest)) := by
      rw [skipBlanks_append hq]
      rfl
    simp [readParts, hread, hskip, hblank.2.symm, hrest, bind, Except.bind]

/-- **A container is read** that has at least one part. -/
theorem readContainer_of_takes (hclosing : IsClosing closing)
    (h : TakesParts closing part s t s') (hp : Blanks p)
    (hfirst : ∃ c u, t = c :: u ∧ isJsonBlank c = false ∧ c ≠ closing) :
    readContainer closing part s (p ++ t ++ rest) = .ok (s', rest) := by
  obtain ⟨c, u, rfl, hc, hne⟩ := hfirst
  have hparts : readParts closing part ((u ++ rest).length + 2) s (c :: (u ++ rest))
      = .ok (s', rest) :=
    readParts_of_takes hclosing h (by simp; omega) blanks_nil
  rw [readContainer, List.append_assoc, skipBlanks_append hp, List.cons_append,
    skipBlanks_cons hc]
  dsimp only
  rw [if_neg hne]
  exact hparts

/-- A container without parts. -/
theorem readContainer_empty (hclosing : IsClosing closing) (hp : Blanks p) :
    readContainer closing part s (p ++ [closing] ++ rest) = .ok (s, rest) := by
  have hblank : isJsonBlank closing = false := by
    rcases hclosing with rfl | rfl <;> rfl
  rw [readContainer, List.append_assoc, skipBlanks_append hp, List.singleton_append,
    skipBlanks_cons hblank]
  exact if_pos rfl

end

/-! ### Keys and members -/

/-- What a string begins with, and where it ends. -/
theorem skipBlanks_renderString (hp : Blanks p) (k : String) (cs : List Char) :
    skipBlanks (p ++ (renderString k ++ cs))
      = '\x22' :: (k.toList.flatMap escapeChar ++ '\x22' :: cs) := by
  rw [skipBlanks_append hp, renderString, List.cons_append, List.cons_append, skipBlanks_cons rfl,
    List.append_assoc, List.singleton_append]

theorem readKey_renderString (s : Strictness) (hp : Blanks p) (k : String) (cs : List Char) :
    readKey s (p ++ (renderString k ++ cs)) = .ok (k, cs) := by
  have hstring := readString_escaped s k.toList cs
  rw [readKey, skipBlanks_renderString hp]
  show (readString s _).map _ = _
  rw [hstring]
  simp [Except.map]

theorem readColon_append (hp : Blanks p) (cs : List Char) :
    readColon (p ++ ':' :: cs) = .ok ((), cs) := by
  rw [readColon, skipBlanks_append hp, skipBlanks_cons rfl]
  rfl

/-- A member is read as its value is. -/
theorem takes_member {α : Type} {s : Strictness} {value : List Char → Read α} {a b t : List Char}
    {v : α} (ms : Members α) (k : String) (hb : Blanks b) (ha : Blanks a) (h : Takes value t v) :
    Takes (readMember s value ms) (renderString k ++ (b ++ ':' :: (a ++ t))) (ms.insert k v) := by
  intro p rest hp hrest
  have hkey := readKey_renderString s hp k (b ++ ':' :: (a ++ (t ++ rest)))
  have hcolon := readColon_append hb (a ++ (t ++ rest))
  have hvalue := h a rest ha hrest
  simp [readMember, hkey, hcolon, hvalue, bind, Except.bind, pure, Except.pure]

/-! ### Values -/

section

variable {s : Strictness} {d : Nat} {cs : List Char}

theorem readValue_append (hp : Blanks p) (cs : List Char) :
    readValue s d (p ++ cs) = readValue s d cs := by
  rw [readValue.eq_def, readValue.eq_def]
  dsimp only
  rw [skipBlanks_append hp]

/-- A numeral does not begin with a blank. -/
theorem isJsonBlank_of_numeral {c : Char} (hc : c = '-' ∨ c.isDigit = true) :
    isJsonBlank c = false := by
  rcases hc with rfl | hc
  · rfl
  · simp only [isJsonBlank, Bool.or_eq_false_iff, decide_eq_false_iff_not]
    refine ⟨⟨⟨?_, ?_⟩, ?_⟩, ?_⟩ <;> rintro rfl <;> exact absurd hc (by decide)

theorem readValue_number {c : Char} (hc : c = '-' ∨ c.isDigit = true) :
    readValue s d (c :: cs) = readNumber s (c :: cs) := by
  have htest : (c = '-' || c.isDigit) = true := by simpa using hc
  rw [readValue.eq_def]
  dsimp only
  rw [skipBlanks_cons (isJsonBlank_of_numeral hc)]
  -- none of the other first characters is a sign or a digit
  split
  case h_8 heq =>
    obtain ⟨rfl, rfl⟩ := List.cons.inj heq
    exact if_pos htest
  all_goals simp_all

theorem readWord_append {α : Type} (v : α) (ws rest : List Char) :
    readWord v ws (ws ++ rest) = .ok (v, rest) := by
  induction ws with
  | nil => rfl
  | cons w ws ih => simpa [readWord] using ih

/-- A numeral is taken as its number, which must not be out of range where it counts. -/
theorem takes_numeral {l : Numeral} {t : List Char} (h : l.Writes t)
    (hs : s = .skim ∨ l.number? ≠ none) :
    ∃ v, Takes (readValue s d) t v ∧ ∀ n, l.number? = some n → v = .num n := by
  have hread : ∀ p rest, Blanks p → Ends rest →
      readValue s d (p ++ (t ++ rest)) = readNumber s (t ++ rest) := by
    intro p rest hp _
    obtain ⟨c, r, rfl, hc⟩ := h.exists_cons
    rw [readValue_append hp]
    exact readValue_number hc
  rcases hn : l.number? with - | n
  · -- only where it does not count
    obtain rfl : s = .skim := hs.resolve_right fun hne => hne hn
    refine ⟨.null, fun p rest hp hrest => ?_, nofun⟩
    rw [hread p rest hp hrest, readNumber, Numeral.scan_of_writes h hrest]
    simp [hn, bind, Except.bind, pure, Except.pure]
  · refine ⟨.num n, fun p rest hp hrest => ?_, fun _ h => congrArg Json.num (Option.some.inj h)⟩
    rw [hread p rest hp hrest, readNumber, Numeral.scan_of_writes h hrest]
    simp [hn, bind, Except.bind, pure, Except.pure]

theorem takes_null : Takes (readValue s d) "null".toList .null := by
  intro p rest hp _
  rw [readValue_append hp, readValue.eq_def]
  exact readWord_append Json.null ['u', 'l', 'l'] rest

theorem takes_bool (b : Bool) : Takes (readValue s d) (Json.bool b).render (.bool b) := by
  intro p rest hp _
  rw [readValue_append hp, readValue.eq_def]
  cases b with
  | true => exact readWord_append (Json.bool true) ['r', 'u', 'e'] rest
  | false => exact readWord_append (Json.bool false) ['a', 'l', 's', 'e'] rest

theorem takes_string (t : String) : Takes (readValue s d) (renderString t) (.str t) := by
  intro p rest hp _
  have hstring := readString_escaped s t.toList rest
  rw [readValue_append hp, readValue.eq_def, renderString, List.cons_append, List.cons_append,
    List.append_assoc, List.singleton_append]
  show (readString s _).map _ = _
  rw [hstring]
  simp [Except.map]

/-- A number as it is written, in the range of integers or where it does not count. -/
theorem takes_number (n : Number) (hs : s = .skim ∨ (Json.num n).Integral) :
    ∃ v, Takes (readValue s d) (renderNumber n) v ∧ ((Json.num n).Integral → v = .num n) := by
  cases n with
  | whole n =>
    have hnumber : (Json.num (.whole n)).Integral → (Numeral.ofWhole n).number? = some (.whole n) :=
      fun h => Numeral.number?_ofWhole h.1 h.2
    obtain ⟨v, hv, hn⟩ := @takes_numeral s d _ _ (Numeral.writes_whole n)
      (hs.imp_right fun h => by simp [hnumber h])
    exact ⟨v, hv, fun h => hn _ (hnumber h)⟩
  | double x =>
    obtain rfl : s = .skim := hs.resolve_right id
    rw [renderNumber]
    split
    · obtain ⟨l, hl⟩ := Numeral.exists_writes_double x
      obtain ⟨v, hv, -⟩ := @takes_numeral .skim d _ _ hl (.inl rfl)
      exact ⟨v, hv, nofun⟩
    · exact ⟨.null, takes_null, nofun⟩

theorem takes_array {s : Strictness} {t : List Char} {xs : List Json}
    (h : ∀ rest, readContainer ']' (readItem (readValue s d)) [] (t ++ rest)
      = .ok (xs.reverse, rest)) :
    Takes (readValue s (d + 1)) ('[' :: t) (.arr xs) := by
  intro p rest hp _
  rw [readValue_append hp, readValue.eq_def, List.cons_append]
  show (readContainer _ _ _ _).map _ = _
  rw [h rest]
  simp [Except.map]

theorem takes_object {s : Strictness} {t : List Char} {ms : Members Json}
    (h : ∀ rest, readContainer '\x7d' (readMember s (readValue s d)) [] (t ++ rest)
      = .ok (ms, rest)) :
    Takes (readValue s (d + 1)) ('\x7b' :: t) (.obj ms) := by
  intro p rest hp _
  rw [readValue_append hp, readValue.eq_def, List.cons_append]
  show (readContainer _ _ _ _).map _ = _
  rw [h rest]
  rfl

/-! ### Spelled values -/

theorem Spells.exists_cons {j : Json} {t : List Char} (h : Spells j t) :
    ∃ c u, t = c :: u ∧ isJsonBlank c = false ∧ c ≠ ']' := by
  cases h with
  | num n =>
    have hnumeral : ∀ {l t}, Numeral.Writes l t →
        ∃ c u, t = c :: u ∧ isJsonBlank c = false ∧ c ≠ ']' := by
      intro l t hl
      obtain ⟨c, u, ht, hc⟩ := hl.exists_cons
      refine ⟨c, u, ht, isJsonBlank_of_numeral hc, ?_⟩
      rintro rfl
      exact absurd hc (by decide)
    cases n with
    | whole n => exact hnumeral (Numeral.writes_whole n)
    | double x =>
      rw [renderNumber]
      split
      · obtain ⟨l, hl⟩ := Numeral.exists_writes_double x
        exact hnumeral hl
      · exact ⟨'n', _, rfl, by decide⟩
  | null => exact ⟨'n', _, rfl, by decide⟩
  | bool b =>
    cases b with
    | true => exact ⟨'t', _, rfl, by decide⟩
    | false => exact ⟨'f', _, rfl, by decide⟩
  | str s => exact ⟨'\x22', _, rfl, by decide⟩
  | emptyArr _ => exact ⟨'[', _, rfl, by decide⟩
  | arr _ _ => exact ⟨'[', _, rfl, by decide⟩
  | emptyObj _ => exact ⟨'\x7b', _, rfl, by decide⟩
  | obj _ _ => exact ⟨'\x7b', _, rfl, by decide⟩

theorem SpellsItems.exists_cons {xs : List Json} {t : List Char} (h : SpellsItems xs t) :
    ∃ c u, t = c :: u ∧ isJsonBlank c = false ∧ c ≠ ']' := by
  cases h with
  | last hx _ =>
    obtain ⟨c, u, rfl, hc⟩ := hx.exists_cons
    exact ⟨c, _, rfl, hc⟩
  | more hx _ _ _ =>
    obtain ⟨c, u, rfl, hc⟩ := hx.exists_cons
    exact ⟨c, _, rfl, hc⟩

theorem SpellsMembers.exists_cons {ms : List (String × Json)} {t : List Char}
    (h : SpellsMembers ms t) : ∃ c u, t = c :: u ∧ isJsonBlank c = false ∧ c ≠ '\x7d' := by
  cases h with
  | last _ _ _ _ => exact ⟨'\x22', _, rfl, by decide⟩
  | more _ _ _ _ _ _ => exact ⟨'\x22', _, rfl, by decide⟩

end

/-- Inside a container one level is used up. -/
theorem exists_eq_succ {n d : Nat} (h : n + 1 ≤ d) : ∃ k, d = k + 1 ∧ n ≤ k := by
  cases d with
  | zero => exact absurd h (Nat.not_succ_le_zero n)
  | succ d => exact ⟨d, rfl, Nat.le_of_succ_le_succ h⟩

mutual

/-- **A text of a value is read**, if its containers do not nest too deep.  With integers
for numbers, what is read is the value with repeated keys collapsed. -/
theorem takes_of_spells {s : Strictness} {d : Nat} {j : Json} {t : List Char} (h : Spells j t)
    (hd : j.depth ≤ d) (hs : s = .skim ∨ j.Integral) :
    ∃ v, Takes (readValue s d) t v ∧ (j.Integral → v = j.collapse) := by
  match h with
  | .null => exact ⟨_, takes_null, fun _ => rfl⟩
  | .bool b => exact ⟨_, takes_bool b, fun _ => rfl⟩
  | .num n => exact takes_number n hs
  | .str t => exact ⟨_, takes_string t, fun _ => rfl⟩
  | .emptyArr hp =>
    obtain ⟨d, rfl, -⟩ := exists_eq_succ hd
    exact ⟨_, takes_array fun rest => readContainer_empty (.inl rfl) hp, fun _ => rfl⟩
  | .arr hp hitems =>
    obtain ⟨d, rfl, hd'⟩ := exists_eq_succ hd
    obtain ⟨vs, hvs, heq⟩ := takes_of_spellsItems hitems hd' hs []
    rw [List.append_nil] at hvs
    refine ⟨.arr vs, takes_array fun rest =>
      readContainer_of_takes (.inl rfl) hvs hp hitems.exists_cons, fun h => ?_⟩
    rw [heq h, collapse]
  | .emptyObj hp =>
    obtain ⟨d, rfl, -⟩ := exists_eq_succ hd
    exact ⟨_, takes_object fun rest => readContainer_empty (.inr rfl) hp, fun _ => rfl⟩
  | .obj hp hmembers =>
    obtain ⟨d, rfl, hd'⟩ := exists_eq_succ hd
    obtain ⟨vs, hvs, heq⟩ := takes_of_spellsMembers hmembers hd' hs []
    refine ⟨.obj (Members.ofList vs), takes_object fun rest =>
      readContainer_of_takes (.inr rfl) hvs hp hmembers.exists_cons, fun h => ?_⟩
    rw [heq h, collapse]

theorem takes_of_spellsItems {s : Strictness} {d : Nat} {xs : List Json} {t : List Char}
    (h : SpellsItems xs t) (hd : depthItems xs ≤ d) (hs : s = .skim ∨ IntegralItems xs)
    (acc : List Json) :
    ∃ vs, TakesParts ']' (readItem (readValue s d)) acc t (vs.reverse ++ acc) ∧
      (IntegralItems xs → vs = collapseItems xs) := by
  match h with
  | .last hx hq =>
    obtain ⟨v, hv, heq⟩ := takes_of_spells hx ((Nat.le_max_left _ _).trans hd) (hs.imp_right (·.1))
    refine ⟨[v], .last (hv.map (· :: acc)) hq, fun h => ?_⟩
    rw [collapseItems, heq h.1, collapseItems]
  | .more hx hq hp hrest =>
    obtain ⟨v, hv, heq⟩ := takes_of_spells hx ((Nat.le_max_left _ _).trans hd) (hs.imp_right (·.1))
    obtain ⟨vs, hvs, heqs⟩ := takes_of_spellsItems hrest ((Nat.le_max_right _ _).trans hd)
      (hs.imp_right (·.2)) (v :: acc)
    refine ⟨v :: vs, ?_, fun h => ?_⟩
    · rw [List.reverse_cons, List.append_assoc, List.singleton_append]
      exact .more (hv.map (· :: acc)) hq hp hvs
    · rw [collapseItems, heq h.1, heqs h.2]

theorem takes_of_spellsMembers {s : Strictness} {d : Nat} {ms : List (String × Json)}
    {t : List Char} (h : SpellsMembers ms t) (hd : depthMembers ms ≤ d)
    (hs : s = .skim ∨ IntegralMembers ms) (acc : Members Json) :
    ∃ vs, TakesParts '\x7d' (readMember s (readValue s d)) acc t (acc.insertMany vs) ∧
      (IntegralMembers ms → vs = collapseMembers ms) := by
  match h with
  | @SpellsMembers.last k _ _ _ _ _ hb ha hx hq =>
    obtain ⟨v, hv, heq⟩ := takes_of_spells hx ((Nat.le_max_left _ _).trans hd) (hs.imp_right (·.1))
    refine ⟨[(k, v)], .last (takes_member acc k hb ha hv) hq, fun h => ?_⟩
    rw [collapseMembers, heq h.1, collapseMembers]
  | @SpellsMembers.more k _ _ _ _ _ _ _ _ hb ha hx hq hp hrest =>
    obtain ⟨v, hv, heq⟩ := takes_of_spells hx ((Nat.le_max_left _ _).trans hd) (hs.imp_right (·.1))
    obtain ⟨vs, hvs, heqs⟩ := takes_of_spellsMembers hrest ((Nat.le_max_right _ _).trans hd)
      (hs.imp_right (·.2)) (acc.insert k v)
    refine ⟨(k, v) :: vs, .more (takes_member acc k hb ha hv) hq hp hvs, fun h => ?_⟩
    rw [collapseMembers, heq h.1, heqs h.2]

end

mutual

/-- A text has more characters than levels. -/
theorem depth_le_length {j : Json} {t : List Char} (h : Spells j t) : j.depth ≤ t.length := by
  match h with
  | .null | .bool _ | .num _ | .str _ => exact Nat.zero_le _
  | .emptyArr _ | .emptyObj _ => exact Nat.succ_le_succ (Nat.zero_le _)
  | .arr _ hitems =>
    have := depthItems_le_length hitems
    simp only [depth, List.length_cons, List.length_append]
    omega
  | .obj _ hmembers =>
    have := depthMembers_le_length hmembers
    simp only [depth, List.length_cons, List.length_append]
    omega

theorem depthItems_le_length {xs : List Json} {t : List Char} (h : SpellsItems xs t) :
    depthItems xs ≤ t.length := by
  match h with
  | .last hx _ =>
    have := depth_le_length hx
    simp only [depthItems, List.length_append]
    omega
  | .more hx _ _ hrest =>
    have := depth_le_length hx
    have := depthItems_le_length hrest
    simp only [depthItems, List.length_append, List.length_cons]
    omega

theorem depthMembers_le_length {ms : List (String × Json)} {t : List Char}
    (h : SpellsMembers ms t) : depthMembers ms ≤ t.length := by
  match h with
  | .last _ _ hx _ =>
    have := depth_le_length hx
    simp only [depthMembers, List.length_append, List.length_cons]
    omega
  | .more _ _ hx _ _ hrest =>
    have := depth_le_length hx
    have := depthMembers_le_length hrest
    simp only [depthMembers, List.length_append, List.length_cons]
    omega

end

/-- **Any value is passed over**, however deep it nests and whatever its numbers are. -/
theorem takes_skimValue {j : Json} {t : List Char} (h : Spells j t) : Takes skimValue t () := by
  intro p rest hp hrest
  have hdepth : j.depth ≤ (p ++ (t ++ rest)).length := by
    have := depth_le_length h
    simp only [List.length_append]
    omega
  obtain ⟨v, hv, -⟩ := takes_of_spells h hdepth (.inl rfl)
  rw [skimValue, hv p rest hp hrest]
  rfl

/-! ### Documents -/

theorem ends_blanks {q : List Char} (hq : Blanks q) : Ends q := by
  have h := @ends_append q [] hq (fun _ hc => nomatch hc)
  rwa [List.append_nil] at h

theorem expectEnd_blanks {α : Type} {q : List Char} (hq : Blanks q) (v : α) :
    expectEnd (v, q) = .ok v := by
  have hskip : skipBlanks q = [] := by
    rw [← List.append_nil q, skipBlanks_append hq]
    rfl
  rw [expectEnd, hskip]
  rfl

/-- **A document is read as the value that it is a text of**, repeated keys collapsed. -/
theorem read_of_spells {j : Json} {p t q : List Char} (h : Spells j t) (hp : Blanks p)
    (hq : Blanks q) (hdepth : j.depth ≤ nestingLimit) (hj : j.Integral) :
    read (String.ofList (p ++ (t ++ q))) = .ok j.collapse := by
  obtain ⟨v, hv, heq⟩ := takes_of_spells h hdepth (.inr hj)
  rw [read, String.toList_ofList, hv p q hp (ends_blanks hq), ← heq hj]
  exact expectEnd_blanks hq v

end RamlSchema.Json
