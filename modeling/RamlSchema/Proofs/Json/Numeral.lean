/-
RamlSchema/Proofs/Json/Numeral.lean

Numerals that are written and read back.

A numeral is written as a sign, a whole part without superfluous zeros, a fraction and an
exponent, of which the first and the last two may be missing (`Writes`).  A scanner takes
all of it and stops behind it, if what follows could not belong to a numeral (`Ends`).
Whole numbers and finite doubles are written as numerals, the doubles with the digits of
their shortest decimal: it is positive, so that they do not begin with a zero.

Main results: `scan_of_writes`, `number?_ofWhole` and `exists_writes_double`.
-/
import RamlSchema.Json.Reader
import RamlSchema.Json.Writer
import Mathlib.Algebra.Group.Int.Defs
import Mathlib.Algebra.Group.Nat.Defs
import Mathlib.Data.List.DropRight

namespace RamlSchema

/-! ### Digits -/

namespace Decimal

theorem isDigit_of_mem_digits {n : Nat} {c : Char} (h : c ∈ digits n) : c.isDigit = true :=
  Nat.isDigit_of_mem_toDigits (by decide) (by decide) h

theorem digits_ne_nil (n : Nat) : digits n ≠ [] :=
  Nat.toDigits_ne_nil

/-- Only the numeral of zero begins with a zero. -/
theorem head?_digits {n : Nat} (hn : n ≠ 0) : (digits n).head? ≠ some '0' := by
  induction n using Nat.strongRecOn with
  | _ n ih =>
    rw [digits, Nat.toDigits_eq_if (by decide)]
    split
    · rename_i h
      have hdigit : ∀ d < 10, d ≠ 0 → Nat.digitChar d ≠ '0' := by decide
      simpa using hdigit n h hn
    · -- the first digit is that of the number without its last one
      rename_i h
      have hne : Nat.toDigits 10 (n / 10) ≠ [] := Nat.toDigits_ne_nil
      rw [List.head?_append_of_ne_nil _ hne]
      exact ih (n / 10) (by omega) (by omega)

end Decimal

namespace Json

/-- Behind a text, a numeral has come to its end. -/
def Ends (rest : List Char) : Prop :=
  ∀ c ∈ rest.head?, c.isDigit = false ∧ c ≠ '.' ∧ c ≠ 'e' ∧ c ≠ 'E'

namespace Numeral

open Decimal

/-- Digits, one or more. -/
def IsDigits (ds : List Char) : Prop :=
  ds ≠ [] ∧ ∀ c ∈ ds, c.isDigit = true

theorem isDigits_digits (n : Nat) : IsDigits (digits n) :=
  ⟨digits_ne_nil n, fun _ => isDigit_of_mem_digits⟩

/-! ### How numerals are written -/

/-- Ways to write an exponent, if there is one. -/
inductive WritesExponent : Option (Bool × List Char) → List Char → Prop
  | none : WritesExponent none []
  | plain {ds} : IsDigits ds → WritesExponent (some (false, ds)) ('e' :: ds)
  | plus {ds} : IsDigits ds → WritesExponent (some (false, ds)) ('e' :: '+' :: ds)
  | minus {ds} : IsDigits ds → WritesExponent (some (true, ds)) ('e' :: '-' :: ds)

/-- A fraction as it is written. -/
def fractionText (ds : List Char) : List Char :=
  if ds.isEmpty then [] else '.' :: ds

/-- Ways to write a numeral without a sign. -/
inductive WritesUnsigned (whole fraction : List Char) (exponent : Option (Bool × List Char)) :
    List Char → Prop
  | intro {et} :
      IsDigits whole → (whole.head? = some '0' → whole = ['0']) →
      (∀ c ∈ fraction, c.isDigit = true) → WritesExponent exponent et →
      WritesUnsigned whole fraction exponent (whole ++ (fractionText fraction ++ et))

/-- Ways to write a numeral. -/
inductive Writes : Numeral → List Char → Prop
  | plain {whole fraction exponent t} :
      WritesUnsigned whole fraction exponent t → Writes ⟨false, whole, fraction, exponent⟩ t
  | minus {whole fraction exponent t} :
      WritesUnsigned whole fraction exponent t →
      Writes ⟨true, whole, fraction, exponent⟩ ('-' :: t)

theorem WritesUnsigned.writes {whole fraction exponent t}
    (h : WritesUnsigned whole fraction exponent t) (negative : Bool) :
    Writes ⟨negative, whole, fraction, exponent⟩ ((if negative then ['-'] else []) ++ t) := by
  cases negative
  · exact .plain h
  · exact .minus h

/-- A numeral without a sign begins with a digit. -/
theorem WritesUnsigned.exists_cons {whole fraction exponent t}
    (h : WritesUnsigned whole fraction exponent t) : ∃ c r, t = c :: r ∧ c.isDigit = true := by
  obtain ⟨⟨hne, hdigits⟩, -, -, -⟩ := h
  cases whole with
  | nil => exact absurd rfl hne
  | cons c ds => exact ⟨c, _, rfl, hdigits c List.mem_cons_self⟩

/-- A numeral begins with a minus sign or a digit. -/
theorem Writes.exists_cons {l : Numeral} {t : List Char} (h : Writes l t) :
    ∃ c r, t = c :: r ∧ (c = '-' ∨ c.isDigit = true) := by
  cases h with
  | plain h =>
    obtain ⟨c, r, ht, hc⟩ := h.exists_cons
    exact ⟨c, r, ht, .inr hc⟩
  | minus _ => exact ⟨'-', _, rfl, .inl rfl⟩

variable {s : Strictness} {ds rest et : List Char}

theorem scanDigits_append (onEnd : ReadError) (hds : IsDigits ds)
    (hrest : ∀ c ∈ rest.head?, c.isDigit = false) :
    scanDigits onEnd (ds ++ rest) = .ok (ds, rest) := by
  obtain ⟨hne, hdigits⟩ := hds
  have htake : (ds ++ rest).takeWhile Char.isDigit = ds := by
    rw [List.takeWhile_append_of_pos hdigits]
    cases rest with
    | nil => simp
    | cons c r => simp [hrest c rfl]
  have hdrop : (ds ++ rest).dropWhile Char.isDigit = rest := by
    rw [List.dropWhile_append_of_pos hdigits]
    cases rest with
    | nil => rfl
    | cons c r => simp [hrest c rfl]
  cases ds with
  | nil => exact absurd rfl hne
  | cons c ds =>
    have hc := hdigits c List.mem_cons_self
    rw [List.cons_append] at htake hdrop ⊢
    rw [scanDigits, if_pos hc, htake, hdrop]

theorem scanWhole_append (onEnd : ReadError) (hds : IsDigits ds)
    (hzero : ds.head? = some '0' → ds = ['0']) (hrest : ∀ c ∈ rest.head?, c.isDigit = false) :
    scanWhole onEnd (ds ++ rest) = .ok (ds, rest) := by
  have hscan := scanDigits_append onEnd hds hrest
  unfold scanWhole
  split
  · -- a zero comes first, and no digit behind it
    rename_i c r heq
    have hhead : ds.head? = some '0' := by
      cases ds with
      | nil => exact absurd rfl hds.1
      | cons d ds => simp_all
    obtain rfl := hzero hhead
    obtain ⟨-, rfl⟩ := List.cons.inj heq
    rw [if_neg (by simp [hrest c rfl])]
  · exact hscan

theorem scanFraction_append (onEnd : ReadError) (hds : ∀ c ∈ ds, c.isDigit = true)
    (hrest : ∀ c ∈ rest.head?, c.isDigit = false ∧ c ≠ '.') :
    scanFraction onEnd (fractionText ds ++ rest) = .ok (ds, rest) := by
  cases ds with
  | nil =>
    rw [fractionText, List.isEmpty_nil, if_pos rfl, List.nil_append]
    unfold scanFraction
    split
    · exact absurd rfl (hrest '.' rfl).2
    · rfl
  | cons c ds =>
    have hscan : scanDigits onEnd (c :: ds ++ rest) = .ok (c :: ds, rest) :=
      scanDigits_append onEnd ⟨List.cons_ne_nil c ds, hds⟩ fun c hc => (hrest c hc).1
    exact hscan

theorem scanExponent_append (onEnd : ReadError) {e : Option (Bool × List Char)}
    (he : WritesExponent e et) (hrest : Ends rest) :
    scanExponent onEnd (et ++ rest) = .ok (e, rest) := by
  have hdigit : ∀ c ∈ rest.head?, c.isDigit = false := fun c hc => (hrest c hc).1
  cases he with
  | none =>
    rw [List.nil_append]
    unfold scanExponent
    split
    · exact absurd rfl (hrest 'e' rfl).2.2.1
    · exact absurd rfl (hrest 'E' rfl).2.2.2
    · rfl
  | @plain ds hds =>
    -- digits do not begin with a sign
    have hsign : scanSign (ds ++ rest) = (false, ds ++ rest) := by
      obtain ⟨hne, hdigits⟩ := hds
      cases ds with
      | nil => exact absurd rfl hne
      | cons c ds =>
        have hc := hdigits c List.mem_cons_self
        rw [List.cons_append]
        unfold scanSign
        split <;> simp_all
    simp [scanExponent, hsign, scanDigits_append onEnd hds hdigit]
  | plus hds =>
    simp [scanExponent, scanSign, scanDigits_append onEnd hds hdigit]
  | minus hds =>
    simp [scanExponent, scanSign, scanDigits_append onEnd hds hdigit]

/-- **A numeral that is written is scanned**, and what follows it is left. -/
theorem scan_of_writes {l : Numeral} {t : List Char} (h : Writes l t) (hrest : Ends rest) :
    scan s (t ++ rest) = .ok (l, rest) := by
  -- the parts behind the sign, whatever the error where they break off
  have hparts : ∀ {whole fraction exponent t}, WritesUnsigned whole fraction exponent t →
      ∀ onEnd, ∃ r r', scanWhole onEnd (t ++ rest) = .ok (whole, r) ∧
        scanFraction onEnd r = .ok (fraction, r') ∧
        scanExponent onEnd r' = .ok (exponent, rest) := by
    intro _ fraction _ _ hwrites onEnd
    cases hwrites with
    | @intro et hwhole hzero hfraction hexponent =>
      have hbehind : ∀ c ∈ (et ++ rest).head?, c.isDigit = false ∧ c ≠ '.' := by
        cases hexponent with
        | none => exact fun c hc => ⟨(hrest c hc).1, (hrest c hc).2.1⟩
        | _ => rintro c ⟨⟩; decide
      have hpoint : ∀ c ∈ (fractionText fraction ++ (et ++ rest)).head?, c.isDigit = false := by
        cases fraction with
        | nil => exact fun c hc => (hbehind c hc).1
        | cons => rintro c ⟨⟩; decide
      simp only [List.append_assoc]
      exact ⟨_, _, scanWhole_append onEnd hwhole hzero hpoint,
        scanFraction_append onEnd hfraction hbehind, scanExponent_append onEnd hexponent hrest⟩
  cases h with
  | plain h =>
    have hsign : ∃ c r, t ++ rest = c :: r ∧ c ≠ '-' := by
      obtain ⟨c, r, rfl, hc⟩ := h.exists_cons
      refine ⟨c, r ++ rest, rfl, ?_⟩
      rintro rfl
      exact absurd hc (by decide)
    obtain ⟨c, r, hcons, hc⟩ := hsign
    unfold scan
    extract_lets onEnd
    obtain ⟨r₁, r₂, h₁, h₂, h₃⟩ := hparts h onEnd
    rw [hcons] at h₁ ⊢
    simp [hc, h₁, h₂, h₃, bind, Except.bind, pure, Except.pure]
  | minus h =>
    unfold scan
    extract_lets onEnd
    obtain ⟨r₁, r₂, h₁, h₂, h₃⟩ := hparts h onEnd
    simp [h₁, h₂, h₃, bind, Except.bind, pure, Except.pure]

/-! ### Whole numbers -/

theorem natOfDigits_digits (n : Nat) : natOfDigits (digits n) = n := by
  have h : Nat.ofDigitChars 10 (Nat.toDigits 10 n) 0 = n := Nat.ofDigitChars_ten_toDigits
  rwa [Nat.ofDigitChars_eq_foldl] at h

/-- The numeral of a whole number. -/
def ofWhole (n : Int) : Numeral :=
  ⟨n < 0, digits n.natAbs, [], none⟩

theorem writes_whole (n : Int) : Writes (ofWhole n) (renderWhole n) := by
  have hzero : ∀ k, (digits k).head? = some '0' → digits k = ['0'] := by
    intro k hk
    obtain rfl : k = 0 := by_contra fun hne => head?_digits hne hk
    rfl
  have h : WritesUnsigned (digits n.natAbs) [] none (digits n.natAbs) := by
    have h := @WritesUnsigned.intro _ [] _ _ (isDigits_digits n.natAbs) (hzero n.natAbs)
      (fun _ hc => nomatch hc) .none
    rwa [fractionText, List.isEmpty_nil, if_pos rfl, List.nil_append, List.append_nil] at h
  cases n with
  | ofNat n => exact Writes.plain h
  | negSucc n =>
    have hn : decide (Int.negSucc n < 0) = true := decide_eq_true (Int.negSucc_lt_zero n)
    rw [ofWhole, hn]
    exact Writes.minus h

/-- **Whole numbers of sixty-four bits are read exactly**, signed or unsigned. -/
theorem number?_ofWhole {n : Int} (hlow : -2 ^ 63 ≤ n) (hhigh : n < 2 ^ 64) :
    (ofWhole n).number? = some (.whole n) := by
  have h63 : Nat.pow 2 63 = 2 ^ 63 := rfl
  have h64 : Nat.pow 2 64 = 2 ^ 64 := rfl
  cases n with
  | ofNat m =>
    have hlt : m < Nat.pow 2 64 := by simpa [h64] using Int.ofNat_lt.mp hhigh
    simp [number?, ofWhole, natOfDigits_digits, hlt]
  | negSucc m =>
    have hpos : m + 1 ≤ Nat.pow 2 63 := by omega
    have hwritten : ofWhole (.negSucc m) = ⟨true, digits (m + 1), [], none⟩ := by
      rw [ofWhole, decide_eq_true (Int.negSucc_lt_zero m), Int.natAbs_negSucc]
    rw [hwritten, Int.negSucc_eq]
    rw [number?]
    simp only [natOfDigits_digits, decide_eq_true hpos, decide_eq_true (Nat.succ_pos m)]
    rfl

end Numeral

end Json

/-! ### Doubles -/

namespace Decimal

namespace Binary64

variable {b : Binary64}

theorem le_roundHalfEven (num den : Nat) : num / den ≤ roundHalfEven num den := by
  unfold roundHalfEven
  dsimp only
  split
  · exact Nat.le_refl _
  · split <;> omega

/-- A point of the grid that stands for a double is positive. -/
theorem pos_of_gridPoint {e : Int} {k : Nat} (h : b.gridPoint e = some k) : 0 < k := by
  unfold gridPoint at h
  extract_lets n q up down inside c r at h
  have hpos : ∀ x, inside x = true → 0 < x := by
    intro x hx
    exact of_decide_eq_true (Bool.and_eq_true_iff.mp hx).1
  split at h
  · -- rounding does not go below the lower point
    rename_i hc _
    have hround : c ≤ roundHalfEven (c * down + r) down := by
      have hdown : 0 < down := Nat.pos_of_ne_zero fun h => by
        have hzero : c = 0 := by rw [show c = n.value * up / down from rfl, h, Nat.div_zero]
        exact absurd (hpos c hc) (by omega)
      have hdiv : c ≤ (c * down + r) / down :=
        (Nat.le_div_iff_mul_le hdown).mpr (Nat.le_add_right _ _)
      exact Nat.le_trans hdiv (le_roundHalfEven _ _)
    exact Option.some.inj h ▸ Nat.lt_of_lt_of_le (hpos c hc) hround
  · rename_i hc _
    exact Option.some.inj h ▸ hpos c hc
  · exact Option.some.inj h ▸ c.succ_pos
  · exact nomatch h

/-- A double is written with the digits of a positive number, unless there are none. -/
theorem coefficient_shortest (b : Binary64) :
    b.shortest = ⟨0, 0⟩ ∨ 0 < b.shortest.coefficient := by
  unfold shortest
  rcases hd : gridExponents.findSome? fun e => (b.gridPoint e).map (Scientific.mk · e) with - | d
  · exact .inl rfl
  · obtain ⟨e, -, he⟩ := List.exists_of_findSome?_eq_some hd
    obtain ⟨k, hk, rfl⟩ := Option.map_eq_some_iff.mp he
    exact .inr (pos_of_gridPoint hk)

end Binary64

end Decimal

namespace Json.Numeral

open Decimal

variable {ds : List Char} {x : Int}

/-- Digits that may stand for a number with the power of ten of the first one: they do
not begin with a zero, and without digits there is no power. -/
structure Significant (ds : List Char) (x : Int) : Prop where
  isDigit : ∀ c ∈ ds, c.isDigit = true
  head : ds.head? ≠ some '0'
  zero : ds = [] → x = 0

theorem isDigit_of_mem_zeros (k : Nat) : ∀ c ∈ List.replicate k '0', c.isDigit = true := by
  intro c hc
  rw [List.eq_of_mem_replicate hc]
  rfl

theorem isDigits_zero : IsDigits ['0'] :=
  ⟨List.cons_ne_nil _ _, isDigit_of_mem_zeros 1⟩

/-- Digits on both sides of a point. -/
theorem writesUnsigned_point {whole fraction : List Char} (hwhole : IsDigits whole)
    (hzero : whole.head? = some '0' → whole = ['0']) (hfraction : IsDigits fraction) :
    WritesUnsigned whole fraction none (whole ++ '.' :: fraction) := by
  have h := WritesUnsigned.intro hwhole hzero hfraction.2 .none
  rwa [fractionText, List.isEmpty_eq_false_iff.mpr hfraction.1, List.append_nil] at h

theorem writesUnsigned_zero : WritesUnsigned ['0'] ['0'] none ['0', '.', '0'] :=
  writesUnsigned_point isDigits_zero (fun _ => rfl) isDigits_zero

theorem exists_writes_positional (h : Significant ds x) :
    ∃ whole fraction, WritesUnsigned whole fraction none (positional ds x) := by
  by_cases hx : x < 0
  · -- all digits stand behind the point
    have hne : List.replicate (-x - 1).toNat '0' ++ ds ≠ [] := by
      intro hnil
      have := h.zero (List.append_eq_nil_iff.mp hnil).2
      omega
    have hfraction : IsDigits (List.replicate (-x - 1).toNat '0' ++ ds) :=
      ⟨hne, List.forall_mem_append.mpr ⟨isDigit_of_mem_zeros _, h.isDigit⟩⟩
    rw [positional, if_pos hx]
    exact ⟨_, _, writesUnsigned_point isDigits_zero (fun _ => rfl) hfraction⟩
  · rw [positional, if_neg hx]
    cases ds with
    | nil =>
      obtain rfl := h.zero rfl
      exact ⟨['0'], ['0'], writesUnsigned_zero⟩
    | cons c ds =>
      extract_lets whole fraction
      have hwhole : IsDigits (whole ++ List.replicate (x.toNat + 1 - whole.length) '0') :=
        ⟨List.cons_ne_nil _ _, List.forall_mem_append.mpr
          ⟨fun c' hc' => h.isDigit c' (List.mem_of_mem_take hc'), isDigit_of_mem_zeros _⟩⟩
      have hfraction : IsDigits (if fraction.isEmpty then ['0'] else fraction) := by
        split
        · exact isDigits_zero
        · rename_i hempty
          exact ⟨by simpa using hempty, fun c' hc' => h.isDigit c' (List.mem_of_mem_drop hc')⟩
      exact ⟨_, _, writesUnsigned_point hwhole (fun hzero => absurd hzero h.head) hfraction⟩

theorem exists_writes_scientific (signed : Bool) (h : Significant ds x) (hds : ds ≠ []) :
    ∃ whole fraction exponent, WritesUnsigned whole fraction exponent (scientific signed ds x) := by
  cases ds with
  | nil => exact absurd rfl hds
  | cons c ds =>
    have hc : IsDigits [c] := by
      refine ⟨List.cons_ne_nil c [], fun c' hc' => h.isDigit c' ?_⟩
      rw [List.mem_singleton.mp hc']
      exact List.mem_cons_self
    have hexponent : ∃ e, WritesExponent e
        ('e' :: (if x < 0 then ['-'] else if signed then ['+'] else []) ++ digits x.natAbs) := by
      have hdigits := isDigits_digits x.natAbs
      split
      · exact ⟨_, .minus hdigits⟩
      · split
        · exact ⟨_, .plus hdigits⟩
        · exact ⟨_, .plain hdigits⟩
    obtain ⟨e, he⟩ := hexponent
    have hw := WritesUnsigned.intro hc (fun hzero => absurd hzero h.head)
      (fun c' hc' => h.isDigit c' (List.mem_cons_of_mem c hc')) he
    exact ⟨_, _, _, by simpa [scientific, fractionText] using hw⟩

/-- Digits are written as a numeral in either layout. -/
theorem exists_writes_row (negative : Bool) (h : Significant ds x) (hds : ds ≠ []) (signed : Bool)
    (p : Prop) [Decidable p] :
    ∃ l, Writes l ((if negative then ['-'] else []) ++
      if p then positional ds x else scientific signed ds x) := by
  by_cases hp : p
  · rw [if_pos hp]
    obtain ⟨_, _, hw⟩ := exists_writes_positional h
    exact ⟨_, hw.writes negative⟩
  · rw [if_neg hp]
    obtain ⟨_, _, _, hw⟩ := exists_writes_scientific signed h hds
    exact ⟨_, hw.writes negative⟩

/-- The zeros at the end of a positive number may be left out. -/
theorem significant_digits {n : Nat} (hn : 0 < n) (x : Int) :
    Significant (List.rdropWhile (· = '0') (digits n)) x ∧
      List.rdropWhile (· = '0') (digits n) ≠ [] := by
  have hprefix := List.rdropWhile_prefix (· = '0') (digits n)
  generalize hds : List.rdropWhile (· = '0') (digits n) = ds at hprefix
  have hhead := head?_digits hn.ne'
  cases ds with
  | nil =>
    -- then all digits would be zeros
    have hall := List.rdropWhile_eq_nil_iff.mp hds
    obtain ⟨c, r, hcons⟩ := List.exists_cons_of_ne_nil (digits_ne_nil n)
    rw [hcons] at hhead hall
    have hc := hall c List.mem_cons_self
    exact absurd (by simpa using hc) (by simpa using hhead)
  | cons c r =>
    obtain ⟨t, ht⟩ := hprefix
    rw [← ht] at hhead
    refine ⟨⟨fun c hc => ?_, hhead, nofun⟩, List.cons_ne_nil c r⟩
    exact isDigit_of_mem_digits (ht ▸ List.mem_append_left t hc)

/-- **A finite double is written as a numeral.** -/
theorem exists_writes_double (x : Float) : ∃ l, Writes l (doubleLayout.render x) := by
  rw [Layout.render]
  generalize Binary64.ofFloat x = b
  dsimp only
  split
  · exact ⟨_, writesUnsigned_zero.writes b.negative⟩
  · rcases b.coefficient_shortest with hd | hd
    · rw [hd]
      exact ⟨_, writesUnsigned_zero.writes b.negative⟩
    · generalize b.shortest = d at hd ⊢
      have hrow := significant_digits hd (d.exponent + ((digits d.coefficient).length - 1 : Nat))
      exact exists_writes_row b.negative hrow.1 hrow.2 _ _

end Json.Numeral

end RamlSchema
