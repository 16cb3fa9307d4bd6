import FieldTree.Field.Reading
import FieldTree.Proofs.Json.Grammar
import Mathlib.Data.Nat.Digits.Defs
import Mathlib.Data.List.Forall2
import Mathlib.Tactic.Ring

/-!
# Integers at the Start of a Text

What a text starts with is said without a scanner: blanks, at most one sign, the mark of a radix, and as many digits as
there are, be it none. Every text can be taken apart like this, and the integer that is read off it is the nearest of 64
bits to the one that its digits spell. The scanner holds the magnitude at a bound of its own while it goes, which makes
no difference: beyond that bound a number only grows, and the bound lies outside of 64 bits already.

## Architecture

- `digitValue?_eq_some_iff`: the digits of a radix, in either case.
- `leadingMagnitude_append`: the magnitude of a run of digits, held at its bound.
- `StartsInteger`, `exists_startsInteger`: the integer that a text starts with, and that there is always one.
- `StartsInteger.leadingInt_eq`: **reading saturates**, however long the digits are.
- `leadingInt_integer`: an integer in decimal reads as itself.
-/

namespace FieldTree.Numeral

/-! ## Digits -/

/-- `c` is the digit of value `d` in some radix up to sixteen. Letters may have either case. -/
def IsDigitOf (radix : Nat) (c : Char) (d : Nat) : Prop :=
  d < radix ∧ (c = d.digitChar ∨ c = d.digitChar.toUpper)

/-- The digits stand in three rows of characters. -/
theorem eq_digitChar_of_digitValue? {radix d : Nat} {c : Char} (h : digitValue? radix c = some d) :
    c = d.digitChar ∨ c = d.digitChar.toUpper := by
  have hdecimal : ∀ n < 58, 48 ≤ n → n = (n - 48).digitChar.toNat := by decide
  have hlower : ∀ n < 103, 97 ≤ n → n = (n - 97 + 10).digitChar.toNat := by decide
  have hupper : ∀ n < 71, 65 ≤ n → n = (n - 65 + 10).digitChar.toUpper.toNat := by decide
  -- each row is finite, so it was gone through above
  obtain ⟨hvalue, -⟩ := Option.filter_eq_some_iff.mp h
  split at hvalue
  · next hc =>
    cases hvalue
    exact .inl (Char.toNat_inj.mp (hdecimal c.toNat (Nat.lt_succ_of_le hc.2) hc.1))
  · split at hvalue
    · next hc =>
      cases hvalue
      exact .inl (Char.toNat_inj.mp (hlower c.toNat (Nat.lt_succ_of_le hc.2) hc.1))
    · split at hvalue
      · next hc =>
        cases hvalue
        exact .inr (Char.toNat_inj.mp (hupper c.toNat (Nat.lt_succ_of_le hc.2) hc.1))
      · cases hvalue

theorem digitValue?_eq_some_iff {radix d : Nat} {c : Char} (hradix : radix ≤ 16) :
    digitValue? radix c = some d ↔ IsDigitOf radix c d := by
  have hread : ∀ d < 16, digitValue? 16 d.digitChar = some d ∧ digitValue? 16 d.digitChar.toUpper = some d := by
    decide
  -- a smaller radix has fewer of the digits
  have hnarrow : digitValue? radix c = (digitValue? 16 c).filter (· < radix) := by
    have hless : ∀ n, decide (n < radix) = (decide (n < 16) && decide (n < radix)) := by
      intro n
      simp
      omega
    simp only [digitValue?, Option.filter_filter]
    congr 1
    funext n
    exact hless n
  constructor
  · intro h
    exact ⟨by simpa using (Option.filter_eq_some_iff.mp h).2, eq_digitChar_of_digitValue? h⟩
  · rintro ⟨hless, rfl | rfl⟩
    · simp [hnarrow, (hread d (by omega)).1, hless]
    · simp [hnarrow, (hread d (by omega)).2, hless]

/-- **The magnitude of the digits is held at its bound only**, wherever on the way it goes beyond. -/
theorem leadingMagnitude_append {radix : Nat} (hradix : radix ≤ 16) (hpos : 0 < radix) {front rest : List Char}
    {ds : List Nat} (hdigits : List.Forall₂ (IsDigitOf radix) front ds)
    (hrest : ∀ c ∈ rest.head?, ∀ d, ¬IsDigitOf radix c d) (n : Nat) :
    leadingMagnitude radix (min magnitudeBound n) (front ++ rest) =
      min magnitudeBound (Nat.ofDigits radix ds.reverse + radix ^ ds.length * n) := by
  -- along the digits, for any number so far: what has reached the bound stays there, since it can only grow
  induction hdigits generalizing n with
  | nil =>
    cases rest with
    | nil => simp [leadingMagnitude]
    | cons c rest =>
      have hnone : digitValue? radix c = none := by
        rw [Option.eq_none_iff_forall_ne_some]
        intro d hd
        exact hrest c rfl d ((digitValue?_eq_some_iff hradix).mp hd)
      simp [leadingMagnitude, hnone]
  | @cons c d front ds hdigit _ ih =>
    have hvalue := (digitValue?_eq_some_iff hradix).mpr hdigit
    have hheld : min magnitudeBound (min magnitudeBound n * radix + d) = min magnitudeBound (n * radix + d) := by
      rcases Nat.le_total n magnitudeBound with hle | hle
      · rw [Nat.min_eq_right hle]
      · have hgrown : magnitudeBound ≤ magnitudeBound * radix := Nat.le_mul_of_pos_right _ hpos
        have hmono : magnitudeBound * radix ≤ n * radix := Nat.mul_le_mul_right radix hle
        rw [Nat.min_eq_left hle]
        omega
    rw [List.cons_append, leadingMagnitude, hvalue]
    dsimp only
    rw [hheld, ih, Nat.ofDigits_reverse_cons, List.length_cons]
    congr 1
    ring

/-! ## The parts of an integer -/

/-- At most one sign in front of a text, as the factor that it stands for. -/
inductive Signed : Int → List Char → List Char → Prop where
  | minus {rest : List Char} : Signed (-1) ('-' :: rest) rest
  | plus {rest : List Char} : Signed 1 ('+' :: rest) rest
  | none {rest : List Char} : (∀ c ∈ rest.head?, c ≠ '-' ∧ c ≠ '+') → Signed 1 rest rest

/-- The radix that a text asks for, and what follows the mark of the radix. -/
inductive Marked : Nat → List Char → List Char → Prop where
  | hexadecimal {x : Char} {rest : List Char} : x ∈ ['x', 'X'] → Marked 16 ('0' :: x :: rest) rest
  | octal {c : Char} {rest : List Char} : c ∉ ['x', 'X'] → Marked 8 ('0' :: c :: rest) (c :: rest)
  | decimal {rest : List Char} : (∀ c behind, rest ≠ '0' :: c :: behind) → Marked 10 rest rest

/-- A text starts with an integer: blanks, at most one sign, the mark of a radix, and as many digits as there are. The
    digits are given by their values. -/
inductive StartsInteger : (text : List Char) → (sign : Int) → (radix : Nat) → (ds : List Nat) → Prop where
  | mk {blanks signed unsigned front rest : List Char} {sign : Int} {radix : Nat} {ds : List Nat} :
      (∀ c ∈ blanks, isBlank c = true) → (∀ c ∈ signed.head?, isBlank c = false) → Signed sign signed unsigned →
      Marked radix unsigned (front ++ rest) → List.Forall₂ (IsDigitOf radix) front ds →
      (∀ c ∈ rest.head?, ∀ d, ¬IsDigitOf radix c d) → StartsInteger (blanks ++ signed) sign radix ds

section Parts

variable {text blanks rest : List Char} {sign : Int} {radix : Nat} {ds : List Nat}

theorem dropBlanks_append (hblanks : ∀ c ∈ blanks, isBlank c = true) (hrest : ∀ c ∈ rest.head?, isBlank c = false) :
    dropBlanks (blanks ++ rest) = rest := by
  rw [dropBlanks, List.dropWhile_append_of_pos hblanks]
  cases rest with
  | nil => rfl
  | cons c rest => simp [hrest c rfl]

theorem Signed.takeSign_eq (h : Signed sign text rest) : takeSign text = (decide (sign = -1), rest) := by
  cases h with
  | minus => rfl
  | plus => rfl
  | none hfirst =>
    unfold takeSign
    split
    · exact absurd rfl (hfirst _ rfl).1
    · exact absurd rfl (hfirst _ rfl).2
    · rfl

theorem Signed.eq_or (h : Signed sign text rest) : sign = 1 ∨ sign = -1 := by
  cases h with
  | minus => exact .inr rfl
  | plus => exact .inl rfl
  | none _ => exact .inl rfl

theorem exists_signed (text : List Char) : ∃ sign rest, Signed sign text rest := by
  by_cases hfirst : ∀ c ∈ text.head?, c ≠ '-' ∧ c ≠ '+'
  · exact ⟨1, text, .none hfirst⟩
  · cases text with
    | nil => simp at hfirst
    | cons c rest =>
      by_cases hminus : c = '-'
      · exact ⟨-1, rest, hminus ▸ .minus⟩
      · have hplus : c = '+' := by simpa [hminus] using hfirst
        exact ⟨1, rest, hplus ▸ .plus⟩

theorem Marked.takeRadix_eq (h : Marked radix text rest) : takeRadix text = (radix, rest) := by
  cases h with
  | @hexadecimal x rest hx =>
    have hx : x = 'x' ∨ x = 'X' := by simpa using hx
    rcases hx with rfl | rfl <;> rfl
  | @octal c rest hc =>
    have hc : c ≠ 'x' ∧ c ≠ 'X' := by simpa using hc
    -- a zero marks the octal digits behind it, unless it is the zero of a hexadecimal mark
    unfold takeRadix
    split <;> simp_all
  | decimal hnone =>
    unfold takeRadix
    split
    · exact absurd rfl (hnone _ _)
    · exact absurd rfl (hnone _ _)
    · exact absurd rfl (hnone _ _)
    · rfl

theorem Marked.radix_mem (h : Marked radix text rest) : radix ∈ [8, 10, 16] := by
  cases h <;> decide

theorem exists_marked (text : List Char) : ∃ radix rest, Marked radix text rest := by
  by_cases hmark : ∃ c behind, text = '0' :: c :: behind
  · obtain ⟨c, behind, rfl⟩ := hmark
    by_cases hx : c ∈ ['x', 'X']
    · exact ⟨16, behind, .hexadecimal hx⟩
    · exact ⟨8, c :: behind, .octal hx⟩
  · exact ⟨10, text, .decimal fun c behind h => hmark ⟨c, behind, h⟩⟩

theorem exists_digits (radix : Nat) (text : List Char) : ∃ front rest ds, text = front ++ rest ∧
    List.Forall₂ (IsDigitOf radix) front ds ∧ ∀ c ∈ rest.head?, ∀ d, ¬IsDigitOf radix c d := by
  induction text with
  | nil => exact ⟨[], [], [], rfl, .nil, by simp⟩
  | cons c text ih =>
    by_cases hdigit : ∃ d, IsDigitOf radix c d
    · obtain ⟨d, hd⟩ := hdigit
      obtain ⟨front, rest, ds, rfl, hfront, hrest⟩ := ih
      exact ⟨c :: front, rest, d :: ds, rfl, .cons hd hfront, hrest⟩
    · refine ⟨[], c :: text, [], rfl, .nil, ?_⟩
      simpa using hdigit

/-- **Every text starts with an integer**, be it without digits. -/
theorem exists_startsInteger (text : List Char) : ∃ sign radix ds, StartsInteger text sign radix ds := by
  have hblanks : ∀ c ∈ text.takeWhile isBlank, isBlank c = true := List.all_eq_true.mp List.all_takeWhile
  have hfirst : ∀ c ∈ (text.dropWhile isBlank).head?, isBlank c = false := by
    intro c hc
    have hstop := List.head?_dropWhile_not isBlank text
    rw [Option.mem_def.mp hc] at hstop
    exact hstop
  obtain ⟨sign, unsigned, hsigned⟩ := exists_signed (text.dropWhile isBlank)
  obtain ⟨radix, run, hmarked⟩ := exists_marked unsigned
  obtain ⟨front, rest, ds, rfl, hdigits, hrest⟩ := exists_digits radix run
  refine ⟨sign, radix, ds, ?_⟩
  rw [← List.takeWhile_append_dropWhile (p := isBlank) (l := text)]
  exact .mk hblanks hfirst hsigned hmarked hdigits hrest

theorem StartsInteger.sign_eq (h : StartsInteger text sign radix ds) : sign = 1 ∨ sign = -1 := by
  obtain ⟨-, -, hsigned, -⟩ := h
  exact hsigned.eq_or

/-- **An integer is read as the nearest one of 64 bits**, however many digits it has. -/
theorem StartsInteger.leadingInt_eq (h : StartsInteger text sign radix ds) :
    leadingInt text = clamp64 (sign * Nat.ofDigits radix ds.reverse) := by
  obtain ⟨hblanks, hfirst, hsigned, hmarked, hdigits, hrest⟩ := h
  next blanks signed unsigned front rest =>
  have hradix : radix ≤ 16 ∧ 0 < radix := by
    have hmem := hmarked.radix_mem
    simp at hmem
    omega
  have hmagnitude := leadingMagnitude_append hradix.1 hradix.2 hdigits hrest 0
  rw [Nat.min_zero, Nat.mul_zero, Nat.add_zero] at hmagnitude
  simp only [leadingInt, dropBlanks_append hblanks hfirst, hsigned.takeSign_eq, hmarked.takeRadix_eq, hmagnitude,
    clamp64, magnitudeBound]
  -- the bound of the magnitude is far outside of 64 bits, so the clamp at the end hides it
  generalize Nat.ofDigits radix ds.reverse = magnitude
  rcases hsigned.eq_or with rfl | rfl
  · simp
    omega
  · simp
    omega

end Parts

/-! ## Integers in decimal -/

theorem isDigitOf_of_isDigit {c : Char} (h : c.isDigit = true) : IsDigitOf 10 c (c.toNat - 48) := by
  simp only [Char.isDigit, Bool.and_eq_true, decide_eq_true_eq] at h
  have hlow : '0' ≤ c := h.1
  have hhigh : c ≤ '9' := h.2
  have hcode : c.toNat ≤ 57 := h.2
  refine (digitValue?_eq_some_iff (by decide)).mp ?_
  simp [digitValue?, hlow, hhigh]
  omega

/-- Digits from the most significant one on, by their values. -/
theorem ofDigits_values (cs : List Char) :
    Nat.ofDigits 10 (cs.map fun c => c.toNat - 48).reverse = Decimal.ofDigits cs := by
  induction cs with
  | nil => rfl
  | cons c cs ih =>
    change _ = Nat.ofDigitChars 10 (c :: cs) 0
    rw [List.map_cons, Nat.ofDigits_reverse_cons, ih, Nat.ofDigitChars_cons,
      Nat.ofDigitChars_eq_ofDigitChars_zero]
    simp [Decimal.ofDigits, Nat.add_comm]

/-- The decimal digits of a number ask for no other radix: only zero starts with a zero. -/
theorem marked_digits (n : Nat) : Marked 10 (Decimal.digits n) (Decimal.digits n) := by
  have hwhole := Json.whole_digits n
  apply Marked.decimal
  intro c behind h
  rw [h] at hwhole
  cases hwhole with
  | digits hne _ => exact hne rfl

theorem isBlank_of_numberStart {c : Char} (h : c = '-' ∨ c.isDigit = true) : isBlank c = false := by
  rcases h with rfl | h
  · decide
  · simp only [Char.isDigit, Bool.and_eq_true, decide_eq_true_eq] at h
    have hlow : 48 ≤ c.toNat := h.1
    have hhigh : c.toNat ≤ 57 := h.2
    simp [isBlank]
    omega

theorem signed_integer (v : Int) : ∃ sign : Int, Signed sign (Decimal.integer v) (Decimal.digits v.natAbs) ∧
    sign * v.natAbs = v := by
  unfold Decimal.integer
  split
  · exact ⟨-1, .minus, by omega⟩
  · refine ⟨1, .none ?_, by omega⟩
    obtain ⟨c, ds, hds, hc⟩ := Json.digits_eq_cons v.natAbs
    intro d hd
    rw [hds] at hd
    cases hd
    constructor <;> rintro rfl <;> simp [Char.isDigit] at hc

theorem zero_notMem_integer (v : Int) : '\x00' ∉ Decimal.integer v := by
  have hdigits : '\x00' ∉ Decimal.digits v.natAbs := fun h => Bool.false_ne_true (Json.isDigit_of_mem_digits _ h)
  unfold Decimal.integer
  split
  · simpa using hdigits
  · exact hdigits

/-- **An integer in decimal reads as itself.** -/
theorem leadingInt_integer {v : Int} (hlow : -2 ^ 63 ≤ v) (hhigh : v < 2 ^ 63) :
    leadingInt (Decimal.integer v) = v := by
  obtain ⟨sign, hsigned, hvalue⟩ := signed_integer v
  have hmarked : Marked 10 (Decimal.digits v.natAbs) (Decimal.digits v.natAbs ++ []) := by
    rw [List.append_nil]
    exact marked_digits _
  have hdigits : List.Forall₂ (IsDigitOf 10) (Decimal.digits v.natAbs)
      ((Decimal.digits v.natAbs).map fun c => c.toNat - 48) := by
    rw [List.forall₂_map_right_iff, List.forall₂_same]
    exact fun c hc => isDigitOf_of_isDigit (Json.isDigit_of_mem_digits c hc)
  have hfirst : ∀ c ∈ (Decimal.integer v).head?, isBlank c = false := by
    obtain ⟨c, rest, hcons, hc⟩ := Json.integer_eq_cons v
    intro d hd
    rw [hcons] at hd
    cases hd
    exact isBlank_of_numberStart hc
  -- neither blanks nor the mark of a radix, and nothing behind the digits
  have hreads : StartsInteger ([] ++ Decimal.integer v) sign 10 _ :=
    .mk (by simp) hfirst hsigned hmarked hdigits (by simp)
  rw [← List.nil_append (Decimal.integer v), hreads.leadingInt_eq, ofDigits_values, Decimal.ofDigits_digits, hvalue]
  unfold clamp64
  omega

end FieldTree.Numeral
