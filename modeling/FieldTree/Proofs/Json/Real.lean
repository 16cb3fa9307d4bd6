import FieldTree.Proofs.Decimal
import FieldTree.Proofs.Json.Scalar

/-!
# Rendered Numbers are Read

Every number that a field is rendered as is read as a number, whatever its bytes are. The digits of a real number
need not fit the significand of a reader, and what it reads need not be the number that was written; but it is a
finite double, since what is written is in the range of a double.

## Architecture

- `unsignedNumber_point`, `fractionPart_digits`, `realPart_exponent`: the parts of a number.
- `exists_unsignedNumber_withPoint`: digits with a point among them.
- `exists_spellsReal_fixed`, `exists_spellsReal_scientific`: **a double is read in both of its forms.**
- `Field.exists_spells_scalarText`: **every field without children is rendered as one scalar token.**
-/

namespace FieldTree.Json

/-! ## Runs of digits -/

section Digits

variable (bound : Nat) {ds rest : List Char}

/-- The digits that are taken do not depend on what stands behind the run. -/
theorem boundedDigits_stop (hrest : startsWithDigit rest = false) (n taken : Nat) (ds : List Char) :
    boundedDigits bound n taken (ds ++ rest) = boundedDigits bound n taken ds := by
  induction ds generalizing n taken with
  | nil =>
    cases rest with
    | nil => rfl
    | cons c rest =>
      have hc : c.isDigit = false := hrest
      simp [boundedDigits, hc]
  | cons c ds ih => simp only [List.cons_append, boundedDigits, ih]

/-- A run that fits is taken as a whole. -/
theorem boundedDigits_eq (hds : ∀ c ∈ ds, c.isDigit = true) {n : Nat}
    (hbound : Nat.ofDigitChars 10 ds n ≤ bound) :
    boundedDigits bound n 0 ds = (Nat.ofDigitChars 10 ds n, ds.length) := by
  have htaken : boundedDigits bound n 0 (ds ++ []) = (Nat.ofDigitChars 10 ds n, 0 + ds.length) :=
    boundedDigits_append hds rfl n 0 hbound
  rwa [List.append_nil, Nat.zero_add] at htaken

theorem boundedDigits_fst_le {n : Nat} (h : n ≤ bound) (taken : Nat) (text : List Char) :
    (boundedDigits bound n taken text).1 ≤ bound := by
  fun_induction boundedDigits bound n taken text with
  | case1 n taken c rest hc ih =>
    rw [Bool.and_eq_true, decide_eq_true_iff] at hc
    exact ih hc.2
  | case2 => exact h
  | case3 => exact h

theorem boundedDigits_snd_le (n taken : Nat) (text : List Char) :
    (boundedDigits bound n taken text).2 ≤ taken + text.length := by
  fun_induction boundedDigits bound n taken text with
  | case1 n taken c rest _ ih => exact Nat.le_trans ih (by rw [List.length_cons]; omega)
  | case2 => exact Nat.le_add_right _ _
  | case3 => exact Nat.le_add_right _ _

theorem digitRun_append (hds : ∀ c ∈ ds, c.isDigit = true) (hrest : startsWithDigit rest = false) :
    digitRun (ds ++ rest) = ds.length := by
  rw [digitRun, List.takeWhile_append_of_pos hds]
  cases rest with
  | nil => simp
  | cons c rest =>
    have hc : c.isDigit = false := hrest
    simp [hc]

/-- Behind the digits that were taken, the rest of the run is passed over. -/
theorem forward_run (hds : ∀ c ∈ ds, c.isDigit = true) (hrest : startsWithDigit rest = false) {taken : Nat}
    (htaken : taken ≤ ds.length) (p : Position) :
    digitRun (Cursor.forward ⟨ds ++ rest, p⟩ taken).rest = ds.length - taken ∧
      ∃ p', (Cursor.forward ⟨ds ++ rest, p⟩ taken).forward (ds.length - taken) = ⟨rest, p'⟩ := by
  have hrun : (Cursor.forward ⟨ds ++ rest, p⟩ taken).rest = ds.drop taken ++ rest :=
    List.drop_append_of_le_length htaken
  refine ⟨?_, ⟨p.line, p.column + taken + (ds.length - taken)⟩, ?_⟩
  · rw [hrun, digitRun_append (fun c hc => hds c (List.mem_of_mem_drop hc)) hrest, List.length_drop]
  · rw [Cursor.forward, hrun, ← List.length_drop, List.drop_left]
    rfl

end Digits

/-- Zeros in front of digits do not change their value. -/
theorem ofDigits_padded (width n : Nat) : Decimal.ofDigits (Decimal.padded width n) = n := by
  have hzeros : ∀ z, Nat.ofDigitChars 10 (List.replicate z '0') 0 = 0 := by
    intro z
    induction z with
    | zero => rfl
    | succ z ih => rw [List.replicate_succ, Nat.ofDigitChars_cons]; exact ih
  rw [Decimal.ofDigits, Decimal.padded, Nat.ofDigitChars_append, hzeros]
  exact Decimal.ofDigits_digits n

/-- The digits behind a point go on where those in front of it have ended. -/
theorem ofDigitChars_padded {places k : Nat} (hplaces : 0 < places) (hk : k < 10 ^ places) (n : Nat) :
    (Decimal.padded places k).length = places ∧
      Nat.ofDigitChars 10 (Decimal.padded places k) n = 10 ^ places * n + k := by
  have hlength := Decimal.length_padded ((Decimal.length_digits_le_iff hplaces).mpr hk)
  have hvalue : Nat.ofDigitChars 10 (Decimal.padded places k) 0 = k := ofDigits_padded places k
  rw [Nat.ofDigitChars_eq_ofDigitChars_zero, hlength, hvalue]
  exact ⟨rfl, rfl⟩

theorem isDigit_of_mem_padded (width n : Nat) : ∀ c ∈ Decimal.padded width n, c.isDigit = true := by
  intro c hc
  rcases List.mem_append.mp hc with hzero | hc
  · rw [List.eq_of_mem_replicate hzero]
    rfl
  · exact isDigit_of_mem_digits c hc

/-! ## The parts of a number -/

/-- **The digits in front of a point**: those that do not fit the significand count as powers of ten. -/
theorem unsignedNumber_point (negative : Bool) (n : Nat) (text : List Char) (p : Position) :
    ∃ p', unsignedNumber negative ⟨Decimal.digits n ++ '.' :: text, p⟩ =
      fractionPart negative (boundedDigits maxWhole 0 0 (Decimal.digits n)).1
        ((Decimal.digits n).length - (boundedDigits maxWhole 0 0 (Decimal.digits n)).2 : Nat)
        ⟨text, p'⟩ := by
  have hpoint : startsWithDigit ('.' :: text) = false := rfl
  by_cases hzero : n = 0
  · subst hzero
    exact ⟨⟨p.line, p.column + 1 + 0 + 1⟩, rfl⟩
  · obtain ⟨c, ds, hds, hc⟩ := exists_digits_eq_cons hzero
    have hdigits : ∀ d ∈ c :: ds, d.isDigit = true := hds ▸ isDigit_of_mem_digits
    have hfirst := hdigits c List.mem_cons_self
    have hstop := boundedDigits_stop maxWhole hpoint 0 0 (c :: ds)
    have htaken := boundedDigits_snd_le maxWhole 0 0 (c :: ds)
    rw [Nat.zero_add] at htaken
    obtain ⟨hrun, p', hbehind⟩ := forward_run hdigits hpoint htaken p
    rw [hds]
    rw [List.cons_append] at hstop hrun hbehind ⊢
    refine ⟨⟨p'.line, p'.column + 1⟩, ?_⟩
    simp only [unsignedNumber, hfirst, hc, hstop, hrun, hbehind, Bool.not_true, Bool.false_eq_true, if_false]
    rfl

/-- The digits behind a point. -/
theorem fractionPart_digits {ds tail : List Char} (hne : ds ≠ []) (hds : ∀ c ∈ ds, c.isDigit = true)
    (htail : startsWithDigit tail = false) (negative : Bool) (n : Nat) (e : Int) (p : Position) :
    ∃ p', fractionPart negative n e ⟨ds ++ tail, p⟩ =
      realPart negative (boundedDigits maxWhole n 0 ds).1 (e - (boundedDigits maxWhole n 0 ds).2)
        ⟨tail, p'⟩ := by
  obtain ⟨c, ds, rfl⟩ := List.exists_cons_of_ne_nil hne
  have hstop := boundedDigits_stop maxWhole htail n 0 (c :: ds)
  have htaken := boundedDigits_snd_le maxWhole n 0 (c :: ds)
  rw [Nat.zero_add] at htaken
  obtain ⟨hrun, p', hbehind⟩ := forward_run hds htail htaken p
  have hfirst := hds c List.mem_cons_self
  rw [List.cons_append] at hstop hrun hbehind ⊢
  refine ⟨p', ?_⟩
  simp only [fractionPart, hfirst, hstop, hrun, hbehind, if_true]

/-- A number without an exponent. -/
theorem realPart_delimited {rest : List Char} (hrest : Delimited rest) {s : Nat} {e : Int} {x : Double}
    (hx : Decimal.scaled (.ofNat s) e = some x) (negative : Bool) (p : Position) :
    realPart negative s e ⟨rest, p⟩ = .ok (.real (signed negative x), ⟨rest, p⟩) := by
  have hreal : realNumber negative s e ⟨rest, p⟩ = .ok (.real (signed negative x), ⟨rest, p⟩) := by
    simp only [realNumber, hx]
  cases rest with
  | nil => exact hreal
  | cons c rest => rcases hrest with rfl | rfl | rfl | rfl <;> exact hreal

theorem padded_ne_nil (width n : Nat) : Decimal.padded width n ≠ [] :=
  List.append_ne_nil_of_right_ne_nil _ Nat.toDigits_ne_nil

/-- The digits of an exponent, behind its sign. -/
theorem exponentPart_digits {rest : List Char} (hrest : Delimited rest) {k : Nat} (hk : k ≤ maxExponent)
    {cur : Cursor} {minus : Bool} {p : Position}
    (hsign : behindSign cur = (minus, ⟨Decimal.padded 2 k ++ rest, p⟩)) (negative : Bool) (s : Nat) (e : Int) :
    ∃ p', exponentPart negative s e cur =
      realNumber negative s (max (-2 ^ 31) (min (2 ^ 31 - 1) (if minus then e - k else e + k))) ⟨rest, p'⟩ := by
  have hend := startsWithDigit_of_delimited hrest
  have hdigits := isDigit_of_mem_padded 2 k
  have hvalue : Nat.ofDigitChars 10 (Decimal.padded 2 k) 0 = k := ofDigits_padded 2 k
  obtain ⟨c, ds, hds⟩ := List.exists_cons_of_ne_nil (padded_ne_nil 2 k)
  rw [hds] at hsign hdigits hvalue
  have htaken := boundedDigits_append hdigits hend 0 0 (Nat.le_trans (Nat.le_of_eq hvalue) hk)
  have hdrop : Cursor.forward ⟨c :: ds ++ rest, p⟩ (c :: ds).length =
      ⟨rest, ⟨p.line, p.column + (c :: ds).length⟩⟩ := by
    rw [Cursor.forward, List.drop_left]
  rw [hvalue, Nat.zero_add] at htaken
  rw [List.cons_append] at hsign htaken hdrop
  refine ⟨⟨p.line, p.column + (c :: ds).length⟩, ?_⟩
  simp only [exponentPart, hsign, hdigits c List.mem_cons_self, htaken, hdrop, hend, if_true, Bool.false_eq_true,
    if_false]

/-- **A number with an exponent that has a sign.** -/
theorem realPart_exponent {rest : List Char} (hrest : Delimited rest) {s : Nat} {e k : Int} {x : Double}
    (he : e.natAbs < 10 ^ 9) (hk : k.natAbs < 10 ^ 9) (hx : Decimal.scaled (.ofNat s) (e + k) = some x)
    (negative : Bool) (p : Position) :
    ∃ p', realPart negative s e
        ⟨'e' :: (if k < 0 then '-' else '+') :: (Decimal.padded 2 k.natAbs ++ rest), p⟩ =
      .ok (.real (signed negative x), ⟨rest, p'⟩) := by
  have hbound : k.natAbs ≤ maxExponent := by unfold maxExponent; omega
  -- the sum is far from where it would saturate
  have hsum : max (-2 ^ 31) (min (2 ^ 31 - 1) (if decide (k < 0) then e - k.natAbs else e + k.natAbs)) =
      e + k := by
    split <;> simp only [decide_eq_true_eq] at * <;> omega
  have hsign : behindSign
      ⟨(if k < 0 then '-' else '+') :: (Decimal.padded 2 k.natAbs ++ rest), ⟨p.line, p.column + 1⟩⟩ =
      (decide (k < 0), ⟨Decimal.padded 2 k.natAbs ++ rest, ⟨p.line, p.column + 1 + 1⟩⟩) := by
    split
    · next h => rw [decide_eq_true h]; rfl
    · next h => rw [decide_eq_false h]; rfl
  obtain ⟨p', hread⟩ := exponentPart_digits hrest hbound hsign negative s e
  refine ⟨p', ?_⟩
  rw [hsum] at hread
  show exponentPart negative s e _ = _
  refine hread.trans ?_
  simp only [realNumber, hx]

/-! ## Magnitudes -/

/-- The text is read as the magnitude of a double, with either sign. -/
structure SpellsReal (text : List Char) (x : Double) : Prop where
  start : ∃ c rest, text = c :: rest ∧ c.isDigit = true
  read : ∀ negative rest, Delimited rest → ∀ p, ∃ p', unsignedNumber negative ⟨text ++ rest, p⟩ =
    .ok (.real (signed negative x), ⟨rest, p'⟩)

/-- **A number of units of the last place is read up to its exponent.** As long as it fits the significand,
    nothing of it is lost. -/
theorem exists_unsignedNumber_withPoint {places : Nat} (hplaces : 0 < places) (n : Nat) :
    ∃ (s : Nat) (e : Int), s ≤ maxWhole ∧ e ≤ (Decimal.digits (n / 10 ^ places)).length ∧
      (n ≤ maxWhole → s = n ∧ e = -places) ∧
      ∀ negative tail, startsWithDigit tail = false → ∀ p, ∃ p',
        unsignedNumber negative ⟨Decimal.withPoint places n ++ tail, p⟩ = realPart negative s e ⟨tail, p'⟩ := by
  have hwhole := isDigit_of_mem_digits (n := n / 10 ^ places)
  have hplace := isDigit_of_mem_padded places (n % 10 ^ places)
  have hfraction : n % 10 ^ places < 10 ^ places := Nat.mod_lt n (Nat.pow_pos (by decide))
  generalize hfirst : boundedDigits maxWhole 0 0 (Decimal.digits (n / 10 ^ places)) = first
  generalize hsecond : boundedDigits maxWhole first.1 0 (Decimal.padded places (n % 10 ^ places)) = second
  -- the places go on with the significand of the whole part, and what did not fit raises the exponent
  refine ⟨second.1, ((Decimal.digits (n / 10 ^ places)).length - first.2 : Nat) - second.2, ?_, ?_, ?_, ?_⟩
  · rw [← hsecond]
    apply boundedDigits_fst_le
    rw [← hfirst]
    exact boundedDigits_fst_le maxWhole (Nat.zero_le _) 0 _
  · omega
  · intro hn
    -- where all digits fit, whole part and places are read to their values, which make up the number again
    have hdivmod := Nat.div_add_mod n (10 ^ places)
    have hvalue : Nat.ofDigitChars 10 (Decimal.digits (n / 10 ^ places)) 0 = n / 10 ^ places :=
      Decimal.ofDigits_digits _
    obtain ⟨hlength, hplaces⟩ := ofDigitChars_padded hplaces hfraction (n / 10 ^ places)
    have hwholeFits : Nat.ofDigitChars 10 (Decimal.digits (n / 10 ^ places)) 0 ≤ maxWhole := by
      rw [hvalue]
      exact Nat.le_trans (Nat.div_le_self _ _) hn
    rw [boundedDigits_eq maxWhole hwhole hwholeFits, hvalue] at hfirst
    subst hfirst
    have hfits : Nat.ofDigitChars 10 (Decimal.padded places (n % 10 ^ places)) (n / 10 ^ places) ≤ maxWhole := by
      rw [hplaces, hdivmod]
      exact hn
    rw [boundedDigits_eq maxWhole hplace hfits, hplaces, hdivmod, hlength] at hsecond
    subst hsecond
    exact ⟨rfl, by rw [Nat.sub_self, Int.natCast_zero, Int.zero_sub]⟩
  · intro negative tail htail p
    -- the text is read in two runs, up to the point and behind it
    obtain ⟨p₁, hpoint⟩ := unsignedNumber_point negative (n / 10 ^ places)
      (Decimal.padded places (n % 10 ^ places) ++ tail) p
    obtain ⟨p₂, hdigits⟩ := fractionPart_digits (padded_ne_nil places _) hplace htail negative first.1
      ((Decimal.digits (n / 10 ^ places)).length - first.2 : Nat) p₁
    refine ⟨p₂, ?_⟩
    rw [hfirst] at hpoint
    rw [hsecond] at hdigits
    rw [Decimal.withPoint, List.append_assoc, List.cons_append, hpoint, hdigits]

theorem withPoint_eq_cons (places n : Nat) :
    ∃ c ds, Decimal.withPoint places n = c :: ds ∧ c.isDigit = true := by
  obtain ⟨c, ds, hds, hc⟩ := digits_eq_cons (n / 10 ^ places)
  exact ⟨c, _, by rw [Decimal.withPoint, hds, List.cons_append], hc⟩

/-- **A double with fixed places is read**, if it is no larger than a single. -/
theorem exists_spellsReal_fixed {x : Double} (h : x.Below Decimal.largestSingle) :
    ∃ y, SpellsReal (Decimal.fixed 6 x.units Format.double.scale) y := by
  obtain ⟨s, e, hs, he, -, hread⟩ := exists_unsignedNumber_withPoint (show 0 < 6 by decide)
    (Rounding.halfEven (x.units * 10 ^ 6) Format.double.scale)
  have hlength := Decimal.length_whole_le h
  obtain ⟨y, hy⟩ : ∃ y, Decimal.scaled (.ofNat s) e = some y := by
    rcases Int.lt_or_le e 0 with hneg | hnonneg
    · exact Decimal.scaled_neg _ hneg
    · obtain ⟨k, rfl⟩ := Int.eq_ofNat_of_zero_le hnonneg
      exact Decimal.scaled_nonneg hs (show k ≤ 39 by omega) (by decide) (by decide +kernel)
  refine ⟨y, withPoint_eq_cons 6 _, fun negative rest hrest p => ?_⟩
  · obtain ⟨p', htext⟩ := hread negative rest (startsWithDigit_of_delimited hrest) p
    exact ⟨p', htext.trans (realPart_delimited hrest hy negative p')⟩

/-- **A double with an exponent is read.** -/
theorem exists_spellsReal_scientific {x : Double} (h : x.isFinite = true) :
    ∃ y, SpellsReal (Decimal.scientific 6 x.units Format.double.scale) y := by
  obtain ⟨m, k, htext, hm, hk, y, hy⟩ := Decimal.exists_scientific_eq h
  obtain ⟨s, e, -, -, hexact, hread⟩ := exists_unsignedNumber_withPoint (show 0 < 6 by decide) m
  obtain ⟨rfl, rfl⟩ := hexact (Nat.le_trans hm (by decide))
  rw [htext]
  refine ⟨y, ?_, fun negative rest hrest p => ?_⟩
  · obtain ⟨c, ds, hds, hc⟩ := withPoint_eq_cons 6 s
    exact ⟨c, _, by rw [hds, List.cons_append], hc⟩
  · have hsum : Decimal.scaled (.ofNat s) (-(6 : Nat) + k) = some y := by
      rw [← hy]
      congr 1
      omega
    obtain ⟨p₁, hpoint⟩ := hread negative
      ('e' :: (if k < 0 then '-' else '+') :: (Decimal.padded 2 k.natAbs ++ rest)) rfl p
    obtain ⟨p₂, hexponent⟩ := realPart_exponent hrest (by decide) (by omega) hsum negative p₁
    refine ⟨p₂, ?_⟩
    rw [← hexponent, ← hpoint, List.append_assoc, List.cons_append, List.cons_append]

/-! ## Fields -/

/-- **A finite number is read with its sign.** -/
theorem spells_numberText {magnitude : Nat → Nat → List Char} {x y : Double} (hfinite : x.isFinite = true)
    (h : SpellsReal (magnitude x.units Format.double.scale) y) :
    Spells (numberText magnitude x) (.number (.real (signed x.isNegative y))) := by
  obtain ⟨c, ds, htext, hc⟩ := h.start
  intro rest hrest p
  rw [numberText, if_pos hfinite]
  cases hsign : x.isNegative with
  | true =>
    obtain ⟨p', hread⟩ := h.read true rest hrest ⟨p.line, p.column + 1⟩
    exact ⟨p', readScalar_number (Or.inl rfl) hread⟩
  | false =>
    obtain ⟨p', hread⟩ := h.read false rest hrest p
    refine ⟨p', ?_⟩
    rw [htext] at hread ⊢
    exact readScalar_number (Or.inr hc) ((number_of_isDigit hc _ p).trans hread)

/-- A number that is not finite is rendered as `null`. -/
theorem numberText_of_not_finite (magnitude : Nat → Nat → List Char) {x : Double} (h : x.isFinite = false) :
    numberText magnitude x = "null".toList := by
  rw [numberText, if_neg (by rw [h]; decide)]

end FieldTree.Json

namespace FieldTree

/-- Eight bytes or fewer are an integer of 64 bits. -/
theorem Bytes.toInt_bounds {bytes : Bytes} (h : bytes.length ≤ 8) :
    -2 ^ 63 ≤ bytes.toInt ∧ bytes.toInt < 2 ^ 63 := by
  have hpos : 0 < 256 ^ bytes.length := Nat.pow_pos (by decide)
  have hmax : 256 ^ bytes.length ≤ 2 ^ 64 := Nat.pow_le_pow_right (by decide) h
  have hlow := Int.le_bmod (x := bytes.toNat) hpos
  have hhigh := Int.bmod_lt (x := bytes.toNat) hpos
  unfold toInt
  omega

namespace Field

/-- **Integers are stored in 64 bits or fewer.** -/
theorem storedInt_bounds (f : Field) : -2 ^ 63 ≤ f.storedInt ∧ f.storedInt < 2 ^ 63 := by
  have hword : ∀ width ≤ 8, -2 ^ 63 ≤ ((f.word? width).map Bytes.toInt).getD 0 ∧
      ((f.word? width).map Bytes.toInt).getD 0 < 2 ^ 63 := by
    intro width hwidth
    unfold word?
    split
    · exact Bytes.toInt_bounds (Nat.le_trans (List.length_take_le _ _) hwidth)
    · exact ⟨by decide, by decide⟩
  unfold storedInt
  apply hword
  split <;> decide

theorem int_of_isInteger {f : Field} (h : f.type.isInteger = true) : f.int = f.storedInt := by
  unfold int
  split
  · next htype => rw [htype] at h; cases h
  · next htype => rw [htype] at h; cases h
  · next htype => rw [htype] at h; cases h
  · rfl

/-- A single is no larger than the largest one. -/
theorem below_largestSingle {f : Field} (htype : f.type = .float32) (h : f.real.isFinite = true) :
    f.real.Below Decimal.largestSingle := by
  unfold real at h ⊢
  rw [htype] at h ⊢
  cases hword : f.word? 4 with
  | none => exact ⟨rfl, Nat.zero_le _⟩
  | some w =>
    rw [hword] at h
    exact Decimal.below_largestSingle h

/-- **Every field without children is rendered as one scalar token.** -/
theorem exists_spells_scalarText (f : Field) : ∃ token, Json.Spells (Json.scalarText f) token := by
  unfold Json.scalarText
  -- a stored integer has 64 bits at most, which is what a token can hold
  have hint : f.type.isInteger = true → ∃ token, Json.Spells (Decimal.integer f.int) token := by
    intro h
    obtain ⟨hlow, hhigh⟩ := f.storedInt_bounds
    rw [int_of_isInteger h]
    exact ⟨_, Json.spells_integer hlow (Int.lt_trans hhigh (by decide))⟩
  split
  · exact ⟨_, Json.spells_bool f.truth⟩
  · next htype => exact hint (by rw [htype]; rfl)
  · next htype => exact hint (by rw [htype]; rfl)
  · next htype => exact hint (by rw [htype]; rfl)
  · next htype => exact hint (by rw [htype]; rfl)
  · next htype =>
    -- numbers that are not finite are written as null
    cases hfinite : f.real.isFinite with
    | false => exact ⟨_, Json.numberText_of_not_finite _ hfinite ▸ Json.spells_null⟩
    | true =>
      obtain ⟨y, hy⟩ := Json.exists_spellsReal_fixed (below_largestSingle htype hfinite)
      exact ⟨_, Json.spells_numberText hfinite hy⟩
  · cases hfinite : f.real.isFinite with
    | false => exact ⟨_, Json.numberText_of_not_finite _ hfinite ▸ Json.spells_null⟩
    | true =>
      obtain ⟨y, hy⟩ := Json.exists_spellsReal_scientific hfinite
      exact ⟨_, Json.spells_numberText hfinite hy⟩
  · exact ⟨_, Json.spells_quote f.text⟩
  · exact ⟨_, Json.spells_null⟩

end Field

end FieldTree
