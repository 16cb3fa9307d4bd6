import FieldTree.Json.Rendering
import FieldTree.Json.Scan

/-!
# Scalars Read Back

The text of a truth value, of an integer or of a string is read as the token that it stands for, if what
follows is what may stand behind a value. Positions are left open: a reader gives some position behind what
it has taken.

## Architecture

- `Json.Delimited`: what may stand behind a value.
- `stringBody_escape`: every character reads back from between quotes.
- `number_integer`: integers read back from their decimal digits.
- `Json.Spells`: **a text is read as one scalar token**, with one lemma for each kind.
-/

namespace FieldTree.Json

/-- The text ends, or goes on with what may stand behind a value. -/
def Delimited : List Char → Prop
  | [] => True
  | c :: _ => c = ',' ∨ c = '\n' ∨ c = ']' ∨ c = '\x7d'

/-! ## Strings -/

theorem digitValue?_digitChar : ∀ d < 16, Numeral.digitValue? 16 d.digitChar = some d := by decide

theorem utf8Size_digitChar : ∀ d < 16, d.digitChar.utf8Size = 1 := by decide

/-- Four hexadecimal digits read back. -/
theorem hexEscape_hexDigits {n : Nat} (h : n < 16 ^ 4) (p : Position) (rest : List Char) :
    hexEscape p (Bytes.hexDigits 4 n ++ rest) = .ok (n, ⟨rest, ⟨p.line, p.column + 4⟩⟩) := by
  -- every digit is one, and takes one byte
  have hdigit : ∀ k, n / 16 ^ k % 16 < 16 := fun k => Nat.mod_lt _ (by decide)
  simp only [hexEscape, Bytes.hexDigits, List.cons_append, List.nil_append, List.take_succ_cons,
    List.take_zero, List.drop_succ_cons, List.drop_zero, List.foldl_cons, List.foldl_nil, List.mapM_cons,
    List.mapM_nil, utf8Size_digitChar _ (hdigit _), digitValue?_digitChar _ (hdigit _), Option.bind_eq_bind,
    Option.bind_some, Option.pure_def]
  simp only [Nat.reduceAdd, Nat.lt_irrefl, if_false, Except.ok.injEq, Prod.mk.injEq, and_true]
  omega

/-- A backslash is read together with its escape. -/
theorem stringBody_backslash {p behind : Position} {text rest : List Char} {d : Char}
    (h : escaped (p.after '\\') text = .ok (d, ⟨rest, behind⟩)) :
    stringBody p ('\\' :: text) = (stringBody behind rest).map fun (ds, cur) => (d :: ds, cur) := by
  rw [stringBody, if_neg (by decide), if_pos rfl]
  split
  · next e he => rw [h] at he; cases he
  · next d' cur' hd => rw [h] at hd; cases hd; rfl

theorem stringBody_simpleEscape {e d : Char} (h : simpleEscape? e = some d) (p : Position)
    (text : List Char) :
    ∃ p', stringBody p ('\\' :: e :: text) =
      (stringBody p' text).map fun (ds, cur) => (d :: ds, cur) := by
  refine ⟨(p.after '\\').after e, stringBody_backslash ?_⟩
  simp only [escaped, h]

/-- A control character is below the codes that come in pairs, so one escape stands for it. -/
theorem escaped_hexDigits {c : Char} (h : c.toNat < 0x20) (p : Position) (text : List Char) :
    ∃ p', escaped p ('u' :: (Bytes.hexDigits 4 c.toNat ++ text)) = .ok (c, ⟨text, p'⟩) := by
  have hhex := hexEscape_hexDigits (Nat.lt_trans h (by decide)) (p.after 'u') text
  have htrailing : isTrailing c.toNat = false := by simp [isTrailing]; omega
  have hleading : isLeading c.toNat = false := by simp [isLeading]; omega
  refine ⟨⟨(p.after 'u').line, (p.after 'u').column + 4⟩, ?_⟩
  show unicodeEscape (p.after 'u') (Bytes.hexDigits 4 c.toNat ++ text) = _
  rw [unicodeEscape, hhex]
  simp [bind, Except.bind, htrailing, hleading, pure, Except.pure]

/-- **Every character reads back from its escape.** -/
theorem stringBody_escape (c : Char) (p : Position) (text : List Char) :
    ∃ p', stringBody p (escape c ++ text) =
      (stringBody p' text).map fun (ds, cur) => (c :: ds, cur) := by
  -- seven characters have a short escape of their own
  unfold escape
  split
  · exact stringBody_simpleEscape rfl p text
  · exact stringBody_simpleEscape rfl p text
  · exact stringBody_simpleEscape rfl p text
  · exact stringBody_simpleEscape rfl p text
  · exact stringBody_simpleEscape rfl p text
  · exact stringBody_simpleEscape rfl p text
  · exact stringBody_simpleEscape rfl p text
  · next hquote hbackslash _ =>
    split
    · next hcontrol =>
      obtain ⟨p', hread⟩ := escaped_hexDigits hcontrol (p.after '\\') text
      exact ⟨p', stringBody_backslash hread⟩
    · next hplain =>
      -- any other character stands for itself
      refine ⟨p.after c, ?_⟩
      rw [List.singleton_append, stringBody, if_neg hquote, if_neg hbackslash, if_neg hplain]

/-- **The characters of a text read back from between quotes.** -/
theorem stringBody_flatMap_escape (cs : List Char) (p : Position) (rest : List Char) :
    ∃ p', stringBody p (cs.flatMap escape ++ '"' :: rest) = .ok (cs, ⟨rest, p'⟩) := by
  induction cs generalizing p with
  | nil =>
    refine ⟨p.after '"', ?_⟩
    rw [List.flatMap_nil, List.nil_append, stringBody, if_pos rfl]
  | cons c cs ih =>
    obtain ⟨p₁, hfirst⟩ := stringBody_escape c p (cs.flatMap escape ++ '"' :: rest)
    obtain ⟨p₂, hrest⟩ := ih p₁
    refine ⟨p₂, ?_⟩
    rw [List.flatMap_cons, List.append_assoc, hfirst, hrest]
    rfl

/-! ## Integers -/

theorem startsWithDigit_of_delimited {rest : List Char} (h : Delimited rest) :
    startsWithDigit rest = false := by
  cases rest with
  | nil => rfl
  | cons c rest => rcases h with rfl | rfl | rfl | rfl <;> rfl

/-- The number that digits spell is no smaller than the one they are added to. -/
theorem le_ofDigitChars (ds : List Char) (n : Nat) : n ≤ Nat.ofDigitChars 10 ds n := by
  rw [Nat.ofDigitChars_eq_ofDigitChars_zero]
  have hpow : 1 ≤ 10 ^ ds.length := Nat.one_le_pow _ _ (by decide)
  calc n = 1 * n := (Nat.one_mul n).symm
    _ ≤ 10 ^ ds.length * n := Nat.mul_le_mul_right n hpow
    _ ≤ 10 ^ ds.length * n + Nat.ofDigitChars 10 ds 0 := Nat.le_add_right _ _

/-- Digits of a number within the bound are all taken. -/
theorem boundedDigits_append {bound : Nat} {ds rest : List Char} (hds : ∀ c ∈ ds, c.isDigit = true)
    (hrest : startsWithDigit rest = false) (n taken : Nat) (hbound : Nat.ofDigitChars 10 ds n ≤ bound) :
    boundedDigits bound n taken (ds ++ rest) = (Nat.ofDigitChars 10 ds n, taken + ds.length) := by
  induction ds generalizing n taken with
  | nil =>
    cases rest with
    | nil => rfl
    | cons c rest =>
      have hc : c.isDigit = false := hrest
      simp [boundedDigits, hc]
  | cons c ds ih =>
    have hvalue : n * 10 + digit c = 10 * n + (c.toNat - '0'.toNat) := by
      rw [digit, Nat.mul_comm]
    rw [Nat.ofDigitChars_cons, ← hvalue] at hbound ⊢
    have hfits : n * 10 + digit c ≤ bound := Nat.le_trans (le_ofDigitChars ds _) hbound
    -- the number so far is within the bound, since digits only make it larger
    have htake : (c.isDigit && decide (n * 10 + digit c ≤ bound)) = true := by
      simp [hds c List.mem_cons_self, hfits]
    rw [List.cons_append, boundedDigits, if_pos htake,
      ih (fun d hd => hds d (List.mem_cons_of_mem c hd)) _ _ hbound, List.length_cons, Nat.add_assoc,
      Nat.add_comm 1]

theorem isDigit_of_mem_digits {n : Nat} : ∀ c ∈ Decimal.digits n, c.isDigit = true :=
  fun _ hc => Nat.isDigit_of_mem_toDigits (by decide) (by decide) hc

theorem digits_eq_cons (n : Nat) : ∃ c ds, Decimal.digits n = c :: ds ∧ c.isDigit = true := by
  obtain ⟨c, ds, hds⟩ := List.exists_cons_of_ne_nil (Nat.toDigits_ne_nil (n := n) (b := 10))
  exact ⟨c, ds, hds, isDigit_of_mem_digits c (hds ▸ List.mem_cons_self)⟩

theorem integer_eq_cons (v : Int) : ∃ c ds, Decimal.integer v = c :: ds ∧ (c = '-' ∨ c.isDigit = true) := by
  obtain ⟨c, ds, hds, hc⟩ := digits_eq_cons v.natAbs
  unfold Decimal.integer
  split
  · exact ⟨'-', _, rfl, .inl rfl⟩
  · exact ⟨c, ds, hds, .inr hc⟩

/-- Only zero is written with a leading zero. -/
theorem exists_digits_eq_cons {n : Nat} (h : n ≠ 0) :
    ∃ c ds, Decimal.digits n = c :: ds ∧ c ≠ '0' := by
  induction n using Nat.strongRecOn with
  | ind n ih =>
    rw [Decimal.digits, Nat.toDigits_eq_if (by decide)]
    split
    · refine ⟨_, _, rfl, ?_⟩
      simpa using h
    · next hlarge =>
      obtain ⟨c, ds, hds, hc⟩ := ih (n / 10) (Nat.div_lt_self (Nat.pos_of_ne_zero h) (by decide)) (by omega)
      refine ⟨c, ds ++ [(n % 10).digitChar], ?_, hc⟩
      rw [← List.cons_append, ← hds, Decimal.digits]

/-- Neither a fraction nor an exponent follows. -/
theorem afterWhole_of_delimited {cur : Cursor} (h : Delimited cur.rest) (negative : Bool) (n : Nat) :
    afterWhole negative n 0 cur = .ok (wholeNumber negative n, cur) := by
  obtain ⟨rest, p⟩ := cur
  cases rest with
  | nil => simp [afterWhole]
  | cons c rest => rcases h with rfl | rfl | rfl | rfl <;> simp [afterWhole, isExponentMark]

/-- **A natural number of 64 bits reads back from its digits.** -/
theorem unsignedNumber_digits {n : Nat} (hn : n ≤ maxWhole) {rest : List Char} (hrest : Delimited rest)
    (negative : Bool) (p : Position) :
    ∃ p', unsignedNumber negative ⟨Decimal.digits n ++ rest, p⟩ =
      .ok (wholeNumber negative n, ⟨rest, p'⟩) := by
  have hend := startsWithDigit_of_delimited hrest
  -- a lone zero is the only number that starts with one
  by_cases hzero : n = 0
  · subst hzero
    refine ⟨⟨p.line, p.column + 1⟩, ?_⟩
    show unsignedNumber negative ⟨'0' :: rest, p⟩ = _
    simp only [unsignedNumber, hend]
    exact afterWhole_of_delimited hrest negative 0
  · obtain ⟨c, ds, hds, hc⟩ := exists_digits_eq_cons hzero
    have hdigits : ∀ d ∈ c :: ds, d.isDigit = true := hds ▸ isDigit_of_mem_digits
    have hvalue : Nat.ofDigitChars 10 (c :: ds) 0 = n := by
      rw [← hds]
      exact Decimal.ofDigits_digits n
    have htaken := boundedDigits_append hdigits hend 0 0 (Nat.le_trans (Nat.le_of_eq hvalue) hn)
    -- all digits fit the significand, so none are left behind it
    have hextra : digitRun rest = 0 := by
      cases rest with
      | nil => rfl
      | cons d rest =>
        have hd : d.isDigit = false := hend
        simp [digitRun, hd]
    have hdrop : Cursor.forward ⟨c :: ds ++ rest, p⟩ (c :: ds).length =
        ⟨rest, ⟨p.line, p.column + (c :: ds).length⟩⟩ := by
      rw [Cursor.forward, List.drop_left]
    refine ⟨⟨p.line, p.column + (c :: ds).length⟩, ?_⟩
    rw [hds]
    simp only [unsignedNumber, List.cons_append] at htaken hdrop ⊢
    simp only [hdigits c List.mem_cons_self, htaken, hc, hvalue, Nat.zero_add, hdrop, hextra, Bool.not_true,
      Bool.false_eq_true, if_false]
    exact afterWhole_of_delimited hrest negative n

/-- A number that starts with a digit has no sign. -/
theorem number_of_isDigit {c : Char} (hc : c.isDigit = true) (text : List Char) (p : Position) :
    number ⟨c :: text, p⟩ = unsignedNumber false ⟨c :: text, p⟩ := by
  unfold number
  split
  · next heq =>
    obtain ⟨rfl, -⟩ := List.cons.inj heq
    cases hc
  · rfl

/-- **An integer reads back from its decimal digits.** -/
theorem number_integer {v : Int} (hlow : -2 ^ 63 ≤ v) (hhigh : v < 2 ^ 64) {rest : List Char}
    (hrest : Delimited rest) (p : Position) :
    ∃ p', number ⟨Decimal.integer v ++ rest, p⟩ = .ok (.whole v, ⟨rest, p'⟩) := by
  have hmax : v.natAbs ≤ maxWhole := by unfold maxWhole; omega
  rcases Int.lt_or_le v 0 with hneg | hnonneg
  · obtain ⟨p', hread⟩ := unsignedNumber_digits hmax hrest true ⟨p.line, p.column + 1⟩
    -- the least integer has no counterpart above zero, but its magnitude fits the significand
    have hwhole : wholeNumber true v.natAbs = .whole v := by
      have hnone : ¬(v.natAbs = 0 ∨ 2 ^ 63 < v.natAbs) := by omega
      have habs : -(v.natAbs : Int) = v := by omega
      simp only [wholeNumber, if_pos, if_neg hnone, habs]
    refine ⟨p', ?_⟩
    rw [Decimal.integer, if_pos hneg, ← hwhole]
    exact hread
  · obtain ⟨p', hread⟩ := unsignedNumber_digits hmax hrest false p
    have hwhole : wholeNumber false v.natAbs = .whole v := by
      have habs : (v.natAbs : Int) = v := Int.natAbs_of_nonneg hnonneg
      simp [wholeNumber, habs]
    refine ⟨p', ?_⟩
    obtain ⟨c, ds, hds, hc⟩ := digits_eq_cons v.natAbs
    rw [Decimal.integer, if_neg (Int.not_lt.mpr hnonneg), ← hwhole, ← hread, hds]
    exact number_of_isDigit hc _ p

/-! ## Tokens -/

/-- Neither a letter nor a mark starts a number. -/
theorem ne_of_numberStart {c : Char} (hc : c = '-' ∨ c.isDigit = true) (d : Char) (hminus : d ≠ '-')
    (hdigit : d.isDigit = false) : c ≠ d := by
  rintro rfl
  rcases hc with hc | hc
  · exact hminus hc
  · rw [hdigit] at hc
    cases hc

/-- A minus sign or a digit starts a number. -/
theorem readScalar_number {c : Char} {text : List Char} {p : Position} {n : Number} {cur : Cursor}
    (hc : c = '-' ∨ c.isDigit = true) (hread : number ⟨c :: text, p⟩ = .ok (n, cur)) :
    readScalar ⟨c :: text, p⟩ = .ok (.number n, cur) := by
  have hother := ne_of_numberStart hc
  simp only [readScalar]
  split
  · exact absurd rfl (hother 'n' (by decide) (by decide))
  · exact absurd rfl (hother 't' (by decide) (by decide))
  · exact absurd rfl (hother 'f' (by decide) (by decide))
  · exact absurd rfl (hother '"' (by decide) (by decide))
  · rw [if_pos hc, hread]
    rfl

/-- The text is read as the token of a scalar, whatever may stand behind it. -/
def Spells (text : List Char) (token : Token) : Prop :=
  ∀ rest, Delimited rest → ∀ p, ∃ p', readScalar ⟨text ++ rest, p⟩ = .ok (token, ⟨rest, p'⟩)

theorem spells_bool (v : Bool) : Spells (if v then "true".toList else "false".toList) (.bool v) := by
  intro rest _ p
  cases v with
  | true => exact ⟨_, rfl⟩
  | false => exact ⟨_, rfl⟩

theorem spells_null : Spells "null".toList .null := fun _ _ _ => ⟨_, rfl⟩

theorem spells_quote (text : String) : Spells (quote text) (.string text) := by
  intro rest _ p
  obtain ⟨p', hbody⟩ := stringBody_flatMap_escape text.toList (p.after '"') rest
  refine ⟨p', ?_⟩
  simp [readScalar, quote, hbody, Except.map]

theorem spells_integer {v : Int} (hlow : -2 ^ 63 ≤ v) (hhigh : v < 2 ^ 64) :
    Spells (Decimal.integer v) (.number (.whole v)) := by
  intro rest hrest p
  obtain ⟨p', hread⟩ := number_integer hlow hhigh hrest p
  obtain ⟨c, ds, hds, hc⟩ := integer_eq_cons v
  refine ⟨p', ?_⟩
  rw [hds] at hread ⊢
  exact readScalar_number hc hread

/-- A scalar starts with neither a blank nor a bracket. -/
theorem Spells.exists_cons {text : List Char} {token : Token} (h : Spells text token) :
    ∃ c rest, text = c :: rest ∧ Cursor.isBlank c = false ∧ opens? c = none ∧ c ≠ ']' ∧ c ≠ '\x7d' := by
  -- a reader in front of the text accepts its first character
  obtain ⟨p', hread⟩ := h [] trivial .start
  rw [List.append_nil] at hread
  cases text with
  | nil => cases hread
  | cons c rest =>
    refine ⟨c, rest, rfl, ?_⟩
    simp only [readScalar] at hread
    split at hread
    · decide
    · decide
    · decide
    · decide
    · split at hread
      · next hc =>
        -- a number starts with a digit or a minus, which are none of these
        have hother := ne_of_numberStart hc
        have hblank : Cursor.isBlank c = false := by
          simp [Cursor.isBlank, hother ' ' (by decide) (by decide), hother '\t' (by decide) (by decide),
            hother '\n' (by decide) (by decide), hother '\r' (by decide) (by decide)]
        have hopens : opens? c = none := by
          rw [opens?, if_neg (hother '[' (by decide) (by decide)), if_neg (hother '\x7b' (by decide) (by decide))]
        exact ⟨hblank, hopens, hother ']' (by decide) (by decide), hother '\x7d' (by decide) (by decide)⟩
      · cases hread

end FieldTree.Json
