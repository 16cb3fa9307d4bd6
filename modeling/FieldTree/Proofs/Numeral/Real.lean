import FieldTree.Proofs.Json.Grammar

/-!
# Reals in Texts

The grammar of decimal numbers, and what is read of a text that starts with one. A number may lack the digits on one
side of its point, and an exponent counts only if it has a digit, so the scanner goes over a mark and a sign before it
knows that they belong to the number. What it returns is the longest front of the text that the grammar has, and a
number that the grammar has is always read.

## Architecture

- `IsNumeral`, `IsSpecial`: numbers, and the words for values without digits.
- `LongestFront`: the longest front of a text with some property.
- `splitMantissa_append`, `splitExponent_append`: **no part stops too early**, whatever follows.
- `leadingNumeral?_eq_some_iff`, `leadingNumeral?_eq_none_iff`: the scanner finds the longest number, if there is one.
- `isSome_real?_iff`: what is read as a whole.
- `leadingReal_longest`: the main statement, for every text.
-/

namespace FieldTree.Numeral

open Json.Grammar (IsDigits IsExponent)

/-! ## Grammar -/

/-- At most one sign. -/
inductive IsSign : List Char → Prop where
  | none : IsSign []
  | plus : IsSign ['+']
  | minus : IsSign ['-']

/-- Digits, with a point behind, between or in front of them, or without. -/
inductive IsMantissa : List Char → Prop where
  | whole {ds : List Char} : IsDigits ds → IsMantissa ds
  | point {ds fs : List Char} : IsDigits ds → (∀ d ∈ fs, d.isDigit = true) → IsMantissa (ds ++ '.' :: fs)
  | fraction {fs : List Char} : IsDigits fs → IsMantissa ('.' :: fs)

/-- A decimal number. -/
inductive IsNumeral : List Char → Prop where
  | mk {sign mantissa exponent : List Char} :
      IsSign sign → IsMantissa mantissa → IsExponent exponent → IsNumeral (sign ++ mantissa ++ exponent)

/-- A word for an infinity or for NaN, in any case and with at most one sign. -/
inductive IsSpecial : List Char → Prop where
  | mk {sign word : List Char} :
      IsSign sign → word.map Char.toLower ∈ ["inf".toList, "infinity".toList, "nan".toList] →
      IsSpecial (sign ++ word)

/-- The longest front of a text with some property. -/
structure LongestFront (P : List Char → Prop) (text front : List Char) : Prop where
  starts : front <+: text
  holds : P front
  longest : ∀ other, other <+: text → P other → other.length ≤ front.length

theorem LongestFront.unique {P : List Char → Prop} {text front front' : List Char} (h : LongestFront P text front)
    (h' : LongestFront P text front') : front = front' := by
  have hlength : front.length = front'.length :=
    Nat.le_antisymm (h'.longest front h.starts h.holds) (h.longest front' h'.starts h'.holds)
  exact (List.prefix_of_prefix_length_le h.starts h'.starts (Nat.le_of_eq hlength)).eq_of_length hlength

theorem IsMantissa.exists_cons {mantissa : List Char} (h : IsMantissa mantissa) :
    ∃ c rest, mantissa = c :: rest ∧ c ≠ '-' ∧ c ≠ '+' := by
  have hdigits : ∀ ds, IsDigits ds → ∃ c rest, ds = c :: rest ∧ c ≠ '-' ∧ c ≠ '+' := by
    rintro (_ | ⟨c, rest⟩) ⟨hne, hds⟩
    · exact absurd rfl hne
    · have hc : c.isDigit = true := hds c List.mem_cons_self
      refine ⟨c, rest, rfl, ?_, ?_⟩ <;> rintro rfl <;> simp [Char.isDigit] at hc
  cases h with
  | whole hds => exact hdigits _ hds
  | point hds _ =>
    obtain ⟨c, rest, rfl, hc⟩ := hdigits _ hds
    exact ⟨c, _, rfl, hc⟩
  | fraction _ => exact ⟨'.', _, rfl, by decide, by decide⟩

/-- A mantissa has a digit, so it is not a lone point, whatever follows it. -/
theorem IsMantissa.append_ne {mantissa : List Char} (h : IsMantissa mantissa) (more : List Char) :
    ¬(mantissa ++ more = [] ∨ mantissa ++ more = ['.']) := by
  obtain ⟨d, hd, hdigit⟩ : ∃ d ∈ mantissa, d.isDigit = true := by
    cases h with
    | whole hds =>
      obtain ⟨d, hd⟩ := List.exists_mem_of_ne_nil _ hds.1
      exact ⟨d, hd, hds.2 d hd⟩
    | point hds _ =>
      obtain ⟨d, hd⟩ := List.exists_mem_of_ne_nil _ hds.1
      exact ⟨d, List.mem_append_left _ hd, hds.2 d hd⟩
    | fraction hfs =>
      obtain ⟨d, hd⟩ := List.exists_mem_of_ne_nil _ hfs.1
      exact ⟨d, List.mem_cons_of_mem _ hd, hfs.2 d hd⟩
  have hmem : d ∈ mantissa ++ more := List.mem_append_left more hd
  rintro (hnil | hpoint)
  · simp [hnil] at hmem
  · rw [hpoint, List.mem_singleton] at hmem
    subst hmem
    simp [Char.isDigit] at hdigit

theorem IsExponent.exists_cons {exponent : List Char} (h : IsExponent exponent) (hne : exponent ≠ []) :
    ∃ mark rest, exponent = mark :: rest ∧ (mark = 'e' ∨ mark = 'E') := by
  cases h with
  | none => exact absurd rfl hne
  | unsigned hmark _ => exact ⟨_, _, rfl, by simpa using hmark⟩
  | signed hmark _ _ => exact ⟨_, _, rfl, by simpa using hmark⟩

/-! ## Parts of a text -/

section Parts

variable {ds fs mantissa exponent sign text rest : List Char} {c : Char}

theorem takeDigits_append (hds : ∀ d ∈ ds, d.isDigit = true) (rest : List Char) :
    takeDigits (ds ++ rest) = (ds ++ (takeDigits rest).1, (takeDigits rest).2) := by
  simp [takeDigits, List.takeWhile_append_of_pos hds, List.dropWhile_append_of_pos hds]

theorem takeDigits_cons (hc : c.isDigit = false) (rest : List Char) : takeDigits (c :: rest) = ([], c :: rest) := by
  simp [takeDigits, hc]

theorem takeDigits_fst_append_snd (text : List Char) : (takeDigits text).1 ++ (takeDigits text).2 = text :=
  List.takeWhile_append_dropWhile

theorem isDigit_of_mem_takeDigits (text : List Char) : ∀ d ∈ (takeDigits text).1, d.isDigit = true :=
  List.all_eq_true.mp List.all_takeWhile

theorem splitSign_append (hsign : IsSign sign) (hfirst : c ≠ '-' ∧ c ≠ '+') (rest : List Char) :
    splitSign (sign ++ c :: rest) = (sign, c :: rest) := by
  cases hsign with
  | none =>
    rw [List.nil_append]
    unfold splitSign
    split <;> simp_all
  | plus => rfl
  | minus => rfl

theorem splitSign_spec (text : List Char) :
    IsSign (splitSign text).1 ∧ (splitSign text).1 ++ (splitSign text).2 = text := by
  unfold splitSign
  split
  · exact ⟨.minus, rfl⟩
  · exact ⟨.plus, rfl⟩
  · exact ⟨.none, rfl⟩

theorem splitFraction_point (hfs : ∀ d ∈ fs, d.isDigit = true) (rest : List Char) :
    splitFraction ('.' :: (fs ++ rest)) = ('.' :: (fs ++ (takeDigits rest).1), (takeDigits rest).2) := by
  simp [splitFraction, takeDigits_append hfs]

/-- **A mantissa is taken in full**, and more of it where more follows. -/
theorem splitMantissa_append (h : IsMantissa mantissa) (rest : List Char) :
    ∃ more, (splitMantissa (mantissa ++ rest)).1 = mantissa ++ more := by
  have hpoint : '.'.isDigit = false := by decide
  cases h with
  | whole hds =>
    refine ⟨(takeDigits rest).1 ++ (splitFraction (takeDigits rest).2).1, ?_⟩
    simp [splitMantissa, takeDigits_append hds.2]
  | point hds hfs =>
    refine ⟨(takeDigits rest).1, ?_⟩
    simp [splitMantissa, takeDigits_append hds.2, takeDigits_cons hpoint, splitFraction_point hfs]
  | fraction hfs =>
    refine ⟨(takeDigits rest).1, ?_⟩
    simp [splitMantissa, takeDigits_cons hpoint, splitFraction_point hfs.2]

/-- In front of the mark of an exponent there is no more of it. -/
theorem splitMantissa_mark (h : IsMantissa mantissa) (hmark : c = 'e' ∨ c = 'E') (rest : List Char) :
    splitMantissa (mantissa ++ c :: rest) = (mantissa, c :: rest) := by
  have hpoint : '.'.isDigit = false := by decide
  have hc : c.isDigit = false := by rcases hmark with rfl | rfl <;> decide
  have hfraction : splitFraction (c :: rest) = ([], c :: rest) := by rcases hmark with rfl | rfl <;> rfl
  cases h with
  | whole hds => simp [splitMantissa, takeDigits_append hds.2, takeDigits_cons hc, hfraction]
  | point hds hfs =>
    simp [splitMantissa, takeDigits_append hds.2, takeDigits_cons hpoint, splitFraction_point hfs,
      takeDigits_cons hc]
  | fraction hfs =>
    simp [splitMantissa, takeDigits_cons hpoint, splitFraction_point hfs.2, takeDigits_cons hc]

/-- **An exponent is taken in full**, and more digits where more follow. -/
theorem splitExponent_append (h : IsExponent exponent) (hne : exponent ≠ []) (rest : List Char) :
    ∃ more, (splitExponent (exponent ++ rest)).1 = exponent ++ more := by
  refine ⟨(takeDigits rest).1, ?_⟩
  cases h with
  | none => exact absurd rfl hne
  | @unsigned mark ds hmark hds =>
    -- the first digit is no sign, so none is taken off
    obtain ⟨d, ds', rfl, hsign⟩ := (IsMantissa.whole hds).exists_cons
    have hsplit : splitSign (d :: (ds' ++ rest)) = ([], d :: (ds' ++ rest)) := splitSign_append .none hsign _
    have htake := takeDigits_append hds.2 rest
    have hmark : mark = 'e' ∨ mark = 'E' := by simpa using hmark
    simp only [List.cons_append] at htake
    simp [splitExponent, hmark, hsplit, htake]
  | @signed mark sign ds hmark hsign hds =>
    have hsplit : splitSign (sign :: (ds ++ rest)) = ([sign], ds ++ rest) := by
      have hsign : sign = '+' ∨ sign = '-' := by simpa using hsign
      rcases hsign with rfl | rfl <;> rfl
    have hmark : mark = 'e' ∨ mark = 'E' := by simpa using hmark
    simp [splitExponent, hmark, hsplit, takeDigits_append hds.2, hds.1]

theorem splitFraction_spec (text : List Char) :
    (splitFraction text).1 ++ (splitFraction text).2 = text ∧
      ((splitFraction text).1 = [] ∨ ∃ fs, (splitFraction text).1 = '.' :: fs ∧ ∀ d ∈ fs, d.isDigit = true) := by
  unfold splitFraction
  split
  · next rest =>
    exact ⟨by simp [takeDigits_fst_append_snd], .inr ⟨_, rfl, isDigit_of_mem_takeDigits rest⟩⟩
  · exact ⟨rfl, .inl rfl⟩

theorem splitMantissa_spec (text : List Char) :
    (splitMantissa text).1 ++ (splitMantissa text).2 = text ∧
      (¬((splitMantissa text).1 = [] ∨ (splitMantissa text).1 = ['.']) → IsMantissa (splitMantissa text).1) := by
  have hwhole := isDigit_of_mem_takeDigits text
  obtain ⟨hsplit, hfraction⟩ := splitFraction_spec (takeDigits text).2
  simp only [splitMantissa]
  refine ⟨by rw [List.append_assoc, hsplit, takeDigits_fst_append_snd], fun hdigits => ?_⟩
  rw [not_or] at hdigits
  generalize (takeDigits text).1 = whole, (splitFraction (takeDigits text).2).1 = fraction at *
  rcases hfraction with rfl | ⟨fs, rfl, hfs⟩
  · rw [List.append_nil] at hdigits ⊢
    exact .whole ⟨hdigits.1, hwhole⟩
  · by_cases hnone : whole = []
    · subst hnone
      have hne : fs ≠ [] := by
        rintro rfl
        exact hdigits.2 rfl
      exact .fraction ⟨hne, hfs⟩
    · exact .point ⟨hnone, hwhole⟩ hfs

theorem splitExponent_spec (text : List Char) :
    IsExponent (splitExponent text).1 ∧ (splitExponent text).1 ++ (splitExponent text).2 = text := by
  unfold splitExponent
  split
  · exact ⟨.none, rfl⟩
  · next mark tail =>
    split
    · next hmark =>
      obtain ⟨hsign, hafterSign⟩ := splitSign_spec tail
      have hdigits := isDigit_of_mem_takeDigits (splitSign tail).2
      have hafterDigits := takeDigits_fst_append_snd (splitSign tail).2
      have hmark : mark ∈ ['e', 'E'] := by simpa using hmark
      dsimp only
      split
      · exact ⟨.none, rfl⟩
      · next hne =>
        -- a mark without digits behind it is no exponent; with digits it is one, whatever its sign
        refine ⟨?_, by simp [hafterDigits, hafterSign]⟩
        generalize (splitSign tail).1 = sign at hsign
        cases hsign with
        | none => exact .unsigned hmark ⟨hne, hdigits⟩
        | plus => exact .signed hmark (by decide) ⟨hne, hdigits⟩
        | minus => exact .signed hmark (by decide) ⟨hne, hdigits⟩
    · exact ⟨.none, rfl⟩

end Parts

/-! ## The longest number -/

section Longest

variable {text numeral : List Char}

/-- **What is scanned is a number in front of the text.** -/
theorem isNumeral_of_leadingNumeral? (h : leadingNumeral? text = some numeral) :
    IsNumeral numeral ∧ numeral <+: text := by
  obtain ⟨hsign, hafterSign⟩ := splitSign_spec text
  obtain ⟨hafterMantissa, hmantissa⟩ := splitMantissa_spec (splitSign text).2
  obtain ⟨hexponent, hafterExponent⟩ := splitExponent_spec (splitMantissa (splitSign text).2).2
  simp only [leadingNumeral?] at h
  split at h
  · cases h
  · next hdigits =>
    cases h
    refine ⟨.mk hsign (hmantissa hdigits) hexponent, (splitExponent (splitMantissa (splitSign text).2).2).2, ?_⟩
    rw [List.append_assoc, hafterExponent, List.append_assoc, hafterMantissa, hafterSign]

/-- **A number in front of a text is scanned in full**, or more of the text. -/
theorem exists_leadingNumeral?_append (h : IsNumeral numeral) (rest : List Char) :
    ∃ more, leadingNumeral? (numeral ++ rest) = some (numeral ++ more) := by
  obtain ⟨hsign, hmantissa, hexponent⟩ := h
  next sign mantissa exponent =>
  have hsplit : splitSign (sign ++ (mantissa ++ (exponent ++ rest))) = (sign, mantissa ++ (exponent ++ rest)) := by
    obtain ⟨c, inner, rfl, hfirst⟩ := hmantissa.exists_cons
    exact splitSign_append hsign hfirst (inner ++ (exponent ++ rest))
  by_cases hne : exponent = []
  · -- more digits of the mantissa may follow, and an exponent behind them
    subst hne
    obtain ⟨more, hmore⟩ := splitMantissa_append hmantissa rest
    refine ⟨more ++ (splitExponent (splitMantissa (mantissa ++ rest)).2).1, ?_⟩
    rw [List.nil_append] at hsplit
    simp only [leadingNumeral?, List.append_assoc, List.nil_append, hsplit, hmore, if_neg (hmantissa.append_ne more)]
  · -- the mark of the exponent ends the mantissa
    obtain ⟨mark, ds, rfl, hmark⟩ := IsExponent.exists_cons hexponent hne
    obtain ⟨more, hmore⟩ := splitExponent_append hexponent hne rest
    have hend := splitMantissa_mark hmantissa hmark (ds ++ rest)
    have hdigits := hmantissa.append_ne []
    rw [List.append_nil] at hdigits
    refine ⟨more, ?_⟩
    rw [List.cons_append] at hsplit hmore
    simp only [leadingNumeral?, List.append_assoc, List.cons_append, hsplit, hend, hmore, if_neg hdigits]

/-- **The scanner finds the longest number in front of a text**, and nothing else. -/
theorem leadingNumeral?_eq_some_iff : leadingNumeral? text = some numeral ↔ LongestFront IsNumeral text numeral := by
  have hlongest : ∀ found, leadingNumeral? text = some found → LongestFront IsNumeral text found := by
    intro found h
    obtain ⟨hnumeral, hfront⟩ := isNumeral_of_leadingNumeral? h
    refine ⟨hfront, hnumeral, ?_⟩
    rintro other ⟨rest, rfl⟩ hother
    obtain ⟨more, hmore⟩ := exists_leadingNumeral?_append hother rest
    rw [hmore] at h
    cases h
    exact (List.prefix_append other more).length_le
  constructor
  · exact hlongest numeral
  · intro h
    obtain ⟨rest, rfl⟩ := h.starts
    obtain ⟨more, hmore⟩ := exists_leadingNumeral?_append h.holds rest
    rw [hmore, (hlongest _ hmore).unique h]

/-- **It finds none only where there is none.** -/
theorem leadingNumeral?_eq_none_iff : leadingNumeral? text = none ↔ ∀ front, front <+: text → ¬IsNumeral front := by
  constructor
  · rintro h front ⟨rest, rfl⟩ hnumeral
    obtain ⟨more, hmore⟩ := exists_leadingNumeral?_append hnumeral rest
    rw [hmore] at h
    cases h
  · intro h
    cases hfound : leadingNumeral? text with
    | none => rfl
    | some found =>
      obtain ⟨hnumeral, hfront⟩ := isNumeral_of_leadingNumeral? hfound
      exact absurd hnumeral (h found hfront)

end Longest

/-! ## Whole texts -/

section Whole

variable {sign mantissa exponent text word : List Char}

theorem takeSign_append (hsign : IsSign sign) {c : Char} (hfirst : c ≠ '-' ∧ c ≠ '+') (rest : List Char) :
    (takeSign (sign ++ c :: rest)).2 = c :: rest := by
  cases hsign with
  | none =>
    rw [List.nil_append]
    unfold takeSign
    split <;> simp_all
  | plus => rfl
  | minus => rfl

theorem exists_sign_append (text : List Char) : ∃ sign, IsSign sign ∧ sign ++ (takeSign text).2 = text := by
  unfold takeSign
  split
  · exact ⟨_, .minus, rfl⟩
  · exact ⟨_, .plus, rfl⟩
  · exact ⟨_, .none, rfl⟩

theorem isSome_exponent?_iff : (exponent? text).isSome = true ↔ IsExponent text := by
  cases text with
  | nil => exact ⟨fun _ => .none, fun _ => rfl⟩
  | cons mark rest =>
    simp only [exponent?]
    split
    · next hmark =>
      have hmem : mark ∈ ['e', 'E'] := by simpa using hmark
      constructor
      · intro h
        split at h
        · next hds =>
          obtain ⟨sign, hsign, hrest⟩ := exists_sign_append rest
          have hdigits : IsDigits (takeSign rest).2 := ⟨hds.1, List.all_eq_true.mp hds.2⟩
          rw [← hrest]
          cases hsign with
          | none => exact .unsigned hmem hdigits
          | plus => exact .signed hmem (by decide) hdigits
          | minus => exact .signed hmem (by decide) hdigits
        · cases h
      · intro h
        -- the grammar reads a sign in front of the digits, or the digits at once
        have hdigits : IsDigits (takeSign rest).2 := by
          cases h with
          | unsigned _ hds =>
            obtain ⟨d, ds, rfl, hfirst⟩ := (IsMantissa.whole hds).exists_cons
            rwa [← List.nil_append (d :: ds), takeSign_append .none hfirst]
          | @signed _ sign _ _ hsign hds =>
            have hsign : sign = '+' ∨ sign = '-' := by simpa using hsign
            rcases hsign with rfl | rfl <;> exact hds
        rw [if_pos ⟨hdigits.1, List.all_eq_true.mpr hdigits.2⟩]
        rfl
    · next hmark =>
      -- an exponent starts with its mark
      refine ⟨fun h => (by cases h), fun h => ?_⟩
      obtain ⟨_, _, hcons, hletter⟩ := IsExponent.exists_cons h (List.cons_ne_nil _ _)
      cases hcons
      exact absurd hletter hmark

theorem isSome_special?_iff {negative : Bool} : (special? negative word).isSome = true ↔
    word.map Char.toLower ∈ ["inf".toList, "infinity".toList, "nan".toList] := by
  simp only [special?, List.mem_cons, List.not_mem_nil, or_false]
  rw [← or_assoc]
  split
  · next hinfinite => exact ⟨fun _ => .inl hinfinite, fun _ => rfl⟩
  · next hfinite =>
    split
    · next hnan => exact ⟨fun _ => .inr hnan, fun _ => rfl⟩
    · next hnumber => exact ⟨fun h => (by cases h), fun h => absurd h (not_or.mpr ⟨hfinite, hnumber⟩)⟩

theorem eq_or_add_of_toLower {c d : Char} (h : c.toLower = d) : c = d ∨ c.val.toNat + 32 = d.val.toNat := by
  subst h
  unfold Char.toLower
  split
  · next hupper =>
    have hhigh := UInt32.le_iff_toNat_le.mp hupper.2
    right
    simp at *
    omega
  · exact .inl rfl

/-- A word starts with a letter, neither with a sign nor with what a number starts with. -/
theorem exists_cons_of_special (h : word.map Char.toLower ∈ ["inf".toList, "infinity".toList, "nan".toList]) :
    ∃ c rest, word = c :: rest ∧ c ∈ ['i', 'I', 'n', 'N'] := by
  cases word with
  | nil => simp at h
  | cons c rest =>
    refine ⟨c, rest, rfl, ?_⟩
    have hupper : ∀ d : Char, c.val.toNat = d.val.toNat → c = d := fun d hd => Char.ext (UInt32.toNat_inj.mp hd)
    have hc : c.toLower = 'i' ∨ c.toLower = 'n' := by
      simp at h
      rcases h with h | h | h
      · exact .inl h.1
      · exact .inl h.1
      · exact .inr h.1
    -- a letter in lower case comes from itself or from the letter 32 codes below
    rcases hc with hc | hc
    · rcases eq_or_add_of_toLower hc with rfl | hcode
      · simp
      · simp [hupper 'I' (Nat.add_right_cancel hcode)]
    · rcases eq_or_add_of_toLower hc with rfl | hcode
      · simp
      · simp [hupper 'N' (Nat.add_right_cancel hcode)]

/-- The digits on both sides of the point, and what follows them. -/
theorem takeFraction_spec (text : List Char) :
    ∃ mantissa, mantissa ++ (takeFraction (takeDigits text).2).2 = text ∧
      (¬((takeDigits text).1 = [] ∧ (takeFraction (takeDigits text).2).1 = []) → IsMantissa mantissa) := by
  have hwhole := isDigit_of_mem_takeDigits text
  have hsplit := takeDigits_fst_append_snd text
  generalize (takeDigits text).1 = whole, (takeDigits text).2 = rest at *
  unfold takeFraction
  split
  · next rest =>
    refine ⟨whole ++ '.' :: (takeDigits rest).1, by simp [takeDigits_fst_append_snd, hsplit], fun hdigits => ?_⟩
    have hfraction := isDigit_of_mem_takeDigits rest
    by_cases hnone : whole = []
    · subst hnone
      exact .fraction ⟨fun h => hdigits ⟨rfl, h⟩, hfraction⟩
    · exact .point ⟨hnone, hwhole⟩ hfraction
  · exact ⟨whole, hsplit, fun hdigits => .whole ⟨fun h => hdigits ⟨h, rfl⟩, hwhole⟩⟩

/-- A mantissa in front of an exponent is taken apart into digits. -/
theorem takeFraction_append (hmantissa : IsMantissa mantissa) (hexponent : IsExponent exponent) :
    ¬((takeDigits (mantissa ++ exponent)).1 = [] ∧ (takeFraction (takeDigits (mantissa ++ exponent)).2).1 = []) ∧
      (takeFraction (takeDigits (mantissa ++ exponent)).2).2 = exponent := by
  have hpoint : '.'.isDigit = false := by decide
  have hexp : takeDigits exponent = ([], exponent) ∧ takeFraction exponent = ([], exponent) := by
    by_cases hne : exponent = []
    · subst hne
      exact ⟨rfl, rfl⟩
    · obtain ⟨mark, ds, rfl, hmark⟩ := IsExponent.exists_cons hexponent hne
      rcases hmark with rfl | rfl <;> exact ⟨takeDigits_cons (by decide) ds, rfl⟩
  cases hmantissa with
  | whole hds => simp [takeDigits_append hds.2, hexp.1, hexp.2, hds.1]
  | point hds hfs =>
    simp [takeDigits_append hds.2, takeDigits_cons hpoint, takeFraction, takeDigits_append hfs, hexp.1, hds.1]
  | fraction hfs => simp [takeDigits_cons hpoint, takeFraction, takeDigits_append hfs.2, hexp.1, hfs.1]

/-- **A text is read as a whole exactly if it is a number or one of the words.** -/
theorem isSome_real?_iff : (real? text).isSome = true ↔ IsNumeral text ∨ IsSpecial text := by
  constructor
  · intro h
    obtain ⟨sign, hsign, hrest⟩ := exists_sign_append text
    obtain ⟨mantissa, hafter, hmantissa⟩ := takeFraction_spec (takeSign text).2
    simp only [real?] at h
    rw [← hrest]
    split at h
    -- without digits it is a word, with digits a number, and then the rest has to be an exponent
    · exact .inr (.mk hsign (isSome_special?_iff.mp h))
    · next hdigits =>
      rw [Option.isSome_map, isSome_exponent?_iff] at h
      rw [← hafter, ← List.append_assoc]
      exact .inl (.mk hsign (hmantissa hdigits) h)
  · rintro (⟨hsign, hmantissa, hexponent⟩ | ⟨hsign, hword⟩)
    · next sign mantissa exponent =>
      -- a number is taken apart where it was put together
      obtain ⟨hdigits, hafter⟩ := takeFraction_append hmantissa hexponent
      obtain ⟨c, inner, rfl, hfirst⟩ := hmantissa.exists_cons
      have hrest := takeSign_append hsign hfirst (inner ++ exponent)
      simp only [real?, List.append_assoc, List.cons_append] at hrest hdigits hafter ⊢
      rw [hrest, if_neg hdigits, Option.isSome_map, isSome_exponent?_iff, hafter]
      exact hexponent
    · obtain ⟨c, inner, rfl, hc⟩ := exists_cons_of_special hword
      -- a word starts with none of the characters that the parts in front of it take
      have hletter : (c ≠ '-' ∧ c ≠ '+') ∧ takeDigits (c :: inner) = ([], c :: inner) ∧
          takeFraction (c :: inner) = ([], c :: inner) := by
        simp only [List.mem_cons, List.not_mem_nil, or_false] at hc
        rcases hc with rfl | rfl | rfl | rfl <;> exact ⟨by decide, takeDigits_cons (by decide) inner, rfl⟩
      obtain ⟨hfirst, hdigits, hfraction⟩ := hletter
      simp only [real?, takeSign_append hsign hfirst, hdigits, hfraction, and_self, if_true]
      exact isSome_special?_iff.mpr hword

end Whole

/-! ## Main statement -/

/-- **The longest number is read.** If some front of a text, behind its blanks, is a decimal number, then the text reads
    as the longest such front does as a whole, which is always read, and all texts with that longest front read as the
    same. Other texts are read as a whole, which succeeds for the words only, and else they are zero. -/
theorem leadingReal_longest (text : List Char) :
    ((∃ front, front <+: dropBlanks text ∧ IsNumeral front) →
      ∃ numeral v, LongestFront IsNumeral (dropBlanks text) numeral ∧ real? numeral = some v ∧
        leadingReal text = v ∧
        ∀ other, LongestFront IsNumeral (dropBlanks other) numeral → leadingReal other = v) ∧
    ((¬∃ front, front <+: dropBlanks text ∧ IsNumeral front) →
      leadingReal text = (real? (dropBlanks text)).getD (.ofRank false 0) ∧
        ((real? (dropBlanks text)).isSome = true ↔ IsSpecial (dropBlanks text))) ∧
    ∀ whole, (real? whole).isSome = true ↔ IsNumeral whole ∨ IsSpecial whole := by
  have hreads : ∀ (other numeral : List Char) (v : Double), LongestFront IsNumeral (dropBlanks other) numeral →
      real? numeral = some v → leadingReal other = v := by
    intro other numeral v hlongest hv
    simp [leadingReal, leadingNumeral?_eq_some_iff.mpr hlongest, hv]
  refine ⟨fun ⟨front, hfront, hnumeral⟩ => ?_, fun hnone => ?_, fun whole => isSome_real?_iff⟩
  · -- where there is some number there is a longest one, which is what the scanner returns
    obtain ⟨rest, hrest⟩ := hfront
    obtain ⟨more, hmore⟩ := exists_leadingNumeral?_append hnumeral rest
    rw [hrest] at hmore
    have hlongest := leadingNumeral?_eq_some_iff.mp hmore
    obtain ⟨v, hv⟩ := Option.isSome_iff_exists.mp (isSome_real?_iff.mpr (.inl hlongest.holds))
    exact ⟨_, v, hlongest, hv, hreads _ _ _ hlongest hv, fun other hother => hreads _ _ _ hother hv⟩
  · have hnone : ∀ front, front <+: dropBlanks text → ¬IsNumeral front :=
      fun front hfront hnumeral => hnone ⟨front, hfront, hnumeral⟩
    refine ⟨by simp [leadingReal, leadingNumeral?_eq_none_iff.mpr hnone], ?_⟩
    rw [isSome_real?_iff, or_iff_right (hnone _ List.prefix_rfl)]

/-- A number behind a blank, with the mark and the sign of an exponent but no digit of it. -/
def sampleUnfinished : List Char := [' ', '-', '2', '.', '5', 'e', '+', 'x']

/-- A word. -/
def sampleWord : List Char := ['+', 'I', 'n', 'f']

theorem leadingReal_longest_sampleUnfinished :
    (∃ v, LongestFront IsNumeral (dropBlanks sampleUnfinished) ['-', '2', '.', '5'] ∧
      real? ['-', '2', '.', '5'] = some v ∧ leadingReal sampleUnfinished = v ∧
      leadingReal ['-', '2', '.', '5', '.', '7'] = v) ∧
    (¬∃ front, front <+: dropBlanks sampleWord ∧ IsNumeral front) ∧
      leadingReal sampleWord = (real? (dropBlanks sampleWord)).getD (.ofRank false 0) ∧
      (real? (dropBlanks sampleWord)).isSome = true := by
  have hlongest : LongestFront IsNumeral (dropBlanks sampleUnfinished) ['-', '2', '.', '5'] :=
    leadingNumeral?_eq_some_iff.mp (by decide +kernel)
  have hother : LongestFront IsNumeral (dropBlanks ['-', '2', '.', '5', '.', '7']) ['-', '2', '.', '5'] :=
    leadingNumeral?_eq_some_iff.mp (by decide +kernel)
  have hnone : ¬∃ front, front <+: dropBlanks sampleWord ∧ IsNumeral front := by
    rintro ⟨front, hfront, hnumeral⟩
    exact leadingNumeral?_eq_none_iff.mp (by decide +kernel) front hfront hnumeral
  have hspecial : IsSpecial (dropBlanks sampleWord) := .mk .plus (by decide +kernel)
  obtain ⟨numeral, v, hfound, hv, hreads, hsame⟩ :=
    (leadingReal_longest sampleUnfinished).1 ⟨_, hlongest.starts, hlongest.holds⟩
  obtain rfl := hfound.unique hlongest
  obtain ⟨hword, hiff⟩ := (leadingReal_longest sampleWord).2.1 hnone
  exact ⟨⟨v, hlongest, hv, hreads, hsame _ hother⟩, hnone, hword, hiff.mpr hspecial⟩

end FieldTree.Numeral
