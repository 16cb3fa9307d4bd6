/-!
# Byte Strings

Byte strings are lists of bytes. This module has the few operations that the rest of the library
performs on them: fixed-width big-endian numbers, patching a stretch in place, and UTF-8 text.

## Main statements

- `Bytes.length_patch`, `Bytes.patch_eq`: patching keeps the length and what lies around the patch.
- `Bytes.length_bigEndian`: a number written in `width` bytes takes `width` bytes.
- `Bytes.toNat_bigEndian`, `Bytes.toInt_ofInt`: numbers read back from their bytes.
- `Bytes.text?_ofText`, `Bytes.text?_eq_some_iff`: texts read back, and from no other bytes.
- `Bytes.takeWhile_ofText`: a text ends at a zero character where its bytes end at a zero byte.
-/

-- powers of numbers are those of core, also next to a library that has powers of its own
attribute [instance (20000), default_instance (20000)] instPowNat

namespace FieldTree

/-- A byte string. -/
abbrev Bytes := List UInt8

namespace Bytes

/-- Zero bytes, `n` of them. -/
def zeros (n : Nat) : Bytes := List.replicate n 0

/-- The bytes with those from `offset` on replaced, one by one. What would come to lie behind the end is
    left out. -/
def patch (bytes : Bytes) (offset : Nat) : Bytes → Bytes
  | [] => bytes
  | b :: rest => patch (bytes.set offset b) (offset + 1) rest

/-- The bytes from `start` up to and excluding `stop`. -/
def slice (bytes : Bytes) (start stop : Nat) : Bytes :=
  (bytes.take stop).drop start

@[simp] theorem length_zeros (n : Nat) : (zeros n).length = n := by
  simp [zeros]

/-- **Patching keeps the length.** -/
@[simp] theorem length_patch (bytes : Bytes) (offset : Nat) (p : Bytes) :
    (bytes.patch offset p).length = bytes.length := by
  induction p generalizing bytes offset with
  | nil => rfl
  | cons b rest ih => rw [patch, ih, List.length_set]

/-- A patch that lies inside stands between what it leaves on either side. -/
theorem patch_eq {bytes p : Bytes} {offset : Nat} (h : offset + p.length ≤ bytes.length) :
    bytes.patch offset p = bytes.take offset ++ p ++ bytes.drop (offset + p.length) := by
  induction p generalizing bytes offset with
  | nil => simp [patch]
  | cons b rest ih =>
    rw [List.length_cons] at h
    have hb : offset < bytes.length := by omega
    rw [patch, ih (by rw [List.length_set]; omega), List.take_add_one, List.getElem?_set_self hb,
      List.take_set_of_le (Nat.le_refl offset), List.drop_set_of_lt (by omega), List.length_cons]
    simp [Nat.add_comm, Nat.add_left_comm]

/-- A patch behind some bytes leaves those bytes alone. -/
theorem patch_append_right (front rest : Bytes) (i : Nat) (p : Bytes) :
    (front ++ rest).patch (front.length + i) p = front ++ rest.patch i p := by
  induction p generalizing rest i with
  | nil => rfl
  | cons b p ih =>
    rw [patch, patch, List.set_append_right _ _ (by omega), Nat.add_sub_cancel_left, Nat.add_assoc, ih]

/-- A patch in front of some bytes leaves those bytes alone. -/
theorem patch_append_left {front p : Bytes} {offset : Nat} (h : offset + p.length ≤ front.length)
    (rest : Bytes) : (front ++ rest).patch offset p = front.patch offset p ++ rest := by
  induction p generalizing front offset with
  | nil => rfl
  | cons b p ih =>
    rw [List.length_cons] at h
    rw [patch, patch, List.set_append_left _ _ (by omega), ih (by rw [List.length_set]; omega)]

/-- A patch behind the end changes nothing. -/
theorem patch_of_length_le {bytes : Bytes} {offset : Nat} (h : bytes.length ≤ offset) (p : Bytes) :
    bytes.patch offset p = bytes := by
  induction p generalizing offset with
  | nil => rfl
  | cons b p ih => rw [patch, List.set_eq_of_length_le h, ih (Nat.le_succ_of_le h)]

/-- A patch of the same length takes the place of what stood in front. -/
theorem patch_append_of_length {old p : Bytes} (h : p.length = old.length) (rest : Bytes) :
    (old ++ rest).patch 0 p = p ++ rest := by
  rw [patch_eq (by simp [h])]
  simp [h]

@[simp] theorem zeros_append (m n : Nat) : zeros m ++ zeros n = zeros (m + n) :=
  List.replicate_append_replicate

/-- A patch of zeros clears those of its bytes that are there. -/
theorem getElem?_patch_zeros (bytes : Bytes) (offset n i : Nat) :
    (bytes.patch offset (zeros n))[i]? =
      if offset ≤ i ∧ i < offset + n then bytes[i]?.map fun _ => 0 else bytes[i]? := by
  induction n generalizing bytes offset with
  | zero => rw [if_neg (by omega)]; rfl
  | succ n ih =>
    rw [show zeros (n + 1) = 0 :: zeros n from rfl, patch, ih]
    by_cases hi : offset = i
    · subst hi
      have hout : ¬(offset + 1 ≤ offset ∧ offset < offset + 1 + n) := by omega
      rw [if_neg hout, List.getElem?_set_self', if_pos (by omega)]
      rfl
    · have hrange : (offset + 1 ≤ i ∧ i < offset + 1 + n) ↔ (offset ≤ i ∧ i < offset + (n + 1)) := by
        omega
      rw [List.getElem?_set_ne hi]
      simp only [hrange]

/-- Zeros at the end are not changed by clearing. -/
theorem patch_zeros_append_zeros (bytes : Bytes) (offset n k : Nat) :
    (bytes ++ zeros k).patch offset (zeros n) = bytes.patch offset (zeros n) ++ zeros k := by
  apply List.ext_getElem?
  intro i
  rw [getElem?_patch_zeros, List.getElem?_append, List.getElem?_append, getElem?_patch_zeros,
    length_patch]
  by_cases hi : i < bytes.length
  · simp only [if_pos hi]
  · simp only [if_neg hi, zeros, List.getElem?_replicate]
    split <;> split <;> rfl

/-- Clearing ends where the bytes end. -/
theorem patch_zeros_min (bytes : Bytes) (start stop : Nat) :
    bytes.patch (min start bytes.length)
      (zeros (min stop bytes.length - min start bytes.length)) =
      bytes.patch start (zeros (stop - start)) := by
  apply List.ext_getElem?
  intro i
  rw [getElem?_patch_zeros, getElem?_patch_zeros]
  rcases Nat.lt_or_ge i bytes.length with hi | hi
  · have hrange : (min start bytes.length ≤ i ∧ i < min start bytes.length +
        (min stop bytes.length - min start bytes.length)) ↔ (start ≤ i ∧ i < start + (stop - start)) := by
      omega
    simp only [hrange]
  · rw [List.getElem?_eq_none hi, Option.map_none, ite_self, ite_self]

/-! ## Big-endian numbers -/

/-- The low `width` bytes of `n`, most significant first. -/
def bigEndian : (width : Nat) → Nat → Bytes
  | 0, _ => []
  | width + 1, n => UInt8.ofNat (n / 256 ^ width) :: bigEndian width n

/-- The number that the bytes spell, most significant first. -/
def toNat (bytes : Bytes) : Nat :=
  bytes.foldl (fun n b => n * 256 + b.toNat) 0

/-- A signed number in two's complement, `width` bytes wide. -/
def ofInt (width : Nat) (v : Int) : Bytes :=
  bigEndian width (v % (256 ^ width : Nat)).toNat

/-- The bytes read as a two's complement number of their own width. -/
def toInt (bytes : Bytes) : Int :=
  Int.bmod bytes.toNat (256 ^ bytes.length)

@[simp] theorem length_bigEndian (width n : Nat) : (bigEndian width n).length = width := by
  induction width with
  | zero => rfl
  | succ width ih => simp [bigEndian, ih]

@[simp] theorem length_ofInt (width : Nat) (v : Int) : (ofInt width v).length = width := by
  simp [ofInt]

/-- Helper: what a big-endian number adds to the bytes in front of it. -/
private theorem foldl_bigEndian (sofar width n : Nat) :
    (bigEndian width n).foldl (fun n b => n * 256 + b.toNat) sofar = sofar * 256 ^ width + n % 256 ^ width := by
  induction width generalizing sofar with
  | zero => simp [bigEndian, Nat.mod_one]
  | succ width ih =>
    have hmod : n % 256 ^ (width + 1) = n % 256 ^ width + 256 ^ width * (n / 256 ^ width % 256) :=
      Nat.mod_pow_succ
    have hbyte : (UInt8.ofNat (n / 256 ^ width)).toNat = n / 256 ^ width % 256 := UInt8.toNat_ofNat'
    rw [bigEndian, List.foldl_cons, ih, hbyte, hmod, Nat.pow_succ, Nat.add_mul, Nat.mul_assoc,
      Nat.mul_comm 256, Nat.mul_comm (n / 256 ^ width % 256)]
    omega

/-- The number that big-endian bytes spell, as far as they hold it. -/
theorem toNat_bigEndian (width n : Nat) : toNat (bigEndian width n) = n % 256 ^ width := by
  rw [toNat, foldl_bigEndian, Nat.zero_mul, Nat.zero_add]

/-- A signed number that fits reads back from its two's complement. -/
theorem toInt_ofInt {width : Nat} {v : Int} (hlow : -((256 ^ width : Nat) / 2 : Int) ≤ v)
    (hhigh : v < ((256 ^ width : Nat) + 1 : Int) / 2) : toInt (ofInt width v) = v := by
  have hpos : (0 : Int) < (256 ^ width : Nat) := Int.natCast_pos.mpr (Nat.pow_pos (by decide))
  have hnat : (((v % (256 ^ width : Nat)).toNat % 256 ^ width : Nat) : Int) = v % (256 ^ width : Nat) := by
    rw [Int.natCast_emod, Int.toNat_of_nonneg (Int.emod_nonneg _ (by omega)), Int.emod_emod]
  rw [toInt, length_ofInt, ofInt, toNat_bigEndian, hnat, Int.emod_bmod]
  exact Int.bmod_eq_of_le hlow hhigh

/-! ## Text -/

/-- The UTF-8 bytes of a text. -/
def ofText (text : String) : Bytes := text.toByteArray.data.toList

/-- The text that the bytes spell in UTF-8, if they do. -/
def text? (bytes : Bytes) : Option String := String.fromUTF8? ⟨bytes.toArray⟩

@[simp] theorem length_ofText (text : String) : (ofText text).length = text.utf8ByteSize := rfl

/-- The bytes of a text are those of its characters. -/
theorem ofText_eq (text : String) : ofText text = text.toList.flatMap String.utf8EncodeChar := by
  rw [ofText, ← String.utf8Encode_toList, List.utf8Encode, List.toList_data_toByteArray]

/-- Reading back the UTF-8 bytes of a text gives the text. -/
@[simp] theorem text?_ofText (text : String) : (ofText text).text? = some text := by
  simp [text?, ofText, String.fromUTF8?, String.fromUTF8, text.isValidUTF8]

/-- Texts with the same bytes are the same. -/
theorem ofText_inj {text text' : String} (h : ofText text = ofText text') : text = text' := by
  have hread := congrArg text? h
  rw [text?_ofText, text?_ofText] at hread
  exact Option.some.inj hread

/-- Only the zero character has a zero byte in UTF-8. -/
theorem zero_notMem_utf8EncodeChar {c : Char} (h : c ≠ '\x00') : 0 ∉ String.utf8EncodeChar c := by
  have hpos : c.val.toNat ≠ 0 := fun hc => h (Char.ext (UInt32.toNat_inj.mp hc))
  -- a lone byte is the character's number, the bytes of a longer sequence all have their high bit set
  fun_cases String.utf8EncodeChar c <;>
    simp only [List.mem_cons, List.not_mem_nil, or_false, ← UInt8.toNat_inj, UInt8.toNat_ofNat',
      UInt8.reduceToNat] <;>
    omega

/-- Bytes are read as the text that they are the bytes of, and as no other. -/
theorem text?_eq_some_iff {bytes : Bytes} {text : String} : bytes.text? = some text ↔ ofText text = bytes := by
  constructor
  · intro h
    unfold text? String.fromUTF8? at h
    split at h
    · cases h
      rfl
    · cases h
  · rintro rfl
    exact text?_ofText text

/-- **A text is cut at its first zero character where its bytes are cut at the first zero byte.** -/
theorem takeWhile_ofText (text : String) :
    (ofText text).takeWhile (· != 0) = ofText (.ofList (text.toList.takeWhile (· != '\x00'))) := by
  rw [ofText_eq, ofText_eq, String.toList_ofList]
  induction text.toList with
  | nil => rfl
  | cons c cs ih =>
    by_cases hc : c = '\x00'
    · subst hc
      rfl
    · have hbytes : ∀ byte ∈ String.utf8EncodeChar c, (byte != 0) = true := by
        intro byte hbyte
        have hne : byte ≠ 0 := fun e => zero_notMem_utf8EncodeChar hc (e ▸ hbyte)
        simpa using hne
      simp [List.takeWhile_append_of_pos hbytes, hc, ih]

/-- Behind a zero byte nothing counts, and neither does the zero byte itself. -/
theorem takeWhile_append_zero (bytes rest : Bytes) :
    (bytes ++ 0 :: rest).takeWhile (· != 0) = bytes.takeWhile (· != 0) := by
  induction bytes with
  | nil => rfl
  | cons b bytes ih => simp [List.takeWhile_cons, ih]

/-! ## Hexadecimal -/

/-- The low `width` hexadecimal digits of `n`, lower case. -/
def hexDigits : (width : Nat) → Nat → List Char
  | 0, _ => []
  | width + 1, n => Nat.digitChar (n / 16 ^ width % 16) :: hexDigits width n

end Bytes

end FieldTree
