import FieldTree.Bytes
import FieldTree.FieldType

/-!
# Header Words

Every field starts with one 32-bit big-endian word:

    31 | 30 .. 24 | 23 .. 0
    flag | type tag | length

The length counts the header and the payload, but not the zero padding that brings the next field to a
multiple of four. The flag is reserved for named fields; the writer never sets it.

## Main statements

- `Header.ofWord_word` and `Header.word_ofWord`: header and word determine each other.
- `Header.ofBytes_toBytes`: a header reads back from its four bytes.
-/

namespace FieldTree

/-- Size of a header in bytes. -/
def headerSize : Nat := 4

/-- The largest length that a header can state, one below 16 MiB. -/
def maxLength : Nat := 2 ^ 24 - 1

/-- The least multiple of four from `n` on. -/
def alignUp (n : Nat) : Nat := (n + 3) / 4 * 4

theorem le_alignUp (n : Nat) : n ≤ alignUp n := by
  unfold alignUp; omega

theorem dvd_alignUp (n : Nat) : 4 ∣ alignUp n := by
  unfold alignUp; omega

theorem alignUp_mono {m n : Nat} (h : m ≤ n) : alignUp m ≤ alignUp n := by
  unfold alignUp; omega

theorem alignUp_of_dvd {n : Nat} (h : 4 ∣ n) : alignUp n = n := by
  unfold alignUp; omega

/-- A header word, taken apart. The tag is kept as it was found, known or not. -/
structure Header where
  /-- the reserved flag -/
  named : Bool
  /-- the type tag -/
  tag : Fin 128
  /-- the length of the field, header included -/
  length : Fin (2 ^ 24)
  deriving DecidableEq, Repr

namespace Header

/-! ## Parts -/

/-- The length of the field, header included and padding excluded. -/
def rawLength (h : Header) : Nat := h.length

/-- The length of the field with the padding that follows it. -/
def paddedLength (h : Header) : Nat := alignUp h.rawLength

/-- The length of the payload. -/
def dataLength (h : Header) : Nat := h.rawLength - headerSize

/-- The type of the field. -/
def type (h : Header) : FieldType := .ofTag h.tag

/-- States another length: at least a header's, and only its low 24 bits. -/
def withLength (h : Header) (n : Nat) : Header :=
  { h with length := Fin.ofNat (2 ^ 24) (max n headerSize) }

/-- States another type. -/
def withType (h : Header) (t : FieldType) : Header :=
  { h with tag := t.tag }

/-- The header that a writer gives a field of type `t` and length `n`. -/
def new (t : FieldType) (n : Nat) : Header :=
  withLength ⟨false, t.tag, 0⟩ n

@[simp] theorem type_withLength (h : Header) (n : Nat) : (h.withLength n).type = h.type := rfl

@[simp] theorem withLength_withLength (h : Header) (m n : Nat) :
    (h.withLength m).withLength n = h.withLength n := rfl

@[simp] theorem withLength_new (t : FieldType) (m n : Nat) : (new t m).withLength n = new t n := rfl

/-- A length in the range of a header is stated as it is. -/
theorem rawLength_withLength {n : Nat} (h : Header) (hlow : headerSize ≤ n) (hhigh : n ≤ maxLength) :
    (h.withLength n).rawLength = n := by
  unfold headerSize maxLength at *
  simp only [withLength, rawLength, Fin.ofNat, headerSize]
  omega

theorem withLength_rawLength {h : Header} (hlow : headerSize ≤ h.rawLength) :
    h.withLength h.rawLength = h := by
  obtain ⟨named, tag, length, hlen⟩ := h
  simp only [rawLength] at hlow
  simp only [withLength, rawLength, Fin.ofNat]
  congr 2
  omega

@[simp] theorem rawLength_withType (h : Header) (t : FieldType) :
    (h.withType t).rawLength = h.rawLength := rfl

@[simp] theorem type_withType (h : Header) (t : FieldType) : (h.withType t).type = t :=
  FieldType.ofTag_tag t

/-- Restating a known type changes nothing. -/
theorem withType_type {h : Header} (hknown : h.type ≠ .invalid) : h.withType h.type = h := by
  obtain ⟨named, tag, length⟩ := h
  have htag : (FieldType.ofTag tag).tag = tag := FieldType.tag_ofTag hknown
  simp only [withType, type, htag]

@[simp] theorem type_new (t : FieldType) (n : Nat) : (new t n).type = t :=
  FieldType.ofTag_tag t

theorem rawLength_new {n : Nat} (t : FieldType) (hlow : headerSize ≤ n) (hhigh : n ≤ maxLength) :
    (new t n).rawLength = n :=
  rawLength_withLength _ hlow hhigh

/-! ## The word -/

/-- The header as one number below `2 ^ 32`. -/
def word (h : Header) : Nat :=
  (if h.named then 2 ^ 31 else 0) + h.tag * 2 ^ 24 + h.length

/-- The header whose word is the low 32 bits of `w`. -/
def ofWord (w : Nat) : Header where
  named := w / 2 ^ 31 % 2 == 1
  tag := ⟨w / 2 ^ 24 % 128, Nat.mod_lt _ (Nat.zero_lt_succ 127)⟩
  length := Fin.ofNat (2 ^ 24) w

theorem word_lt (h : Header) : h.word < 2 ^ 32 := by
  have ht := h.tag.isLt
  have hl := h.length.isLt
  unfold word
  split <;> omega

@[simp] theorem ofWord_word (h : Header) : ofWord h.word = h := by
  obtain ⟨named, ⟨tag, ht⟩, ⟨length, hl⟩⟩ := h
  have hn : ((if named then 2 ^ 31 else 0) + tag * 2 ^ 24 + length) / 2 ^ 31 % 2
      = if named then 1 else 0 := by
    cases named <;> simp <;> omega
  have htag : ((if named then 2 ^ 31 else 0) + tag * 2 ^ 24 + length) / 2 ^ 24 % 128 = tag := by
    cases named <;> simp <;> omega
  have hlen : ((if named then 2 ^ 31 else 0) + tag * 2 ^ 24 + length) % 2 ^ 24 = length := by
    cases named <;> simp <;> omega
  simp only [ofWord, word, hn, Fin.ofNat, htag, hlen]
  cases named <;> rfl

@[simp] theorem word_ofWord (w : Nat) : (ofWord w).word = w % 2 ^ 32 := by
  have htag : ((ofWord w).tag : Nat) = w / 2 ^ 24 % 128 := rfl
  have hlength : ((ofWord w).length : Nat) = w % 2 ^ 24 := rfl
  by_cases h : w / 2 ^ 31 % 2 = 1
  · have hnamed : (ofWord w).named = true := beq_iff_eq.mpr h
    rw [word, hnamed, if_pos rfl, htag, hlength]; omega
  · have hnamed : (ofWord w).named = false := beq_eq_false_iff_ne.mpr h
    rw [word, hnamed, if_neg Bool.false_ne_true, htag, hlength]; omega

/-! ## The four bytes -/

/-- The header as it stands in front of its field. -/
def toBytes (h : Header) : Bytes := .bigEndian headerSize h.word

/-- The header that the first four bytes spell, if there are as many. -/
def ofBytes? : Bytes → Option Header
  | a :: b :: c :: d :: _ => some (ofWord (Bytes.toNat [a, b, c, d]))
  | _ => none

@[simp] theorem length_toBytes (h : Header) : h.toBytes.length = 4 := by
  simp [toBytes, headerSize]

/-- A header reads back from its bytes, whatever follows them. -/
@[simp] theorem ofBytes?_toBytes (h : Header) (rest : Bytes) :
    ofBytes? (h.toBytes ++ rest) = some h := by
  have hn : Bytes.toNat (.bigEndian 4 h.word) = h.word :=
    (Bytes.toNat_bigEndian 4 h.word).trans (Nat.mod_eq_of_lt h.word_lt)
  simp only [toBytes, headerSize, Bytes.bigEndian] at hn ⊢
  simp only [ofBytes?, List.cons_append, hn, ofWord_word]

theorem toBytes_injective {h h' : Header} (e : h.toBytes = h'.toBytes) : h = h' := by
  have hread := ofBytes?_toBytes h []
  rw [e, ofBytes?_toBytes] at hread
  exact (Option.some.inj hread).symm

/-- Flag and tag are the first byte, and the length is the other three. -/
theorem toBytes_eq (h : Header) :
    h.toBytes = UInt8.ofNat ((if h.named then 128 else 0) + h.tag) :: Bytes.bigEndian 3 h.rawLength := by
  have htag := h.tag.isLt
  have hlength := h.length.isLt
  simp only [toBytes, headerSize, Bytes.bigEndian, rawLength, word, List.cons.injEq, and_true,
    ← UInt8.toNat_inj, UInt8.toNat_ofNat', Nat.reducePow]
  split <;> omega

/-- Four bytes are those of the header that they spell. -/
theorem toBytes_ofWord (a b c d : UInt8) :
    (ofWord (Bytes.toNat [a, b, c, d])).toBytes = [a, b, c, d] := by
  have ha := a.toNat_lt
  have hb := b.toNat_lt
  have hc := c.toNat_lt
  have hd := d.toNat_lt
  simp only [toBytes, word_ofWord, headerSize, Bytes.bigEndian, Bytes.toNat, List.foldl_cons,
    List.foldl_nil, List.cons.injEq, and_true, ← UInt8.toNat_inj, UInt8.toNat_ofNat', Nat.reducePow]
  omega

/-- A byte string whose header reads as `h` starts with the bytes of `h`. -/
theorem eq_toBytes_append {bytes : Bytes} {h : Header} (e : ofBytes? bytes = some h) :
    bytes = h.toBytes ++ bytes.drop headerSize := by
  unfold ofBytes? at e
  split at e
  · cases e
    rw [toBytes_ofWord]
    rfl
  · cases e

/-- Four bytes are enough for a header. -/
theorem exists_ofBytes? {bytes : Bytes} (h : headerSize ≤ bytes.length) :
    ∃ header, ofBytes? bytes = some header := by
  match bytes, h with
  | _ :: _ :: _ :: _ :: _, _ => exact ⟨_, rfl⟩

end Header

end FieldTree
