import FieldTree.Header
import Mathlib.Data.List.Induction
import Mathlib.Order.Bounds.Defs

/-!
# Header Words by Masks

A header is kept in its parts, and stands in front of its field as one word of 32 bits. There the parts are read under
masks, and a part is changed by laying new bits over those under its mask. Both views agree in every word, also where
the flag is set, the tag is not in use or the length is below that of a header, so that a change of one part never
reaches another one.

## Architecture

- `overlay`, `overlay_and_self`, `overlay_and_of_disjoint`: bits laid over a word count under their mask and nowhere
  else.
- `Header.bits`, `Header.ofBits`: headers and words determine each other.
- `Header.readsFrom_ofBits`: every part is read from the word under its mask.
- `Header.withLength_ofBits`, `Header.withType_ofBits`: a part is changed by laying it over the word.
- `Header.changed_ofBits`: a row of changes is laid over the word one by one.
- `Header.changed_eq`: a row of changes comes to the last one of each kind.
- `Header.parts_independent`: **the parts of a header word are independent.**
-/

namespace FieldTree

/-! ## Masks -/

/-- A word with the bits of another one laid over it, as far as they are under the mask. -/
def overlay (mask bits w : BitVec 32) : BitVec 32 := w &&& ~~~mask ||| bits &&& mask

section Overlay

variable {mask other : BitVec 32} (bits w : BitVec 32)

/-- Under the mask stand the new bits. -/
theorem overlay_and_self : overlay mask bits w &&& mask = bits &&& mask := by
  ext i hi
  simp only [overlay, BitVec.getElem_and, BitVec.getElem_or, BitVec.getElem_not]
  cases mask[i] <;> simp

/-- Under a mask that has no bit in common with it the word is as it was. -/
theorem overlay_and_of_disjoint (h : mask &&& other = 0) : overlay mask bits w &&& other = w &&& other := by
  ext i hi
  have hbit : (mask[i] && other[i]) = false := by rw [← BitVec.getElem_and, h]; exact BitVec.getElem_zero hi
  simp only [overlay, BitVec.getElem_and, BitVec.getElem_or, BitVec.getElem_not]
  cases hmask : mask[i]
  · simp
  · have hother : other[i] = false := by simpa [hmask] using hbit
    simp [hother]

end Overlay

/-- Padding by a mask on 64 bits, which no length comes near to filling. -/
theorem alignUp_eq_and_not {n : Nat} (h : n + 3 < 2 ^ 64) :
    alignUp n = (BitVec.ofNat 64 (n + 3) &&& ~~~3).toNat := by
  have hmask : ~~~(3 : BitVec 64) = BitVec.allOnes 64 <<< 2 := by decide
  rw [hmask, ← BitVec.shiftLeft_ushiftRight, BitVec.toNat_shiftLeft, BitVec.toNat_ushiftRight, BitVec.toNat_ofNat,
    Nat.shiftLeft_eq, Nat.shiftRight_eq_div_pow, Nat.mod_eq_of_lt h, alignUp]
  omega

/-- Nothing between a length and its padded length is a multiple of four. -/
theorem isLeast_alignUp (n : Nat) : IsLeast {m | 4 ∣ m ∧ n ≤ m} (alignUp n) := by
  refine ⟨⟨dvd_alignUp n, le_alignUp n⟩, fun m hm => ?_⟩
  rw [← alignUp_of_dvd hm.1]
  exact alignUp_mono hm.2

namespace Header

/-- The bit of the flag. -/
def flagMask : BitVec 32 := 0x80000000

/-- The seven bits of the tag. -/
def tagMask : BitVec 32 := 0x7f000000

/-- The 24 bits of the length. -/
def lengthMask : BitVec 32 := 0x00ffffff

/-! ## Parts read from a word -/

/-- The word of a header. -/
def bits (h : Header) : BitVec 32 := .ofNatLT h.word h.word_lt

/-- The header that a word spells. -/
def ofBits (w : BitVec 32) : Header := ofWord w.toNat

@[simp] theorem ofBits_bits (h : Header) : ofBits h.bits = h := ofWord_word h

@[simp] theorem bits_ofBits (w : BitVec 32) : (ofBits w).bits = w := by
  apply BitVec.eq_of_toNat_eq
  rw [bits, BitVec.toNat_ofNatLT, ofBits, word_ofWord, Nat.mod_eq_of_lt w.isLt]

/-- A header that has a word for its word, and whose parts are read from that word under their masks. -/
structure ReadsFrom (h : Header) (w : BitVec 32) : Prop where
  bits : h.bits = w
  bytes : h.toBytes = .bigEndian headerSize w.toNat
  named : h.named = (w &&& flagMask != 0)
  tag : (h.tag : Nat) = ((w &&& tagMask) >>> 24).toNat
  type : h.type = .ofTag ((w &&& tagMask) >>> 24).toNat
  rawLength : h.rawLength = (w &&& lengthMask).toNat
  paddedLength : h.paddedLength = (BitVec.ofNat 64 ((w &&& lengthMask).toNat + 3) &&& ~~~3).toNat

section Word

variable (w : BitVec 32)

theorem toBytes_ofBits : (ofBits w).toBytes = .bigEndian headerSize w.toNat := by
  rw [toBytes, ofBits, word_ofWord, Nat.mod_eq_of_lt w.isLt]

theorem named_ofBits : (ofBits w).named = (w &&& flagMask != 0) := by
  have hnamed : (ofBits w).named = w.getLsbD 31 := Nat.testBit_eq_decide_div_mod_eq.symm
  have hflag : flagMask = BitVec.twoPow 32 31 := by decide
  rw [hnamed, hflag, BitVec.and_twoPow]
  cases w.getLsbD 31 <;> decide

theorem tag_ofBits : ((ofBits w).tag : Nat) = ((w &&& tagMask) >>> 24).toNat := by
  rw [BitVec.toNat_ushiftRight, BitVec.toNat_and, Nat.shiftRight_and_distrib, Nat.shiftRight_eq_div_pow]
  exact (Nat.and_two_pow_sub_one_eq_mod (w.toNat / 2 ^ 24) 7).symm

theorem rawLength_ofBits : (ofBits w).rawLength = (w &&& lengthMask).toNat := by
  rw [BitVec.toNat_and]
  exact (Nat.and_two_pow_sub_one_eq_mod w.toNat 24).symm

/-- **Every part is read from the word under its mask.** -/
theorem readsFrom_ofBits : (ofBits w).ReadsFrom w where
  bits := bits_ofBits w
  bytes := toBytes_ofBits w
  named := named_ofBits w
  tag := tag_ofBits w
  type := congrArg FieldType.ofTag (tag_ofBits w)
  rawLength := rawLength_ofBits w
  paddedLength := by
    have hlt : (ofBits w).rawLength < 2 ^ 24 := (ofBits w).length.isLt
    rw [← rawLength_ofBits]
    exact alignUp_eq_and_not (by omega)

end Word

/-- The payload is as long as the length goes beyond a header. -/
theorem dataLength_eq_max (h : Header) : (h.dataLength : Int) = max ((h.rawLength : Int) - headerSize) 0 := by
  unfold dataLength
  omega

/-! ## Parts laid over a word -/

section Parts

variable {mask bits w : BitVec 32}

theorem named_overlay (h : mask &&& flagMask = 0) : (ofBits (overlay mask bits w)).named = (ofBits w).named := by
  rw [named_ofBits, named_ofBits, overlay_and_of_disjoint bits w h]

theorem tag_overlay (h : mask &&& tagMask = 0) :
    ((ofBits (overlay mask bits w)).tag : Nat) = (ofBits w).tag := by
  rw [tag_ofBits, tag_ofBits, overlay_and_of_disjoint bits w h]

theorem rawLength_overlay (h : mask &&& lengthMask = 0) :
    (ofBits (overlay mask bits w)).rawLength = (ofBits w).rawLength := by
  rw [rawLength_ofBits, rawLength_ofBits, overlay_and_of_disjoint bits w h]

theorem tag_overlay_tagMask : ((ofBits (overlay tagMask bits w)).tag : Nat) = (ofBits bits).tag := by
  rw [tag_ofBits, tag_ofBits, overlay_and_self]

theorem rawLength_overlay_lengthMask : (ofBits (overlay lengthMask bits w)).rawLength = (ofBits bits).rawLength := by
  rw [rawLength_ofBits, rawLength_ofBits, overlay_and_self]

end Parts

/-- Headers that agree in every part are the same. -/
theorem eq_of_parts {h h' : Header} (named : h.named = h'.named) (tag : (h.tag : Nat) = h'.tag)
    (rawLength : h.rawLength = h'.rawLength) : h = h' := by
  obtain ⟨_, _, _⟩ := h
  obtain ⟨_, _, _⟩ := h'
  cases named
  cases Fin.ext tag
  cases Fin.ext rawLength
  rfl

/-- Of a length that does not fit, the low 24 bits are stated. -/
theorem rawLength_withLength_eq_mod (h : Header) (n : Nat) :
    (h.withLength n).rawLength = max n headerSize % 2 ^ 24 := rfl

/-- **A length is stated by laying it over the word.** -/
theorem withLength_ofBits (w : BitVec 32) (n : Nat) :
    (ofBits w).withLength n = ofBits (overlay lengthMask (.ofNat 32 (max n headerSize)) w) := by
  refine eq_of_parts ?named ?tag ?rawLength
  case named => exact (named_overlay (by decide)).symm
  case tag => exact (tag_overlay (by decide)).symm
  case rawLength =>
    -- the word cuts the length off at 32 bits, which leaves the low 24 of them alone
    rw [rawLength_withLength_eq_mod, rawLength_overlay_lengthMask]
    exact (Nat.mod_mod_of_dvd _ (Nat.pow_dvd_pow 2 (by decide))).symm

/-- The flag, a tag that is not in use and a length of more than 32 bits. -/
example : ((ofBits 0xff000003).withLength (2 ^ 32 + 2 ^ 24 + 9)).bits = 0xff000009 := by decide

/-- **A type is stated by laying its tag over the word.** -/
theorem withType_ofBits (w : BitVec 32) (t : FieldType) :
    (ofBits w).withType t = ofBits (overlay tagMask (BitVec.ofNat 32 t.tag <<< 24) w) := by
  refine eq_of_parts ?named ?tag ?rawLength
  case named => exact (named_overlay (by decide)).symm
  case tag =>
    have hlt := t.tag.isLt
    have hstated : ((ofBits w).withType t).tag = t.tag := rfl
    have hread : ((ofBits (BitVec.ofNat 32 t.tag <<< 24)).tag : Nat) =
        (BitVec.ofNat 32 t.tag <<< 24).toNat / 2 ^ 24 % 128 := rfl
    rw [hstated, tag_overlay_tagMask, hread, BitVec.toNat_shiftLeft, BitVec.toNat_ofNat, Nat.shiftLeft_eq]
    omega
  case rawLength => exact (rawLength_overlay (by decide)).symm

/-! ## Changes in a row -/

/-- A change to one part of a header. -/
inductive Change where
  | length (n : Nat)
  | type (t : FieldType)
  deriving DecidableEq, Repr

/-- The length that a change states, if it states one. -/
def Change.length? : Change → Option Nat
  | length n => some n
  | type _ => none

/-- The type that a change states, if it states one. -/
def Change.type? : Change → Option FieldType
  | length _ => none
  | type t => some t

/-- Lays the part that a change states over a word. -/
def Change.layOver (w : BitVec 32) : Change → BitVec 32
  | length n => overlay lengthMask (.ofNat 32 (max n headerSize)) w
  | type t => overlay tagMask (BitVec.ofNat 32 t.tag <<< 24) w

/-- The last length that is stated. -/
def lastLength? (changes : List Change) : Option Nat := (changes.filterMap Change.length?).getLast?

/-- The last type that is stated. -/
def lastType? (changes : List Change) : Option FieldType := (changes.filterMap Change.type?).getLast?

section Changes

variable (h : Header)

/-- Makes one change. -/
def change : Change → Header
  | .length n => h.withLength n
  | .type t => h.withType t

/-- Makes changes in a row. -/
def changed (changes : List Change) : Header := changes.foldl change h

/-- States another length, if there is one to state. -/
def withLength? (n? : Option Nat) : Header := n?.elim h h.withLength

/-- States another type, if there is one to state. -/
def withType? (t? : Option FieldType) : Header := t?.elim h h.withType

/-- A change is laid over the word. -/
theorem change_ofBits (w : BitVec 32) (c : Change) : (ofBits w).change c = ofBits (c.layOver w) := by
  cases c with
  | length n => exact withLength_ofBits w n
  | type t => exact withType_ofBits w t

/-- **Changes in a row are laid over the word one by one.** -/
theorem changed_ofBits (w : BitVec 32) (changes : List Change) :
    (ofBits w).changed changes = ofBits (changes.foldl Change.layOver w) := by
  induction changes generalizing w with
  | nil => rfl
  | cons c changes ih =>
    have hstep : (ofBits w).changed (c :: changes) = ((ofBits w).change c).changed changes := rfl
    rw [hstep, change_ofBits, ih, List.foldl_cons]

/-- Type and length are stated in either order. -/
theorem withLength?_withType? (n? : Option Nat) (t? : Option FieldType) :
    (h.withType? t?).withLength? n? = (h.withLength? n?).withType? t? := by
  cases n? <;> cases t? <;> rfl

/-- One more change takes the place of the last one of its kind. -/
theorem change_withLength? (n? : Option Nat) (t? : Option FieldType) (c : Change) :
    ((h.withType? t?).withLength? n?).change c = (h.withType? (c.type?.or t?)).withLength? (c.length?.or n?) := by
  cases c with
  | length n => cases n? <;> rfl
  | type t => cases n? <;> cases t? <;> rfl

theorem lastLength?_append (changes : List Change) (c : Change) :
    lastLength? (changes ++ [c]) = c.length?.or (lastLength? changes) := by
  cases c <;> simp [lastLength?, Change.length?]

theorem lastType?_append (changes : List Change) (c : Change) :
    lastType? (changes ++ [c]) = c.type?.or (lastType? changes) := by
  cases c <;> simp [lastType?, Change.type?]

/-- **A row of changes comes to the last one of each kind.** -/
theorem changed_eq (changes : List Change) :
    h.changed changes = (h.withType? (lastType? changes)).withLength? (lastLength? changes) := by
  induction changes using List.reverseRecOn with
  | nil => rfl
  | append_singleton changes c ih =>
    have hstep : h.changed (changes ++ [c]) = (h.changed changes).change c := List.foldl_append
    rw [hstep, ih, change_withLength?, lastLength?_append, lastType?_append]

end Changes

/-! ## Main statement -/

/-- **The parts of a header word are independent.** In every word of 32 bits the flag, the tag and the length are read
    under masks of their own. Stating a length, or that of a header if it is less, writes its low 24 bits under the mask
    of the length and leaves tag and flag as they were; stating a type writes its tag under the mask of the tag and
    leaves length and flag as they were. A row of such changes, each made under its mask, comes to the last type and the
    last length that it states, in either order. A header reads back from its four bytes, whatever follows them. The
    padded length is the least multiple of four that is not below the length, and the payload is as long as the length
    goes beyond a header. -/
theorem parts_independent (w : BitVec 32) :
    (ofBits w).ReadsFrom w ∧
    (∀ n, ((ofBits w).withLength n).ReadsFrom (overlay lengthMask (.ofNat 32 (max n headerSize)) w) ∧
      ((ofBits w).withLength n).rawLength = max n headerSize % 2 ^ 24 ∧
      ((ofBits w).withLength n).tag = (ofBits w).tag ∧ ((ofBits w).withLength n).named = (ofBits w).named ∧
      ((ofBits w).withLength n).bits &&& ~~~lengthMask = w &&& ~~~lengthMask) ∧
    (∀ t, ((ofBits w).withType t).ReadsFrom (overlay tagMask (BitVec.ofNat 32 t.tag <<< 24) w) ∧
      ((ofBits w).withType t).type = t ∧
      ((ofBits w).withType t).rawLength = (ofBits w).rawLength ∧ ((ofBits w).withType t).named = (ofBits w).named ∧
      ((ofBits w).withType t).bits &&& ~~~tagMask = w &&& ~~~tagMask) ∧
    (∀ changes, ((ofBits w).changed changes).ReadsFrom (changes.foldl Change.layOver w) ∧
      (ofBits w).changed changes = ((ofBits w).withType? (lastType? changes)).withLength? (lastLength? changes) ∧
      (ofBits w).changed changes = ((ofBits w).withLength? (lastLength? changes)).withType? (lastType? changes)) ∧
    (∀ rest, ofBytes? ((ofBits w).toBytes ++ rest) = some (ofBits w)) ∧
    IsLeast {m | 4 ∣ m ∧ (ofBits w).rawLength ≤ m} (ofBits w).paddedLength ∧
    ((ofBits w).dataLength : Int) = max (((ofBits w).rawLength : Int) - headerSize) 0 := by
  refine ⟨readsFrom_ofBits w, fun n => ?length, fun t => ?type,
    fun changes => ⟨?row, changed_eq _ changes, ?order⟩,
    ofBytes?_toBytes _, isLeast_alignUp _, dataLength_eq_max _⟩
  case length =>
    have hreads := readsFrom_ofBits (overlay lengthMask (.ofNat 32 (max n headerSize)) w)
    rw [← withLength_ofBits] at hreads
    refine ⟨hreads, rawLength_withLength_eq_mod _ n, rfl, rfl, ?_⟩
    rw [hreads.bits, overlay_and_of_disjoint _ w (by decide)]
  case type =>
    have hreads := readsFrom_ofBits (overlay tagMask (BitVec.ofNat 32 t.tag <<< 24) w)
    rw [← withType_ofBits] at hreads
    refine ⟨hreads, type_withType _ t, rawLength_withType _ t, rfl, ?_⟩
    rw [hreads.bits, overlay_and_of_disjoint _ w (by decide)]
  case row =>
    rw [changed_ofBits]
    exact readsFrom_ofBits _
  case order => rw [changed_eq, withLength?_withType?]

end Header

end FieldTree
