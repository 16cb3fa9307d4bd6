import FieldTree.Field.Reading
import FieldTree.Proofs.AppendLaw
import FieldTree.Proofs.Binary.RoundTrip

/-!
# Stored Reals Read Back

A real number is stored as a single if narrowing loses nothing of it, and as a double otherwise. Narrowing rounds to
the even rank and packing away from zero, but where a number is stored as a single neither has anything to round. The
comparison that decides it takes the zeros as equal, which does no harm: narrowing keeps the sign.

## Architecture

- `Binary.equals_convert_iff`: the comparison holds exactly of the numbers that have a single.
- `Item.ofReal_of_single`, `Item.ofReal_of_not_single`: how a real is stored.
- `Field.real_of_single`, `Field.real_of_double`: how it is read.
- `Session.putReal_faithful`: **what is put into a blob reads back as it was**, for every blob that a program can
  make.
-/

namespace FieldTree

/-! ## Narrowing -/

namespace Binary

open Format

variable {f g : Format} {x y : Binary f}

theorem isNegative_ofRank (negative : Bool) (rank : Nat) :
    (ofRank negative rank : Binary f).isNegative = negative := by
  unfold ofRank
  split <;> rfl

/-- Conversion keeps the sign, also that of a zero and of what becomes one. -/
theorem isNegative_convert (x : Binary f) : (x.convert : Binary g).isNegative = x.isNegative := by
  cases x with
  | nan | infinite => rfl
  | finite negative rank => exact isNegative_ofRank negative _

theorem equals_self (h : x ≠ .nan) : x.equals x = true := by
  cases x with
  | nan => exact absurd rfl h
  | infinite negative => exact beq_self_eq_true negative
  | finite negative rank => rw [equals, beq_self_eq_true, beq_self_eq_true, Bool.and_self, Bool.true_or]

/-- Equal numbers of one sign are the same. -/
theorem eq_of_equals (h : x.equals y = true) (hsign : x.isNegative = y.isNegative) : x ≠ .nan ∧ x = y := by
  cases x with
  | nan => cases h
  | infinite s =>
    cases y with
    | nan | finite => cases h
    | infinite t =>
      obtain rfl : s = t := hsign
      exact ⟨by rintro ⟨⟩, rfl⟩
  | finite s a =>
    cases y with
    | nan | infinite => cases h
    | finite t b =>
      obtain rfl : s = t := hsign
      refine ⟨by rintro ⟨⟩, congrArg (finite s) ?_⟩
      simp only [equals, beq_self_eq_true, Bool.true_and, Bool.or_eq_true, Bool.and_eq_true, beq_iff_eq] at h
      -- numbers count as equal by their ranks, or as zeros of either sign
      rcases h with hsame | ⟨ha, hb⟩
      · exact hsame
      · exact Fin.ext (ha.trans hb.symm)

/-- **The comparison after narrowing** holds of the numbers that have a single, zeros of both signs included. -/
theorem equals_convert_iff (v : Double) :
    ((v.convert : Single).convert : Double).equals v = true ↔ v ≠ .nan ∧ ∃ x : Single, x.convert = v := by
  constructor
  · intro h
    have hsign : ((v.convert : Single).convert : Double).isNegative = v.isNegative := by
      rw [isNegative_convert, isNegative_convert]
    obtain ⟨hnan, hsame⟩ := eq_of_equals h hsign
    rw [hsame] at hnan
    exact ⟨hnan, _, hsame⟩
  · rintro ⟨hnan, x, rfl⟩
    rw [narrow_single.embeds.convert_convert]
    exact equals_self hnan

end Binary

/-! ## Storing and reading -/

open Format

namespace Item

theorem ofReal_of_single {v : Double} (hnan : v ≠ .nan) (h : ∃ x : Single, x.convert = v) :
    ∃ x : Single, x.convert = v ∧ ofReal v = ofSingle x := by
  obtain ⟨x, rfl⟩ := h
  refine ⟨x, rfl, ?_⟩
  simp only [ofReal, narrow_single.embeds.convert_convert, if_pos (Binary.equals_self hnan)]

theorem ofReal_of_not_single {v : Double} (h : ¬(v ≠ .nan ∧ ∃ x : Single, x.convert = v)) :
    ofReal v = ofDouble v :=
  if_neg (mt (Binary.equals_convert_iff v).mp h)

end Item

namespace Field

variable {f : Field}

/-- A payload of the right width is read as a whole. -/
theorem word?_of_length {width : Nat} (h : f.data.length = width) : f.word? width = some f.data := by
  rw [word?, if_pos (Nat.le_of_eq h.symm), List.take_of_length_le (Nat.le_of_eq h)]

theorem real_of_single (htype : f.type = .float32) {x : Single} (hdata : f.data = .bigEndian 4 x.pack) :
    f.real = x.convert := by
  have hword : f.word? 4 = some f.data := word?_of_length (by rw [hdata, Bytes.length_bigEndian])
  have hbits : x.bits < 256 ^ 4 := Binary.bits_lt (by decide) x
  simp only [real, htype, hword, hdata, Option.map_some, Option.getD_some, Bytes.toNat_bigEndian]
  rw [x.pack_eq_bits, Nat.mod_eq_of_lt hbits, Single.unpack_eq_ofBits, Binary.ofBits_bits (by decide)]

theorem real_of_double (htype : f.type = .float64) {v : Double} (hdata : f.data = .bigEndian 8 v.pack) :
    f.real = v := by
  have hword : f.word? 8 = some f.data := word?_of_length (by rw [hdata, Bytes.length_bigEndian])
  have hbits : v.bits < 256 ^ 8 := Binary.bits_lt (by decide) v
  simp only [real, htype, hword, hdata, Option.map_some, Option.getD_some, Bytes.toNat_bigEndian]
  rw [v.pack_eq_bits, Nat.mod_eq_of_lt hbits, Double.unpack_eq_ofBits, Binary.ofBits_bits (by decide)]

end Field

/-! ## Main statement -/

/-- An operation succeeds at the end of the content with a field of some type that reads as a number. -/
structure Blob.PutsReal (b : Blob) (op : Operation Nat) (t : FieldType) (v : Double) : Prop where
  result : (op.run b).result = .ok (some b.size)
  reads : ∃ f, (op.run b).blob.field? b.size = some f ∧ f.type = t ∧ f.real = v

namespace Operation

variable {b : Blob} {op : Operation Nat}

theorem putsReal_single (hb : b.Sound) {x : Single} (hitem : op.item? = some (.ofSingle x))
    (hroom : b.stopOf 4 ≤ b.config.limit) : b.PutsReal op .float32 x.convert := by
  have hwidth : (Item.ofSingle x).payload.length = 4 := Bytes.length_bigEndian 4 _
  obtain ⟨hadds, hholds⟩ := adds_item hb hitem (hwidth.symm ▸ hroom)
  exact ⟨hadds.result, _, hadds.found, hholds.type, Field.real_of_single hholds.type hholds.data⟩

theorem putsReal_double (hb : b.Sound) {v : Double} (hitem : op.item? = some (.ofDouble v))
    (hroom : b.stopOf 8 ≤ b.config.limit) : b.PutsReal op .float64 v := by
  have hwidth : (Item.ofDouble v).payload.length = 8 := Bytes.length_bigEndian 8 _
  obtain ⟨hadds, hholds⟩ := adds_item hb hitem (hwidth.symm ▸ hroom)
  exact ⟨hadds.result, _, hadds.found, hholds.type, Field.real_of_double hholds.type hholds.data⟩

end Operation

/-- **Stored reals read back.** In every blob that a program can make and that has the room, a number that is the
    value of a single is stored as one and any other, NaN included, as a double, and it reads back as the same
    number, with the sign of its zero. So do numbers that are stored as doubles or as singles by request. -/
theorem Session.putReal_faithful (n : Nat) (history : List Step) (i : Nat) {b : Blob}
    (hb : ((start n).run history).blob i = b) :
    (∀ v : Double, v ≠ .nan →
      ((∃ x : Single, x.convert = v) → b.stopOf 4 ≤ b.config.limit → b.PutsReal (.putReal v) .float32 v) ∧
      ((¬∃ x : Single, x.convert = v) → b.stopOf 8 ≤ b.config.limit → b.PutsReal (.putReal v) .float64 v) ∧
      (b.stopOf 8 ≤ b.config.limit → b.PutsReal (.putDouble v) .float64 v)) ∧
    (b.stopOf 8 ≤ b.config.limit → b.PutsReal (.putReal .nan) .float64 .nan) ∧
    ∀ x : Single, x ≠ .nan → b.stopOf 4 ≤ b.config.limit → b.PutsReal (.putSingle x) .float32 x.convert := by
  have hsound : b.Sound := hb ▸ ((Sound.start n).run history).blob i
  refine ⟨fun v hnan => ⟨fun hsingle hroom => ?_, fun hnone hroom => ?_, fun hroom => ?_⟩, fun hroom => ?_,
    fun x _ hroom => ?_⟩
  · obtain ⟨x, rfl, hitem⟩ := Item.ofReal_of_single hnan hsingle
    exact Operation.putsReal_single hsound (congrArg some hitem) hroom
  · exact Operation.putsReal_double hsound (congrArg some (Item.ofReal_of_not_single (mt And.right hnone))) hroom
  · exact Operation.putsReal_double hsound rfl hroom
  · have hitem : Item.ofReal .nan = .ofDouble .nan := Item.ofReal_of_not_single fun h => h.1 rfl
    exact Operation.putsReal_double hsound (congrArg some hitem) hroom
  · exact Operation.putsReal_single hsound rfl hroom

namespace Session

/-- A blob with a list that is still open. -/
def sampleOpenList : List Step := [.perform 0 (.openContainer .square), .perform 0 (.putBool true)]

/-- Minus zero, a tenth, and the smallest single. -/
theorem putReal_faithful_sampleOpenList :
    ∃ b, ((start 1).run sampleOpenList).blob 0 = b ∧
      b.PutsReal (.putReal (.ofBits 0x8000000000000000)) .float32 (.ofBits 0x8000000000000000) ∧
      b.PutsReal (.putReal (.ofBits 0x3FB999999999999A)) .float64 (.ofBits 0x3FB999999999999A) ∧
      b.PutsReal (.putSingle (.ofBits 1)) .float32 (Binary.ofBits 1 : Single).convert := by
  have hroom : (((start 1).run sampleOpenList).blob 0).stopOf 8 ≤
      (((start 1).run sampleOpenList).blob 0).config.limit := by decide +kernel
  have hroom' : (((start 1).run sampleOpenList).blob 0).stopOf 4 ≤
      (((start 1).run sampleOpenList).blob 0).config.limit := by decide +kernel
  have hzero : (.ofBits 0x8000000000000000 : Double) ≠ .nan := by decide +kernel
  have htenth : (.ofBits 0x3FB999999999999A : Double) ≠ .nan := by decide +kernel
  -- minus zero is a single, a tenth is none
  have hsingle : ∃ x : Single, x.convert = (.ofBits 0x8000000000000000 : Double) :=
    ⟨.ofBits 0x80000000, by decide +kernel⟩
  have hnone : ¬∃ x : Single, x.convert = (.ofBits 0x3FB999999999999A : Double) := by
    intro h
    have hequals := (Binary.equals_convert_iff _).mpr ⟨htenth, h⟩
    revert hequals
    decide +kernel
  obtain ⟨hreal, -, hput⟩ := putReal_faithful 1 sampleOpenList 0 rfl
  exact ⟨_, rfl, (hreal _ hzero).1 hsingle hroom', (hreal _ htenth).2.1 hnone hroom,
    hput _ (by decide +kernel) hroom'⟩

end Session

end FieldTree
