import Mathlib.Algebra.Ring.Nat
import Mathlib.Data.List.Basic

/-!
# Bit fields of a byte array

A bit field is read from the most significant bit of a byte on, and written from the least significant one on. So a
bit that is written to a position comes to stand at the position mirrored in its byte. Reading a field back gives
the value written, and the bits around it are kept, exactly when each bit that is written belongs where it comes
to stand, and for all arrays and values exactly when the field lies in the middle of one byte. Positions are natural
numbers here: whether an offset is one is a matter of the parser.
-/

namespace SevenDB.Eval

/-- The bytes of a byte array; its length is kept beside them in the code and is always theirs. -/
abbrev ByteArray := List (BitVec 8)

/-- A type of fields: signed ones have up to 64 bits, unsigned ones up to 63. -/
structure FieldType where
  signed : Bool
  width : ℕ
  admitted : 0 < width ∧ width ≤ if signed then 64 else 63

theorem FieldType.width_le (t : FieldType) : t.width ≤ 64 := by
  have := t.admitted.2
  split at this <;> omega

/-- A value reduced to the bits of a field. -/
def FieldType.reduce (t : FieldType) (v : BitVec 64) : BitVec 64 :=
  if t.signed then (v.setWidth t.width).signExtend 64 else (v.setWidth t.width).setWidth 64

namespace ByteArray

/-- The bit at a position, counted from the most significant bit of the first byte; there are zeros after the end. -/
def bit (data : ByteArray) (p : ℕ) : Bool := (data.getD (p / 8) 0).getLsbD (7 - p % 8)

def readBits (data : ByteArray) (offset : ℕ) : ℕ → BitVec 64
  | 0 => 0
  | i + 1 => (readBits data offset i <<< 1) ||| (if data.bit (offset + i) then 1 else 0)

/-- Read a field; bits after the end are zeros. -/
def getBits (data : ByteArray) (offset width : ℕ) (signed : Bool) : BitVec 64 :=
  let extraBits := offset + width - data.length * 8
  let value := data.readBits offset (width - extraBits) <<< extraBits
  if signed && (value &&& (1#64 <<< (width - 1)) != 0) then value - (1#64 <<< width) else value

def increaseSize (data : ByteArray) (size : ℕ) : ByteArray := data ++ List.replicate (size - data.length) 0

/-- Make the array as long as a field needs. -/
def growFor (data : ByteArray) (offset width : ℕ) : ByteArray :=
  if data.length * 8 < offset + width then data.increaseSize ((offset + width + 7) / 8) else data

def writeBits (offset : ℕ) (value : BitVec 64) : ℕ → ByteArray → ByteArray
  | 0, data => data
  | i + 1, data =>
    (writeBits offset value i data).modify ((offset + i) / 8) fun byte =>
      if value.getLsbD i then byte ||| (1#8 <<< ((offset + i) % 8)) else byte &&& ~~~(1#8 <<< ((offset + i) % 8))

def setBits (data : ByteArray) (offset width : ℕ) (value : BitVec 64) : ByteArray :=
  writeBits offset value width (data.growFor offset width)

/-- The position mirrored in its byte. -/
def mirror (p : ℕ) : ℕ := 8 * (p / 8) + (7 - p % 8)

variable {data : ByteArray} {offset : ℕ}

theorem getLsbD_readBits {i : ℕ} (hi : i ≤ 64) (j : ℕ) :
    (data.readBits offset i).getLsbD j = (decide (j < i) && data.bit (offset + (i - 1 - j))) := by
  induction i generalizing j with
  | zero => simp [readBits]
  | succ i ih =>
    rw [readBits, BitVec.getLsbD_or, BitVec.getLsbD_shiftLeft]
    cases j with
    | zero => cases hbit : data.bit (offset + i) <;> simp [hbit]
    | succ j =>
      have hplace : i + 1 - 1 - (j + 1) = i - 1 - j := by omega
      have hone : (if data.bit (offset + i) then 1 else 0 : BitVec 64).getLsbD (j + 1) = false := by
        split <;> simp
      rw [hone, hplace, ih (by omega)]
      by_cases hj : j < i
      · simp [hj, show j + 1 < 64 by omega]
      · simp [hj]

@[simp] theorem bit_growFor (width p : ℕ) : (data.growFor offset width).bit p = data.bit p := by
  unfold growFor increaseSize
  split
  · simp only [bit, List.getD_eq_getElem?_getD, List.getElem?_append, List.getElem?_replicate]
    split_ifs with hlt
    · rfl
    · simp [List.getElem?_eq_none (Nat.not_lt.mp hlt)]
    · simp [List.getElem?_eq_none (Nat.not_lt.mp hlt)]
  · rfl

theorem le_length_growFor (width : ℕ) : offset + width ≤ 8 * (data.growFor offset width).length := by
  unfold growFor increaseSize
  split
  · simp
    omega
  · omega

theorem mirror_eq_iff {p q : ℕ} : mirror p = q ↔ q / 8 = p / 8 ∧ q % 8 = 7 - p % 8 := by
  unfold mirror
  omega

theorem getLsbD_setBit (byte : BitVec 8) (b : Bool) {k : ℕ} (hk : k < 8) (j : ℕ) :
    (if b then byte ||| (1#8 <<< k) else byte &&& ~~~(1#8 <<< k)).getLsbD j =
      if j = k then b else byte.getLsbD j := by
  have hmask : (1#8 <<< k).getLsbD j = decide (j = k) := by
    rw [Bool.eq_iff_iff]
    simp [BitVec.getLsbD_shiftLeft, BitVec.getLsbD_one]
    omega
  by_cases hj : j = k
  · subst hj
    cases b <;> simp [hk]
  · cases b <;> simp [hmask, hj]
    exact fun hbit => BitVec.lt_of_getLsbD hbit

@[simp] theorem length_writeBits (offset : ℕ) (value : BitVec 64) (i : ℕ) (data : ByteArray) :
    (writeBits offset value i data).length = data.length := by
  induction i with
  | zero => rfl
  | succ i ih => simp [writeBits, ih]

theorem bit_writeBits (value : BitVec 64) {i : ℕ} (hlen : offset + i ≤ 8 * data.length) (p : ℕ) :
    (writeBits offset value i data).bit p =
      if offset ≤ mirror p ∧ mirror p < offset + i then value.getLsbD (mirror p - offset) else data.bit p := by
  induction i with
  | zero => rw [writeBits, if_neg (by omega)]
  | succ i ih =>
    have hbyte : (offset + i) / 8 < (writeBits offset value i data).length := by
      rw [length_writeBits]
      omega
    have hstep : (writeBits offset value (i + 1) data).bit p =
        if mirror p = offset + i then value.getLsbD i else (writeBits offset value i data).bit p := by
      rw [writeBits, bit, bit, List.getD_eq_getElem?_getD, List.getD_eq_getElem?_getD, List.getElem?_modify]
      by_cases hp : (offset + i) / 8 = p / 8
      · have hplace : (7 - p % 8 = (offset + i) % 8) ↔ mirror p = offset + i := by
          rw [mirror_eq_iff]
          omega
        simp only [← hp, List.getElem?_eq_getElem hbyte, if_true, Option.map_eq_map, Option.map_some,
          Option.getD_some]
        rw [getLsbD_setBit _ _ (Nat.mod_lt _ (by decide))]
        simp only [hplace]
      · have hne : mirror p ≠ offset + i := fun heq => hp (mirror_eq_iff.mp heq).1
        simp [hp, hne]
    rw [hstep, ih (by omega)]
    by_cases hp : mirror p = offset + i
    · rw [if_pos hp, if_pos (by omega), hp, Nat.add_sub_cancel_left]
    · rw [if_neg hp]
      congr 1
      simp only [eq_iff_iff]
      omega

theorem getLsbD_getBits_false {width : ℕ} (hwidth : width ≤ 64) (hlen : offset + width ≤ 8 * data.length) (j : ℕ) :
    (data.getBits offset width false).getLsbD j = (decide (j < width) && data.bit (offset + (width - 1 - j))) := by
  have hextra : offset + width - data.length * 8 = 0 := by omega
  simp [getBits, hextra, getLsbD_readBits hwidth]

theorem ofInt_two_pow (k : ℕ) : BitVec.ofInt 64 ((2 ^ k : ℕ) : ℤ) = 1#64 <<< k := by
  rw [BitVec.ofInt_natCast, ← BitVec.twoPow]
  apply BitVec.eq_of_toNat_eq
  simp [BitVec.toNat_twoPow]

/-- Subtracting what the next bit is worth from a number with its top bit set extends its sign. -/
theorem sub_shiftLeft_eq_signExtend {u : BitVec 64} {width : ℕ} (hwidth : 0 < width) (hu : u.toNat < 2 ^ width) :
    (if u &&& (1#64 <<< (width - 1)) != 0 then u - (1#64 <<< width) else u) =
      (u.setWidth width).signExtend 64 := by
  have htop : (u &&& (1#64 <<< (width - 1)) != 0) = (u.setWidth width).msb := by
    have hbit : (u.setWidth width).getLsbD (width - 1) = u.getLsbD (width - 1) := by
      simp [Nat.sub_lt hwidth]
    rw [BitVec.msb_eq_getLsbD_last, hbit, ← BitVec.twoPow, BitVec.and_twoPow]
    cases hset : u.getLsbD (width - 1) with
    | false => simp
    | true =>
      have hpower : BitVec.twoPow 64 (width - 1) ≠ 0#64 := fun hzero => by
        simpa [BitVec.lt_of_getLsbD hset] using congrArg (fun x => x.getLsbD (width - 1)) hzero
      simpa using hpower
  have hnat : ((u.setWidth width).toNat : ℤ) = u.toNat := by
    rw [BitVec.toNat_setWidth, Nat.mod_eq_of_lt hu]
  rw [htop, BitVec.signExtend, BitVec.toInt_eq_msb_cond, hnat]
  split
  · rw [Int.sub_eq_add_neg, BitVec.ofInt_add, BitVec.ofInt_neg, ofInt_two_pow,
      BitVec.ofInt_natCast, BitVec.ofNat_toNat, BitVec.setWidth_eq, BitVec.sub_eq_add_neg]
  · simp

/-- A field is read as the bits of it are, reduced to the field. -/
theorem getBits_eq_reduce (t : FieldType) (hlen : offset + t.width ≤ 8 * data.length) :
    data.getBits offset t.width t.signed = t.reduce (data.getBits offset t.width false) := by
  have hbits := getLsbD_getBits_false t.width_le hlen
  generalize hu : data.getBits offset t.width false = u at hbits
  have hself : (u.setWidth t.width).setWidth 64 = u := by
    apply BitVec.eq_of_getLsbD_eq
    intro j hj
    by_cases hlt : j < t.width <;> simp [BitVec.getLsbD_setWidth, hbits, hlt, hj, -BitVec.getLsbD_eq_getElem]
  have hlt : u.toNat < 2 ^ t.width := by
    rw [← hself, BitVec.toNat_setWidth_of_le t.width_le]
    exact (u.setWidth t.width).isLt
  rw [FieldType.reduce, ← sub_shiftLeft_eq_signExtend t.admitted.1 hlt, hself, ← hu]
  cases t.signed <;> simp [getBits]

/-- Reading a field gives a value reduced to its bits exactly when each bit of the field is the one of the value. -/
theorem getBits_eq_reduce_iff (t : FieldType) (hlen : offset + t.width ≤ 8 * data.length) (v : BitVec 64) :
    data.getBits offset t.width t.signed = t.reduce v ↔
      ∀ p, offset ≤ p → p < offset + t.width → data.bit p = v.getLsbD (offset + t.width - 1 - p) := by
  have hbits := getLsbD_getBits_false t.width_le hlen
  rw [getBits_eq_reduce t hlen]
  generalize data.getBits offset t.width false = u at hbits
  have hsame : t.reduce u = t.reduce v ↔ u.setWidth t.width = v.setWidth t.width := by
    refine ⟨fun heq => ?_, fun heq => by simp [FieldType.reduce, heq]⟩
    unfold FieldType.reduce at heq
    split at heq
    · apply BitVec.eq_of_toInt_eq
      simpa [BitVec.toInt_signExtend_of_le t.width_le] using congrArg BitVec.toInt heq
    · simpa [BitVec.setWidth_setWidth_of_le _ t.width_le] using congrArg (BitVec.setWidth t.width) heq
  rw [hsame]
  constructor
  · intro heq p hle hp
    have hj := congrArg (fun x => x.getLsbD (offset + t.width - 1 - p)) heq
    have hplace : offset + (t.width - 1 - (offset + t.width - 1 - p)) = p := by omega
    simpa [hbits, hplace, show offset + t.width - 1 - p < t.width by omega] using hj
  · intro hall
    apply BitVec.eq_of_getLsbD_eq
    intro j hj
    have hplace : offset + t.width - 1 - (offset + (t.width - 1 - j)) = j := by omega
    simpa [hbits, hj, hplace] using hall (offset + (t.width - 1 - j)) (by omega) (by omega)

/-- Setting a field and getting it back: the value reduced to the field is read, and every bit outside of the field is
what it was, or zero where the array has grown. -/
def GetsAfterSet (data : ByteArray) (offset : ℕ) (t : FieldType) (v : BitVec 64) : Prop :=
  (data.setBits offset t.width v).getBits offset t.width t.signed = t.reduce v ∧
    ∀ p, ¬(offset ≤ p ∧ p < offset + t.width) → (data.setBits offset t.width v).bit p = data.bit p

/-- A position is one of a field. -/
def InField (offset width p : ℕ) : Prop := offset ≤ p ∧ p < offset + width

instance (offset width p : ℕ) : Decidable (InField offset width p) := inferInstanceAs (Decidable (_ ∧ _))

/-- The mirroring of positions does no harm to an array and a value. -/
structure MirrorsWell (data : ByteArray) (offset : ℕ) (t : FieldType) (v : BitVec 64) : Prop where
  /-- Each bit of the value, from the lowest one on, is the one that belongs at its mirrored position: a bit of the
  value counted from the top inside the field, and the old bit outside of it. -/
  written : ∀ p, InField offset t.width p → v.getLsbD (p - offset) =
    if InField offset t.width (mirror p) then v.getLsbD (offset + t.width - 1 - mirror p) else data.bit (mirror p)
  /-- A bit of the field that is not written, since its mirrored position lies outside, is the one of the value. -/
  missed : ∀ p, InField offset t.width p → ¬InField offset t.width (mirror p) →
    data.bit p = v.getLsbD (offset + t.width - 1 - p)

@[simp] theorem mirror_mirror (p : ℕ) : mirror (mirror p) = p := by
  unfold mirror
  omega

theorem bit_setBits (t : FieldType) (v : BitVec 64) (p : ℕ) :
    (data.setBits offset t.width v).bit p =
      if InField offset t.width (mirror p) then v.getLsbD (mirror p - offset) else data.bit p := by
  rw [setBits, bit_writeBits v (le_length_growFor t.width), bit_growFor]
  rfl

/-- Setting and getting a field, in terms of the bits that are there afterwards. -/
theorem getsAfterSet_iff_bits (t : FieldType) (v : BitVec 64) :
    data.GetsAfterSet offset t v ↔
      ∀ p, (data.setBits offset t.width v).bit p =
        if InField offset t.width p then v.getLsbD (offset + t.width - 1 - p) else data.bit p := by
  have hlength : (data.setBits offset t.width v).length = (data.growFor offset t.width).length :=
    length_writeBits offset v t.width _
  rw [GetsAfterSet, getBits_eq_reduce_iff t (hlength ▸ le_length_growFor t.width)]
  constructor
  · rintro ⟨hin, hout⟩ p
    split_ifs with hp
    · exact hin p hp.1 hp.2
    · exact hout p hp
  · intro hall
    exact ⟨fun p hle hlt => (hall p).trans (if_pos ⟨hle, hlt⟩), fun p hp => (hall p).trans (if_neg hp)⟩

theorem getsAfterSet_iff_mirrorsWell (t : FieldType) (v : BitVec 64) :
    data.GetsAfterSet offset t v ↔ data.MirrorsWell offset t v := by
  simp only [getsAfterSet_iff_bits, bit_setBits]
  constructor
  · intro hall
    refine ⟨fun p hp => ?_, fun p hp hmirror => ?_⟩
    · simpa [hp] using hall (mirror p)
    · simpa [hp, hmirror] using hall p
  · intro h p
    by_cases hmirror : InField offset t.width (mirror p)
    · simpa [hmirror] using h.written (mirror p) hmirror
    · by_cases hp : InField offset t.width p
      · simpa [hmirror, hp] using h.missed p hp hmirror
      · simp [hmirror, hp]

/-- No array and no value come to harm exactly when the field is its own mirror image in one byte. -/
theorem forall_mirrorsWell_iff (offset : ℕ) (t : FieldType) :
    (∀ data v, MirrorsWell data offset t v) ↔ 2 * (offset % 8) + t.width = 8 := by
  have hwidth := t.width_le
  obtain ⟨hpos, -⟩ := t.admitted
  constructor
  · intro hall
    have hfirst : InField offset t.width offset := ⟨Nat.le_refl _, by omega⟩
    by_cases hmirror : InField offset t.width (mirror offset)
    · -- a value with its lowest bit only: the mirror image of the first position is the last one
      have hone := (hall [] (BitVec.twoPow 64 0)).written offset hfirst
      rw [if_pos hmirror, BitVec.getLsbD_twoPow, BitVec.getLsbD_twoPow] at hone
      unfold InField mirror at hmirror
      unfold mirror at hone
      simp at hone
      omega
    · -- a value of ones in an empty array: the first bit of the field stays zero
      have hones := (hall [] (BitVec.allOnes 64)).missed offset hfirst hmirror
      rw [BitVec.getLsbD_allOnes, decide_eq_true (show offset + t.width - 1 - offset < 64 by omega)] at hones
      simp [bit] at hones
  · intro hcentred data v
    refine ⟨fun p hp => ?_, fun p hp hmirror => absurd ?_ hmirror⟩
    · unfold InField at hp
      have hplace : offset + t.width - 1 - mirror p = p - offset := by
        unfold mirror
        omega
      rw [if_pos (by unfold InField mirror; omega), hplace]
    · unfold InField mirror at *
      omega

/-- A field is read back as it was set, and nothing else is touched, exactly when each bit of the value is the one that
belongs at its mirrored position and the bits that are missed are right already. This is so for all arrays and values
exactly when the field is its own mirror image in one byte. -/
theorem get_after_set_iff (offset : ℕ) (t : FieldType) :
    (∀ data v, GetsAfterSet data offset t v ↔ MirrorsWell data offset t v) ∧
      ((∀ data v, GetsAfterSet data offset t v) ↔ 2 * (offset % 8) + t.width = 8) := by
  refine ⟨fun data v => getsAfterSet_iff_mirrorsWell t v, ?_⟩
  simp only [getsAfterSet_iff_mirrorsWell]
  exact forall_mirrorsWell_iff offset t

/-- One bit: the first bit of a byte is asked for, and the last one is set. -/
theorem get_after_set_mirrored :
    setBits [0] 0 1 1 = [1] ∧ getBits [1] 0 1 false = 0 ∧ ¬GetsAfterSet [0] 0 ⟨false, 1, by decide⟩ 1 :=
  ⟨by decide, by decide, fun h => absurd h.1 (by decide)⟩

end ByteArray

end SevenDB.Eval
