import Mathlib.Tactic.Ring

/-!
# Varints, forwards and backwards

A varint has seven bits of a number in each byte, the lowest ones first, and the top bit of every byte but the last
one set. The reversed form is written from the end of a buffer that is made as long as the number is said to need.
That length is one too much for the largest numbers of two, three and four bytes, and then the first byte keeps what
was in the buffer.
-/

namespace SevenDB.Dencoding

/-- The numbers of bits that the bytes of a varint take from a number of 64 bits. -/
def bitShifts : List ℕ := [7, 7, 7, 7, 7, 7, 7, 7, 7, 1]

/-- The lowest bits of a byte. -/
def getLSB (x : UInt8) (n : ℕ) : UInt8 := x &&& UInt8.ofNat (2 ^ n - 1)

/-- The bytes of a number with the continuation bit in all of them. -/
def groups : List ℕ → ℕ → List UInt8
  | [], _ => []
  | n :: shifts, x => (getLSB (UInt8.ofNat x) n ||| 128) :: if x >>> n = 0 then [] else groups shifts (x >>> n)

/-- The varint of a number below 2^64. -/
def encodeUInt (x : ℕ) : List UInt8 := (groups bitShifts x).modify ((groups bitShifts x).length - 1) (· &&& 127)

/-- Write the bytes of a number into cells, from the last cell of a buffer on. It panics when there are too few. -/
def writeGroups : List ℕ → ℕ → List UInt8 → Option (List UInt8)
  | [], _, cells => some cells
  | _ :: _, _, [] => none
  | n :: shifts, x, _ :: cells =>
    (if x >>> n = 0 then some cells else writeGroups shifts (x >>> n) cells).map
      ((getLSB (UInt8.ofNat x) n ||| 128) :: ·)

/-- Write the reversed varint of a number into a buffer. -/
def encodeUIntRevInPlace (x : ℕ) (buf : List UInt8) : Option (List UInt8) :=
  (writeGroups bitShifts x buf.reverse).map fun cells => cells.reverse.modifyHead (· &&& 127)

/-- The number of bytes that a varint is said to take. -/
def getEncodeUIntSize (x : ℕ) : ℕ :=
  if x ≤ 127 then 1 else if x < 16383 then 2 else if x < 2097151 then 3 else if x < 268435455 then 4 else 5

/-- Add the bits of bytes to a number, from the place of a byte on. -/
def addGroups (v i : ℕ) : List UInt8 → ℕ
  | [] => v
  | b :: bytes => addGroups (v ||| (getLSB b 7).toNat <<< (7 * i) % 2 ^ 64) (i + 1) bytes

def decodeUInt (vint : List UInt8) : ℕ := addGroups 0 0 vint

/-- The varint of a signed number, whose sign goes to the lowest bit. -/
def encodeInt (x : Int64) : List UInt8 := encodeUInt ((x <<< 1) ^^^ (x >>> 63)).toUInt64.toNat

/-- The signed number that a varint stands for. -/
def decodeInt (vint : List UInt8) : Int64 :=
  let ux := UInt64.ofNat (decodeUInt vint)
  ((ux >>> 1) ^^^ ((ux.toInt64 <<< 63) >>> 63).toUInt64).toInt64

/-- The number that a reversed varint stands for. -/
def decodeUIntRev (vint : List UInt8) : ℕ := addGroups 0 0 vint.reverse

/-- Bytes of which exactly the last one has its top bit clear, as many as a varint can have. -/
def Terminated (vint : List UInt8) : Prop :=
  1 ≤ vint.length ∧ vint.length ≤ 10 ∧ ∀ j (hj : j < vint.length), vint[j] < 128 ↔ j + 1 = vint.length

/-- The varints of unsigned and signed numbers. -/
def Varint : Type := { vint : List UInt8 // (∃ x : UInt64, vint = encodeUInt x.toNat) ∨ ∃ y : Int64, vint = encodeInt y }

/-- The length, the reversed form in a buffer with any contents and what is read from it agree with the varint. -/
def Reversible (x : ℕ) : Prop :=
  getEncodeUIntSize x = (encodeUInt x).length ∧
    ∀ buf : List UInt8, buf.length = getEncodeUIntSize x →
      ∃ written, encodeUIntRevInPlace x buf = some written ∧ written = (encodeUInt x).reverse ∧ decodeUIntRev written = x

theorem writeGroups_eq {shifts : List ℕ} {x : ℕ} {cells : List UInt8} (h : (groups shifts x).length ≤ cells.length) :
    writeGroups shifts x cells = some (groups shifts x ++ cells.drop (groups shifts x).length) := by
  induction shifts generalizing x cells with
  | nil => simp [writeGroups, groups]
  | cons n shifts ih =>
    cases cells with
    | nil => simp [groups] at h
    | cons c cells =>
      rw [groups] at h ⊢
      by_cases hlast : x >>> n = 0
      · simp [writeGroups, hlast]
      · rw [if_neg hlast, List.length_cons, List.length_cons, Nat.succ_le_succ_iff] at h
        simp [writeGroups, hlast, ih h]

theorem length_groups_seven (shifts : List ℕ) (x : ℕ) :
    (groups (7 :: shifts) x).length = if x < 128 then 1 else (groups shifts (x / 128)).length + 1 := by
  rw [groups, Nat.shiftRight_eq_div_pow, List.length_cons]
  by_cases hlast : x < 128
  · rw [if_pos (Nat.div_eq_of_lt hlast), if_pos hlast, List.length_nil]
  · rw [if_neg (by omega), if_neg hlast]

theorem length_groups {x : ℕ} (hx : x < 2 ^ 35) :
    (groups bitShifts x).length =
      if x < 128 then 1 else if x < 16384 then 2 else if x < 2097152 then 3 else if x < 268435456 then 4 else 5 := by
  have hlast : x / 128 / 128 / 128 / 128 < 128 := by omega
  simp only [bitShifts, length_groups_seven, if_pos hlast]
  split_ifs <;> omega

/-- The top bit of a byte does not count. -/
theorem addGroups_modify (v i j : ℕ) (bytes : List UInt8) :
    addGroups v i (bytes.modify j (· &&& 127)) = addGroups v i bytes := by
  induction bytes generalizing v i j with
  | nil => simp
  | cons b bytes ih =>
    have hmask : getLSB (b &&& 127) 7 = getLSB b 7 := by
      simp [getLSB, UInt8.and_assoc]
    cases j with
    | zero => simp [addGroups, hmask]
    | succ j => simp [addGroups, ih]

/-- A byte carries the bits that it takes. -/
theorem toNat_group {n : ℕ} (hn : n ≤ 7) (x : ℕ) :
    (getLSB (getLSB (UInt8.ofNat x) n ||| 128) 7).toNat = x % 2 ^ n := by
  have hpow : 2 ^ n ≤ 2 ^ 7 := Nat.pow_le_pow_right (by decide) hn
  have hlt : x % 2 ^ n < 2 ^ 7 := (Nat.mod_lt x (Nat.two_pow_pos n)).trans_le hpow
  have hbyte : (getLSB (UInt8.ofNat x) n).toNat = x % 2 ^ n := by
    rw [getLSB, UInt8.toNat_and, UInt8.toNat_ofNat', UInt8.toNat_ofNat',
      Nat.mod_eq_of_lt (show 2 ^ n - 1 < 2 ^ 8 by omega), Nat.and_two_pow_sub_one_eq_mod,
      Nat.mod_mod_of_dvd x (Nat.pow_dvd_pow 2 (by omega))]
  calc (getLSB (getLSB (UInt8.ofNat x) n ||| 128) 7).toNat
      = (x % 2 ^ n ||| 128) &&& (2 ^ 7 - 1) := by rw [← hbyte]; exact UInt8.toNat_and _ _
    _ = x % 2 ^ n &&& (2 ^ 7 - 1) := by rw [Nat.and_or_distrib_right]; exact Nat.or_zero _
    _ = x % 2 ^ n := by rw [Nat.and_two_pow_sub_one_eq_mod, Nat.mod_eq_of_lt hlt]

/-- Reading a byte adds its bits above those of the number so far, and loses none of them. -/
theorem addGroups_cons {v i n : ℕ} (hv : v < 2 ^ (7 * i)) (hn : n ≤ 7) (hi : 7 * i + n ≤ 64) (x : ℕ)
    (bytes : List UInt8) :
    addGroups v i ((getLSB (UInt8.ofNat x) n ||| 128) :: bytes) =
        addGroups (v + x % 2 ^ n * 2 ^ (7 * i)) (i + 1) bytes ∧
      v + x % 2 ^ n * 2 ^ (7 * i) < 2 ^ (7 * i + n) := by
  have hpow : 2 ^ (7 * i + n) = 2 ^ n * 2 ^ (7 * i) := by rw [Nat.pow_add, Nat.mul_comm]
  have hsmall : 2 ^ (7 * i + n) ≤ 2 ^ 64 := Nat.pow_le_pow_right (by decide) hi
  have hdigit : (x % 2 ^ n + 1) * 2 ^ (7 * i) ≤ 2 ^ n * 2 ^ (7 * i) :=
    Nat.mul_le_mul_right _ (Nat.mod_lt x (Nat.two_pow_pos n))
  rw [Nat.succ_mul] at hdigit
  refine ⟨?_, by omega⟩
  rw [addGroups, toNat_group hn, Nat.shiftLeft_eq, Nat.mod_eq_of_lt (by omega), Nat.or_comm, Nat.mul_comm,
    ← Nat.two_pow_add_eq_or_of_lt hv, Nat.add_comm]

/-- Reading all bytes of a number adds it at their place. -/
theorem addGroups_groups (k : ℕ) {x v i : ℕ} (hx : x < 2 ^ (7 * k + 1)) (hv : v < 2 ^ (7 * i)) (hi : i + k = 9) :
    addGroups v i (groups (List.replicate k 7 ++ [1]) x) = v + x * 2 ^ (7 * i) := by
  induction k generalizing x v i with
  | zero =>
    have hlast : x >>> 1 = 0 := by rw [Nat.shiftRight_eq_div_pow]; omega
    rw [List.replicate_zero, List.nil_append, groups, if_pos hlast,
      (addGroups_cons hv (by decide) (by omega) x []).1, addGroups, Nat.mod_eq_of_lt hx]
  | succ k ih =>
    obtain ⟨hstep, hnext⟩ := addGroups_cons hv (Nat.le_refl 7) (by omega) x (if x >>> 7 = 0 then [] else
      groups (List.replicate k 7 ++ [1]) (x >>> 7))
    rw [List.replicate_succ, List.cons_append, groups, hstep]
    by_cases hlast : x >>> 7 = 0
    · rw [if_pos hlast, addGroups]
      rw [Nat.shiftRight_eq_div_pow] at hlast
      rw [Nat.mod_eq_of_lt (by omega)]
    · have hrest : x >>> 7 < 2 ^ (7 * k + 1) := by
        rw [Nat.shiftRight_eq_div_pow, Nat.div_lt_iff_lt_mul (by decide), ← Nat.pow_add]
        exact hx
      rw [if_neg hlast, ih hrest hnext (by omega), show x >>> 7 = x / 128 from Nat.shiftRight_eq_div_pow x 7]
      calc v + x % 128 * 2 ^ (7 * i) + x / 128 * 2 ^ (7 * (i + 1))
          = v + (x % 128 + 128 * (x / 128)) * 2 ^ (7 * i) := by ring
        _ = v + x * 2 ^ (7 * i) := by rw [Nat.mod_add_div]

theorem addGroups_encodeUInt {x : ℕ} (hx : x < 2 ^ 64) : addGroups 0 0 (encodeUInt x) = x := by
  rw [encodeUInt, addGroups_modify]
  exact (addGroups_groups 9 hx (by decide) rfl).trans (by simp)

/-- The last byte is the first one of the reverse. -/
theorem reverse_modify_last (bytes : List UInt8) (f : UInt8 → UInt8) :
    (bytes.modify (bytes.length - 1) f).reverse = bytes.reverse.modifyHead f := by
  rcases List.eq_nil_or_concat bytes with rfl | ⟨front, last, rfl⟩
  · rfl
  · have hlast : (front ++ [last]).modify front.length f = front ++ [f last] := by
      induction front with
      | nil => rfl
      | cons b front ih => simp [ih]
    simp [hlast]

/-- For every number below 2^35 the reversed varint is exact, except for the largest numbers of two, three and four
bytes. -/
theorem reversible_iff {x : ℕ} (hx : x < 2 ^ 35) : Reversible x ↔ x ∉ [16383, 2097151, 268435455] := by
  have hlength : (encodeUInt x).length = (groups bitShifts x).length := List.length_modify _ _ _
  have hsize : getEncodeUIntSize x = (encodeUInt x).length ↔ x ∉ [16383, 2097151, 268435455] := by
    rw [hlength, length_groups hx, getEncodeUIntSize]
    simp only [List.mem_cons, List.not_mem_nil, or_false]
    split_ifs <;> simp <;> omega
  rw [← hsize]
  refine ⟨fun h => h.1, fun h => ⟨h, fun buf hbuf => ⟨_, ?_, rfl, ?_⟩⟩⟩
  · have hcells : (groups bitShifts x).length = buf.reverse.length := by rw [List.length_reverse, hbuf, h, hlength]
    rw [encodeUIntRevInPlace, writeGroups_eq hcells.le, hcells, List.drop_length, List.append_nil, Option.map_some,
      ← reverse_modify_last]
    rfl
  · rw [decodeUIntRev, List.reverse_reverse]
    exact addGroups_encodeUInt (by omega)

/-- The number 300 takes two bytes. -/
theorem reversible_three_hundred : Reversible 300 := (reversible_iff (by decide)).mpr (by decide)

/-- For 16383 a third byte is made room for and keeps what was in the buffer, and another number is read back. -/
theorem reversible_not_at_limit :
    getEncodeUIntSize 16383 = 3 ∧ encodeUInt 16383 = [255, 127] ∧
      encodeUIntRevInPlace 16383 [5, 0, 0] = some [5, 255, 255] ∧ decodeUIntRev [5, 255, 255] = 98303 := by
  decide

theorem length_groups_le (shifts : List ℕ) (x : ℕ) : (groups shifts x).length ≤ shifts.length := by
  induction shifts generalizing x with
  | nil => simp [groups]
  | cons n shifts ih =>
    rw [groups]
    split
    · simp
    · simpa using ih _

theorem le_of_mem_groups {shifts : List ℕ} {x : ℕ} {b : UInt8} (hb : b ∈ groups shifts x) : 128 ≤ b := by
  induction shifts generalizing x with
  | nil => simp [groups] at hb
  | cons n shifts ih =>
    rw [groups, List.mem_cons] at hb
    rcases hb with rfl | hrest
    · rw [UInt8.le_iff_toNat_le, UInt8.toNat_or]
      exact Nat.right_le_or
    · split at hrest
      · cases hrest
      · exact ih hrest

theorem terminated_encodeUInt (x : ℕ) : Terminated (encodeUInt x) := by
  have hlength : (encodeUInt x).length = (groups bitShifts x).length := List.length_modify _ _ _
  have hpos : 1 ≤ (groups bitShifts x).length := by simp [bitShifts, groups]
  refine ⟨hlength ▸ hpos, hlength ▸ length_groups_le bitShifts x, fun j hj => ?_⟩
  have hset := UInt8.not_lt.mpr (le_of_mem_groups (List.getElem_mem (hlength ▸ hj)))
  simp only [encodeUInt, List.getElem_modify, List.length_modify]
  split
  · next hlast =>
    refine iff_of_true (UInt8.lt_of_le_of_lt UInt8.and_le_right (by decide)) (by omega)
  · next hnot => exact iff_of_false hset (by omega)

/-- A terminated list of bytes that begins another one is the whole of it. -/
theorem Terminated.eq_of_isPrefix {a b : List UInt8} (ha : Terminated a) (hb : Terminated b) (h : a <+: b) : a = b := by
  obtain ⟨rest, rfl⟩ := h
  have hlast : a.length - 1 < a.length := Nat.sub_lt ha.1 Nat.one_pos
  have hclear := (ha.2.2 _ hlast).mpr (by omega)
  have hend := (hb.2.2 (a.length - 1) (by simp; omega)).mp (by rwa [List.getElem_append_left hlast])
  have hnil : rest.length = 0 := by simp at hend; omega
  rw [List.length_eq_zero_iff.mp hnil, List.append_nil]

/-- The sign of a word fills it. -/
theorem getElem_sign (x : BitVec 64) {i : ℕ} (hi : i < 64) : (x.sshiftRight 63)[i] = x.getLsbD 63 := by
  rw [BitVec.getElem_sshiftRight, BitVec.msb_eq_getLsbD_last]
  split
  · next hzero => simp [show i = 0 by omega]
  · rfl

theorem decodeInt_encodeInt (y : Int64) : decodeInt (encodeInt y) = y := by
  rw [decodeInt, encodeInt, decodeUInt, addGroups_encodeUInt (UInt64.toNat_lt _), UInt64.ofNat_toNat]
  refine Int64.toBitVec_inj.mp (BitVec.eq_of_getLsbD_eq fun i hi => ?_)
  by_cases htop : i = 63
  · simp [getElem_sign, htop]
  · simp [getElem_sign, hi, show 1 + i < 64 by omega]

/-- Unsigned and signed numbers are read back from their varints. Every varint has one to ten bytes of which exactly
the last one has its top bit clear, and so none is a proper initial part of another one. -/
theorem varint_codec :
    (∀ x : UInt64, decodeUInt (encodeUInt x.toNat) = x.toNat) ∧ (∀ y : Int64, decodeInt (encodeInt y) = y) ∧
      ∀ a b : Varint, Terminated a.1 ∧ ¬ (a.1 <+: b.1 ∧ a.1 ≠ b.1) := by
  have hterminated (a : Varint) : Terminated a.1 := by
    rcases a.2 with ⟨x, hx⟩ | ⟨y, hy⟩
    · exact hx ▸ terminated_encodeUInt _
    · exact hy ▸ terminated_encodeUInt _
  refine ⟨fun x => addGroups_encodeUInt x.toNat_lt, decodeInt_encodeInt, fun a b => ⟨hterminated a, fun h => ?_⟩⟩
  exact h.2 ((hterminated a).eq_of_isPrefix (hterminated b) h.1)

end SevenDB.Dencoding
