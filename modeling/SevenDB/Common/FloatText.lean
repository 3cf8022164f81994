import SevenDB.Common.Binary64
import SevenDB.Common.ByteText

/-!
# Texts of doubles

A double is read from a decimal or hexadecimal number, with digits before and after a point, an exponent, and
underscores between digits, or from the words for infinity and for no number. The exact value of the text is
rounded once. A double is written with six decimals. A text with six decimals in the form in which doubles
are written is read as its value, so it comes back exactly when the double nearest to it has the same six
decimals, and this is so below two to the 52 millionths.
-/

namespace SevenDB.Common

/-- A letter of ASCII in lower case, as the reader of numbers makes it: by setting one bit. -/
def lowerBit (b : UInt8) : UInt8 := b ||| 32

/-- The value of a digit, or of a letter as a hexadecimal digit. -/
def floatDigit (hex : Bool) (b : UInt8) : Option ℕ :=
  match digitValue b with
  | some digit => some digit
  | none =>
    if hex ∧ 97 ≤ (lowerBit b).toNat ∧ (lowerBit b).toNat ≤ 102 then some ((lowerBit b).toNat - 87) else none

/-- What has been read of the digits of a number. -/
structure Mantissa where
  digits : ℕ
  fraction : ℕ
  sawDot : Bool
  sawDigits : Bool
  underscores : Bool
  deriving DecidableEq, Repr

/-- Read digits, at most one point, and underscores, and return what is left. -/
def readMantissa (hex : Bool) (m : Mantissa) : List UInt8 → Mantissa × List UInt8
  | [] => (m, [])
  | b :: rest =>
    if b = 95 then readMantissa hex { m with underscores := true } rest
    else if b = 46 then
      if m.sawDot then (m, b :: rest) else readMantissa hex { m with sawDot := true } rest
    else
      match floatDigit hex b with
      | some digit =>
        readMantissa hex
          { m with
            digits := (if hex then 16 else 10) * m.digits + digit
            fraction := if m.sawDot then m.fraction + 1 else m.fraction
            sawDigits := true } rest
      | none => (m, b :: rest)

/-- Read the digits of an exponent, which stops growing at some size, and return what is left. -/
def readExponentDigits (value : ℕ) (underscores : Bool) : List UInt8 → ℕ × Bool × List UInt8
  | [] => (value, underscores, [])
  | b :: rest =>
    if b = 95 then readExponentDigits value true rest
    else
      match digitValue b with
      | some digit => readExponentDigits (if value < 10000 then 10 * value + digit else value) underscores rest
      | none => (value, underscores, b :: rest)

/-- Read an exponent, which starts with a digit after its sign. -/
def readExponent : List UInt8 → Option (ℤ × Bool × List UInt8)
  | 43 :: rest => unsigned 1 rest
  | 45 :: rest => unsigned (-1) rest
  | text => unsigned 1 text
where
  /-- The exponent without its sign. -/
  unsigned (sign : ℤ) : List UInt8 → Option (ℤ × Bool × List UInt8)
    | [] => none
    | b :: rest =>
      if (digitValue b).isSome then
        let read := readExponentDigits 0 false (b :: rest)
        some (sign * read.1, read.2.1, read.2.2)
      else none

/-- What the last byte was when underscores are checked. -/
inductive Before
  | start
  | digit
  | underscore
  | other
  deriving DecidableEq, Repr

/-- Underscores stand between digits. -/
def underscoresFrom (hex : Bool) : Before → List UInt8 → Bool
  | before, [] => decide (before ≠ .underscore)
  | before, b :: rest =>
    if (floatDigit hex b).isSome then underscoresFrom hex .digit rest
    else if b = 95 then decide (before = .digit) && underscoresFrom hex .underscore rest
    else decide (before ≠ .underscore) && underscoresFrom hex .other rest

def dropSign : List UInt8 → List UInt8
  | 43 :: rest | 45 :: rest => rest
  | text => text

/-- Underscores stand between digits, where a prefix that gives the base counts as a digit. -/
def underscoresAllowed (text : List UInt8) : Bool :=
  match dropSign text with
  | 48 :: b :: rest =>
    if lowerBit b = 98 ∨ lowerBit b = 111 then underscoresFrom false .digit rest
    else if lowerBit b = 120 then underscoresFrom true .digit rest
    else underscoresFrom false .start (48 :: b :: rest)
  | rest => underscoresFrom false .start rest

/-- The words for infinity and for no number, in any case of letters. -/
def specialFloat (text : List UInt8) : Option Binary64 :=
  let word := text.map fun b => if 65 ≤ b.toNat ∧ b.toNat ≤ 90 then b + 32 else b
  if word = ascii "nan" then some .nan
  else if word ∈ [ascii "inf", ascii "infinity", ascii "+inf", ascii "+infinity"] then some (.inf false)
  else if word ∈ [ascii "-inf", ascii "-infinity"] then some (.inf true)
  else none

/-- A number with a power of ten. -/
def decimalRatio (digits : ℕ) (exponent : ℤ) : Ratio where
  num := digits * 10 ^ exponent.toNat
  den := 10 ^ (-exponent).toNat
  den_pos := Nat.pow_pos (by decide)

/-- The exact value of digits with an exponent. -/
def Mantissa.ratio (m : Mantissa) (hex : Bool) (exponent : ℤ) : Ratio :=
  if hex then (⟨m.digits, 1, Nat.one_pos⟩ : Ratio).scale (4 * m.fraction - exponent)
  else decimalRatio m.digits (exponent - m.fraction)

/-- A number is hexadecimal by its prefix, when something follows that. -/
def isHex : List UInt8 → Bool
  | 48 :: b :: _ :: _ => decide (lowerBit b = 120)
  | _ => false

/-- The exact value of a number without a sign, and whether it has underscores. A hexadecimal number has an
exponent. -/
def readFloat (text : List UInt8) : Option (Ratio × Bool) :=
  let hex := isHex text
  let read := readMantissa hex ⟨0, 0, false, false, false⟩ (if hex then text.drop 2 else text)
  if read.1.sawDigits = false then none
  else
    match read.2 with
    | [] => if hex then none else some (read.1.ratio hex 0, read.1.underscores)
    | b :: rest =>
      if lowerBit b ≠ (if hex then 112 else 101) then none
      else
        match readExponent rest with
        | some (exponent, underscores, []) => some (read.1.ratio hex exponent, read.1.underscores || underscores)
        | _ => none

/-- Read a double; a malformed text is refused, and so is a number that is too large. -/
def parseFloat (text : List UInt8) : Option Binary64 :=
  match specialFloat text with
  | some special => some special
  | none =>
    match readFloat (dropSign text) with
    | none => none
    | some (ratio, underscores) =>
      if underscores && !underscoresAllowed text then none
      else ratio.nearest.map (.finite (decide (text.head? = some 45)))

def digitByte (digit : ℕ) : UInt8 := UInt8.ofNat (48 + digit)

/-- The last six decimal digits of a number. -/
def sixDigits (n : ℕ) : List UInt8 :=
  [100000, 10000, 1000, 100, 10, 1].map fun place => digitByte (n / place % 10)

/-- The text with six decimals of a number of millionths. -/
def fixedText (neg : Bool) (millionths : ℕ) : List UInt8 :=
  (if neg then [45] else []) ++ natText (millionths / 1000000) ++ 46 :: sixDigits (millionths % 1000000)

def Magnitude.millionths (m : Magnitude) : ℕ :=
  ((⟨m.mantissa * 1000000, 1, Nat.one_pos⟩ : Ratio).scale (-m.exponent)).roundHalfEven

/-- The text of a double with six decimals. -/
def floatText : Binary64 → List UInt8
  | .nan => ascii "NaN"
  | .inf false => ascii "+Inf"
  | .inf true => ascii "-Inf"
  | .finite neg m => fixedText neg m.millionths

section Reading

theorem ne_of_digitValue {b : UInt8} {digit : ℕ} (hb : digitValue b = some digit) : b ≠ 95 ∧ b ≠ 46 := by
  constructor <;> rintro rfl <;> cases hb

theorem readMantissa_digits {text : List UInt8} {value : ℕ} {m : Mantissa} (rest : List UInt8)
    (htext : readNat m.digits text = some value) (hsaw : m.sawDigits = true ∨ text ≠ []) :
    readMantissa false m (text ++ rest) =
      readMantissa false
        { m with
          digits := value
          fraction := if m.sawDot then m.fraction + text.length else m.fraction
          sawDigits := true } rest := by
  induction text generalizing m with
  | nil =>
    cases htext
    have hdigits : m.sawDigits = true := hsaw.resolve_right fun hne => hne rfl
    simp [← hdigits]
  | cons b text ih =>
    rw [readNat] at htext
    cases hb : digitValue b with
    | none =>
      rw [hb] at htext
      cases htext
    | some digit =>
      rw [hb] at htext
      obtain ⟨hunderscore, hpoint⟩ := ne_of_digitValue hb
      rw [List.cons_append, readMantissa, if_neg hunderscore, if_neg hpoint, floatDigit, hb]
      dsimp only
      rw [ih (by exact htext) (Or.inl rfl)]
      cases hdot : m.sawDot
      · simp
      · simp [Nat.add_comm, Nat.add_left_comm]

theorem digitValue_digitByte {digit : ℕ} (h : digit < 10) : digitValue (digitByte digit) = some digit := by
  have hbyte : (digitByte digit).toNat = 48 + digit := by
    rw [digitByte, UInt8.toNat_ofNat']
    omega
  rw [digitValue, hbyte, if_pos (by omega), Nat.add_sub_cancel_left]

theorem readNat_sixDigits (value : ℕ) {n : ℕ} (hn : n < 1000000) :
    readNat value (sixDigits n) = some (value * 1000000 + n) := by
  have hdigit (place : ℕ) : digitValue (digitByte (n / place % 10)) = some (n / place % 10) :=
    digitValue_digitByte (Nat.mod_lt _ (by decide))
  -- each digit is what the next place adds to ten times the number above it
  have hplace (place : ℕ) : n / (place * 10) * 10 + n / place % 10 = n / place := by
    rw [← Nat.div_div_eq_div_mul, Nat.div_add_mod']
  have hfirst : n / 100000 % 10 = n / 100000 := Nat.mod_eq_of_lt (Nat.div_lt_of_lt_mul hn)
  have h4 := hplace 10000
  have h3 := hplace 1000
  have h2 := hplace 100
  have h1 := hplace 10
  have h0 := hplace 1
  simp only [sixDigits, List.map_cons, List.map_nil, readNat, hdigit]
  simp only [Nat.reduceMul, Nat.div_one] at h0 h1 h2 h3 h4
  rw [Option.some.injEq, hfirst, Nat.div_one]
  linarith only [h0, h1, h2, h3, h4]

/-- Digits, a point and six digits are read as one number with six decimals. -/
theorem readMantissa_fixed (millionths : ℕ) :
    readMantissa false ⟨0, 0, false, false, false⟩
        (natText (millionths / 1000000) ++ 46 :: sixDigits (millionths % 1000000)) =
      (⟨millionths, 6, true, true, false⟩, []) := by
  have hdecimals := readNat_sixDigits (millionths / 1000000) (Nat.mod_lt millionths (by decide : 0 < 1000000))
  rw [Nat.div_add_mod'] at hdecimals
  rw [readMantissa_digits _ (readNat_natText _) (Or.inr (natText_ne_nil _)), readMantissa, if_neg (by decide),
    if_pos rfl, if_neg Bool.false_ne_true, ← List.append_nil (sixDigits _), readMantissa_digits [] hdecimals (Or.inl rfl)]
  rfl

theorem lowerBit_ne_of_digit (b : UInt8) (h : (digitValue b).isSome ∨ b = 46) : lowerBit b ≠ 120 := by
  revert h
  exact forall_byte (P := fun b => (digitValue b).isSome ∨ b = 46 → lowerBit b ≠ 120) (by decide +kernel) b

theorem isHex_point (n : ℕ) (rest : List UInt8) : isHex (natText n ++ 46 :: rest) = false := by
  obtain ⟨c, digits, htext⟩ := List.exists_cons_of_ne_nil (natText_ne_nil n)
  have hsecond (b : UInt8) (tail : List UInt8) (heq : digits ++ 46 :: rest = b :: tail) : lowerBit b ≠ 120 := by
    apply lowerBit_ne_of_digit
    cases digits with
    | nil =>
      cases heq
      exact Or.inr rfl
    | cons d digits =>
      cases heq
      exact Or.inl (isSome_digitValue_of_mem_natText (htext ▸ List.mem_cons_of_mem c List.mem_cons_self))
  rw [htext, List.cons_append]
  unfold isHex
  split
  · next heq =>
    exact decide_eq_false (hsecond _ _ (List.cons.inj heq).2)
  · rfl

/-- A number with six decimals is read as the number of its millionths. -/
theorem readFloat_fixed (millionths : ℕ) :
    readFloat (natText (millionths / 1000000) ++ 46 :: sixDigits (millionths % 1000000)) =
      some (decimalRatio millionths (-6), false) := by
  unfold readFloat
  rw [isHex_point]
  simp only [Bool.false_eq_true, if_false, readMantissa_fixed]
  rfl

theorem specialFloat_point {text : List UInt8} (h : 46 ∈ text) : specialFloat text = none := by
  have hpoint : (46 : UInt8) ∈ text.map fun b => if 65 ≤ b.toNat ∧ b.toNat ≤ 90 then b + 32 else b :=
    List.mem_map.mpr ⟨46, h, rfl⟩
  have hword (word : List UInt8) (hnone : (46 : UInt8) ∉ word) :
      (text.map fun b => if 65 ≤ b.toNat ∧ b.toNat ≤ 90 then b + 32 else b) ≠ word := by
    rintro rfl
    exact hnone hpoint
  unfold specialFloat
  dsimp only
  rw [if_neg (hword _ (by decide +kernel)), if_neg, if_neg]
  · intro hmem
    simp only [List.mem_cons, List.not_mem_nil, or_false] at hmem
    rcases hmem with heq | heq <;> exact hword _ (by decide +kernel) heq
  · intro hmem
    simp only [List.mem_cons, List.not_mem_nil, or_false] at hmem
    rcases hmem with heq | heq | heq | heq <;> exact hword _ (by decide +kernel) heq

theorem point_mem_fixedText (neg : Bool) (millionths : ℕ) : 46 ∈ fixedText neg millionths := by
  simp [fixedText]

theorem sign_fixedText (neg : Bool) (millionths : ℕ) :
    dropSign (fixedText neg millionths) =
        natText (millionths / 1000000) ++ 46 :: sixDigits (millionths % 1000000) ∧
      decide ((fixedText neg millionths).head? = some 45) = neg := by
  cases neg with
  | true => exact ⟨rfl, rfl⟩
  | false =>
    obtain ⟨c, digits, htext⟩ := List.exists_cons_of_ne_nil (natText_ne_nil (millionths / 1000000))
    have hc : (digitValue c).isSome := isSome_digitValue_of_mem_natText (htext ▸ List.mem_cons_self)
    simp only [fixedText, Bool.false_eq_true, if_false, List.nil_append, htext, List.cons_append]
    constructor
    · unfold dropSign
      split
      · next heq =>
        cases heq
        cases hc
      · next heq =>
        cases heq
        cases hc
      · rfl
    · rw [List.head?_cons, decide_eq_false_iff_not]
      intro heq
      cases heq
      cases hc

theorem parseFloat_fixedText (neg : Bool) (millionths : ℕ) :
    parseFloat (fixedText neg millionths) = (decimalRatio millionths (-6)).nearest.map (.finite neg) := by
  obtain ⟨hdrop, hsign⟩ := sign_fixedText neg millionths
  unfold parseFloat
  rw [specialFloat_point (point_mem_fixedText neg millionths), hdrop, readFloat_fixed, hsign]
  rfl

end Reading

/-- The double nearest to a number of millionths has these millionths. -/
def Survives (millionths : ℕ) : Prop :=
  (decimalRatio millionths (-6)).nearest.map Magnitude.millionths = some millionths

instance (millionths : ℕ) : Decidable (Survives millionths) := inferInstanceAs (Decidable (_ = _))

theorem fixedText_inj {neg : Bool} {a b : ℕ} (h : fixedText neg a = fixedText neg b) : a = b := by
  have hdigits := congrArg dropSign h
  rw [(sign_fixedText neg a).1, (sign_fixedText neg b).1] at hdigits
  have hread := readMantissa_fixed a
  rw [hdigits, readMantissa_fixed] at hread
  cases hread
  rfl

/-- A text with six decimals is read and written back exactly when its number survives. -/
theorem exists_parseFloat_fixedText_iff (neg : Bool) (millionths : ℕ) :
    (∃ f, parseFloat (fixedText neg millionths) = some f ∧ floatText f = fixedText neg millionths) ↔
      Survives millionths := by
  rw [parseFloat_fixedText, Survives]
  cases (decimalRatio millionths (-6)).nearest with
  | none => simp
  | some m =>
    simp only [Option.map_some, Option.some.injEq, exists_eq_left', floatText]
    exact ⟨fixedText_inj, congrArg (fixedText neg)⟩

/-- The texts that are read as doubles and written back as they are: the three words, and numbers with six
decimals whose nearest double has these decimals. -/
theorem floatText_parseFloat_iff (text : List UInt8) :
    (∃ f, parseFloat text = some f ∧ floatText f = text) ↔
      text ∈ [ascii "NaN", ascii "+Inf", ascii "-Inf"] ∨
        ∃ neg millionths, text = fixedText neg millionths ∧ Survives millionths := by
  constructor
  · rintro ⟨f, hparse, htext⟩
    cases f with
    | nan => exact Or.inl (htext ▸ List.mem_cons_self)
    | inf neg =>
      left
      rw [← htext]
      cases neg <;> decide +kernel
    | finite neg m =>
      refine Or.inr ⟨neg, m.millionths, htext.symm, ?_⟩
      rw [← htext] at hparse
      exact (exists_parseFloat_fixedText_iff neg m.millionths).mp ⟨_, hparse, rfl⟩
  · rintro (hword | ⟨neg, millionths, rfl, hsurvives⟩)
    · simp only [List.mem_cons, List.not_mem_nil, or_false] at hword
      rcases hword with rfl | rfl | rfl
      · exact ⟨.nan, by decide +kernel, rfl⟩
      · exact ⟨.inf false, by decide +kernel, rfl⟩
      · exact ⟨.inf true, by decide +kernel, rfl⟩
    · exact (exists_parseFloat_fixedText_iff neg millionths).mpr hsurvives

theorem value_millionths (m : Magnitude) :
    ((⟨m.mantissa * 1000000, 1, Nat.one_pos⟩ : Ratio).scale (-m.exponent)).value =
      m.mantissa * 2 ^ m.exponent * 1000000 := by
  rw [Ratio.value_scale, Ratio.value, zpow_neg, div_inv_eq_mul]
  push_cast
  ring

/-- Numbers below two to the 52 millionths survive: the nearest double is off by less than half a millionth. -/
theorem survives_of_lt {millionths : ℕ} (h : millionths < 2 ^ 52) : Survives millionths := by
  by_cases hzero : millionths = 0
  · rw [hzero]
    decide +kernel
  have hone : (1 : ℚ) ≤ millionths := by exact_mod_cast Nat.pos_of_ne_zero hzero
  have hbound : (millionths : ℚ) < 4503599627370496 := by exact_mod_cast h
  have hvalue : (decimalRatio millionths (-6)).value = millionths / 1000000 := by simp [decimalRatio, Ratio.value]
  have hlow : (2 : ℚ) ^ (-20 : ℤ) ≤ (decimalRatio millionths (-6)).value := by
    rw [hvalue]
    norm_num
    linarith
  have hhigh : (decimalRatio millionths (-6)).value < 2 ^ (52 : ℤ) := by
    rw [hvalue]
    norm_num
    linarith
  obtain ⟨m, hm, herror⟩ := Ratio.exists_nearest hlow hhigh (by norm_num) (by norm_num)
  rw [Survives, hm, Option.map_some, Option.some.injEq]
  apply Ratio.roundHalfEven_eq
  rw [value_millionths, abs_sub_comm]
  rw [hvalue] at herror
  have hscaled : (m.mantissa * 2 ^ m.exponent * 1000000 : ℚ) - millionths =
      (m.mantissa * 2 ^ m.exponent - millionths / 1000000) * 1000000 := by ring
  rw [hscaled, abs_mul]
  norm_num at herror ⊢
  linarith

end SevenDB.Common
