import SevenDB.Cmd.Execute

/-!
# A value that is set and read back

SET keeps a value as an integer or a double when it can be read as one, and GET returns the text of that
number. A value comes back as it was set when it is no number, or when it is the text that the number is
written as: the decimal text of an integer, or the text with six decimals of a double.
-/

namespace SevenDB.Cmd

open SevenDB.Common SevenDB.Types SevenDB.Store

/-- A value is written by the server in the way it was given. -/
def Canonical (value : GoString) : Prop :=
  (parseInt value = none ∧ parseFloat value = none) ∨ (∃ n : Int64, value = intText n.toInt) ∨
    value ∈ [ascii "NaN", ascii "+Inf", ascii "-Inf"] ∨
      ∃ neg millionths, value = fixedText neg millionths ∧ Survives millionths

/-- The words for doubles that are not finite are not read as integers. -/
theorem parseInt_special {value : GoString} (h : value ∈ [ascii "NaN", ascii "+Inf", ascii "-Inf"]) :
    parseInt value = none := by
  simp only [List.mem_cons, List.not_mem_nil, or_false] at h
  rcases h with rfl | rfl | rfl <;> rfl

theorem parseInt_fixedText (neg : Bool) (millionths : ℕ) : parseInt (fixedText neg millionths) = none :=
  parseInt_eq_none (point_mem_fixedText neg millionths) rfl (by decide) (by decide)

/-- The object made of a value has the value as its text exactly when the value is canonical. -/
theorem getWireValue_valueOf_iff (value : GoString) :
    getWireValue (valueOf value) = some value ↔ Canonical value := by
  unfold valueOf Canonical
  cases hint : parseInt value with
  | some n =>
    constructor
    · intro htext
      exact .inr (.inl ⟨n, (Option.some.inj htext).symm⟩)
    · rintro (⟨hnone, -⟩ | ⟨m, rfl⟩ | hspecial | ⟨neg, millionths, rfl, -⟩)
      · cases hnone
      · rw [parseInt_intText] at hint
        cases hint
        rfl
      · rw [parseInt_special hspecial] at hint
        cases hint
      · rw [parseInt_fixedText] at hint
        cases hint
  | none =>
    have hnotInt : ¬∃ n : Int64, value = intText n.toInt := by
      rintro ⟨n, rfl⟩
      rw [parseInt_intText] at hint
      cases hint
    cases hfloat : parseFloat value with
    | none => simp [getWireValue]
    | some f =>
      have hround := floatText_parseFloat_iff value
      rw [hfloat] at hround
      simpa [getWireValue, hnotInt] using hround

/-- SET with these options writes: they are read, do not exclude each other, give a duration, and do not ask
to leave what is there alone. -/
def SetWrites (now : Int64) (opts : List GoString) (slot : Slot) : Prop :=
  ∃ ps ms, parseParams opts = some (ps, []) ∧ setConflict ps = false ∧ exDurationMs "SET" now ps = .ok ms ∧
    setSkips ps (slot.get now) = false

theorem exists_put (slot : Slot) (keepTTL : Bool) (obj : Entry) :
    ∃ expiry, slot.put keepTTL obj = some ⟨obj.value, expiry⟩ := by
  unfold Slot.put
  split
  · split
    · exact ⟨_, rfl⟩
    · exact ⟨_, rfl⟩
  · exact ⟨_, rfl⟩

theorem evalSET_of_writes {now : Int64} {opts : List GoString} {slot : Slot} (h : SetWrites now opts slot)
    (key value : GoString) :
    ∃ expiry, evalSET now (key :: value :: opts) slot =
      (.returns (okResult .empty), some ⟨valueOf value, expiry⟩) := by
  obtain ⟨ps, ms, hparse, hconflict, hms, hskips⟩ := h
  obtain ⟨expiry, hput⟩ := exists_put (slot.get now) (ps.given .keepttl) (createObjectFromValue now value ms)
  refine ⟨expiry, ?_⟩
  rw [evalSET_eq hparse hconflict hms, setSlotWith, hskips]
  exact Prod.ext rfl hput

theorem execute_SET (env : Env) (now : Int64) (s : Store) (key : GoString) (args : List GoString) :
    execute env now ⟨"SET", key :: args⟩ s =
      ((evalSET now (key :: args) (s.slot key)).1, s.setSlot key (evalSET now (key :: args) (s.slot key)).2) := rfl

theorem execute_GET (env : Env) (now : Int64) (s : Store) (key : GoString) :
    (execute env now ⟨"GET", [key]⟩ s).1 = .returns (valueResult ((s.slot key).get now)) := rfl

/-- After a SET that writes, a GET before the value expires returns the value byte for byte exactly when the
value is no number, or the text of an integer, or a text with six decimals that survives as a double, or the
word for a double that is not finite. -/
theorem set_get_iff (env : Env) (now later : Int64) (s : Store) (key value : GoString) (opts : List GoString)
    (hwrites : SetWrites now opts (s.slot key))
    (hlive : ((execute env now ⟨"SET", key :: value :: opts⟩ s).2.slot key).get later ≠ none) :
    (execute env later ⟨"GET", [key]⟩ (execute env now ⟨"SET", key :: value :: opts⟩ s).2).1 =
        .returns (okResult (.value value)) ↔
      Canonical value := by
  obtain ⟨expiry, hset⟩ := evalSET_of_writes hwrites key value
  rw [execute_SET, hset, slot_setSlot, if_pos rfl] at hlive
  rw [execute_GET, execute_SET, hset, slot_setSlot, if_pos rfl, Slot.get_eq_self hlive,
    ← getWireValue_valueOf_iff, valueResult]
  cases getWireValue (valueOf value) with
  | none => simp [okResult]
  | some text => simp [okResult]

/-- A server that accepts no expiry after 1970, matches no pattern and has no sessions. -/
def bareEnv : Env := ⟨0, fun _ _ => some false, fun _ _ => okResult .empty⟩

/-- A text set for ten seconds is returned by a GET one second later. -/
theorem set_get_iff_text :
    (execute bareEnv 2000 ⟨"GET", [ascii "k"]⟩
        (execute bareEnv 1000 ⟨"SET", [ascii "k", ascii "hello", ascii "EX", ascii "10"]⟩ ∅).2).1 =
      .returns (okResult (.value (ascii "hello"))) :=
  (set_get_iff bareEnv 1000 2000 ∅ (ascii "k") (ascii "hello") [ascii "EX", ascii "10"]
    ⟨_, _, rfl, rfl, rfl, rfl⟩ (by decide +kernel)).mpr (.inl (by decide +kernel))

/-- SET without options writes 007 and 1.5, and GET returns 7 and 1.500000. -/
theorem set_get_numbers :
    SetWrites 1000 [] none ∧
      (execute bareEnv 1000 ⟨"GET", [ascii "k"]⟩
          (execute bareEnv 1000 ⟨"SET", [ascii "k", ascii "007"]⟩ ∅).2).1 =
        .returns (okResult (.value (ascii "7"))) ∧
      (execute bareEnv 1000 ⟨"GET", [ascii "k"]⟩
          (execute bareEnv 1000 ⟨"SET", [ascii "k", ascii "1.5"]⟩ ∅).2).1 =
        .returns (okResult (.value (ascii "1.500000"))) :=
  ⟨⟨_, _, rfl, rfl, rfl, rfl⟩, by decide +kernel, by decide +kernel⟩

/-- After a SET that writes a text with six decimals, of less than 2 ^ 52 millionths, a GET before it expires returns
the text byte for byte: the nearest double is off by less than half a millionth. -/
theorem set_get_decimal (env : Env) (now later : Int64) (s : Store) (key : GoString) (opts : List GoString) (neg : Bool)
    {millionths : ℕ} (hbound : millionths < 2 ^ 52) (hwrites : SetWrites now opts (s.slot key))
    (hlive : ((execute env now ⟨"SET", key :: fixedText neg millionths :: opts⟩ s).2.slot key).get later ≠ none) :
    (execute env later ⟨"GET", [key]⟩ (execute env now ⟨"SET", key :: fixedText neg millionths :: opts⟩ s).2).1 =
      .returns (okResult (.value (fixedText neg millionths))) := by
  have htext := (getWireValue_valueOf_iff (fixedText neg millionths)).mpr
    (.inr (.inr (.inr ⟨neg, millionths, rfl, survives_of_lt hbound⟩)))
  obtain ⟨expiry, hset⟩ := evalSET_of_writes hwrites key (fixedText neg millionths)
  rw [execute_SET, hset, slot_setSlot, if_pos rfl] at hlive
  rw [execute_GET, execute_SET, hset, slot_setSlot, if_pos rfl, Slot.get_eq_self hlive, valueResult, htext]

/-- The text -4503599627.370495 is set without options and returned at once. -/
theorem set_get_decimal_greatest :
    (execute bareEnv 1000 ⟨"GET", [ascii "k"]⟩
        (execute bareEnv 1000 ⟨"SET", [ascii "k", fixedText true 4503599627370495]⟩ ∅).2).1 =
      .returns (okResult (.value (fixedText true 4503599627370495))) :=
  set_get_decimal bareEnv 1000 1000 ∅ (ascii "k") [] true (by norm_num) ⟨_, _, rfl, rfl, rfl, rfl⟩ (by decide +kernel)

end SevenDB.Cmd
