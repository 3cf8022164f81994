import SevenDB.Cmd.ExactExpiry

/-!
# Seconds and milliseconds

A duration in milliseconds has the same bound as one in seconds, so most durations that are accepted in
seconds are refused in milliseconds. Points in time agree at a whole second of the clock, except close to the
end of the range of words: there a time in seconds has no word in milliseconds, or the way from the clock to
a time in milliseconds wraps.
-/

namespace SevenDB.Cmd

open SevenDB.Common SevenDB.Types SevenDB.Store

/-- The word of a difference is positive and below a bound exactly when the difference is, or is after one
turn through all words. -/
theorem toInt_ofInt_between_iff {d bound : ℤ} (hlow : -2 ^ 64 < d) (hhigh : d < 2 ^ 64) (hbound : bound ≤ 2 ^ 63) :
    (0 < (Int64.ofInt d).toInt ∧ (Int64.ofInt d).toInt < bound) ↔
      (0 < d ∧ d < bound) ∨ (0 < d + 2 ^ 64 ∧ d + 2 ^ 64 < bound) := by
  rw [Int64.toInt_ofInt, Int64.size, Int.bmod_def]
  split <;> omega

namespace TimeForm

/-- A number is accepted in a form as its text: it has a word, and the word is accepted. -/
def AcceptsNumber (now : Int64) (form : TimeForm) (n : ℤ) : Prop := InRange n ∧ form.Accepts now (Int64.ofInt n)

def timeArgs (form : TimeForm) (n : ℤ) : List GoString := [ascii form.param.text, intText n]

/-- The parameters that are read from the arguments for an expiry time. -/
def timeParams (form : TimeForm) (n : ℤ) : Params := Function.update Params.none form.param (intText n)

variable (form : TimeForm) (n : ℤ)

theorem given_timeParams (p : Param) : (form.timeParams n).given p = decide (p = form.param) := by
  by_cases hp : p = form.param
  · subst hp
    have htext : intText n ≠ [] := by
      unfold intText
      split
      · simp
      · exact natText_ne_nil _
    simp [timeParams, Params.given, htext]
  · simp [timeParams, Params.given, Params.none, hp]

theorem readParams_timeArgs {accepts : Param → Bool} (haccepts : accepts form.param = true) (n : ℤ) :
    readParams accepts .none (form.timeArgs n) = some (form.timeParams n, []) := by
  have hword : Param.ofText (ascii form.param.text) = some form.param := by cases form <;> rfl
  have hread : (Param.ofText (ascii form.param.text)).filter accepts = some form.param := by
    rw [hword, Option.filter_some, if_pos haccepts]
  have htakes : form.param.takesValue = true := by cases form <;> rfl
  rw [timeArgs, readParams, hread]
  simp only [htakes, if_true]
  rfl

theorem parseParams_timeArgs : parseParams (form.timeArgs n) = some (form.timeParams n, []) :=
  form.readParams_timeArgs (by cases form <;> rfl) n

theorem readParams_getex_timeArgs :
    readParams getexAccepts .none (form.timeArgs n) = some (form.timeParams n, []) :=
  form.readParams_timeArgs (by cases form <;> rfl) n

/-- What the options of an expiry time give: the duration of a number that is accepted. -/
theorem exDurationMs_timeParams_iff (command : String) (now ms : Int64) :
    exDurationMs command now (form.timeParams n) = .ok ms ↔
      form.AcceptsNumber now n ∧ ms = form.durationMs now (Int64.ofInt n) := by
  have hconflict : timeConflict (form.timeParams n) = false := by
    cases form <;> simp [timeConflict, given_timeParams, param]
  have hvalue : form.timeParams n form.param = intText n := by simp [timeParams]
  have hgiven : (form.timeParams n).given form.param = true := by simp [given_timeParams]
  rw [exDurationMs_eq_ok_iff hconflict hgiven, hvalue, parseInt_intText_eq, AcceptsNumber]
  by_cases hrange : InRange n
  · simp [hrange]
  · simp [hrange]

variable {now : Int64} {t : ℤ}

theorem exDurationMs_timeParams {form : TimeForm} {n : ℤ} (h : form.AcceptsNumber now n) (command : String) :
    exDurationMs command now (form.timeParams n) = .ok (form.durationMs now (Int64.ofInt n)) :=
  (form.exDurationMs_timeParams_iff n command now _).mpr ⟨h, rfl⟩

/-- The parameters of an expiry time do not exclude each other for SET. -/
theorem setConflict_timeParams : setConflict (form.timeParams n) = false := by
  cases form <;> simp [setConflict, timeConflict, timeGiven, given_timeParams, param]

/-- The parameters of an expiry time do not exclude each other for GETEX. -/
theorem getexConflict_timeParams :
    (timeConflict (form.timeParams n) ||
      ((form.timeParams n).given .persist && timeGiven (form.timeParams n))) = false := by
  cases form <;> simp [timeConflict, timeGiven, given_timeParams, param]

/-- A duration is accepted below the one bound of both units. -/
theorem acceptsNumber_duration_iff (hform : form.isDuration = true) (now : Int64) (n : ℤ) :
    form.AcceptsNumber now n ↔ 0 < n ∧ n < 31536000 := by
  have hbase : form.base now = 0 ∧ form.bound.toInt = 31536000 := by
    cases form with
    | ex | px => exact ⟨rfl, rfl⟩
    | exat | pxat => cases hform
  unfold AcceptsNumber Accepts
  rw [hbase.1, Int64.sub_zero, Int64.lt_iff_toInt_lt, Int64.lt_iff_toInt_lt, hbase.2]
  change InRange n ∧ 0 < (Int64.ofInt n).toInt ∧ (Int64.ofInt n).toInt < 31536000 ↔ _
  constructor
  · rintro ⟨hrange, hbetween⟩
    rwa [(toInt_ofInt_iff n).mpr hrange] at hbetween
  · intro hbetween
    have hrange : InRange n := ⟨by omega, by omega⟩
    rw [(toInt_ofInt_iff n).mpr hrange]
    exact ⟨hrange, hbetween⟩

theorem seconds_eq (hnow : now.toInt = 1000 * t) : now / 1000 = Int64.ofInt t := by
  rw [← Int64.toInt_inj, Int64.toInt_div, hnow, show (1000 : Int64).toInt = 1000 from rfl,
    Int.mul_tdiv_cancel_left t (by decide), Int64.toInt_ofInt]

/-- A point in time in seconds is accepted at a whole second of the clock when it is less than a year ahead. -/
theorem acceptsNumber_exat_iff (hnow : now.toInt = 1000 * t) (n : ℤ) :
    TimeForm.exat.AcceptsNumber now n ↔ 0 < n - t ∧ n - t < 31536000 := by
  obtain ⟨hlow, hhigh⟩ := inRange_toInt now
  unfold AcceptsNumber Accepts
  rw [base, seconds_eq hnow, ← Int64.ofInt_sub, Int64.lt_iff_toInt_lt, Int64.lt_iff_toInt_lt]
  change InRange n ∧ 0 < (Int64.ofInt (n - t)).toInt ∧ (Int64.ofInt (n - t)).toInt < 31536000 ↔ _
  constructor
  · rintro ⟨hrange, hbetween⟩
    obtain ⟨hnlow, hnhigh⟩ := hrange
    rw [toInt_ofInt_between_iff (by omega) (by omega) (by omega)] at hbetween
    omega
  · intro hbetween
    refine ⟨⟨by omega, by omega⟩, ?_⟩
    rw [toInt_ofInt_between_iff (by omega) (by omega) (by omega)]
    exact .inl hbetween

/-- A point in time in milliseconds is accepted when it has a word, and is less than a year ahead directly or
after one turn through all words. -/
theorem acceptsNumber_pxat_iff (hnow : now.toInt = 1000 * t) (n : ℤ) :
    TimeForm.pxat.AcceptsNumber now (1000 * n) ↔
      InRange (1000 * n) ∧ ((0 < n - t ∧ n - t < 31536000) ∨
        (0 < 1000 * (n - t) + 2 ^ 64 ∧ 1000 * (n - t) + 2 ^ 64 < 31536000000)) := by
  obtain ⟨hlow, hhigh⟩ := inRange_toInt now
  have hword : Int64.ofInt (1000 * n) - now = Int64.ofInt (1000 * (n - t)) := by
    rw [Int.mul_sub, Int64.ofInt_sub, ← hnow, Int64.ofInt_toInt]
  unfold AcceptsNumber Accepts
  rw [base, hword, Int64.lt_iff_toInt_lt, Int64.lt_iff_toInt_lt]
  change InRange (1000 * n) ∧ 0 < (Int64.ofInt (1000 * (n - t))).toInt ∧
    (Int64.ofInt (1000 * (n - t))).toInt < 31536000000 ↔ _
  refine and_congr_right fun hrange => ?_
  obtain ⟨hnlow, hnhigh⟩ := hrange
  rw [toInt_ofInt_between_iff (by omega) (by omega) (by omega)]
  omega

/-- What is stored for a point in time in milliseconds is that point in time. -/
theorem add_durationMs_pxat (now n : Int64) : now + TimeForm.pxat.durationMs now n = n := by
  rw [durationMs, base, unit, Int64.mul_one, Int64.add_comm, Int64.sub_add_cancel]

/-- What is stored at a whole second for a point in time in seconds is the word of that point in time. -/
theorem add_durationMs_exat (hnow : now.toInt = 1000 * t) (n : ℤ) :
    now + TimeForm.exat.durationMs now (Int64.ofInt n) = Int64.ofInt (1000 * n) := by
  have hclock : now = Int64.ofInt (1000 * t) := by rw [← hnow, Int64.ofInt_toInt]
  have hunit : TimeForm.exat.unit = Int64.ofInt 1000 := rfl
  rw [durationMs, base, seconds_eq hnow, ← Int64.ofInt_sub, hunit, ← Int64.ofInt_mul, hclock, ← Int64.ofInt_add]
  congr 1
  omega

end TimeForm

section Units

variable (env : Env) (now : Int64) (c : WriteCommand) (key value : GoString) (s : Store)

/-- SET of a value, or GETEX, with an expiry time in a form. -/
def timedCommand (form : TimeForm) (n : ℤ) : WireCommand :=
  ⟨c.text, key :: (if c = .set then value :: form.timeArgs n else form.timeArgs n)⟩

/-- A command with an expiry time in a form is accepted. -/
def Accepted (form : TimeForm) (n : ℤ) : Prop :=
  (execute env now (timedCommand c key value form n) s).1.succeeds = true

/-- The expiry time that a key has after a command with an expiry time in a form. -/
def expiryAfter (form : TimeForm) (n : ℤ) : Option Int64 :=
  ((execute env now (timedCommand c key value form n) s).2.slot key).bind Entry.expiry

/-- SET and GETEX. -/
def WriteCommand.units : List WriteCommand := [.set, .getex]

variable {c}

/-- SET and GETEX accept an expiry time exactly when its number is accepted in its form. -/
theorem accepted_iff (hc : c ∈ WriteCommand.units) (form : TimeForm) (n : ℤ) :
    Accepted env now c key value s form n ↔ form.AcceptsNumber now n := by
  have hset := form.parseParams_timeArgs n
  have hgetex := form.readParams_getex_timeArgs n
  unfold Accepted timedCommand
  rw [WriteCommand.execute_text]
  cases c with
  | set =>
    constructor
    · intro h
      obtain ⟨_, _, _, ps, ms, hargs, hparse, -, hms⟩ := evalSET_succeeds h
      cases hargs
      cases hset.symm.trans hparse
      exact ((form.exDurationMs_timeParams_iff n _ now ms).mp hms).1
    · intro h
      have hms := TimeForm.exDurationMs_timeParams h "SET"
      have heval := evalSET_eq hset (form.setConflict_timeParams n) hms key value (s.slot key)
      exact congrArg (fun result => result.1.succeeds) heval
  | getex =>
    constructor
    · intro h
      obtain ⟨_, _, ps, rest, ms, hargs, hparse, -, hms⟩ := evalGETEX_succeeds h
      cases hargs
      cases hgetex.symm.trans hparse
      exact ((form.exDurationMs_timeParams_iff n _ now ms).mp hms).1
    · intro h
      have hms := TimeForm.exDurationMs_timeParams h "GETEX"
      have heval := evalGETEX_eq hgetex (form.getexConflict_timeParams n) hms key (s.slot key)
      exact congrArg (fun result => result.1.succeeds) heval
  | incr | decr | incrby | decrby | hset | zadd | expire | expireat => simp [WriteCommand.units] at hc

/-- The expiry time after a command that is accepted: none where GETEX finds no key. -/
theorem expiryAfter_eq (hc : c ∈ WriteCommand.units) {form : TimeForm} {n : ℤ} (h : form.AcceptsNumber now n) :
    expiryAfter env now c key value s form n =
      if c = .getex ∧ (s.slot key).get now = none then none
      else some (now + form.durationMs now (Int64.ofInt n)) := by
  have hgiven : (form.timeParams n).given form.param = true := by simp [TimeForm.given_timeParams]
  have hn : parseInt (form.timeParams n form.param) = some (Int64.ofInt n) := by
    rw [TimeForm.timeParams, Function.update_self, parseInt_intText_eq, if_pos h.1]
  unfold expiryAfter timedCommand
  rw [WriteCommand.execute_text, slot_setSlot, if_pos rfl]
  cases c with
  | set =>
    have hparse := form.parseParams_timeArgs n
    have hms := TimeForm.exDurationMs_timeParams h "SET"
    have hskips : setSkips (form.timeParams n) ((s.slot key).get now) = false := by
      cases form <;> simp [setSkips, TimeForm.given_timeParams, TimeForm.param]
    have hstores : Stores env now .set (key :: value :: form.timeArgs n) (s.slot key) form (Int64.ofInt n) :=
      .set hparse (form.setConflict_timeParams n) hms hskips hgiven hn
    obtain ⟨stored, hslot⟩ := hstores.eval_snd
    simp [hslot, storedExpiry]
  | getex =>
    have hparse := form.readParams_getex_timeArgs n
    have hms := TimeForm.exDurationMs_timeParams h "GETEX"
    cases hfound : (s.slot key).get now with
    | none =>
      have heval := evalGETEX_eq hparse (form.getexConflict_timeParams n) hms key (s.slot key)
      simp [WriteCommand.eval, heval, hfound, expirySlotWith]
    | some obj =>
      have hstores : Stores env now .getex (key :: form.timeArgs n) (s.slot key) form (Int64.ofInt n) :=
        .getex hparse (form.getexConflict_timeParams n) hms hfound hgiven hn
      obtain ⟨stored, hslot⟩ := hstores.eval_snd
      simp [hslot, storedExpiry]
  | incr | decr | incrby | decrby | hset | zadd | expire | expireat => simp [WriteCommand.units] at hc

variable (c)

/-- Durations agree: one in milliseconds is accepted when the same one in seconds is, and gives the same
expiry time. -/
def DurationsAgree (n : ℤ) : Prop :=
  (Accepted env now c key value s .px (1000 * n) ↔ Accepted env now c key value s .ex n) ∧
    (Accepted env now c key value s .ex n →
      expiryAfter env now c key value s .px (1000 * n) = expiryAfter env now c key value s .ex n)

/-- A key has an expiry time of so many milliseconds after a command, unless GETEX finds no key. -/
def Gives (form : TimeForm) (n ms : ℤ) : Prop :=
  (c = .getex ∧ (s.slot key).get now = none) ∨
    ∃ exp, expiryAfter env now c key value s form n = some exp ∧ exp.toInt = ms

/-- Points in time agree: one in milliseconds is accepted when the same one in seconds is, and both give this
point in time. -/
def TimesAgree (n : ℤ) : Prop :=
  (Accepted env now c key value s .pxat (1000 * n) ↔ Accepted env now c key value s .exat n) ∧
    (Accepted env now c key value s .exat n → Gives env now c key value s .exat n (1000 * n)) ∧
    (Accepted env now c key value s .pxat (1000 * n) → Gives env now c key value s .pxat (1000 * n) (1000 * n))

variable {c}

/-- Durations agree except where the one in seconds is below the bound and the one in milliseconds is not. -/
theorem durationsAgree_iff (hc : c ∈ WriteCommand.units) (n : ℤ) :
    DurationsAgree env now c key value s n ↔ n < 31536 ∨ 31536000 ≤ n := by
  have hpx := TimeForm.acceptsNumber_duration_iff .px rfl now (1000 * n)
  have hex := TimeForm.acceptsNumber_duration_iff .ex rfl now n
  unfold DurationsAgree
  rw [accepted_iff env now key value s hc, accepted_iff env now key value s hc, hpx, hex]
  constructor
  · rintro ⟨hsame, -⟩
    omega
  · intro hbound
    refine ⟨by omega, fun haccepted => ?_⟩
    have hms : TimeForm.px.durationMs now (Int64.ofInt (1000 * n)) = TimeForm.ex.durationMs now (Int64.ofInt n) := by
      change (Int64.ofInt (1000 * n) - 0) * 1 = (Int64.ofInt n - 0) * 1000
      rw [Int64.sub_zero, Int64.sub_zero, Int64.mul_one, Int64.ofInt_mul, Int64.mul_comm]
      rfl
    rw [expiryAfter_eq env now key value s hc (hpx.mpr (by omega)),
      expiryAfter_eq env now key value s hc (hex.mpr haccepted), hms]

/-- What is stored for a time that is accepted and has a word. -/
theorem gives_of_eq (hc : c ∈ WriteCommand.units) {form : TimeForm} {n ms : ℤ} (haccepts : form.AcceptsNumber now n)
    (hstored : now + form.durationMs now (Int64.ofInt n) = Int64.ofInt ms) (hrange : InRange ms) :
    Gives env now c key value s form n ms := by
  by_cases hmissing : c = .getex ∧ (s.slot key).get now = none
  · exact .inl hmissing
  · refine .inr ⟨Int64.ofInt ms, ?_, (toInt_ofInt_iff ms).mpr hrange⟩
    rw [expiryAfter_eq env now key value s hc haccepts, if_neg hmissing, hstored]

/-- Points in time agree at a whole second of the clock, unless a time in seconds that is accepted has no word
in milliseconds, or the way to a time in milliseconds wraps. -/
theorem timesAgree_iff (hc : c ∈ WriteCommand.units) {t : ℤ} (hnow : now.toInt = 1000 * t) (n : ℤ) :
    TimesAgree env now c key value s n ↔
      (0 < n - t → n - t < 31536000 → 1000 * n < 2 ^ 63) ∧
        (InRange (1000 * n) → ¬(0 < 1000 * (n - t) + 2 ^ 64 ∧ 1000 * (n - t) + 2 ^ 64 < 31536000000)) := by
  obtain ⟨hlow, hhigh⟩ := inRange_toInt now
  have hexat := TimeForm.acceptsNumber_exat_iff hnow n
  have hpxat := TimeForm.acceptsNumber_pxat_iff hnow n
  unfold TimesAgree
  rw [accepted_iff env now key value s hc, accepted_iff env now key value s hc]
  constructor
  · rintro ⟨hsame, -⟩
    rw [hexat, hpxat] at hsame
    unfold InRange at hsame ⊢
    omega
  · rintro ⟨hword, hwrap⟩
    have hsame : TimeForm.pxat.AcceptsNumber now (1000 * n) ↔ TimeForm.exat.AcceptsNumber now n := by
      rw [hexat, hpxat]
      unfold InRange at hwrap ⊢
      omega
    refine ⟨hsame, fun haccepts => ?_, fun haccepts => ?_⟩
    · have hrange : InRange (1000 * n) := (hpxat.mp (hsame.mpr haccepts)).1
      exact gives_of_eq env now key value s hc haccepts (TimeForm.add_durationMs_exat hnow n) hrange
    · exact gives_of_eq env now key value s hc haccepts (TimeForm.add_durationMs_pxat now _) haccepts.1

end Units

/-- For SET and GETEX, every clock and every number: durations in both units agree exactly when the number is
below 31536 or not accepted in seconds, and at a whole second points in time agree exactly when they stay in
the range of words. -/
theorem expiry_units_agree_iff (env : Env) (now : Int64) (c : WriteCommand) (hc : c ∈ WriteCommand.units)
    (key value : GoString) (s : Store) (n : ℤ) :
    (DurationsAgree env now c key value s n ↔ n < 31536 ∨ 31536000 ≤ n) ∧
      ∀ t : ℤ, now.toInt = 1000 * t →
        (TimesAgree env now c key value s n ↔
          (0 < n - t → n - t < 31536000 → 1000 * n < 2 ^ 63) ∧
            (InRange (1000 * n) → ¬(0 < 1000 * (n - t) + 2 ^ 64 ∧ 1000 * (n - t) + 2 ^ 64 < 31536000000))) :=
  ⟨durationsAgree_iff env now key value s hc n, fun _ hnow => timesAgree_iff env now key value s hc hnow n⟩

/-- SET for ten seconds and until second 12 agrees in both units at second 2. -/
theorem expiry_units_agree_ten :
    DurationsAgree bareEnv 2000 .set (ascii "k") (ascii "v") ∅ 10 ∧
      TimesAgree bareEnv 2000 .set (ascii "k") (ascii "v") ∅ 12 :=
  ⟨(expiry_units_agree_iff bareEnv 2000 .set (by decide) (ascii "k") (ascii "v") ∅ 10).1.mpr (by decide),
    ((expiry_units_agree_iff bareEnv 2000 .set (by decide) (ascii "k") (ascii "v") ∅ 12).2 2 rfl).mpr (by decide)⟩

/-- SET for 31536 seconds is accepted, and for as many thousands of milliseconds it is refused. -/
theorem expiry_units_differ :
    (execute bareEnv 0 ⟨"SET", [ascii "k", ascii "v", ascii "EX", ascii "31536"]⟩ ∅).1 =
        .returns (okResult .empty) ∧
      (execute bareEnv 0 ⟨"SET", [ascii "k", ascii "v", ascii "PX", ascii "31536000"]⟩ ∅).1 =
        .fails (.invalidValue "SET" "PX") ∧
      ¬DurationsAgree bareEnv 0 .set (ascii "k") (ascii "v") ∅ 31536 := by
  refine ⟨rfl, rfl, ?_⟩
  rw [durationsAgree_iff bareEnv 0 (ascii "k") (ascii "v") ∅ (by decide)]
  decide

end SevenDB.Cmd
