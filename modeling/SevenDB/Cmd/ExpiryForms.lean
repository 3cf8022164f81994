import SevenDB.Cmd.StringCommands

/-!
# The forms of an expiry time

SET and GETEX take an expiry time in one of four forms: as a duration or as a point in time, in seconds or in
milliseconds. Each form has its own bound. What is accepted is a duration above zero and below the bound, and
in milliseconds this is always far below the range of words.
-/

namespace SevenDB.Cmd

open SevenDB.Common SevenDB.Types SevenDB.Store

inductive TimeForm
  | ex
  | px
  | exat
  | pxat
  deriving DecidableEq, Repr

namespace TimeForm

def param : TimeForm → Param
  | ex => .ex
  | px => .px
  | exat => .exat
  | pxat => .pxat

/-- The time that a form counts from, in its own unit. -/
def base (now : Int64) : TimeForm → Int64
  | ex | px => 0
  | exat => now / 1000
  | pxat => now

/-- The milliseconds of the unit of a form. -/
def unit : TimeForm → Int64
  | ex | exat => 1000
  | px | pxat => 1

/-- The bound for the durations of a form. -/
def bound : TimeForm → Int64
  | ex | px | exat => maxEXDurationSec
  | pxat => maxEXDurationSec * 1000

def Accepts (now : Int64) (form : TimeForm) (n : Int64) : Prop :=
  0 < n - form.base now ∧ n - form.base now < form.bound

instance (now : Int64) (form : TimeForm) (n : Int64) : Decidable (form.Accepts now n) :=
  inferInstanceAs (Decidable (_ ∧ _))

/-- The duration in milliseconds of a number in a form. -/
def durationMs (now : Int64) (form : TimeForm) (n : Int64) : Int64 := (n - form.base now) * form.unit

variable {ps : Params} {form : TimeForm}

/-- The option of a form that is given has to be a number that is accepted. -/
theorem durationOption_eq (hgiven : ps.given form.param = true) (command : String) (now ms : Int64) :
    durationOption command ps form.param (form.base now) form.unit form.bound ms =
      match parseInt (ps form.param) with
      | none => .error (.invalidValue command form.param.text)
      | some n =>
        if form.Accepts now n then .ok (form.durationMs now n) else .error (.invalidValue command form.param.text) := by
  rw [durationOption, if_pos hgiven]
  cases parseInt (ps form.param) with
  | none => rfl
  | some n =>
    by_cases haccepts : form.Accepts now n
    · have hbounds : ¬(n - form.base now ≤ 0 ∨ form.bound ≤ n - form.base now) := by
        rw [not_or, Int64.not_le, Int64.not_le]
        exact haccepts
      simp only [if_pos haccepts, if_neg hbounds, durationMs]
    · have hbounds : n - form.base now ≤ 0 ∨ form.bound ≤ n - form.base now := by
        by_contra hnot
        rw [not_or, Int64.not_le, Int64.not_le] at hnot
        exact haccepts hnot
      simp only [if_neg haccepts, if_pos hbounds]

/-- When one form is given and no other one, the duration is the one of this form. -/
theorem exDurationMs_eq (hconflict : timeConflict ps = false) (hgiven : ps.given form.param = true)
    (command : String) (now : Int64) :
    exDurationMs command now ps =
      durationOption command ps form.param (form.base now) form.unit form.bound (-1) := by
  have hskip (p : Param) (hp : ps.given p = false) (base unit bound ms : Int64) :
      durationOption command ps p base unit bound ms = .ok ms := by
    rw [durationOption, hp]
    rfl
  have hbind (e : Except CmdError Int64) (f : Int64 → Except CmdError Int64) (hf : ∀ ms, f ms = .ok ms) :
      e.bind f = e := by
    cases e with
    | error _ => rfl
    | ok ms => exact hf ms
  have hothers (other : TimeForm) (hother : other ≠ form) : ps.given other.param = false := by
    cases form <;> cases other <;> simp_all [timeConflict, param]
  cases form with
  | ex =>
    simp only [exDurationMs, Except.bind, hskip .px (hothers .px nofun), hskip .exat (hothers .exat nofun),
      hskip .pxat (hothers .pxat nofun)]
    exact hbind _ _ fun _ => rfl
  | px =>
    simp only [exDurationMs, Except.bind, hskip .ex (hothers .ex nofun), hskip .exat (hothers .exat nofun),
      hskip .pxat (hothers .pxat nofun)]
    exact hbind _ _ fun _ => rfl
  | exat =>
    simp only [exDurationMs, Except.bind, hskip .ex (hothers .ex nofun), hskip .px (hothers .px nofun),
      hskip .pxat (hothers .pxat nofun)]
    exact hbind _ _ fun _ => rfl
  | pxat =>
    simp only [exDurationMs, Except.bind, hskip .ex (hothers .ex nofun), hskip .px (hothers .px nofun),
      hskip .exat (hothers .exat nofun)]
    rfl

theorem exists_given (h : timeGiven ps = true) : ∃ form : TimeForm, ps.given form.param = true := by
  simp only [timeGiven, Bool.or_eq_true] at h
  rcases h with ((hex | hpx) | hexat) | hpxat
  · exact ⟨.ex, hex⟩
  · exact ⟨.px, hpx⟩
  · exact ⟨.exat, hexat⟩
  · exact ⟨.pxat, hpxat⟩

theorem exDurationMs_of_not_given (h : timeGiven ps = false) (command : String) (now : Int64) :
    exDurationMs command now ps = .ok (-1) := by
  simp only [timeGiven, Bool.or_eq_false_iff] at h
  obtain ⟨⟨⟨hex, hpx⟩, hexat⟩, hpxat⟩ := h
  simp [exDurationMs, durationOption, hex, hpx, hexat, hpxat, Except.bind]

/-- What is accepted when a form is given: a number in its range. -/
theorem exDurationMs_eq_ok_iff (hconflict : timeConflict ps = false) (hgiven : ps.given form.param = true)
    (command : String) (now ms : Int64) :
    exDurationMs command now ps = .ok ms ↔
      ∃ n, parseInt (ps form.param) = some n ∧ form.Accepts now n ∧ ms = form.durationMs now n := by
  rw [exDurationMs_eq hconflict hgiven, durationOption_eq hgiven]
  cases parseInt (ps form.param) with
  | none => simp
  | some n =>
    by_cases haccepts : form.Accepts now n
    · simp [haccepts, eq_comm]
    · simp [haccepts]

/-- A duration that is accepted is exact in milliseconds, positive and below a year. -/
theorem toInt_durationMs {now n : Int64} (h : form.Accepts now n) :
    (form.durationMs now n).toInt = (n - form.base now).toInt * form.unit.toInt ∧
      0 < (form.durationMs now n).toInt ∧ (form.durationMs now n).toInt < 31536000000 := by
  obtain ⟨hpos, hbound⟩ := h
  rw [Int64.lt_iff_toInt_lt] at hpos hbound
  have hzero : (0 : Int64).toInt = 0 := rfl
  have hunit : form.unit.toInt = 1000 ∧ form.bound.toInt = 31536000 ∨ form.unit.toInt = 1 ∧
      form.bound.toInt ≤ 31536000000 := by cases form <;> decide
  rw [durationMs, Int64.toInt_mul]
  generalize (n - form.base now).toInt = d at *
  rcases hunit with ⟨hunit, hlimit⟩ | ⟨hunit, hlimit⟩
  · rw [hunit, Int.bmod_eq_of_le (by omega) (by omega)]
    omega
  · rw [hunit, Int.bmod_eq_of_le (by omega) (by omega)]
    omega

end TimeForm

end SevenDB.Cmd
