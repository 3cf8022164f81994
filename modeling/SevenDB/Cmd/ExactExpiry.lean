import SevenDB.Cmd.ExpiryForms
import SevenDB.Cmd.SetGet
import SevenDB.Cmd.Steady
import SevenDB.Cmd.WriteCommands

/-!
# Exact expiry times

The expiry time that SET and GETEX store is the exact one for durations and for points in time in
milliseconds. A point in time in seconds is made a duration in whole seconds and is added to a clock in
milliseconds, so the milliseconds of the clock stay in it. EXPIRE and EXPIREAT multiply seconds that have no
bound of their own, or one that depends on the server, and wrap.
-/

namespace SevenDB.Cmd

open SevenDB.Common SevenDB.Types SevenDB.Store

namespace TimeForm

/-- The exact expiry time in milliseconds that a number asks for. -/
def exact (now n : ℤ) : TimeForm → ℤ
  | ex => now + 1000 * n
  | px => now + n
  | exat => 1000 * n
  | pxat => n

def isDuration : TimeForm → Bool
  | ex | px => true
  | exat | pxat => false

variable {now n : Int64} (hlow : 0 ≤ now.toInt) (hhigh : now.toInt ≤ 2 ^ 42)

include hlow in
theorem toInt_seconds : (now / 1000).toInt = now.toInt / 1000 := by
  have hrange := now.toInt_lt
  rw [Int64.toInt_div, show (1000 : Int64).toInt = 1000 from rfl, Int.tdiv_eq_ediv_of_nonneg hlow,
    Int.bmod_eq_of_le (by omega) (by omega)]

include hlow hhigh in
theorem toInt_sub_base {form : TimeForm} (h : form.Accepts now n) :
    (n - form.base now).toInt = n.toInt - (form.base now).toInt := by
  obtain ⟨hpos, hbound⟩ := h
  rw [Int64.lt_iff_toInt_lt] at hpos hbound
  have hzero : (0 : Int64).toInt = 0 := rfl
  have hlimit : form.bound.toInt ≤ 31536000000 := by cases form <;> decide
  have hbase : 0 ≤ (form.base now).toInt ∧ (form.base now).toInt ≤ 2 ^ 42 := by
    cases form with
    | ex | px => exact ⟨Int.le_refl 0, show (0 : ℤ) ≤ 2 ^ 42 by decide⟩
    | exat =>
      rw [base, toInt_seconds hlow]
      omega
    | pxat => exact ⟨hlow, hhigh⟩
  exact toInt_sub_of_inRange ⟨by omega, by omega⟩

include hlow hhigh in
/-- What is stored for a number that is accepted is the exact expiry time, apart from the milliseconds of the
clock for a point in time in seconds. -/
theorem toInt_add_durationMs {form : TimeForm} (h : form.Accepts now n) :
    (now + form.durationMs now n).toInt =
      form.exact now.toInt n.toInt + if form = .exat then now.toInt % 1000 else 0 := by
  obtain ⟨hexact, hpos, hyear⟩ := toInt_durationMs h
  rw [(toInt_add_iff _ _).mpr ⟨by omega, by omega⟩, hexact, toInt_sub_base hlow hhigh h]
  cases form with
  | ex =>
    change now.toInt + (n.toInt - 0) * 1000 = now.toInt + 1000 * n.toInt + 0
    omega
  | px =>
    change now.toInt + (n.toInt - 0) * 1 = now.toInt + n.toInt + 0
    omega
  | exat =>
    rw [base, toInt_seconds hlow]
    change now.toInt + (n.toInt - now.toInt / 1000) * 1000 = 1000 * n.toInt + now.toInt % 1000
    omega
  | pxat =>
    change now.toInt + (n.toInt - now.toInt) * 1 = n.toInt + 0
    omega

end TimeForm

/-- The options of an expiry ask for it to be set on an object. -/
def setsExpiry (subCommands : List GoString) (newExpiry : Int64) (prev : Option Int64) : Bool :=
  decide (subCommands = []) ||
    match readExpiryOptions prev newExpiry ⟨false, false, false, false, false⟩ subCommands with
    | .error _ => false
    | .ok opts =>
      !(!opts.nx && opts.gt && opts.lt) && !(opts.nx && (opts.xx || opts.gt || opts.lt)) &&
        (opts.shouldSet || (opts.xx && decide (prev = none)))

variable {slot : Slot} {now n : Int64} {form : TimeForm} {env : Env} {c : WriteCommand} {args : List GoString}

/-- Setting an expiry time leaves an object that is found with the new time, or as it is. -/
theorem evaluateAndSetExpiry_snd {obj : Entry} (hfound : slot.get now = some obj) (subCommands : List GoString)
    (newExpiry : Int64) :
    (evaluateAndSetExpiry subCommands newExpiry now slot).2 =
      if setsExpiry subCommands newExpiry obj.expiry then some { obj with expiry := some newExpiry }
      else some obj := by
  unfold evaluateAndSetExpiry setsExpiry
  rw [hfound]
  by_cases hnone : subCommands = []
  · simp [hnone]
  · simp only [hnone, if_false, decide_false, Bool.false_or]
    cases readExpiryOptions obj.expiry newExpiry ⟨false, false, false, false, false⟩ subCommands with
    | error e => rfl
    | ok opts =>
      simp only
      split
      · next hgtlt => simp [hgtlt]
      · next hgtlt =>
        split
        · next hnx => simp [hnx]
        · next hnx =>
          rw [Bool.not_eq_true] at hgtlt hnx
          by_cases hset : opts.shouldSet = true
          · simp only [hgtlt, hnx, hset, if_true, Bool.not_false, Bool.true_and, Bool.true_or]
          · by_cases hxx : (opts.xx && decide (obj.expiry = none)) = true
            · simp only [hgtlt, hnx, hset, hxx, if_true, if_false, Bool.not_false, Bool.true_and, Bool.or_true,
                Bool.false_eq_true]
            · rw [Bool.not_eq_true] at hset hxx
              simp only [hgtlt, hnx, hset, hxx, if_false, Bool.not_false, Bool.true_and, Bool.or_false,
                Bool.false_eq_true]

/-- A command with arguments that it accepts stores an expiry time, which is asked for by a number in a form. -/
inductive Stores (env : Env) (now : Int64) : WriteCommand → List GoString → Slot → TimeForm → Int64 → Prop
  | set {key value : GoString} {opts : List GoString} {ps : Params} {ms : Int64} {slot : Slot} {form : TimeForm}
      {n : Int64} (hparse : parseParams opts = some (ps, [])) (hconflict : setConflict ps = false)
      (hms : exDurationMs "SET" now ps = .ok ms) (hskips : setSkips ps (slot.get now) = false)
      (hgiven : ps.given form.param = true) (hn : parseInt (ps form.param) = some n) :
      Stores env now .set (key :: value :: opts) slot form n
  | getex {key : GoString} {opts rest : List GoString} {ps : Params} {ms : Int64} {slot : Slot} {obj : Entry}
      {form : TimeForm} {n : Int64} (hparse : readParams getexAccepts .none opts = some (ps, rest))
      (hconflict : (timeConflict ps || (ps.given .persist && timeGiven ps)) = false)
      (hms : exDurationMs "GETEX" now ps = .ok ms) (hfound : slot.get now = some obj)
      (hgiven : ps.given form.param = true) (hn : parseInt (ps form.param) = some n) :
      Stores env now .getex (key :: opts) slot form n
  | expire {key text : GoString} {opts : List GoString} {slot : Slot} {obj : Entry} {n : Int64}
      (hn : parseInt text = some n) (hrange : ¬n < 0) (hfound : slot.get now = some obj)
      (hsets : setsExpiry opts (now + n * 1000) obj.expiry = true) :
      Stores env now .expire (key :: text :: opts) slot .ex n
  | expireat {key text : GoString} {opts : List GoString} {slot : Slot} {obj : Entry} {n : Int64}
      (hn : parseInt text = some n) (hrange : ¬(n < 0 ∨ env.maxAbsTimestamp < n)) (hfound : slot.get now = some obj)
      (hsets : setsExpiry opts (n * 1000) obj.expiry = true) :
      Stores env now .expireat (key :: text :: opts) slot .exat n

def storedExpiry (now : Int64) (form : TimeForm) (n : Int64) : WriteCommand → Int64
  | .expire => now + n * 1000
  | .expireat => n * 1000
  | _ => now + form.durationMs now n

/-- When a time is given the duration is that of a number that is accepted. -/
theorem TimeForm.accepts_of_eq_ok {ps : Params} {command : String} {ms : Int64}
    (hconflict : timeConflict ps = false) (hgiven : ps.given form.param = true)
    (hms : exDurationMs command now ps = .ok ms) (hn : parseInt (ps form.param) = some n) :
    form.Accepts now n ∧ ms = form.durationMs now n := by
  obtain ⟨m, hm, haccepts, heq⟩ := (exDurationMs_eq_ok_iff hconflict hgiven command now ms).mp hms
  cases hn.symm.trans hm
  exact ⟨haccepts, heq⟩

theorem TimeForm.timeGiven_of_given {ps : Params} (h : ps.given form.param = true) : timeGiven ps = true := by
  cases form <;> simp_all [timeGiven, param]

theorem setConflict_eq_false_iff (ps : Params) :
    setConflict ps = false ↔
      timeConflict ps = false ∧ (ps.given .xx && ps.given .nx) = false ∧
        (ps.given .keepttl && timeGiven ps) = false := by
  rw [setConflict, Bool.or_eq_false_iff, Bool.or_eq_false_iff, and_assoc]

/-- The number that SET or GETEX takes an expiry time from is accepted in its form. -/
theorem Stores.accepts (h : Stores env now c args slot form n) (hc : c = .set ∨ c = .getex) :
    form.Accepts now n := by
  cases h with
  | @set key value opts ps ms _ _ _ hparse hconflict hms hskips hgiven hn =>
    obtain ⟨htime, -, -⟩ := (setConflict_eq_false_iff ps).mp hconflict
    exact (TimeForm.accepts_of_eq_ok htime hgiven hms hn).1
  | @getex key opts rest ps ms _ obj _ _ hparse hconflict hms hfound hgiven hn =>
    obtain ⟨htime, -⟩ := Bool.or_eq_false_iff.mp hconflict
    exact (TimeForm.accepts_of_eq_ok htime hgiven hms hn).1
  | expire | expireat => simp at hc

theorem Stores.eval_snd (h : Stores env now c args slot form n) :
    ∃ value, (c.eval env now args slot).2 = some ⟨value, some (storedExpiry now form n c)⟩ := by
  cases h with
  | @set key value opts ps ms _ _ _ hparse hconflict hms hskips hgiven hn =>
    obtain ⟨htime, -, hkeep⟩ := (setConflict_eq_false_iff ps).mp hconflict
    obtain ⟨haccepts, rfl⟩ := TimeForm.accepts_of_eq_ok htime hgiven hms hn
    have hnokeep : ps.given .keepttl = false := by simpa [TimeForm.timeGiven_of_given hgiven] using hkeep
    have hpos := (TimeForm.toInt_durationMs haccepts).2.1
    refine ⟨valueOf value, ?_⟩
    rw [WriteCommand.eval, evalSET_eq hparse hconflict hms, setSlotWith, hskips, hnokeep, Slot.put_false]
    have hle : (0 : Int64) ≤ form.durationMs now n := Int64.le_iff_toInt_le.mpr (Int.le_of_lt hpos)
    simp [createObjectFromValue, newObj, hle, storedExpiry]
  | @getex key opts rest ps ms _ obj _ _ hparse hconflict hms hfound hgiven hn =>
    obtain ⟨htime, hpersist⟩ := Bool.or_eq_false_iff.mp hconflict
    obtain ⟨haccepts, rfl⟩ := TimeForm.accepts_of_eq_ok htime hgiven hms hn
    have hnopersist : ps.given .persist = false := by simpa [TimeForm.timeGiven_of_given hgiven] using hpersist
    have hpos := (TimeForm.toInt_durationMs haccepts).2.1
    have hne : form.durationMs now n ≠ -1 := by
      intro heq
      rw [heq] at hpos
      exact absurd hpos (by decide)
    refine ⟨obj.value, ?_⟩
    rw [WriteCommand.eval, evalGETEX_eq hparse hconflict hms, hfound]
    simp [expirySlotWith, hnopersist, hne, storedExpiry]
  | @expire key text opts _ obj _ hn hrange hfound hsets =>
    have hlive : Slot.get (some obj) now = some obj := Slot.get_found hfound
    refine ⟨obj.value, ?_⟩
    simp [WriteCommand.eval, evalEXPIRE, hn, hrange, hfound, evaluateAndSetExpiry_snd hlive, hsets, storedExpiry]
  | @expireat key text opts _ obj _ hn hrange hfound hsets =>
    refine ⟨obj.value, ?_⟩
    simp only [WriteCommand.eval, evalEXPIREAT, hn, if_neg hrange, evaluateAndSetExpiry_snd hfound, hsets, if_true]
    rfl

/-- When a command stores the exact expiry time: at a whole second of the clock for a point in time in seconds
of SET and GETEX, and in the range of words for EXPIRE and EXPIREAT. -/
def ExactWhen (now n : ℤ) (form : TimeForm) : WriteCommand → Prop
  | .expire => now + 1000 * n < 2 ^ 63
  | .expireat => 1000 * n < 2 ^ 63
  | _ => form = .exat → now % 1000 = 0

/-- The word that a command stores stands for the exact expiry time when it should. -/
theorem Stores.exact_iff (h : Stores env now c args slot form n) (hlow : 0 ≤ now.toInt)
    (hhigh : now.toInt ≤ 2 ^ 42) :
    (storedExpiry now form n c).toInt = form.exact now.toInt n.toInt ↔ ExactWhen now.toInt n.toInt form c := by
  have hoptions (hc : c = .set ∨ c = .getex) :
      (now + form.durationMs now n).toInt = form.exact now.toInt n.toInt ↔ (form = .exat → now.toInt % 1000 = 0) := by
    rw [TimeForm.toInt_add_durationMs hlow hhigh (h.accepts hc)]
    by_cases hexat : form = .exat
    · simp [hexat]
    · simp [hexat]
  cases h with
  | set => exact hoptions (.inl rfl)
  | getex => exact hoptions (.inr rfl)
  | @expire key text opts _ obj _ hn hrange hfound hsets =>
    have hpos : 0 ≤ n.toInt := by simpa [Int64.lt_iff_toInt_lt] using hrange
    have hword : now + n * 1000 = Int64.ofInt (now.toInt + 1000 * n.toInt) := by
      rw [Int64.ofInt_add, Int64.ofInt_mul, Int64.ofInt_toInt, Int64.ofInt_toInt, Int64.mul_comm]
      rfl
    rw [storedExpiry, hword, TimeForm.exact, toInt_ofInt_iff, InRange, ExactWhen]
    omega
  | @expireat key text opts _ obj _ hn hrange hfound hsets =>
    have hpos : 0 ≤ n.toInt := by simpa [Int64.lt_iff_toInt_lt] using (not_or.mp hrange).1
    have hword : n * 1000 = Int64.ofInt (1000 * n.toInt) := by
      rw [Int64.ofInt_mul, Int64.ofInt_toInt, Int64.mul_comm]
      rfl
    rw [storedExpiry, hword, TimeForm.exact, toInt_ofInt_iff, InRange, ExactWhen]
    omega

theorem Stores.nonneg (h : Stores env now c args slot form n) (hduration : form.isDuration = true) :
    0 ≤ n.toInt := by
  have hoptions (hc : c = .set ∨ c = .getex) : 0 ≤ n.toInt := by
    have hpos := Int64.lt_iff_toInt_lt.mp (h.accepts hc).1
    have hbase : form.base now = 0 := by
      cases form with
      | ex | px => rfl
      | exat | pxat => cases hduration
    rw [hbase, Int64.sub_zero] at hpos
    exact Int.le_of_lt hpos
  cases h with
  | set => exact hoptions (.inl rfl)
  | getex => exact hoptions (.inr rfl)
  | @expire key text opts _ obj _ hn hrange hfound hsets => simpa [Int64.lt_iff_toInt_lt] using hrange
  | @expireat key text opts _ obj _ hn hrange hfound hsets => cases hduration

/-- An object that is put without a time of its own has none, or that of the object before. -/
theorem inherits_put (slot : Slot) (keepTTL : Bool) (value : Value) :
    Inherits slot (slot.put keepTTL ⟨value, none⟩) := by
  unfold Slot.put
  split
  · next exp hexp =>
    split
    · obtain ⟨old, hold, hsame⟩ := Option.bind_eq_some_iff.mp hexp
      rintro _ ⟨⟩
      exact .inr ⟨old, hold, hsame⟩
    · exact inherits_fresh slot value
  · exact inherits_fresh slot value

section NotStored

variable {env : Env} {now : Int64} {args : List GoString} {slot : Slot}

/-- A SET that stores no expiry time leaves an object without one, or with the one that was found. -/
theorem inherits_evalSET (hsucceeds : (evalSET now args slot).1.succeeds = true)
    (hnone : ∀ form n, ¬Stores env now .set args slot form n) : Inherits (slot.get now) (evalSET now args slot).2 := by
  obtain ⟨key, value, opts, ps, ms, rfl, hparse, hconflict, hms⟩ := evalSET_succeeds hsucceeds
  obtain ⟨htime, -, -⟩ := (setConflict_eq_false_iff ps).mp hconflict
  rw [evalSET_eq hparse hconflict hms, setSlotWith]
  cases hskips : setSkips ps (slot.get now) with
  | true => exact inherits_refl _
  | false =>
    cases hgiven : timeGiven ps with
    | true =>
      obtain ⟨form, hform⟩ := TimeForm.exists_given hgiven
      obtain ⟨n, hn, -⟩ := (TimeForm.exDurationMs_eq_ok_iff htime hform "SET" now ms).mp hms
      exact absurd (.set hparse hconflict hms hskips hform hn) (hnone form n)
    | false =>
      rw [TimeForm.exDurationMs_of_not_given hgiven] at hms
      cases hms
      exact inherits_put _ _ _

/-- A GETEX that stores no expiry time leaves an object without one, or with the one that was found. -/
theorem inherits_evalGETEX (hsucceeds : (evalGETEX now args slot).1.succeeds = true)
    (hnone : ∀ form n, ¬Stores env now .getex args slot form n) :
    Inherits (slot.get now) (evalGETEX now args slot).2 := by
  obtain ⟨key, opts, ps, rest, ms, rfl, hparse, hconflict, hms⟩ := evalGETEX_succeeds hsucceeds
  obtain ⟨htime, -⟩ := Bool.or_eq_false_iff.mp hconflict
  rw [evalGETEX_eq hparse hconflict hms]
  cases hfound : slot.get now with
  | none => exact inherits_refl _
  | some obj =>
    cases hgiven : timeGiven ps with
    | true =>
      obtain ⟨form, hform⟩ := TimeForm.exists_given hgiven
      obtain ⟨n, hn, -⟩ := (TimeForm.exDurationMs_eq_ok_iff htime hform "GETEX" now ms).mp hms
      exact absurd (.getex hparse hconflict hms hfound hform hn) (hnone form n)
    | false =>
      rw [TimeForm.exDurationMs_of_not_given hgiven] at hms
      cases hms
      simp only [expirySlotWith, ne_eq, not_true_eq_false, if_false]
      split
      · exact inherits_fresh _ _
      · exact inherits_refl _

theorem inherits_evalEXPIRE (hsucceeds : (evalEXPIRE now args slot).1.succeeds = true)
    (hnone : ∀ form n, ¬Stores env now .expire args slot form n) :
    Inherits (slot.get now) (evalEXPIRE now args slot).2 := by
  unfold evalEXPIRE at hsucceeds ⊢
  split at hsucceeds
  · next key text opts =>
    split at hsucceeds
    · cases hsucceeds
    · next n hn =>
      split at hsucceeds
      · cases hsucceeds
      · next hrange =>
        rw [if_neg hrange]
        split at hsucceeds
        · exact inherits_none _
        · next obj hfound =>
          have hlive : Slot.get (some obj) now = some obj := Slot.get_found hfound
          have hsets : setsExpiry opts (now + n * 1000) obj.expiry = false :=
            eq_false_of_ne_true fun hsets => hnone .ex n (.expire hn hrange hfound hsets)
          simp only [evaluateAndSetExpiry_snd hlive, hsets, hfound]
          exact inherits_refl _
  · cases hsucceeds

theorem inherits_evalEXPIREAT (hsucceeds : (evalEXPIREAT env.maxAbsTimestamp now args slot).1.succeeds = true)
    (hnone : ∀ form n, ¬Stores env now .expireat args slot form n) :
    Inherits (slot.get now) (evalEXPIREAT env.maxAbsTimestamp now args slot).2 := by
  unfold evalEXPIREAT at hsucceeds ⊢
  split at hsucceeds
  · next key text opts =>
    split at hsucceeds
    · cases hsucceeds
    · next n hn =>
      split at hsucceeds
      · cases hsucceeds
      · next hrange =>
        rw [if_neg hrange]
        cases hfound : slot.get now with
        | none =>
          simp only [evaluateAndSetExpiry, hfound]
          exact inherits_none _
        | some obj =>
          have hsets : setsExpiry opts (n * 1000) obj.expiry = false :=
            eq_false_of_ne_true fun hsets => hnone .exat n (.expireat hn hrange hfound hsets)
          simp only [evaluateAndSetExpiry_snd hfound, hsets]
          exact inherits_refl _
  · cases hsucceeds

end NotStored

/-- The commands that take an expiry time. -/
def WriteCommand.timed : List WriteCommand := [.set, .getex, .expire, .expireat]

/-- A command that is accepted and stores no expiry time leaves an object without one, or with the one that
was found. -/
theorem inherits_of_not_stores (hc : c ∈ WriteCommand.timed)
    (hsucceeds : (c.eval env now args slot).1.succeeds = true)
    (hnone : ∀ form n, ¬Stores env now c args slot form n) :
    Inherits (slot.get now) (c.eval env now args slot).2 := by
  cases c with
  | set => exact inherits_evalSET hsucceeds hnone
  | getex => exact inherits_evalGETEX hsucceeds hnone
  | expire => exact inherits_evalEXPIRE hsucceeds hnone
  | expireat => exact inherits_evalEXPIREAT hsucceeds hnone
  | incr | decr | incrby | decrby | hset | zadd => simp [WriteCommand.timed] at hc

/-- For a clock up to 2 ^ 42 milliseconds and a command that is accepted: an expiry time that it stores is the
exact one, and not in the past for a duration, exactly when the clock is at a whole second for EXAT of SET and
GETEX, and the exact time is in the range of words for EXPIRE and EXPIREAT. Otherwise it stores no expiry time
of its own. -/
theorem stored_expiry_exact_iff (env : Env) (now : Int64) (hlow : 0 ≤ now.toInt) (hhigh : now.toInt ≤ 2 ^ 42)
    (c : WriteCommand) (hc : c ∈ WriteCommand.timed) (key : GoString) (args : List GoString) (s : Store)
    (hsucceeds : (execute env now ⟨c.text, key :: args⟩ s).1.succeeds = true) :
    (∀ form n, Stores env now c (key :: args) (s.slot key) form n →
        ((∃ value exp, (execute env now ⟨c.text, key :: args⟩ s).2.slot key = some ⟨value, some exp⟩ ∧
            exp.toInt = form.exact now.toInt n.toInt ∧ (form.isDuration = true → now ≤ exp)) ↔
          ExactWhen now.toInt n.toInt form c)) ∧
      ((∀ form n, ¬Stores env now c (key :: args) (s.slot key) form n) →
        Inherits ((s.slot key).get now) ((execute env now ⟨c.text, key :: args⟩ s).2.slot key)) := by
  rw [WriteCommand.execute_text] at hsucceeds ⊢
  simp only [slot_setSlot, if_true]
  refine ⟨fun form n hstores => ?_, inherits_of_not_stores hc hsucceeds⟩
  obtain ⟨value, hslot⟩ := hstores.eval_snd
  rw [hslot, ← hstores.exact_iff hlow hhigh]
  constructor
  · rintro ⟨_, exp, ⟨⟩, hexact, -⟩
    exact hexact
  · intro hexact
    refine ⟨value, _, rfl, hexact, fun hduration => ?_⟩
    have hpos := hstores.nonneg hduration
    rw [Int64.le_iff_toInt_le, hexact]
    cases form with
    | ex | px =>
      rw [TimeForm.exact]
      omega
    | exat | pxat => cases hduration

/-- SET for ten seconds, at a clock of 1500 milliseconds, stores 11500. -/
theorem stored_expiry_exact_ex :
    ∃ value exp, (execute bareEnv 1500 ⟨"SET", [ascii "k", ascii "v", ascii "EX", ascii "10"]⟩ ∅).2.slot (ascii "k") =
      some ⟨value, some exp⟩ ∧ exp.toInt = 11500 ∧ (TimeForm.ex.isDuration = true → 1500 ≤ exp) :=
  ((stored_expiry_exact_iff bareEnv 1500 (by decide) (by decide) .set (by decide) (ascii "k")
    [ascii "v", ascii "EX", ascii "10"] ∅ rfl).1 .ex 10
      (.set rfl rfl rfl rfl rfl rfl)).mpr nofun

/-- SET until second 2, at a clock of 1500 milliseconds, stores 2500. EXPIRE after the greatest number of
seconds stores a time before the clock, and the key is gone. -/
theorem stored_expiry_inexact :
    (execute bareEnv 1500 ⟨"SET", [ascii "k", ascii "v", ascii "EXAT", ascii "2"]⟩ ∅).2.slot (ascii "k") =
        some ⟨.str (ascii "v"), some 2500⟩ ∧
      (execute bareEnv 1500 ⟨"EXPIRE", [ascii "k", ascii "9223372036854775807"]⟩
        (Store.setSlot ∅ (ascii "k") (some ⟨.int 7, none⟩))).1 = .returns (okResult (.changed true)) ∧
      (execute bareEnv 1500 ⟨"EXPIRE", [ascii "k", ascii "9223372036854775807"]⟩
        (Store.setSlot ∅ (ascii "k") (some ⟨.int 7, none⟩))).2.slot (ascii "k") = some ⟨.int 7, some 500⟩ :=
  ⟨rfl, rfl, rfl⟩

end SevenDB.Cmd
