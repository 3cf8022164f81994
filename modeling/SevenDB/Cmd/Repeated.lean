import SevenDB.Cmd.Steady

/-!
# What is left in a slot when a command is repeated later

A command that succeeded on a slot is executed again at a later time. It does the same when the expiry times
involved are still ahead and are given as points in time in milliseconds: then SET and GETEX compute the same
expiry time from a different duration. A duration gives another expiry time, and so does a point in time in
seconds, which is made a duration in whole seconds.
-/

namespace SevenDB.Cmd

open SevenDB.Common SevenDB.Types SevenDB.Store

/-- The expiry time in a slot, if there is one, is of some kind. -/
def ExpiriesIn (P : Int64 → Prop) (slot : Slot) : Prop := ∀ obj ∈ slot, ∀ exp ∈ obj.expiry, P exp

/-- All expiry times in a store are of some kind. -/
def StoreExpiriesIn (P : Int64 → Prop) (s : Store) : Prop := ∀ key, ExpiriesIn P (s.slot key)

variable {P : Int64 → Prop}

theorem expiriesIn_none : ExpiriesIn P none := fun _ hobj => by cases hobj

theorem expiriesIn_some {value : Value} {expiry : Option Int64} (h : ∀ exp ∈ expiry, P exp) :
    ExpiriesIn P (some ⟨value, expiry⟩) := by
  rintro obj ⟨⟩
  exact h

theorem storeExpiriesIn_empty : StoreExpiriesIn P ∅ := fun key => by
  have hempty : Store.slot ∅ key = none := rfl
  rw [hempty]
  exact expiriesIn_none

variable {slot : Slot} {v : Int64} {args : List GoString}

theorem StoreExpiriesIn.setSlot {s : Store} (hs : StoreExpiriesIn P s) {key : GoString}
    (hslot : ExpiriesIn P slot) : StoreExpiriesIn P (s.setSlot key slot) := by
  intro other
  rw [slot_setSlot]
  split
  · exact hslot
  · exact hs other

theorem ExpiriesIn.of_inherits {before after : Slot} (h : ExpiriesIn P before) (hinherits : Inherits before after) :
    ExpiriesIn P after := by
  intro obj hobj exp hexp
  rcases hinherits obj hobj with hnone | ⟨old, hold, hsame⟩
  · rw [hnone] at hexp
    cases hexp
  · exact h old hold exp (hsame ▸ hexp)

theorem ExpiriesIn.get_eq {now : Int64} (h : ExpiriesIn P slot) (hP : ∀ exp, P exp → now < exp) :
    slot.get now = slot := by
  cases slot with
  | none => rfl
  | some obj =>
    rw [Slot.get_some, if_neg]
    unfold Entry.hasExpired
    cases hexp : obj.expiry with
    | none => simp
    | some exp =>
      have hahead := hP exp (h obj rfl exp hexp)
      simpa using hahead

/-- An object is found at two times as long as its expiry time is ahead. -/
theorem ExpiriesIn.get_eq_both {now later : Int64} (h : ExpiriesIn P slot)
    (hP : ∀ exp, P exp → now ≤ later ∧ later < exp) : slot.get now = slot ∧ slot.get later = slot := by
  constructor
  · exact h.get_eq fun exp hexp => Int64.lt_of_le_of_lt (hP exp hexp).1 (hP exp hexp).2
  · exact h.get_eq fun exp hexp => (hP exp hexp).2

section Repeats

variable (P) (now later : Int64)

/-- A command on one key that succeeded succeeds later as well and leaves the same, with expiry times of
the kind. -/
def Repeats (eval again : Eval) (args : List GoString) : Prop :=
  ∀ slot, ExpiriesIn P slot → (eval now args slot).1.succeeds = true →
    (again later args slot).1.succeeds = true ∧ (again later args slot).2 = (eval now args slot).2 ∧
      ExpiriesIn P (eval now args slot).2

end Repeats

variable {now later : Int64}

theorem Steady.repeats {eval : Eval} (h : Steady eval) (hP : ∀ exp, P exp → now ≤ later ∧ later < exp)
    (args : List GoString) : Repeats P now later eval eval args := by
  intro slot hslot hsucceeds
  obtain ⟨hnow, hlater⟩ := hslot.get_eq_both hP
  obtain ⟨hsame, hslots⟩ := h.same args hnow hlater
  exact ⟨hsame.trans hsucceeds, hslots, hslot.of_inherits (h.inherits hnow)⟩

/-- The options give no duration, and no point in time in seconds, and their point in time in milliseconds
is of some kind. -/
def AbsoluteOnly (P : Int64 → Prop) (ps : Params) : Prop :=
  ps.given .ex = false ∧ ps.given .px = false ∧ ps.given .exat = false ∧
    (ps.given .pxat = true → ∀ v ∈ parseInt (ps .pxat), P v)

/-- Without durations and points in time in seconds, only the point in time in milliseconds counts. -/
theorem AbsoluteOnly.exDurationMs_eq {ps : Params} (hps : AbsoluteOnly P ps) (command : String) (now : Int64) :
    exDurationMs command now ps = durationOption command ps .pxat now 1 (maxEXDurationSec * 1000) (-1) := by
  obtain ⟨hex, hpx, hexat, -⟩ := hps
  simp [exDurationMs, durationOption, hex, hpx, hexat, Except.bind]

/-- A duration to a point in time that is still ahead gets shorter as time goes on. -/
theorem sub_bounds_later {bound : Int64} (hpos : 0 < v - now) (hbound : v - now < bound) (hle : now ≤ later)
    (hahead : later < v) : 0 < v - later ∧ v - later < bound := by
  have hv := Int64.toInt_lt v
  have hnow := Int64.le_toInt now
  simp only [Int64.lt_iff_toInt_lt, Int64.le_iff_toInt_le, Int64.toInt_zero, Int64.toInt_sub, Int.bmod_def] at *
  split at hpos
  · next hsmall =>
    rw [if_pos hsmall] at hbound
    rw [if_pos (by omega)]
    omega
  · omega

/-- The options that were accepted are accepted later: there is no expiry time, or the same point in time. -/
theorem exDurationMs_later {command : String} {ps : Params} {ms : Int64} (hps : AbsoluteOnly P ps)
    (hP : ∀ exp, P exp → now ≤ later ∧ later < exp) (h : exDurationMs command now ps = .ok ms) :
    (exDurationMs command later ps = .ok (-1) ∧ ms = -1) ∨
      ∃ v, P v ∧ exDurationMs command later ps = .ok (v - later) ∧ ms = v - now ∧ 0 < v - now ∧ 0 < v - later := by
  rw [hps.exDurationMs_eq] at h ⊢
  unfold durationOption at h ⊢
  by_cases hgiven : ps.given .pxat = true
  · rw [if_pos hgiven] at h ⊢
    cases hparse : parseInt (ps .pxat) with
    | none =>
      rw [hparse] at h
      cases h
    | some v =>
      obtain ⟨hle, hahead⟩ := hP v (hps.2.2.2 hgiven v hparse)
      rw [hparse] at h
      dsimp only at h ⊢
      split at h
      · cases h
      · next hrange =>
        rw [not_or, Int64.not_le, Int64.not_le] at hrange
        have hlater := sub_bounds_later hrange.1 hrange.2 hle hahead
        cases h
        rw [if_neg (by rw [not_or, Int64.not_le, Int64.not_le]; exact hlater), Int64.mul_one, Int64.mul_one]
        exact .inr ⟨v, hps.2.2.2 hgiven v hparse, rfl, rfl, hrange.1, hlater.1⟩
  · rw [if_neg hgiven] at h ⊢
    cases h
    exact .inl ⟨rfl, rfl⟩

/-- An object that is made for the time to a point in time expires then. -/
theorem newObj_sub (hpos : 0 < v - now) (value : Value) : newObj now value (v - now) = ⟨value, some v⟩ := by
  rw [newObj, if_pos (Int64.le_of_lt hpos), Int64.add_comm, Int64.sub_add_cancel]

/-- An object that is put under a key has its own expiry time or that of the object before. -/
theorem expiriesIn_put (hslot : ExpiriesIn P slot) (keepTTL : Bool) {obj : Entry}
    (hobj : ∀ exp ∈ obj.expiry, P exp) : ExpiriesIn P (slot.put keepTTL obj) := by
  unfold Slot.put
  split
  · next exp hexp =>
    split
    · apply expiriesIn_some
      rintro _ ⟨⟩
      obtain ⟨old, hold, hsame⟩ := Option.bind_eq_some_iff.mp hexp
      exact hslot old hold exp hsame
    · exact expiriesIn_some hobj
  · exact expiriesIn_some hobj

theorem repeats_evalSET (hP : ∀ exp, P exp → now ≤ later ∧ later < exp)
    (hargs : ∀ read ∈ parseParams (args.drop 2), AbsoluteOnly P read.1) :
    Repeats P now later evalSET evalSET args := by
  intro slot hslot hsucceeds
  obtain ⟨hnow, hlater⟩ := hslot.get_eq_both hP
  obtain ⟨key, value, opts, ps, ms, rfl, hparse, hconflict, hms⟩ := evalSET_succeeds hsucceeds
  have hputs (obj : Entry) (hobj : ∀ exp ∈ obj.expiry, P exp) :
      ExpiriesIn P (if setSkips ps slot then slot else slot.put (ps.given .keepttl) obj) := by
    split
    · exact hslot
    · exact expiriesIn_put hslot _ hobj
  rw [evalSET_eq hparse hconflict hms, hnow, setSlotWith, createObjectFromValue]
  rcases exDurationMs_later (hargs (ps, []) hparse) hP hms with ⟨hagain, rfl⟩ | ⟨v, hv, hagain, rfl, hpos, hposLater⟩
  · rw [evalSET_eq hparse hconflict hagain, hlater, setSlotWith, createObjectFromValue, newObj_forever,
      newObj_forever]
    exact ⟨rfl, rfl, hputs _ fun exp hexp => by cases hexp⟩
  · rw [evalSET_eq hparse hconflict hagain, hlater, setSlotWith, createObjectFromValue, newObj_sub hpos,
      newObj_sub hposLater]
    exact ⟨rfl, rfl, hputs _ fun exp hexp => by cases hexp; exact hv⟩

theorem expirySlotWith_forever (ps : Params) (slot : Slot) :
    expirySlotWith later ps (-1) slot = expirySlotWith now ps (-1) slot := by
  cases slot with
  | none => rfl
  | some obj => simp [expirySlotWith]

/-- GETEX with a point in time leaves the same at all times before it. -/
theorem expirySlotWith_sub (hpos : 0 < v - now) (hposLater : 0 < v - later) (ps : Params) (slot : Slot) :
    expirySlotWith later ps (v - later) slot = expirySlotWith now ps (v - now) slot := by
  have hne {time : Int64} (h : 0 < v - time) : v - time ≠ -1 := by
    intro hminus
    rw [hminus] at h
    revert h
    decide
  cases slot with
  | none => rfl
  | some obj =>
    rw [expirySlotWith, expirySlotWith, if_pos (hne hpos), if_pos (hne hposLater), Int64.add_comm, Int64.sub_add_cancel,
      Int64.add_comm, Int64.sub_add_cancel]

theorem expiriesIn_expirySlotWith (hslot : ExpiriesIn P slot) (ps : Params) {ms : Int64}
    (hms : ms ≠ -1 → P (now + ms)) : ExpiriesIn P (expirySlotWith now ps ms slot) := by
  cases slot with
  | none => exact expiriesIn_none
  | some obj =>
    rw [expirySlotWith]
    split
    · exact expiriesIn_some fun exp hexp => by cases hexp
    · split
      · next hne => exact expiriesIn_some fun exp hexp => by cases hexp; exact hms hne
      · exact hslot

theorem repeats_evalGETEX (hP : ∀ exp, P exp → now ≤ later ∧ later < exp)
    (hargs : ∀ read ∈ readParams getexAccepts .none (args.drop 1), AbsoluteOnly P read.1) :
    Repeats P now later evalGETEX evalGETEX args := by
  intro slot hslot hsucceeds
  obtain ⟨hnow, hlater⟩ := hslot.get_eq_both hP
  obtain ⟨key, opts, ps, rest, ms, rfl, hparse, hconflict, hms⟩ := evalGETEX_succeeds hsucceeds
  rw [evalGETEX_eq hparse hconflict hms, hnow]
  rcases exDurationMs_later (hargs (ps, rest) hparse) hP hms with ⟨hagain, rfl⟩ | ⟨v, hv, hagain, rfl, hpos, hposLater⟩
  · rw [evalGETEX_eq hparse hconflict hagain, hlater]
    exact ⟨rfl, expirySlotWith_forever ps slot, expiriesIn_expirySlotWith hslot ps fun hne => absurd rfl hne⟩
  · rw [evalGETEX_eq hparse hconflict hagain, hlater]
    refine ⟨rfl, expirySlotWith_sub hpos hposLater ps slot, expiriesIn_expirySlotWith hslot ps fun _ => ?_⟩
    rw [Int64.add_comm, Int64.sub_add_cancel]
    exact hv

theorem expiriesIn_evaluateAndSetExpiry (hslot : ExpiriesIn P slot) (hnow : slot.get now = slot)
    (subCommands : List GoString) {newExpiry : Int64} (hnew : P newExpiry) :
    ExpiriesIn P (evaluateAndSetExpiry subCommands newExpiry now slot).2 := by
  have hset (obj : Entry) : ExpiriesIn P (some { obj with expiry := some newExpiry }) :=
    expiriesIn_some fun exp hexp => by cases hexp; exact hnew
  unfold evaluateAndSetExpiry
  rw [hnow]
  cases slot with
  | none => exact expiriesIn_none
  | some obj =>
    dsimp only
    split_ifs
    · exact hset obj
    · split
      · exact hslot
      · split_ifs
        · exact hslot
        · exact hslot
        · exact hset obj
        · exact hset obj
        · exact hslot

/-- EXPIREAT is repeated when its time is of the kind, by a server that accepts as late times. -/
theorem repeats_evalEXPIREAT (hP : ∀ exp, P exp → now ≤ later ∧ later < exp) {maxNow maxLater : Int64}
    (hmax : ∀ exp, P exp → maxNow ≤ maxLater) (hargs : ∀ text ∈ args[1]?, ∀ sec ∈ parseInt text, P (sec * 1000)) :
    Repeats P now later (evalEXPIREAT maxNow) (evalEXPIREAT maxLater) args := by
  intro slot hslot hsucceeds
  obtain ⟨hnow, hlater⟩ := hslot.get_eq_both hP
  unfold evalEXPIREAT at hsucceeds ⊢
  split at hsucceeds
  · next key text opts =>
    dsimp only
    cases hparse : parseInt text with
    | none =>
      rw [hparse] at hsucceeds
      cases hsucceeds
    | some sec =>
      rw [hparse] at hsucceeds
      dsimp only at hsucceeds ⊢
      split at hsucceeds
      · cases hsucceeds
      · next haccepted =>
        have hagain : ¬(sec < 0 ∨ maxLater < sec) := by
          rw [not_or, Int64.not_lt, Int64.not_lt] at haccepted ⊢
          exact ⟨haccepted.1, Int64.le_trans haccepted.2 (hmax _ (hargs text rfl sec hparse))⟩
        have hsame : evaluateAndSetExpiry opts (sec * 1000) later slot =
            evaluateAndSetExpiry opts (sec * 1000) now slot := by
          simp only [evaluateAndSetExpiry, hnow, hlater]
        rw [if_neg hagain, if_neg haccepted, hsame]
        exact ⟨hsucceeds, rfl, expiriesIn_evaluateAndSetExpiry hslot hnow opts (hargs text rfl sec hparse)⟩
  · cases hsucceeds

end SevenDB.Cmd
