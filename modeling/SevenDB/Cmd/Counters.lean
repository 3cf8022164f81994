import SevenDB.Cmd.SetGet
import SevenDB.Cmd.WriteCommands

/-!
# Counters

INCR, DECR, INCRBY and DECRBY add to the integer under a key in words of 64 bits, and DECRBY negates its
argument in such words before. What is stored and returned is the word of the exact result, so it is the
exact result as long as that is in the range of words. Nothing is refused when it is not: the counter wraps.
-/

namespace SevenDB.Cmd

open SevenDB.Common SevenDB.Types SevenDB.Store

/-- The number that is counted from: zero without the key, none for an object that is no integer. -/
def counterValue : Slot → Option ℤ
  | none => some 0
  | some ⟨.int n, _⟩ => some n.toInt
  | some _ => none

/-- Adding to a counter stores and returns the word of the exact sum. -/
theorem doIncr_eq_of_counterValue {now : Int64} {slot : Slot} {old : ℤ}
    (hold : counterValue (slot.get now) = some old) (change : ℤ) :
    ∃ expiry, doIncr now (Int64.ofInt change) slot =
      (.returns (okResult (.number (Int64.ofInt (old + change)))),
        some ⟨.int (Int64.ofInt (old + change)), expiry⟩) := by
  unfold doIncr
  cases hfound : slot.get now with
  | none =>
    rw [hfound] at hold
    cases hold
    exact ⟨none, by simp [Slot.put, newObj]⟩
  | some obj =>
    obtain ⟨value, expiry⟩ := obj
    rw [hfound] at hold
    cases value with
    | int n =>
      cases hold
      exact ⟨expiry, by simp [Int64.ofInt_add]⟩
    | str _ | float _ | ssmap _ | sortedSet _ => cases hold

/-- Adding to an object that is no integer fails and leaves the object. -/
theorem doIncr_of_counterValue_eq_none {now : Int64} {slot : Slot} (h : counterValue (slot.get now) = none)
    (delta : Int64) : doIncr now delta slot = (.fails .wrongTypeOperation, slot.get now) := by
  unfold doIncr
  cases hfound : slot.get now with
  | none =>
    rw [hfound] at h
    cases h
  | some obj =>
    obtain ⟨value, expiry⟩ := obj
    rw [hfound] at h
    cases value with
    | int n => cases h
    | str _ | float _ | ssmap _ | sortedSet _ => rfl

namespace WriteCommand

def counters : List WriteCommand := [.incr, .decr, .incrby, .decrby]

/-- The exact number that a command adds; none when it refuses its arguments. -/
def change : WriteCommand → List GoString → Option ℤ
  | incr, [_] => some 1
  | decr, [_] => some (-1)
  | incrby, [_, text] => (parseInt text).map Int64.toInt
  | decrby, [_, text] => (parseInt text).map fun delta => -delta.toInt
  | _, _ => none

/-- A command with arguments that it accepts adds the word of its exact number. -/
theorem eval_of_change {c : WriteCommand} {args : List GoString} {d : ℤ} (h : c.change args = some d) (env : Env)
    (now : Int64) (slot : Slot) : c.eval env now args slot = doIncr now (Int64.ofInt d) slot := by
  unfold change at h
  split at h
  · cases h
    rfl
  · cases h
    rfl
  · next text =>
    obtain ⟨delta, hparse, rfl⟩ := Option.map_eq_some_iff.mp h
    simp [eval, evalINCRBY, evalIncrArg, hparse]
  · next text =>
    obtain ⟨delta, hparse, rfl⟩ := Option.map_eq_some_iff.mp h
    simp [eval, evalDECRBY, evalIncrArg, hparse, Int64.ofInt_neg]
  · cases h

/-- A command that counts and refuses its arguments fails and leaves the slot alone. -/
theorem eval_of_change_eq_none {c : WriteCommand} (hc : c ∈ counters) {args : List GoString}
    (h : c.change args = none) (env : Env) (now : Int64) (slot : Slot) :
    (c.eval env now args slot).1.succeeds = false ∧ (c.eval env now args slot).2 = slot := by
  have hfixed (command : String) (delta : Int64) (hargs : ∀ key, args ≠ [key]) :
      evalIncrFixed command delta now args slot = (.fails (.wrongArgumentCount command), slot) := by
    unfold evalIncrFixed
    split
    · next key => exact absurd rfl (hargs key)
    · rfl
  have harg (command : String) (f : Int64 → Int64) (hargs : ∀ key text, args = [key, text] → parseInt text = none) :
      (evalIncrArg command f now args slot).1.succeeds = false ∧ (evalIncrArg command f now args slot).2 = slot := by
    unfold evalIncrArg
    split
    · next key text =>
      rw [hargs key text rfl]
      exact ⟨rfl, rfl⟩
    · exact ⟨rfl, rfl⟩
  cases c with
  | incr =>
    rw [eval, evalINCR, hfixed "INCR" 1 fun key hargs => by simp [hargs, change] at h]
    exact ⟨rfl, rfl⟩
  | decr =>
    rw [eval, evalDECR, hfixed "DECR" (-1) fun key hargs => by simp [hargs, change] at h]
    exact ⟨rfl, rfl⟩
  | incrby => exact harg "INCRBY" id fun key text hargs => by simpa [hargs, change] using h
  | decrby => exact harg "DECRBY" (fun delta => -delta) fun key text hargs => by simpa [hargs, change] using h
  | set | getex | hset | zadd | expire | expireat => simp [counters] at hc

/-- A command counts exactly: it returns the exact sum and leaves it under the key, or it fails and leaves
what was found under the key. -/
def CountsExactly (env : Env) (now : Int64) (c : WriteCommand) (key : GoString) (args : List GoString) (s : Store) :
    Prop :=
  (∃ old d n expiry, counterValue ((s.slot key).get now) = some old ∧ c.change (key :: args) = some d ∧
      Int64.toInt n = old + d ∧
      (execute env now ⟨c.text, key :: args⟩ s).1 = .returns (okResult (.number n)) ∧
      (execute env now ⟨c.text, key :: args⟩ s).2.slot key = some ⟨.int n, expiry⟩) ∨
    ((execute env now ⟨c.text, key :: args⟩ s).1.succeeds = false ∧
      ((execute env now ⟨c.text, key :: args⟩ s).2.slot key).get now = (s.slot key).get now)

/-- What a command does when there is a number to count from and its arguments are accepted. -/
theorem execute_of_counterValue {now : Int64} {c : WriteCommand} {key : GoString} {args : List GoString} {s : Store}
    {old d : ℤ} (hold : counterValue ((s.slot key).get now) = some old) (hchange : c.change (key :: args) = some d)
    (env : Env) :
    ∃ expiry, execute env now ⟨c.text, key :: args⟩ s =
      (.returns (okResult (.number (Int64.ofInt (old + d)))),
        s.setSlot key (some ⟨.int (Int64.ofInt (old + d)), expiry⟩)) := by
  obtain ⟨expiry, heval⟩ := doIncr_eq_of_counterValue hold d
  exact ⟨expiry, by rw [execute_text, eval_of_change hchange, heval]⟩

theorem CountsExactly.inRange {env : Env} {now : Int64} {c : WriteCommand} {key : GoString} {args : List GoString}
    {s : Store} (h : CountsExactly env now c key args s) {old d : ℤ}
    (hold : counterValue ((s.slot key).get now) = some old) (hchange : c.change (key :: args) = some d) :
    InRange (old + d) := by
  obtain ⟨expiry, hrun⟩ := execute_of_counterValue hold hchange env
  rcases h with ⟨old', d', n, -, hold', hchange', hexact, -, -⟩ | ⟨hfails, -⟩
  · cases hold.symm.trans hold'
    cases hchange.symm.trans hchange'
    rw [← hexact]
    exact inRange_toInt n
  · rw [hrun] at hfails
    cases hfails

/-- A command that has nothing to count from, or refuses its arguments, fails and leaves what was found. -/
theorem execute_of_refused {now : Int64} {c : WriteCommand} {key : GoString} {args : List GoString} {s : Store}
    (hc : c ∈ counters) (h : c.change (key :: args) = none ∨ counterValue ((s.slot key).get now) = none) (env : Env) :
    (execute env now ⟨c.text, key :: args⟩ s).1.succeeds = false ∧
      ((execute env now ⟨c.text, key :: args⟩ s).2.slot key).get now = (s.slot key).get now := by
  simp only [execute_text, slot_setSlot, if_true]
  cases hchange : c.change (key :: args) with
  | none =>
    obtain ⟨hfails, hslot⟩ := eval_of_change_eq_none hc hchange env now (s.slot key)
    exact ⟨hfails, by rw [hslot]⟩
  | some d =>
    have hnone := h.resolve_left (by simp [hchange])
    rw [eval_of_change hchange, doIncr_of_counterValue_eq_none hnone]
    exact ⟨rfl, Slot.get_get _ _⟩

/-- A command counts exactly if and only if the exact result, when there is one, is in the range of words. -/
theorem countsExactly_iff (env : Env) (now : Int64) (c : WriteCommand) (hc : c ∈ counters) (key : GoString)
    (args : List GoString) (s : Store) :
    CountsExactly env now c key args s ↔
      ∀ old d, counterValue ((s.slot key).get now) = some old → c.change (key :: args) = some d →
        InRange (old + d) := by
  constructor
  · intro h old d hold hchange
    exact h.inRange hold hchange
  · intro hrange
    cases hchange : c.change (key :: args) with
    | none => exact .inr (execute_of_refused hc (.inl hchange) env)
    | some d =>
      cases hold : counterValue ((s.slot key).get now) with
      | none => exact .inr (execute_of_refused hc (.inr hold) env)
      | some old =>
        have hexact := (toInt_ofInt_iff (old + d)).mpr (hrange old d hold hchange)
        obtain ⟨expiry, hrun⟩ := execute_of_counterValue hold hchange env
        refine .inl ⟨old, d, _, expiry, hold, hchange, hexact, ?_, ?_⟩
        · rw [hrun]
        · rw [hrun, slot_setSlot, if_pos rfl]

/-- INCRBY adds two to a counter at seven. -/
theorem countsExactly_incrby :
    CountsExactly bareEnv 0 .incrby (ascii "k") [ascii "2"] (Store.setSlot ∅ (ascii "k") (some ⟨.int 7, none⟩)) :=
  (countsExactly_iff bareEnv 0 .incrby (by decide) (ascii "k") [ascii "2"]
    (Store.setSlot ∅ (ascii "k") (some ⟨.int 7, none⟩))).mpr fun old d hold hd => by
      cases (rfl : some 7 = counterValue _).trans hold
      cases (rfl : some 2 = change .incrby [ascii "k", ascii "2"]).trans hd
      decide

/-- INCR takes a counter from the greatest word to the least one, and DECRBY of the least word makes a new
counter with the least word. -/
theorem counters_wrap :
    (execute bareEnv 0 ⟨"INCR", [ascii "k"]⟩ (Store.setSlot ∅ (ascii "k") (some ⟨.int Int64.maxValue, none⟩))).1 =
        .returns (okResult (.number Int64.minValue)) ∧
      ¬CountsExactly bareEnv 0 .incr (ascii "k") []
        (Store.setSlot ∅ (ascii "k") (some ⟨.int Int64.maxValue, none⟩)) ∧
      (execute bareEnv 0 ⟨"DECRBY", [ascii "k", ascii "-9223372036854775808"]⟩ ∅).1 =
        .returns (okResult (.number Int64.minValue)) ∧
      ¬CountsExactly bareEnv 0 .decrby (ascii "k") [ascii "-9223372036854775808"] ∅ := by
  refine ⟨rfl, fun h => ?_, rfl, fun h => ?_⟩
  · exact absurd (@CountsExactly.inRange _ _ _ _ _ _ h (2 ^ 63 - 1) 1 rfl rfl) (by decide)
  · exact absurd (@CountsExactly.inRange _ _ _ _ _ _ h 0 (2 ^ 63) rfl rfl) (by decide)

end WriteCommand

end SevenDB.Cmd
