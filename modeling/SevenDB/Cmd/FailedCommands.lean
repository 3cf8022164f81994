import SevenDB.Cmd.SetGet
import SevenDB.Cmd.WriteCommands

/-!
# Commands that report an error

A command that reports an error leaves what is found under every key as it was, with two exceptions. ZADD on
a missing key puts an empty sorted set there before the options are checked, and leaves it when they are
refused. GETEX sets or removes the expiry time before it finds that the object has no text to return.
-/

namespace SevenDB.Cmd

open SevenDB.Common SevenDB.Types SevenDB.Store

/-- A command reports an error: it returns one, or a result with the status of one. -/
def Outcome.isError : Outcome → Bool
  | returns result => decide (result.status = .err)
  | fails _ => true
  | panics => false

/-- A command that reports an error leaves what is found under its key. -/
def LeavesOnError (eval : Eval) : Prop :=
  ∀ now args slot, (eval now args slot).1.isError = true → (eval now args slot).2.get now = slot.get now

theorem leavesOnError_evalSET : LeavesOnError evalSET := by
  intro now args slot h
  unfold evalSET at h ⊢
  split at h
  · split at h
    · cases h
    · split at h
      · next hrefused => simp only [hrefused, if_true]
      · next haccepted =>
        simp only [haccepted, if_false]
        split at h
        · rfl
        · simp only at h
          split at h <;> cases h
  · rfl

variable {now : Int64} {slot : Slot}

/-- Adding to a counter leaves what is found when it reports an error. -/
theorem doIncr_of_isError {delta : Int64} (h : (doIncr now delta slot).1.isError = true) :
    (doIncr now delta slot).2.get now = slot.get now := by
  unfold doIncr at h ⊢
  split at h
  · cases h
  · cases h
  · next hfound => rw [Slot.get_found hfound, hfound]

/-- A command that adds a fixed number leaves what is found when it reports an error. -/
theorem leavesOnError_evalIncrFixed (command : String) (delta : Int64) :
    LeavesOnError (evalIncrFixed command delta) := by
  intro now args slot h
  unfold evalIncrFixed at h ⊢
  split at h
  · exact doIncr_of_isError h
  · rfl

/-- A command that adds an argument leaves what is found when it reports an error. -/
theorem leavesOnError_evalIncrArg (command : String) (change : Int64 → Int64) :
    LeavesOnError (evalIncrArg command change) := by
  intro now args slot h
  unfold evalIncrArg at h ⊢
  split at h
  · split at h
    · rfl
    · exact doIncr_of_isError h
  · rfl

theorem leavesOnError_evalHSET : LeavesOnError evalHSET := by
  have hset {found : Slot} {m : Table GoString GoString} {now : Int64} {kvs : List GoString}
      (h : (evalHSET.setInto found m now kvs).1.isError = true) : (evalHSET.setInto found m now kvs).2 = found := by
    unfold evalHSET.setInto at h ⊢
    split at h
    · next hodd => rw [if_pos hodd]
    · cases h
  intro now args slot h
  unfold evalHSET at h ⊢
  split at h
  · split at h
    · next hfound => rw [hset h, Slot.get_found hfound, hfound]
    · next hfound => rw [Slot.get_found hfound, hfound]
    · next hfound => rw [hset h, Slot.get_found hfound, hfound]
  · rfl

/-- Setting an expiry time leaves what is found when it reports an error. -/
theorem evaluateAndSetExpiry_of_isError {opts : List GoString} {newExpiry : Int64}
    (h : (expiryOutcome (evaluateAndSetExpiry opts newExpiry now slot).1).isError = true) :
    (evaluateAndSetExpiry opts newExpiry now slot).2 = slot.get now := by
  unfold evaluateAndSetExpiry at h ⊢
  split at h
  · next hfound => rw [hfound]
  · next obj hfound =>
    rw [hfound]
    simp only at h ⊢
    split at h
    · cases h
    · next hopts =>
      rw [if_neg hopts]
      split at h
      · rfl
      · split at h
        · next hgtlt => rw [if_pos hgtlt]
        · next hgtlt =>
          rw [if_neg hgtlt]
          split at h
          · next hnx => rw [if_pos hnx]
          · split at h
            · cases h
            · split at h <;> cases h

theorem leavesOnError_evalEXPIRE : LeavesOnError evalEXPIRE := by
  intro now args slot h
  unfold evalEXPIRE at h ⊢
  split at h
  · split at h
    · rfl
    · split at h
      · next hneg => rw [if_pos hneg]
      · next hneg =>
        rw [if_neg hneg]
        split at h
        · next hfound => rw [Slot.get_none, hfound]
        · next hfound =>
          have hleft := evaluateAndSetExpiry_of_isError h
          rw [Slot.get_found hfound] at hleft
          simp only [hfound, hleft, Slot.get_found hfound]
  · rfl

theorem leavesOnError_evalEXPIREAT (maxAbsTimestamp : Int64) : LeavesOnError (evalEXPIREAT maxAbsTimestamp) := by
  intro now args slot h
  unfold evalEXPIREAT at h ⊢
  split at h
  · split at h
    · rfl
    · split at h
      · next hrefused => rw [if_pos hrefused]
      · next haccepted =>
        rw [if_neg haccepted]
        simp only [evaluateAndSetExpiry_of_isError h, Slot.get_get]
  · rfl

/-- Options that ZADD refuses: NX together with XX, GT or LT, GT with LT, or INCR of several pairs. -/
def Conflict (ps : Params) (pairs : List (Int64 × GoString)) : Prop :=
  ps.given .nx = true ∧ (ps.given .xx = true ∨ ps.given .gt = true ∨ ps.given .lt = true) ∨
    ps.given .gt = true ∧ ps.given .lt = true ∨ ps.given .incr = true ∧ 1 < pairs.length

/-- The words of a ZADD behind its key can be read, and its options are refused. -/
def RefusedOptions (words : List GoString) : Prop :=
  ∃ ps nonParams pairs, 2 ≤ words.length ∧ parseParams words = some (ps, nonParams) ∧ nonParams.length % 2 = 0 ∧
    readScores nonParams = some pairs ∧ Conflict ps pairs

/-- A sorted set refuses only options in conflict. -/
theorem conflict_of_zadd {s : SortedSet} {ps : Params} {pairs : List (Int64 × GoString)} {e : SortedSet.ZAddError}
    (h : SortedSet.tableLib.zadd s ps pairs = .error e) : Conflict ps pairs := by
  unfold SortedSetLib.zadd at h
  split at h
  · next hxx => exact .inl (by simp_all)
  · split at h
    · next hgt =>
      simp only [Bool.or_eq_true, Bool.and_eq_true] at hgt
      unfold Conflict
      tauto
    · split at h
      · next hincr => exact .inr (.inr (by simpa using hincr))
      · split at h <;> cases h

/-- ZADD that reports an error leaves what is found, unless nothing is found and its options are refused. -/
theorem evalZADD_leaves_iff {key : GoString} {words : List GoString}
    (h : (evalZADD now (key :: words) slot).1.isError = true) :
    (evalZADD now (key :: words) slot).2.get now = slot.get now ↔ ¬(slot.get now = none ∧ RefusedOptions words) := by
  have hadd {ps : Params} {pairs : List (Int64 × GoString)} {s : SortedSet} {expiry : Option Int64}
      (h : (evalZADD.addTo ps pairs s expiry).1.isError = true) :
      Conflict ps pairs ∧ (evalZADD.addTo ps pairs s expiry).2 = some ⟨.sortedSet s, expiry⟩ := by
    unfold evalZADD.addTo at h ⊢
    split at h
    · next e he => exact ⟨conflict_of_zadd he, rfl⟩
    · cases h
  rcases words with - | ⟨first, - | ⟨second, more⟩⟩
  · simp [evalZADD, RefusedOptions]
  · simp [evalZADD, RefusedOptions]
  · simp only [evalZADD, RefusedOptions] at h ⊢
    cases hparse : parseParams (first :: second :: more) with
    | none =>
      rw [hparse] at h
      cases h
    | some parsed =>
      obtain ⟨ps, nonParams⟩ := parsed
      rw [hparse] at h
      dsimp only at h ⊢
      split at h
      · next hodd => simp [hodd]
      · next heven =>
        rw [if_neg heven]
        cases hpairs : readScores nonParams with
        | none => simp [hpairs]
        | some pairs =>
          rw [hpairs] at h
          dsimp only at h ⊢
          split at h
          · next hfound =>
            obtain ⟨hrefused, hleft⟩ := hadd h
            simp [hrefused, hleft, hfound, hpairs, not_not.mp heven, Slot.get_some, Entry.hasExpired]
          · next hfound =>
            obtain ⟨-, hleft⟩ := hadd h
            rw [hleft, hfound, Slot.get_found hfound]
            simp
          · next hfound =>
            rw [hfound, Slot.get_found hfound]
            simp

/-- GETEX with these options asks for another expiry time than an object has. -/
def Retimes (now : Int64) (opts : List GoString) (obj : Entry) : Prop :=
  ∃ ps rest ms, readParams getexAccepts .none opts = some (ps, rest) ∧
    (timeConflict ps || (ps.given .persist && timeGiven ps)) = false ∧ exDurationMs "GETEX" now ps = .ok ms ∧
    ((ps.given .persist = true ∧ obj.expiry ≠ none) ∨
      (ps.given .persist = false ∧ ms ≠ -1 ∧ obj.expiry ≠ some (now + ms)))

/-- The options of GETEX leave an object as it is unless they ask for another expiry time. -/
theorem expirySlotWith_ne_iff (now : Int64) (ps : Params) (ms : Int64) (obj : Entry) :
    expirySlotWith now ps ms (some obj) ≠ some obj ↔
      (ps.given .persist = true ∧ obj.expiry ≠ none) ∨
        (ps.given .persist = false ∧ ms ≠ -1 ∧ obj.expiry ≠ some (now + ms)) := by
  obtain ⟨value, expiry⟩ := obj
  unfold expirySlotWith
  cases ps.given .persist with
  | true => simp [eq_comm]
  | false =>
    by_cases hms : ms = -1
    · simp [hms]
    · simp [hms, eq_comm]

/-- GETEX reports an error with a result only for an object without a text. -/
theorem isError_valueResult (h : (Outcome.returns (valueResult slot)).isError = true) :
    ∃ obj, slot = some obj ∧ getWireValue obj.value = none := by
  unfold valueResult at h
  split at h
  · cases h
  · next obj =>
    split at h
    · cases h
    · next htext => exact ⟨obj, rfl, htext⟩

theorem evalGETEX_of_not_succeeds {args : List GoString} (h : (evalGETEX now args slot).1.succeeds = false) :
    (evalGETEX now args slot).2 = slot := by
  unfold evalGETEX at h ⊢
  split at h
  · rfl
  · split at h
    · rfl
    · split at h
      · next hconflict => rw [if_pos hconflict]
      · next hconflict =>
        rw [if_neg hconflict]
        split at h
        · rfl
        · split at h <;> cases h

/-- GETEX that reports an error leaves what is found, unless this is an object without a text and the options
ask for another expiry time. -/
theorem evalGETEX_leaves_iff (key : GoString) {opts : List GoString}
    (h : (evalGETEX now (key :: opts) slot).1.isError = true) :
    (evalGETEX now (key :: opts) slot).2.get now = slot.get now ↔
      ¬∃ obj, slot.get now = some obj ∧ getWireValue obj.value = none ∧ Retimes now opts obj := by
  cases hsucceeds : (evalGETEX now (key :: opts) slot).1.succeeds with
  | false =>
    rw [evalGETEX_of_not_succeeds hsucceeds]
    refine iff_of_true rfl ?_
    rintro ⟨obj, -, -, ps, rest, ms, hparse, hconflict, hms, -⟩
    rw [evalGETEX_eq hparse hconflict hms] at hsucceeds
    cases hsucceeds
  | true =>
    obtain ⟨key', opts', ps, rest, ms, hargs, hparse, hconflict, hms⟩ := evalGETEX_succeeds hsucceeds
    cases hargs
    rw [evalGETEX_eq hparse hconflict hms] at h ⊢
    obtain ⟨obj, hfound, htext⟩ := isError_valueResult h
    have hlive : Slot.get (some obj) now = some obj := Slot.get_found hfound
    have hchanged : (∃ obj', some obj = some obj' ∧ getWireValue obj'.value = none ∧ Retimes now opts obj') ↔
        expirySlotWith now ps ms (some obj) ≠ some obj := by
      rw [expirySlotWith_ne_iff]
      constructor
      · rintro ⟨_, ⟨⟩, -, ps', rest', ms', hparse', -, hms', hother⟩
        cases hparse.symm.trans hparse'
        cases hms.symm.trans hms'
        exact hother
      · intro hother
        exact ⟨obj, rfl, htext, ps, rest, ms, hparse, hconflict, hms, hother⟩
    rw [hfound, hchanged, not_not]
    constructor
    · intro hleft
      exact (Slot.get_eq_self (by simp [hleft])).symm.trans hleft
    · intro hsame
      rw [hsame, hlive]

namespace WriteCommand

/-- What makes a command change the store although it reports an error: ZADD finds nothing and its options
are refused by the sorted set, or GETEX finds an object without a text and is asked for another expiry
time. -/
def ChangesOnError (now : Int64) (c : WriteCommand) (args : List GoString) (s : Store) : Prop :=
  ∃ key rest, args = key :: rest ∧
    ((c = .zadd ∧ (s.slot key).get now = none ∧ RefusedOptions rest) ∨
      (c = .getex ∧ ∃ obj, (s.slot key).get now = some obj ∧ getWireValue obj.value = none ∧ Retimes now rest obj))

/-- A command that reports an error leaves what is found under its key, with the two exceptions. -/
theorem eval_leaves_iff {env : Env} {now : Int64} {c : WriteCommand} {key : GoString} {rest : List GoString}
    {s : Store} (h : (c.eval env now (key :: rest) (s.slot key)).1.isError = true) :
    (c.eval env now (key :: rest) (s.slot key)).2.get now = (s.slot key).get now ↔
      ¬ChangesOnError now c (key :: rest) s := by
  have hleaves (hother : c ≠ .zadd ∧ c ≠ .getex) (heval : LeavesOnError (c.eval env)) :
      (c.eval env now (key :: rest) (s.slot key)).2.get now = (s.slot key).get now ↔
        ¬ChangesOnError now c (key :: rest) s := by
    refine iff_of_true (heval now (key :: rest) (s.slot key) h) ?_
    rintro ⟨_, _, ⟨⟩, ⟨hzadd, -⟩ | ⟨hgetex, -⟩⟩
    · exact hother.1 hzadd
    · exact hother.2 hgetex
  cases c with
  | set => exact hleaves (by decide) leavesOnError_evalSET
  | incr | decr => exact hleaves (by decide) (leavesOnError_evalIncrFixed _ _)
  | incrby | decrby => exact hleaves (by decide) (leavesOnError_evalIncrArg _ _)
  | hset => exact hleaves (by decide) leavesOnError_evalHSET
  | expire => exact hleaves (by decide) leavesOnError_evalEXPIRE
  | expireat => exact hleaves (by decide) (leavesOnError_evalEXPIREAT _)
  | getex =>
    refine (evalGETEX_leaves_iff key h).trans (not_congr ?_)
    simp [ChangesOnError]
  | zadd =>
    refine (evalZADD_leaves_iff h).trans (not_congr ?_)
    simp [ChangesOnError]

/-- A command that reports an error leaves what is found under every key, exactly when it is neither a ZADD
whose options are refused by the sorted set on a missing key, nor a GETEX with another expiry time for an
object without a text. -/
theorem error_changes_nothing_iff (env : Env) (now : Int64) (c : WriteCommand) (args : List GoString) (s : Store)
    (herror : (execute env now ⟨c.text, args⟩ s).1.isError = true) :
    (∀ key, ((execute env now ⟨c.text, args⟩ s).2.slot key).get now = (s.slot key).get now) ↔
      ¬ChangesOnError now c args s := by
  cases args with
  | nil =>
    refine iff_of_true (fun key => by rw [execute_text_nil]) ?_
    rintro ⟨_, _, ⟨⟩, -⟩
  | cons key rest =>
    rw [execute_text] at herror ⊢
    rw [← eval_leaves_iff herror]
    constructor
    · intro hall
      have hkey := hall key
      rwa [slot_setSlot, if_pos rfl] at hkey
    · intro hkey other
      rw [slot_setSlot]
      split
      · next heq => rw [heq, hkey]
      · rfl

/-- EXPIRE with an unknown option reports an error and leaves a counter as it was. -/
theorem error_changes_nothing_expire :
    ((execute bareEnv 0 ⟨"EXPIRE", [ascii "k", ascii "5", ascii "YY"]⟩
        (Store.setSlot ∅ (ascii "k") (some ⟨.int 7, none⟩))).2.slot (ascii "k")).get 0 = some ⟨.int 7, none⟩ :=
  (error_changes_nothing_iff bareEnv 0 .expire [ascii "k", ascii "5", ascii "YY"]
    (Store.setSlot ∅ (ascii "k") (some ⟨.int 7, none⟩)) rfl).mpr
    (by rintro ⟨_, _, -, ⟨⟨⟩, -⟩ | ⟨⟨⟩, -⟩⟩) (ascii "k")

/-- ZADD with NX and XX fails on a missing key and leaves an empty sorted set there. GETEX with PERSIST
reports an unknown object type for a hash and removes its expiry time. -/
theorem errors_change_store :
    (execute bareEnv 0 ⟨"ZADD", [ascii "k", ascii "NX", ascii "XX", ascii "1", ascii "m"]⟩ ∅).1 =
        .fails (.zadd .xxAndNx) ∧
      ((execute bareEnv 0 ⟨"ZADD", [ascii "k", ascii "NX", ascii "XX", ascii "1", ascii "m"]⟩ ∅).2.slot
        (ascii "k")).get 0 = some ⟨.sortedSet ∅, none⟩ ∧
      (execute bareEnv 0 ⟨"GETEX", [ascii "k", ascii "PERSIST"]⟩
        (Store.setSlot ∅ (ascii "k") (some ⟨.ssmap ∅, some 5000⟩))).1 =
        .returns ⟨.err, "unknown object type", .empty⟩ ∧
      ((execute bareEnv 0 ⟨"GETEX", [ascii "k", ascii "PERSIST"]⟩
        (Store.setSlot ∅ (ascii "k") (some ⟨.ssmap ∅, some 5000⟩))).2.slot (ascii "k")).get 0 =
        some ⟨.ssmap ∅, none⟩ :=
  ⟨rfl, rfl, rfl, rfl⟩

end WriteCommand

end SevenDB.Cmd
