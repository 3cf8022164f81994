import SevenDB.Cmd.SetGet
import SevenDB.Cmd.WriteCommands

/-!
# Options that are cut off

The options of SET, ZADD and GETEX are read one after the other, and a word that takes a value reads the next
argument without a look at the end of the arguments. When such a word is left without a value the read is
past the end and the command panics. This is so exactly when the number of words that take a value and stand
together at the end of the options is odd.
-/

namespace SevenDB.Cmd

open SevenDB.Common SevenDB.Types SevenDB.Store

variable (now : Int64) (key : GoString)

theorem evalSET_panics_iff (value : GoString) (opts : List GoString) (slot : Slot) :
    (evalSET now (key :: value :: opts) slot).1 = .panics ↔ parseParams opts = none := by
  cases hparse : parseParams opts with
  | none => simp [evalSET, hparse]
  | some read =>
    simp only [evalSET, hparse, reduceCtorEq, iff_false]
    split
    · simp
    · split
      · simp
      · split <;> simp

theorem evalGETEX_panics_iff (opts : List GoString) (slot : Slot) :
    (evalGETEX now (key :: opts) slot).1 = .panics ↔ readParams getexAccepts .none opts = none := by
  cases hparse : readParams getexAccepts .none opts with
  | none => simp [evalGETEX, hparse]
  | some read =>
    simp only [evalGETEX, hparse, reduceCtorEq, iff_false]
    split
    · simp
    · split
      · simp
      · split <;> simp

theorem evalZADD_panics_iff (first second : GoString) (more : List GoString) (slot : Slot) :
    (evalZADD now (key :: first :: second :: more) slot).1 = .panics ↔
      parseParams (first :: second :: more) = none := by
  have hadd (ps : Params) (pairs : List (Int64 × GoString)) (s : SortedSet) (expiry : Option Int64) :
      (evalZADD.addTo ps pairs s expiry).1 ≠ .panics := by
    unfold evalZADD.addTo
    split <;> simp
  cases hparse : parseParams (first :: second :: more) with
  | none => simp [evalZADD, hparse]
  | some read =>
    simp only [evalZADD, hparse, reduceCtorEq, iff_false]
    split
    · simp
    · split
      · simp
      · split
        · exact hadd _ _ _ _
        · exact hadd _ _ _ _
        · simp

theorem doIncr_ne_panics (delta : Int64) (slot : Slot) : (doIncr now delta slot).1 ≠ .panics := by
  unfold doIncr
  split <;> simp

theorem evalHSET_ne_panics (args : List GoString) (slot : Slot) : (evalHSET now args slot).1 ≠ .panics := by
  have hset (found : Slot) (m : Table GoString GoString) (kvs : List GoString) :
      (evalHSET.setInto found m now kvs).1 ≠ .panics := by
    unfold evalHSET.setInto
    split <;> simp
  unfold evalHSET
  split
  · split
    · exact hset _ _ _
    · simp
    · exact hset _ _ _
  · simp

theorem expiryOutcome_ne_panics (changed : Except ExpiryError Bool) : expiryOutcome changed ≠ .panics := by
  cases changed <;> simp [expiryOutcome]

theorem evalEXPIRE_ne_panics (args : List GoString) (slot : Slot) : (evalEXPIRE now args slot).1 ≠ .panics := by
  unfold evalEXPIRE
  split
  · split
    · simp
    · split
      · simp
      · split
        · simp
        · exact expiryOutcome_ne_panics _
  · simp

theorem evalEXPIREAT_ne_panics (maxAbsTimestamp now : Int64) (args : List GoString) (slot : Slot) :
    (evalEXPIREAT maxAbsTimestamp now args slot).1 ≠ .panics := by
  unfold evalEXPIREAT
  split
  · split
    · simp
    · split
      · simp
      · exact expiryOutcome_ne_panics _
  · simp

/-- The arguments that a command reads as options; none when it has too few arguments or reads no options. -/
def WriteCommand.optionArgs : WriteCommand → List GoString → List GoString
  | set, _ :: _ :: opts => opts
  | getex, _ :: opts => opts
  | zadd, _ :: first :: second :: more => first :: second :: more
  | _, _ => []

/-- Reading the parameters of SET and ZADD goes past the end exactly when they are cut off. -/
theorem parseParams_eq_none_iff (args : List GoString) :
    parseParams args = none ↔ trailingWords args % 2 = 1 :=
  readParams_eq_none_iff (fun p htakes => by cases p <;> simp_all [Param.takesValue]) .none args

/-- Reading the parameters of GETEX goes past the end exactly when they are cut off. -/
theorem readParams_getex_eq_none_iff (args : List GoString) :
    readParams getexAccepts .none args = none ↔ trailingWords args % 2 = 1 :=
  readParams_eq_none_iff (fun p htakes => by cases p <;> simp_all [Param.takesValue, getexAccepts]) .none args

theorem execute_panics_iff (env : Env) (now : Int64) (c : WriteCommand) (args : List GoString) (s : Store) :
    (execute env now ⟨c.text, args⟩ s).1 = .panics ↔ trailingWords (c.optionArgs args) % 2 = 1 := by
  have hfew : ¬trailingWords [] % 2 = 1 := by decide
  have hother (hnever : ∀ slot, (c.eval env now args slot).1 ≠ .panics) (hargs : c.optionArgs args = []) :
      (execute env now ⟨c.text, args⟩ s).1 = .panics ↔ trailingWords (c.optionArgs args) % 2 = 1 := by
    obtain ⟨slot, houtcome⟩ := c.exists_outcome env now args s
    rw [houtcome, hargs]
    exact iff_of_false (hnever slot) hfew
  have hfixed (command : String) (delta : Int64) (slot : Slot) :
      (evalIncrFixed command delta now args slot).1 ≠ .panics := by
    unfold evalIncrFixed
    split
    · exact doIncr_ne_panics _ _ _
    · simp
  have harg (command : String) (change : Int64 → Int64) (slot : Slot) :
      (evalIncrArg command change now args slot).1 ≠ .panics := by
    unfold evalIncrArg
    split
    · split
      · simp
      · exact doIncr_ne_panics _ _ _
    · simp
  cases c with
  | incr => exact hother (hfixed "INCR" 1) rfl
  | decr => exact hother (hfixed "DECR" (-1)) rfl
  | incrby => exact hother (harg "INCRBY" id) rfl
  | decrby => exact hother (harg "DECRBY" fun delta => -delta) rfl
  | hset => exact hother (evalHSET_ne_panics now args) rfl
  | expire => exact hother (evalEXPIRE_ne_panics now args) rfl
  | expireat => exact hother (evalEXPIREAT_ne_panics env.maxAbsTimestamp now args) rfl
  | set =>
    rcases args with _ | ⟨key, _ | ⟨value, opts⟩⟩
    · exact iff_of_false nofun hfew
    · exact iff_of_false nofun hfew
    · exact (evalSET_panics_iff now key value opts (s.slot key)).trans (parseParams_eq_none_iff opts)
  | getex =>
    rcases args with _ | ⟨key, opts⟩
    · exact iff_of_false nofun hfew
    · exact (evalGETEX_panics_iff now key opts (s.slot key)).trans (readParams_getex_eq_none_iff opts)
  | zadd =>
    rcases args with _ | ⟨key, _ | ⟨first, _ | ⟨second, more⟩⟩⟩
    · exact iff_of_false nofun hfew
    · exact iff_of_false nofun hfew
    · exact iff_of_false nofun hfew
    · exact (evalZADD_panics_iff now key first second more (s.slot key)).trans (parseParams_eq_none_iff _)

/-- For every argument list the readers of the options stay within it, and the commands around them end with
a result or an error, exactly when the words that take a value at the end of the options are even in
number. -/
theorem options_never_panic_iff (args : List GoString) :
    (parseParams args ≠ none ↔ trailingWords args % 2 = 0) ∧
      (readParams getexAccepts .none args ≠ none ↔ trailingWords args % 2 = 0) ∧
      ∀ (env : Env) (now : Int64) (c : WriteCommand) (s : Store),
        (execute env now ⟨c.text, args⟩ s).1 ≠ .panics ↔ trailingWords (c.optionArgs args) % 2 = 0 := by
  refine ⟨?_, ?_, fun env now c s => ?_⟩
  · rw [ne_eq, parseParams_eq_none_iff, Nat.mod_two_not_eq_one]
  · rw [ne_eq, readParams_getex_eq_none_iff, Nat.mod_two_not_eq_one]
  · rw [ne_eq, execute_panics_iff, Nat.mod_two_not_eq_one]

/-- SET with EX as its last argument panics, and so do ZADD and GETEX. -/
theorem options_cut_off :
    (execute bareEnv 0 ⟨"SET", [ascii "k", ascii "v", ascii "EX"]⟩ ∅).1 = .panics ∧
      (execute bareEnv 0 ⟨"ZADD", [ascii "k", ascii "1", ascii "m", ascii "PX"]⟩ ∅).1 = .panics ∧
      (execute bareEnv 0 ⟨"GETEX", [ascii "k", ascii "exat"]⟩ ∅).1 = .panics :=
  ⟨rfl, rfl, rfl⟩

end SevenDB.Cmd
