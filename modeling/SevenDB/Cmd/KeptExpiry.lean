import SevenDB.Cmd.SetGet
import SevenDB.Cmd.Steady
import SevenDB.Cmd.WriteCommands

/-!
# The expiry time of an object that is updated

The expiry time belongs to the object, not to the key. INCRBY, DECRBY and ZADD change the object that they
find, which keeps its expiry time. HSET puts a new object in its place, and the expiry time is lost.
-/

namespace SevenDB.Cmd

open SevenDB.Common SevenDB.Types SevenDB.Store

/-- The commands that update an object. -/
def WriteCommand.updates : List WriteCommand := [.hset, .zadd, .incrby, .decrby]

variable {now : Int64} {slot : Slot} {obj : Entry}

theorem expiry_doIncr (hfound : slot.get now = some obj) (delta : Int64) :
    (doIncr now delta slot).2.bind Entry.expiry = obj.expiry := by
  obtain ⟨value, expiry⟩ := obj
  unfold doIncr
  rw [hfound]
  cases value <;> rfl

/-- A counter that is found keeps its expiry time when a number is added that is given as an argument. -/
theorem expiry_evalIncrArg (hfound : slot.get now = some obj) (command : String) (change : Int64 → Int64)
    (args : List GoString) :
    (evalIncrArg command change now args slot).2.bind Entry.expiry = obj.expiry := by
  have hslot : slot = some obj := (Slot.get_eq_self (by simp [hfound])).symm.trans hfound
  unfold evalIncrArg
  split
  · split
    · rw [hslot]
      rfl
    · exact expiry_doIncr hfound _
  · rw [hslot]
    rfl

theorem expiry_evalZADD (hfound : slot.get now = some obj) (args : List GoString) :
    (evalZADD now args slot).2.bind Entry.expiry = obj.expiry := by
  have hslot : slot = some obj := (Slot.get_eq_self (by simp [hfound])).symm.trans hfound
  have hkept : slot.bind Entry.expiry = obj.expiry := by rw [hslot]; rfl
  have hadd (ps : Params) (pairs : List (Int64 × GoString)) (s : SortedSet) (expiry : Option Int64) :
      (evalZADD.addTo ps pairs s expiry).2.bind Entry.expiry = expiry := by
    unfold evalZADD.addTo
    split <;> rfl
  obtain ⟨value, expiry⟩ := obj
  unfold evalZADD
  split
  · split
    · exact hkept
    · split
      · exact hkept
      · split
        · exact hkept
        · rw [hfound]
          cases value with
          | sortedSet s => exact hadd _ _ s expiry
          | str _ | int _ | float _ | ssmap _ => rfl
  · exact hkept

theorem expiry_evalHSET {args : List GoString} (hsucceeds : (evalHSET now args slot).1.succeeds = true) :
    (evalHSET now args slot).2.bind Entry.expiry = none := by
  have hset (found : Slot) (m : Table GoString GoString) (kvs : List GoString)
      (h : (evalHSET.setInto found m now kvs).1.succeeds = true) :
      (evalHSET.setInto found m now kvs).2.bind Entry.expiry = none := by
    unfold evalHSET.setInto at h ⊢
    split at h
    · cases h
    · next heven => simp [heven]
  unfold evalHSET at hsucceeds ⊢
  split at hsucceeds
  · split at hsucceeds
    · exact hset _ _ _ hsucceeds
    · cases hsucceeds
    · exact hset _ _ _ hsucceeds
  · cases hsucceeds

/-- After an update that succeeds, a live object with an expiry time has the same one as before exactly when
the command is not HSET. -/
theorem update_keeps_expiry_iff (env : Env) (c : WriteCommand) (hc : c ∈ WriteCommand.updates) (key : GoString)
    (args : List GoString) (s : Store) (exp : Int64) (hfound : (s.slot key).get now = some obj) (hexp : obj.expiry = some exp)
    (hsucceeds : (execute env now ⟨c.text, key :: args⟩ s).1.succeeds = true) :
    ((execute env now ⟨c.text, key :: args⟩ s).2.slot key).bind Entry.expiry = some exp ↔ c ≠ .hset := by
  rw [WriteCommand.execute_text] at hsucceeds ⊢
  rw [slot_setSlot, if_pos rfl, ← hexp]
  cases c with
  | hset =>
    rw [WriteCommand.eval, expiry_evalHSET hsucceeds, hexp]
    simp
  | zadd => simp [WriteCommand.eval, expiry_evalZADD hfound]
  | incrby => simp [WriteCommand.eval, evalINCRBY, expiry_evalIncrArg hfound]
  | decrby => simp [WriteCommand.eval, evalDECRBY, expiry_evalIncrArg hfound]
  | set | getex | incr | decr | expire | expireat => simp [WriteCommand.updates] at hc

/-- DECRBY keeps the expiry time of a counter that lives for four more seconds. -/
theorem update_keeps_expiry_decrby :
    ((execute bareEnv 1000 ⟨"DECRBY", [ascii "k", ascii "2"]⟩
        (Store.setSlot ∅ (ascii "k") (some ⟨.int 7, some 5000⟩))).2.slot (ascii "k")).bind Entry.expiry =
      some 5000 :=
  (update_keeps_expiry_iff bareEnv .decrby (by decide) (ascii "k") [ascii "2"] _ 5000
    (rfl : (Store.slot (Store.setSlot ∅ (ascii "k") (some ⟨.int 7, some 5000⟩)) (ascii "k")).get 1000 =
      some ⟨.int 7, some 5000⟩) rfl rfl).mpr (by decide)

/-- HSET succeeds on a hash that lives for four more seconds, and the hash has no expiry time afterwards. -/
theorem hset_loses_expiry :
    (execute bareEnv 1000 ⟨"HSET", [ascii "k", ascii "f", ascii "v"]⟩
        (Store.setSlot ∅ (ascii "k") (some ⟨.ssmap ∅, some 5000⟩))).1 = .returns (okResult (.number 1)) ∧
      ((execute bareEnv 1000 ⟨"HSET", [ascii "k", ascii "f", ascii "v"]⟩
        (Store.setSlot ∅ (ascii "k") (some ⟨.ssmap ∅, some 5000⟩))).2.slot (ascii "k")).bind Entry.expiry = none :=
  ⟨rfl, rfl⟩

end SevenDB.Cmd
