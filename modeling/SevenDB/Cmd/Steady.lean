import SevenDB.Cmd.WatchedReads

/-!
# Commands at different times

Most commands use the clock only to find out whether an object has expired. As long as it has not, they
succeed or fail at all times alike and leave the same object, whose expiry time is one that was there before.
EXPIRE, EXPIREAT and the expiry options of SET and GETEX set another expiry time.
-/

namespace SevenDB.Cmd

open SevenDB.Common SevenDB.Types SevenDB.Store

/-- An object that is left in a slot has no expiry time, or that of the object that was there. -/
def Inherits (before after : Slot) : Prop :=
  ∀ obj ∈ after, obj.expiry = none ∨ ∃ old ∈ before, old.expiry = obj.expiry

@[simp] theorem inherits_refl (slot : Slot) : Inherits slot slot := fun obj hobj => .inr ⟨obj, hobj, rfl⟩

@[simp] theorem inherits_none (slot : Slot) : Inherits slot none := fun _ hobj => by cases hobj

@[simp] theorem inherits_fresh (slot : Slot) (value : Value) : Inherits slot (some ⟨value, none⟩) := by
  rintro obj ⟨⟩
  exact .inl rfl

@[simp] theorem inherits_value (old new : Value) (expiry : Option Int64) :
    Inherits (some ⟨old, expiry⟩) (some ⟨new, expiry⟩) := by
  rintro obj ⟨⟩
  exact .inr ⟨_, rfl, rfl⟩

@[simp] theorem newObj_forever (now : Int64) (value : Value) : newObj now value (-1) = ⟨value, none⟩ := rfl

/-- A command uses the clock only to find out whether the object under its key has expired. -/
structure Steady (eval : Eval) : Prop where
  same {now later : Int64} (args : List GoString) {slot : Slot} : slot.get now = slot → slot.get later = slot →
    (eval later args slot).1.succeeds = (eval now args slot).1.succeeds ∧
      (eval later args slot).2 = (eval now args slot).2
  inherits {now : Int64} {args : List GoString} {slot : Slot} : slot.get now = slot →
    Inherits slot (eval now args slot).2

variable {eval : Eval} {now : Int64} {slot : Slot}

theorem Steady.of_eq
    (heq : ∀ {now later : Int64} {args : List GoString} {slot : Slot}, slot.get now = slot → slot.get later = slot → eval later args slot = eval now args slot)
    (hinherits : ∀ {now : Int64} {args : List GoString} {slot : Slot}, slot.get now = slot → Inherits slot (eval now args slot).2) :
    Steady eval where
  same args _ hnow hlater := by
    rw [heq hnow hlater]
    exact ⟨rfl, rfl⟩
  inherits := hinherits

/-- A command that only reads, and reads the same at all times, is steady. -/
theorem Reads.steady (h : Reads eval)
    (heq : ∀ {now later : Int64} {args : List GoString} {slot : Slot}, slot.get now = slot → slot.get later = slot → eval later args slot = eval now args slot) :
    Steady eval := by
  refine .of_eq heq fun {now args slot} hnow => ?_
  have hslot : (eval now args slot).2 = slot := (h now args slot).elim id fun hget => hget.trans hnow
  rw [hslot]
  exact inherits_refl slot

theorem Steady.withArity (h : Steady eval) (command : String) (accepts : ℕ → Bool) :
    Steady (withArity command accepts eval) where
  same args _ hnow hlater := by
    unfold Cmd.withArity
    split
    · exact h.same args hnow hlater
    · exact ⟨rfl, rfl⟩
  inherits hnow := by
    unfold Cmd.withArity
    split
    · exact h.inherits hnow
    · exact inherits_refl _

theorem steady_evalGET : Steady evalGET :=
  reads_evalGET.steady fun hnow hlater => by simp only [evalGET, hnow, hlater]

theorem steady_evalGETDEL : Steady evalGETDEL := by
  apply Steady.of_eq
  · intro now later args slot hnow hlater
    simp only [evalGETDEL, hnow, hlater]
  · intro now args slot hnow
    unfold evalGETDEL
    split <;> simp

theorem steady_evalGETSET : Steady evalGETSET := by
  apply Steady.of_eq
  · intro now later args slot hnow hlater
    simp only [evalGETSET, hnow, hlater, createObjectFromValue, newObj_forever]
  · intro now args slot hnow
    unfold evalGETSET
    split <;> simp [createObjectFromValue]

theorem doIncr_eq {later : Int64} (hnow : slot.get now = slot) (hlater : slot.get later = slot) (delta : Int64) :
    doIncr later delta slot = doIncr now delta slot := by
  simp only [doIncr, hnow, hlater, newObj_forever]

theorem inherits_doIncr (hnow : slot.get now = slot) (delta : Int64) :
    Inherits slot (doIncr now delta slot).2 := by
  unfold doIncr
  rw [hnow]
  split <;> simp

theorem steady_evalIncrFixed (command : String) (delta : Int64) : Steady (evalIncrFixed command delta) := by
  apply Steady.of_eq
  · intro now later args slot hnow hlater
    simp only [evalIncrFixed, doIncr_eq hnow hlater]
  · intro now args slot hnow
    unfold evalIncrFixed
    split
    · exact inherits_doIncr hnow delta
    · exact inherits_refl slot

theorem steady_evalIncrArg (command : String) (change : Int64 → Int64) : Steady (evalIncrArg command change) := by
  apply Steady.of_eq
  · intro now later args slot hnow hlater
    simp only [evalIncrArg, doIncr_eq hnow hlater]
  · intro now args slot hnow
    unfold evalIncrArg
    split
    · split
      · exact inherits_refl slot
      · exact inherits_doIncr hnow _
    · exact inherits_refl slot

/-- Commands that only look their key up are steady, whatever they report. -/
theorem steady_evalLookup (command : String) (result : Int64 → Slot → Response) :
    Steady (evalLookup command result) where
  same args _ hnow hlater := by
    unfold evalLookup
    split <;> simp [hnow, hlater, Outcome.succeeds]
  inherits hnow := by
    unfold evalLookup
    split <;> simp [hnow]

theorem steady_evalHSET : Steady evalHSET := by
  apply Steady.of_eq
  · intro now later args slot hnow hlater
    simp only [evalHSET, evalHSET.setInto, hnow, hlater, newObj_forever]
  · intro now args slot hnow
    unfold evalHSET
    rw [hnow]
    split
    · split
      · unfold evalHSET.setInto
        split <;> simp
      · simp
      · unfold evalHSET.setInto
        split <;> simp
    · simp

theorem steady_evalHGET : Steady evalHGET :=
  reads_evalHGET.steady fun hnow hlater => by simp only [evalHGET, hnow, hlater]

theorem steady_evalHGETALL : Steady evalHGETALL :=
  reads_evalHGETALL.steady fun hnow hlater => by simp only [evalHGETALL, hnow, hlater]

theorem onSortedSet_eq {later : Int64} (hnow : slot.get now = slot) (hlater : slot.get later = slot)
    (missing : Response) (present : SortedSet → Outcome × SortedSet) :
    onSortedSet later slot missing present = onSortedSet now slot missing present := by
  simp only [onSortedSet, hnow, hlater]

theorem inherits_onSortedSet (hnow : slot.get now = slot) (missing : Response)
    (present : SortedSet → Outcome × SortedSet) : Inherits slot (onSortedSet now slot missing present).2 := by
  unfold onSortedSet
  rw [hnow]
  split <;> simp

theorem steady_evalZADD : Steady evalZADD := by
  apply Steady.of_eq
  · intro now later args slot hnow hlater
    simp only [evalZADD, hnow, hlater]
  · intro now args slot hnow
    have hadd (ps : Params) (pairs : List (Int64 × GoString)) (s : SortedSet) (expiry : Option Int64)
        (h : ∀ v, Inherits slot (some ⟨v, expiry⟩)) : Inherits slot (evalZADD.addTo ps pairs s expiry).2 := by
      unfold evalZADD.addTo
      split <;> exact h _
    unfold evalZADD
    rw [hnow]
    split
    · split
      · simp
      · split
        · simp
        · split
          · simp
          · split
            · exact hadd _ _ _ _ fun v => inherits_fresh _ v
            · exact hadd _ _ _ _ fun v => inherits_value _ v _
            · simp
    · simp

theorem steady_evalPop (command : String) (pop : ℕ → SortedSet → List (Int64 × GoString) × SortedSet)
    (rank : ℕ → ℕ → ℕ) : Steady (evalPop command pop rank) := by
  apply Steady.of_eq
  · intro now later args slot hnow hlater
    simp only [evalPop, evalPop.take, onSortedSet_eq hnow hlater]
  · intro now args slot hnow
    unfold evalPop evalPop.take
    split
    · simp
    · exact inherits_onSortedSet hnow _ _
    · split
      · simp
      · split
        · simp
        · exact inherits_onSortedSet hnow _ _

theorem steady_evalZREM : Steady evalZREM := by
  apply Steady.of_eq
  · intro now later args slot hnow hlater
    simp only [evalZREM, onSortedSet_eq hnow hlater]
  · intro now args slot hnow
    unfold evalZREM
    split
    · exact inherits_onSortedSet hnow _ _
    · simp

theorem steady_evalZCARD : Steady evalZCARD :=
  reads_evalZCARD.steady fun hnow hlater => by simp only [evalZCARD, onSortedSet_eq hnow hlater]

theorem steady_evalZCOUNT : Steady evalZCOUNT :=
  reads_evalZCOUNT.steady fun hnow hlater => by simp only [evalZCOUNT, onSortedSet_eq hnow hlater]

theorem steady_evalZRANGE : Steady evalZRANGE :=
  reads_evalZRANGE.steady fun hnow hlater => by simp only [evalZRANGE, evalZRANGE.range, onSortedSet_eq hnow hlater]

theorem steady_evalZRANK : Steady evalZRANK :=
  reads_evalZRANK.steady fun hnow hlater => by simp only [evalZRANK, onSortedSet_eq hnow hlater]

end SevenDB.Cmd
