import SevenDB.Store.Store

/-!
# Lookups and expired keys

An expired object stays in the store until something deletes it: a lookup of its key, or a sweep over all
keys. Two stores have the same live part when a lookup of any key finds the same in both. The accessors that
check the expiry of what they find return the same on such stores, and leave stores with the same live part.
-/

namespace SevenDB

open SevenDB.Common SevenDB.Types

namespace Store

variable (now : Int64)

def get (s : Store) (key : GoString) : Slot × Store :=
  ((s.slot key).get now, s.setSlot key ((s.slot key).get now))

def getAll : Store → List GoString → List Slot × Store
  | s, [] => ([], s)
  | s, key :: rest =>
    let found := get now s key
    let others := getAll found.2 rest
    (found.1 :: others.1, others.2)

/-- Move the object under a key to another key. It keeps its expiry time. -/
def rename (s : Store) (sourceKey destKey : GoString) : Bool × Store :=
  if sourceKey = destKey then (true, s)
  else
    match (s.slot sourceKey).get now with
    | none => (false, s.setSlot sourceKey none)
    | some obj => (true, (s.setSlot destKey ((s.slot destKey).put false obj)).setSlot sourceKey none)

/-- Two stores have the same live part. -/
def SameLive (s t : Store) : Prop := ∀ key, (s.slot key).get now = (t.slot key).get now

variable {now} {s t : Store}

section

variable (h : SameLive now s t)
include h

/-- Stores with the same live part keep it when a slot is changed to the same in both. -/
theorem SameLive.setSlot (key : GoString) (new : Slot) :
    SameLive now (s.setSlot key new) (t.setSlot key new) := by
  intro other
  rw [slot_setSlot, slot_setSlot]
  split
  · rfl
  · exact h other

theorem SameLive.get (key : GoString) :
    (get now s key).1 = (get now t key).1 ∧ SameLive now (get now s key).2 (get now t key).2 := by
  refine ⟨h key, ?_⟩
  change SameLive now (s.setSlot key ((s.slot key).get now)) (t.setSlot key ((t.slot key).get now))
  rw [h key]
  exact h.setSlot key _

theorem SameLive.getAll (keys : List GoString) :
    (getAll now s keys).1 = (getAll now t keys).1 ∧ SameLive now (getAll now s keys).2 (getAll now t keys).2 := by
  induction keys generalizing s t with
  | nil => exact ⟨rfl, h⟩
  | cons key rest ih =>
    obtain ⟨hfound, hafter⟩ := h.get key
    obtain ⟨hrest, hlive⟩ := ih hafter
    exact ⟨by rw [Store.getAll, Store.getAll, hfound, hrest], hlive⟩

theorem SameLive.rename (sourceKey destKey : GoString) :
    (rename now s sourceKey destKey).1 = (rename now t sourceKey destKey).1 ∧
      SameLive now (rename now s sourceKey destKey).2 (rename now t sourceKey destKey).2 := by
  unfold Store.rename
  split
  · exact ⟨rfl, h⟩
  · rw [h sourceKey]
    cases (t.slot sourceKey).get now with
    | none => exact ⟨rfl, h.setSlot sourceKey none⟩
    | some obj =>
      refine ⟨rfl, ?_⟩
      simp only [Slot.put_false]
      exact (h.setSlot destKey _).setSlot sourceKey none

end

end Store

end SevenDB
