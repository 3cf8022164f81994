import SevenDB.Store.Store

/-!
# Expiry times when an object is put

The store keeps expiry times by the object and not by the key. When an object is put in the place of another one,
the old object loses its time, after the new one has got it if the time is to be kept. So the time is lost when the
object is put in its own place, and a key loses it together with another key that has the same object.
-/

namespace SevenDB

open SevenDB.Common SevenDB.Types

abbrev ObjPtr := ℕ

/-- The tables of a store: the objects under the keys, and the expiry times of objects. Which keys are deleted to make
room is left open here, so that access times and the count of keys play no part. -/
structure PointerStore where
  store : Table GoString ObjPtr
  expires : Table ObjPtr Int64

namespace PointerStore

variable (s : PointerStore) (k : GoString) (obj : ObjPtr) (keepTTL : Bool) (victims : List GoString)

def expiryOf : Option Int64 := (s.store.lookup k).bind s.expires.lookup

/-- Delete a key with the expiry time of its object. -/
def del : PointerStore :=
  match s.store.lookup k with
  | none => s
  | some v => ⟨s.store.erase k, s.expires.erase v⟩

/-- Another object takes the place of one: it gets the expiry time of the old one when asked to, and the old one
loses it. -/
def passExpiry (currentObject : ObjPtr) : PointerStore :=
  let expires := match s.expires.lookup currentObject with
    | some v => if keepTTL ∧ 0 < v then s.expires.insert obj v else s.expires
    | none => s.expires
  { s with expires := expires.erase currentObject }

/-- Put an object under a key, in the place of another one or after room was made. -/
def putHelper : PointerStore :=
  let s := match s.store.lookup k with
    | some currentObject => s.passExpiry obj keepTTL currentObject
    | none => victims.foldl del s
  { s with store := s.store.insert k obj }

/-- A key has the expiry time it had when that is to be kept, and otherwise the one that the object was made with; other
keys have theirs. -/
def PutsExpiry : Prop :=
  (s.putHelper k obj keepTTL victims).expiryOf k = (if keepTTL then s.expiryOf k else s.expires.lookup obj) ∧
    ∀ other ≠ k, (s.putHelper k obj keepTTL victims).expiryOf other = s.expiryOf other

/-- No time gets lost or passed on by mistake. Under a new key, the keys that are deleted for it have no time, and a time
is not to be kept when the object has one. In the place of another object, that one has no time, or it is not put in its
own place and no other key has it; and a time that is to be kept is the one that the object has already, or it is
positive and no other key has the object. -/
def PutsSafely : Prop :=
  match s.store.lookup k with
  | none => (∀ victim ∈ victims, s.expiryOf victim = none) ∧ (keepTTL = true → s.expires.lookup obj = none)
  | some currentObject =>
    (s.expires.lookup currentObject = none ∨
      obj ≠ currentObject ∧ ∀ other ≠ k, s.store.lookup other ≠ some currentObject) ∧
    (keepTTL = true → s.expires.lookup obj = s.expires.lookup currentObject ∨
      (∃ exp ∈ s.expires.lookup currentObject, 0 < exp) ∧ ∀ other ≠ k, s.store.lookup other ≠ some obj)

variable {s k obj keepTTL victims}

theorem del_of_expiryOf_eq_none (h : s.expiryOf k = none) :
    (s.del k).expires = s.expires ∧ (s.del k).expiryOf = s.expiryOf := by
  unfold expiryOf at h
  unfold del
  cases hk : s.store.lookup k with
  | none => exact ⟨rfl, rfl⟩
  | some v =>
    have hv : s.expires.lookup v = none := by simpa [hk] using h
    have hexpires : s.expires.erase v = s.expires := by
      apply Finmap.ext_lookup
      intro p
      rw [Table.lookup_erase_eq_ite]
      split_ifs with hp
      · rw [hp, hv]
      · rfl
    refine ⟨hexpires, funext fun other => ?_⟩
    simp only [expiryOf, hexpires]
    rw [Table.lookup_erase_eq_ite]
    split_ifs with hother
    · rw [hother, hk, Option.bind_none, Option.bind_some, hv]
    · rfl

theorem foldl_del_of_expiryOf_eq_none (h : ∀ victim ∈ victims, s.expiryOf victim = none) :
    (victims.foldl del s).expires = s.expires ∧ (victims.foldl del s).expiryOf = s.expiryOf := by
  induction victims generalizing s with
  | nil => exact ⟨rfl, rfl⟩
  | cons victim rest ih =>
    obtain ⟨hvictim, hrest⟩ := List.forall_mem_cons.mp h
    obtain ⟨hexpires, hexpiry⟩ := del_of_expiryOf_eq_none hvictim
    have hfold := ih (s := s.del victim) (by simpa [hexpiry] using hrest)
    rw [hexpires, hexpiry] at hfold
    exact hfold

/-- The expiry times of keys after an object was put under one of them. -/
theorem expiryOf_insert (s : PointerStore) (k other : GoString) (obj : ObjPtr) :
    ({ s with store := s.store.insert k obj } : PointerStore).expiryOf other =
      if other = k then s.expires.lookup obj else s.expiryOf other := by
  simp only [expiryOf, Table.lookup_insert_eq_ite]
  split_ifs <;> rfl

theorem lookup_foldl_del (h : s.store.lookup k = none ∨ k ∈ victims) : (victims.foldl del s).store.lookup k = none := by
  induction victims generalizing s with
  | nil => exact h.resolve_right List.not_mem_nil
  | cons victim rest ih =>
    apply ih
    rw [List.mem_cons, ← or_assoc] at h
    refine h.imp_left fun hk => ?_
    unfold del
    split
    · next hnone => exact hk.elim id fun heq => heq ▸ hnone
    · rw [Table.lookup_erase_eq_ite]
      split_ifs with heq
      · rfl
      · exact hk.resolve_right heq

/-- What an object has after another one was given its time and the old one has lost it. -/
theorem lookup_passExpiry (s : PointerStore) (obj : ObjPtr) (keepTTL : Bool) (currentObject p : ObjPtr) :
    (s.passExpiry obj keepTTL currentObject).expires.lookup p =
      if p = currentObject then none
      else if p = obj ∧ keepTTL = true ∧ ∃ exp ∈ s.expires.lookup currentObject, 0 < exp then
        s.expires.lookup currentObject
      else s.expires.lookup p := by
  rw [passExpiry, Table.lookup_erase_eq_ite]
  cases hexp : s.expires.lookup currentObject with
  | none => simp
  | some v =>
    by_cases hkeep : keepTTL = true ∧ 0 < v
    · simp [hkeep, Table.lookup_insert_eq_ite]
    · have hnot : ¬(keepTTL = true ∧ ∃ exp ∈ some v, 0 < exp) := by simpa using hkeep
      simp only [if_neg hkeep, if_neg (mt And.right hnot)]

theorem putsExpiry_absent_iff (hk : s.store.lookup k = none) :
    s.PutsExpiry k obj keepTTL victims ↔ s.PutsSafely k obj keepTTL victims := by
  have hnone : s.expiryOf k = none := by simp [expiryOf, hk]
  simp only [PutsExpiry, putHelper, PutsSafely, hk, expiryOf_insert, if_true, hnone]
  have hroom : (∀ other ≠ k, (if other = k then (victims.foldl del s).expires.lookup obj
      else (victims.foldl del s).expiryOf other) = s.expiryOf other) → ∀ victim ∈ victims, s.expiryOf victim = none := by
    intro hothers victim hvictim
    by_cases heq : victim = k
    · rw [heq, hnone]
    · rw [← hothers victim heq, if_neg heq, expiryOf, lookup_foldl_del (.inr hvictim)]
      rfl
  constructor
  · rintro ⟨hput, hothers⟩
    refine ⟨hroom hothers, fun hkeep => ?_⟩
    rwa [(foldl_del_of_expiryOf_eq_none (hroom hothers)).1, if_pos hkeep] at hput
  · rintro ⟨hvictims, hkeep⟩
    obtain ⟨hexpires, hexpiry⟩ := foldl_del_of_expiryOf_eq_none hvictims
    refine ⟨?_, fun other hother => by rw [if_neg hother, hexpiry]⟩
    rw [hexpires]
    split_ifs with hkept
    · exact hkeep hkept
    · rfl

theorem putsExpiry_present_iff {currentObject : ObjPtr} (hk : s.store.lookup k = some currentObject) :
    s.PutsExpiry k obj keepTTL victims ↔ s.PutsSafely k obj keepTTL victims := by
  have hexpiry : s.expiryOf k = s.expires.lookup currentObject := by simp [expiryOf, hk]
  have hothers : (∀ other ≠ k, (if other = k then (s.passExpiry obj keepTTL currentObject).expires.lookup obj
      else (s.passExpiry obj keepTTL currentObject).expiryOf other) = s.expiryOf other) ↔
      ∀ other ≠ k, ∀ p, s.store.lookup other = some p →
        (s.passExpiry obj keepTTL currentObject).expires.lookup p = s.expires.lookup p := by
    refine forall₂_congr fun other hother => ?_
    rw [if_neg hother, expiryOf, expiryOf, show (s.passExpiry obj keepTTL currentObject).store = s.store from rfl]
    cases s.store.lookup other <;> simp
  simp only [PutsExpiry, putHelper, PutsSafely, hk, expiryOf_insert, if_true, hexpiry]
  rw [hothers]
  simp only [lookup_passExpiry]
  constructor
  · rintro ⟨hput, hrest⟩
    refine ⟨or_iff_not_imp_left.mpr fun hsome => ⟨fun hsame => ?_, fun other hother hp => ?_⟩, fun hkeep => ?_⟩
    · rw [if_pos hsame, hsame, ite_self] at hput
      exact hsome hput.symm
    · have hlost := hrest other hother _ hp
      rw [if_pos rfl] at hlost
      exact hsome hlost.symm
    · rw [or_iff_not_imp_left]
      intro hdiffers
      have hsame : obj ≠ currentObject := fun hsame => hdiffers (by rw [hsame])
      rw [if_neg hsame, if_pos hkeep] at hput
      have hkept : ∃ exp ∈ s.expires.lookup currentObject, 0 < exp := by
        by_contra hnot
        rw [if_neg fun h => hnot h.2.2] at hput
        exact hdiffers hput
      refine ⟨hkept, fun other hother hp => ?_⟩
      have hpassed := hrest other hother obj hp
      rw [if_neg hsame, if_pos ⟨rfl, hkeep, hkept⟩] at hpassed
      exact hdiffers hpassed.symm
  · rintro ⟨hlost, hkeeps⟩
    constructor
    · by_cases hsame : obj = currentObject
      · rw [if_pos hsame, hsame, ite_self]
        exact (hlost.resolve_right fun h => h.1 hsame).symm
      · rw [if_neg hsame]
        split_ifs with hkept hkeep hkeep
        · rfl
        · exact absurd hkept.2.1 hkeep
        · exact (hkeeps hkeep).resolve_right fun h => hkept ⟨trivial, hkeep, h.1⟩
        · rfl
    · intro other hother p hp
      split_ifs with hcurrent hkept
      · rw [hcurrent] at hp ⊢
        exact (hlost.resolve_right fun h => h.2 other hother hp).symm
      · obtain ⟨rfl, hkeep, -⟩ := hkept
        exact ((hkeeps hkeep).resolve_right fun h => h.2 other hother hp).symm
      · rfl

/-- Expiry times are kept or replaced as asked for exactly when no time gets lost or passed on by mistake. -/
theorem put_expiry_iff (s : PointerStore) (k : GoString) (obj : ObjPtr) (keepTTL : Bool) (victims : List GoString) :
    s.PutsExpiry k obj keepTTL victims ↔ s.PutsSafely k obj keepTTL victims := by
  cases hk : s.store.lookup k with
  | none => exact putsExpiry_absent_iff hk
  | some currentObject => exact putsExpiry_present_iff hk

def oneExpiring : PointerStore := ⟨(∅ : Table GoString ObjPtr).insert [107] 1, (∅ : Table ObjPtr Int64).insert 1 50⟩

/-- An object that is put in its own place loses its time, also when that is to be kept. -/
theorem put_expiry_of_same :
    (oneExpiring.putHelper [107] 1 true []).expiryOf [107] = none ∧ oneExpiring.expiryOf [107] = some 50 ∧
      ¬oneExpiring.PutsExpiry [107] 1 true [] :=
  ⟨by decide, by decide, fun h => absurd h.1 (by decide)⟩

end PointerStore

end SevenDB
