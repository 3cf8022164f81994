import Mathlib.Data.Finset.Card
import Mathlib.Data.List.Dedup
import SevenDB.Types.SortedSetLib

/-!
# The options of ZADD

Without INCR each member is added or updated on its own, and the options hold for every member of the set
before the command, also when a member is given several times. With INCR the options are not looked at, and
the sum wraps. The count of members that were added is exact; with CH a member counts once for each time that
it is added or gets another score, so the count is exact when no member does so twice.
-/

namespace SevenDB.Types

open SevenDB.Common

namespace SortedSet

variable (params : Params)

/-- The set after one pair. -/
def addOne (s : SortedSet) (pair : Int64 × GoString) : SortedSet :=
  if skips params (s.lookup pair.2) pair.1 then s else s.insert pair.2 pair.1

/-- The members that are added or get another score, one after the other. -/
def writes : SortedSet → List (Int64 × GoString) → List GoString
  | _, [] => []
  | s, pair :: rest =>
    if (addOne params s pair).lookup pair.2 = s.lookup pair.2 then writes (addOne params s pair) rest
    else pair.2 :: writes (addOne params s pair) rest

variable {params} {s after : SortedSet} {pair : Int64 × GoString} {pairs : List (Int64 × GoString)} {m : GoString}

/-- The member of a pair that is not skipped gets the score of the pair, and no other member changes. -/
theorem lookup_addOne_eq_ite (s : SortedSet) (pair : Int64 × GoString) (m : GoString) :
    (addOne params s pair).lookup m =
      if m = pair.2 ∧ skips params (s.lookup pair.2) pair.1 = false then some pair.1 else s.lookup m := by
  unfold addOne
  split
  · next hskips => simp [hskips]
  · next hskips => simp [hskips, Table.lookup_insert_eq_ite]

theorem lookup_addOne_of_ne (h : m ≠ pair.2) (s : SortedSet) :
    (addOne params s pair).lookup m = s.lookup m := by
  simp [lookup_addOne_eq_ite, h]

/-- The member of a pair keeps its score when it is skipped, and gets the score of the pair otherwise. -/
theorem lookup_addOne (s : SortedSet) (pair : Int64 × GoString) :
    (addOne params s pair).lookup pair.2 =
      if skips params (s.lookup pair.2) pair.1 then s.lookup pair.2 else some pair.1 := by
  cases hskips : skips params (s.lookup pair.2) pair.1 <;> simp [lookup_addOne_eq_ite, hskips]

theorem lookup_addOne_of_same (hsame : (addOne params s pair).lookup pair.2 = s.lookup pair.2) (m : GoString) :
    (addOne params s pair).lookup m = s.lookup m := by
  by_cases hm : m = pair.2
  · rw [hm, hsame]
  · exact lookup_addOne_of_ne hm s

/-- Adding all pairs adds the first one, and counts it when its member is added or gets another score. -/
theorem addAll_cons (s : SortedSet) (added updated : ℕ) (pair : Int64 × GoString) (rest : List (Int64 × GoString)) :
    addAll params s added updated (pair :: rest) =
      addAll params (addOne params s pair)
        (if s.lookup pair.2 = none ∧ (addOne params s pair).lookup pair.2 ≠ none then added + 1 else added)
        (if s.lookup pair.2 ≠ none ∧ (addOne params s pair).lookup pair.2 ≠ s.lookup pair.2 then updated + 1
          else updated) rest := by
  rw [lookup_addOne, addOne, addAll]
  by_cases hskips : skips params (s.lookup pair.2) pair.1 = true
  · simp [hskips]
  · simp only [hskips, Bool.false_eq_true, if_false]
    cases s.lookup pair.2 with
    | none => simp
    | some old => by_cases hscore : pair.1 = old <;> simp [hscore]

/-- What relates the old score of a member to each score that is not skipped relates its score before to its
score after all pairs. -/
theorem addAll_rel {R : Option Int64 → Option Int64 → Prop} (hrefl : ∀ a, R a a)
    (htrans : ∀ a b c, R a b → R b c → R a c)
    (hstep : ∀ current score, skips params current score = false → R current (some score))
    (s : SortedSet) (added updated : ℕ) (pairs : List (Int64 × GoString)) (m : GoString) :
    R (s.lookup m) ((addAll params s added updated pairs).1.lookup m) := by
  induction pairs generalizing s added updated with
  | nil => exact hrefl _
  | cons pair rest ih =>
    rw [addAll_cons]
    refine htrans _ _ _ ?_ (ih _ _ _)
    rw [lookup_addOne_eq_ite]
    split
    · next hmember => exact hmember.1 ▸ hstep _ _ hmember.2
    · exact hrefl _

/-- The options hold for one member, by its score before a command and its score after it: NX leaves a member that is
there, XX adds none, GT lowers and LT raises no score. -/
def HonoursAt (params : Params) (before after : Option Int64) : Prop :=
  (params.given .nx = true → ∀ old, before = some old → after = some old) ∧
    (params.given .xx = true → before = none → after = none) ∧
    (params.given .gt = true → ∀ old, before = some old → ∃ new, after = some new ∧ old ≤ new) ∧
    (params.given .lt = true → ∀ old, before = some old → ∃ new, after = some new ∧ new ≤ old)

/-- The options hold between the set before a command and the set after it. -/
def Honours (params : Params) (before after : SortedSet) : Prop :=
  ∀ m, HonoursAt params (before.lookup m) (after.lookup m)

theorem HonoursAt.refl (score : Option Int64) : HonoursAt params score score :=
  ⟨fun _ _ h => h, fun _ h => h, fun _ old h => ⟨old, h, Int64.le_refl old⟩,
    fun _ old h => ⟨old, h, Int64.le_refl old⟩⟩

/-- Options that hold from a score to a second one and from there to a third one hold from the first to the third. -/
theorem HonoursAt.trans (a b c : Option Int64) (hab : HonoursAt params a b) (hbc : HonoursAt params b c) :
    HonoursAt params a c := by
  refine ⟨fun hnx old h => hbc.1 hnx old (hab.1 hnx old h), fun hxx h => hbc.2.1 hxx (hab.2.1 hxx h), ?_, ?_⟩
  · intro hgt old h
    obtain ⟨mid, hmid, hle⟩ := hab.2.2.1 hgt old h
    obtain ⟨new, hnew, hle'⟩ := hbc.2.2.1 hgt mid hmid
    exact ⟨new, hnew, Int64.le_trans hle hle'⟩
  · intro hlt old h
    obtain ⟨mid, hmid, hle⟩ := hab.2.2.2 hlt old h
    obtain ⟨new, hnew, hle'⟩ := hbc.2.2.2 hlt mid hmid
    exact ⟨new, hnew, Int64.le_trans hle' hle⟩

theorem honoursAt_of_not_skips (current : Option Int64) (score : Int64) (h : skips params current score = false) :
    HonoursAt params current (some score) := by
  cases current with
  | none => simpa [HonoursAt, skips] using h
  | some old =>
    simp only [skips, Bool.or_eq_false_iff, Bool.and_eq_false_imp, decide_eq_false_iff_not, Int64.not_le] at h
    simp only [HonoursAt, h.1.1, Option.some.injEq, forall_eq', exists_eq_left']
    exact ⟨nofun, nofun, fun hgt => Int64.le_of_lt (h.1.2 hgt), fun hlt => Int64.le_of_lt (h.2 hlt)⟩

theorem honours_addAll (s : SortedSet) (added updated : ℕ) (pairs : List (Int64 × GoString)) :
    Honours params s (addAll params s added updated pairs).1 :=
  addAll_rel HonoursAt.refl HonoursAt.trans honoursAt_of_not_skips s added updated pairs

def addedMembers (before after : SortedSet) : Finset GoString :=
  after.keys.filter fun m => before.lookup m = none

/-- The members that get another score from a command. -/
def changedMembers (before after : SortedSet) : Finset GoString :=
  before.keys.filter fun m => after.lookup m ≠ before.lookup m

theorem mem_addedMembers_iff (before after : SortedSet) (m : GoString) :
    m ∈ addedMembers before after ↔ before.lookup m = none ∧ after.lookup m ≠ none := by
  rw [addedMembers, Finset.mem_filter, Finmap.mem_keys, ← Finmap.lookup_isSome, Option.isSome_iff_ne_none, and_comm]

/-- A member gets another score when it was there and its score is not the same afterwards. -/
theorem mem_changedMembers_iff (before after : SortedSet) (m : GoString) :
    m ∈ changedMembers before after ↔ before.lookup m ≠ none ∧ after.lookup m ≠ before.lookup m := by
  rw [changedMembers, Finset.mem_filter, Finmap.mem_keys, ← Finmap.lookup_isSome, Option.isSome_iff_ne_none]

/-- The members that are added or get another score are those with another lookup. -/
theorem card_added_add_card_changed {touched : Finset GoString}
    (h : ∀ m, m ∈ touched ↔ after.lookup m ≠ s.lookup m) :
    (addedMembers s after).card + (changedMembers s after).card = touched.card := by
  have hdisjoint : Disjoint (addedMembers s after) (changedMembers s after) := by
    rw [Finset.disjoint_left]
    intro m hadded hchanged
    exact ((mem_changedMembers_iff _ _ m).mp hchanged).1 ((mem_addedMembers_iff _ _ m).mp hadded).1
  rw [← Finset.card_union_of_disjoint hdisjoint]
  congr 1
  ext m
  rw [Finset.mem_union, mem_addedMembers_iff, mem_changedMembers_iff, h]
  cases s.lookup m <;> simp

theorem lookup_addAll_of_notMem (h : m ∉ writes params s pairs) (added updated : ℕ) :
    (addAll params s added updated pairs).1.lookup m = s.lookup m := by
  induction pairs generalizing s added updated with
  | nil => rfl
  | cons pair rest ih =>
    have hkept : m ∉ writes params (addOne params s pair) rest ∧ (addOne params s pair).lookup m = s.lookup m := by
      rw [writes] at h
      split at h
      · next hsame => exact ⟨h, lookup_addOne_of_same hsame m⟩
      · rw [List.mem_cons, not_or] at h
        exact ⟨h.2, lookup_addOne_of_ne h.1 s⟩
    rw [addAll_cons, ih hkept.1, hkept.2]

/-- A member that is written, and once only, has another score afterwards. -/
theorem lookup_addAll_ne_of_mem (hnodup : (writes params s pairs).Nodup) (h : m ∈ writes params s pairs)
    (added updated : ℕ) :
    (addAll params s added updated pairs).1.lookup m ≠ s.lookup m := by
  induction pairs generalizing s added updated with
  | nil => cases h
  | cons pair rest ih =>
    rw [addAll_cons]
    rw [writes] at h hnodup
    split at h
    · next hsame =>
      rw [if_pos hsame] at hnodup
      rw [← lookup_addOne_of_same hsame m]
      exact ih hnodup h _ _
    · next hchanged =>
      rw [if_neg hchanged, List.nodup_cons] at hnodup
      by_cases hm : m = pair.2
      · rw [hm, lookup_addAll_of_notMem hnodup.1]
        exact hchanged
      · rw [← lookup_addOne_of_ne hm s]
        exact ih hnodup.2 (List.mem_of_ne_of_mem hm h) _ _

theorem addAll_counts (s : SortedSet) (added updated : ℕ) (pairs : List (Int64 × GoString)) :
    (addAll params s added updated pairs).2.1 + (addAll params s added updated pairs).2.2 =
      added + updated + (writes params s pairs).length := by
  induction pairs generalizing s added updated with
  | nil => simp [addAll, writes]
  | cons pair rest ih =>
    rw [addAll_cons, ih, writes]
    by_cases hsame : (addOne params s pair).lookup pair.2 = s.lookup pair.2
    · simp [hsame]
    · cases hold : s.lookup pair.2 with
      | none | some =>
        rw [hold] at hsame
        simp [hsame]
        omega

theorem lookup_addAll_ne_none (h : s.lookup m ≠ none) (added updated : ℕ) (pairs : List (Int64 × GoString)) :
    (addAll params s added updated pairs).1.lookup m ≠ none :=
  addAll_rel (R := fun a b => a ≠ none → b ≠ none) (fun _ h => h) (fun _ _ _ hab hbc h => hbc (hab h))
    (fun _ _ _ _ => Option.some_ne_none _) s added updated pairs m h

/-- One pair adds its member to those that all pairs add when the member was not there and is there after it. -/
theorem card_addedMembers_addOne
    (hafter : (addOne params s pair).lookup pair.2 ≠ none → after.lookup pair.2 ≠ none) :
    (addedMembers s after).card =
      (addedMembers (addOne params s pair) after).card +
        if s.lookup pair.2 = none ∧ (addOne params s pair).lookup pair.2 ≠ none then 1 else 0 := by
  split
  · next hnew =>
    have hnotMem : pair.2 ∉ addedMembers (addOne params s pair) after := by simp [mem_addedMembers_iff, hnew.2]
    rw [← Finset.card_insert_of_notMem hnotMem]
    congr 1
    ext m
    by_cases hm : m = pair.2
    · subst hm
      simp [mem_addedMembers_iff, hnew.1, hafter hnew.2]
    · simp [mem_addedMembers_iff, hm, lookup_addOne_of_ne hm]
  · next hold =>
    have hnone : (addOne params s pair).lookup pair.2 = none ↔ s.lookup pair.2 = none := by
      rw [lookup_addOne] at hold ⊢
      split
      · rfl
      · next hskips => simpa [hskips] using hold
    congr 1
    ext m
    by_cases hm : m = pair.2
    · rw [mem_addedMembers_iff, mem_addedMembers_iff, hm, hnone]
    · simp [mem_addedMembers_iff, lookup_addOne_of_ne hm]

section

variable (s : SortedSet) (added updated : ℕ) (pairs : List (Int64 × GoString))

theorem addAll_added :
    (addAll params s added updated pairs).2.1 =
      added + (addedMembers s (addAll params s added updated pairs).1).card := by
  induction pairs generalizing s added updated with
  | nil =>
    have hnone : addedMembers s s = ∅ := by
      ext m
      simp [mem_addedMembers_iff]
    simp [addAll, hnone]
  | cons pair rest ih =>
    rw [addAll_cons, ih, card_addedMembers_addOne fun hsome => lookup_addAll_ne_none hsome _ _ rest]
    split <;> omega

/-- The members that are written are at least as many as those that are added or get another score, and as
many exactly when none is written twice. -/
theorem length_writes_eq_iff :
    (writes params s pairs).length =
        (addedMembers s (addAll params s added updated pairs).1).card +
          (changedMembers s (addAll params s added updated pairs).1).card ↔
      (writes params s pairs).Nodup := by
  let touched := (writes params s pairs).toFinset.filter fun m =>
    (addAll params s added updated pairs).1.lookup m ≠ s.lookup m
  have hmem (m : GoString) : m ∈ touched ↔ (addAll params s added updated pairs).1.lookup m ≠ s.lookup m := by
    rw [Finset.mem_filter, List.mem_toFinset, and_iff_right_iff_imp]
    intro hchanged
    by_contra hnot
    exact hchanged (lookup_addAll_of_notMem hnot added updated)
  rw [card_added_add_card_changed hmem]
  constructor
  · intro hlength
    have hcard : (writes params s pairs).length ≤ (writes params s pairs).toFinset.card :=
      hlength ▸ Finset.card_filter_le _ _
    exact Multiset.coe_nodup.mp (Multiset.toFinset_card_eq_card_iff_nodup.mp
      (Nat.le_antisymm (List.toFinset_card_le _) hcard))
  · intro hnodup
    have hall : touched = (writes params s pairs).toFinset :=
      Finset.filter_true_of_mem fun m hm =>
        lookup_addAll_ne_of_mem hnodup (List.mem_toFinset.mp hm) added updated
    rw [hall, List.toFinset_card_of_nodup hnodup]

end

theorem length_writes_le (s : SortedSet) (pairs : List (Int64 × GoString)) :
    (writes params s pairs).length ≤ pairs.length := by
  induction pairs generalizing s with
  | nil => exact Nat.le_refl 0
  | cons pair rest ih =>
    have hrest := ih (addOne params s pair)
    rw [writes]
    split
    · simp only [List.length_cons]
      omega
    · simp only [List.length_cons]
      omega

/-- The word that INCR stores and returns. -/
def incrSum (current : Option Int64) (score : Int64) : Int64 := current.getD 0 + score

/-- INCR stores the exact sum of the old score, or zero, and the given one. -/
def IncrExact (params : Params) (before : SortedSet) (pairs : List (Int64 × GoString)) (after : SortedSet) : Prop :=
  params.given .incr = true → ∀ score m, (score, m) ∈ pairs →
    ∃ new, after.lookup m = some new ∧ new.toInt = ((before.lookup m).getD 0).toInt + score.toInt

/-- What is returned is the number of members that are added, with CH also of those that get another score. -/
def CountsMembers (params : Params) (before after : SortedSet) (returned : Int64) : Prop :=
  returned.toInt = (addedMembers before after).card +
    if params.given .ch then ((changedMembers before after).card : ℤ) else 0

/-- INCR of a score keeps to the options, and its sum is in the range. -/
structure IncrAllowed (params : Params) (current : Option Int64) (score : Int64) : Prop where
  nx : params.given .nx = true → current = none ∨ score = 0
  xx : params.given .xx = true → current ≠ none
  gt : params.given .gt = true → current = none ∨ 0 ≤ score
  lt : params.given .lt = true → current = none ∨ score ≤ 0
  range : InRange ((current.getD 0).toInt + score.toInt)

/-- The number of members that INCR of one member adds, with CH also of those that get another score. -/
def incrCount (params : Params) (current : Option Int64) (score : Int64) : ℤ :=
  if current = none ∨ (params.given .ch = true ∧ score ≠ 0) then 1 else 0

/-- The insertion of one member keeps to the options when its new score does. -/
theorem honours_insert_iff (s : SortedSet) (m : GoString) (new : Int64) :
    Honours params s (s.insert m new) ↔ HonoursAt params (s.lookup m) (some new) := by
  simp only [Honours, Table.lookup_insert_eq_ite]
  constructor
  · intro h
    simpa using h m
  · intro h m'
    split
    · next hm => exact hm ▸ h
    · exact .refl _

/-- A word is compared with its sum with another word as that word is with zero, as long as the sum is in the
range. -/
theorem add_compare {old score : Int64} (hrange : InRange (old.toInt + score.toInt)) :
    (old + score = old ↔ score = 0) ∧ (old ≤ old + score ↔ 0 ≤ score) ∧ (old + score ≤ old ↔ score ≤ 0) := by
  have hsum := (toInt_add_iff old score).mpr hrange
  have hzero : (0 : Int64).toInt = 0 := rfl
  refine ⟨Int64.add_eq_left, ?_⟩
  simp only [Int64.le_iff_toInt_le, hsum, hzero]
  omega

section

variable (hincr : params.given .incr = true) (s : SortedSet) (score : Int64) (m : GoString)
include hincr

/-- INCR of one member stores the exact sum exactly when that is in the range. -/
theorem incrExact_iff :
    IncrExact params s [(score, m)] (s.insert m (incrSum (s.lookup m) score)) ↔
      InRange (((s.lookup m).getD 0).toInt + score.toInt) := by
  simp [IncrExact, hincr, Table.lookup_insert_eq_ite, ← toInt_add_iff, incrSum]

/-- INCR of one member keeps to the options and stores the exact sum exactly when its score does. -/
theorem honours_incr_iff :
    (Honours params s (s.insert m (incrSum (s.lookup m) score)) ∧
        IncrExact params s [(score, m)] (s.insert m (incrSum (s.lookup m) score))) ↔
      IncrAllowed params (s.lookup m) score := by
  rw [incrExact_iff hincr, honours_insert_iff]
  cases s.lookup m with
  | none =>
    constructor
    · rintro ⟨⟨-, hxx, -, -⟩, hrange⟩
      exact ⟨fun _ => .inl rfl, fun h => absurd (hxx h rfl) nofun, fun _ => .inl rfl, fun _ => .inl rfl, hrange⟩
    · intro h
      exact ⟨⟨fun _ => nofun, fun hxx => absurd rfl (h.xx hxx), fun _ => nofun, fun _ => nofun⟩, h.range⟩
  | some old =>
    have hat : HonoursAt params (some old) (some (incrSum (some old) score)) ↔
        (params.given .nx = true → old + score = old) ∧ (params.given .gt = true → old ≤ old + score) ∧
          (params.given .lt = true → old + score ≤ old) := by
      simp [HonoursAt, incrSum]
    constructor
    · rintro ⟨hscore, hrange⟩
      obtain ⟨heq, hge, hle⟩ := @add_compare old score hrange
      rw [hat, heq, hge, hle] at hscore
      exact ⟨fun h => .inr (hscore.1 h), fun _ => nofun, fun h => .inr (hscore.2.1 h), fun h => .inr (hscore.2.2 h),
        hrange⟩
    · intro h
      obtain ⟨heq, hge, hle⟩ := @add_compare old score h.range
      rw [hat, heq, hge, hle]
      exact ⟨⟨fun hnx => (h.nx hnx).resolve_left nofun, fun hgt => (h.gt hgt).resolve_left nofun,
        fun hlt => (h.lt hlt).resolve_left nofun⟩, h.range⟩

end

theorem addedMembers_insert (s : SortedSet) (m : GoString) (new : Int64) :
    addedMembers s (s.insert m new) = if s.lookup m = none then {m} else ∅ := by
  ext m'
  by_cases hm : m' = m
  · subst hm
    by_cases hnone : s.lookup m' = none <;> simp [mem_addedMembers_iff, hnone]
  · by_cases hnone : s.lookup m = none <;> simp [mem_addedMembers_iff, hm, hnone]

/-- The insertion of one member changes it when it was there with another score. -/
theorem changedMembers_insert (s : SortedSet) (m : GoString) (new : Int64) :
    changedMembers s (s.insert m new) = if s.lookup m = none ∨ s.lookup m = some new then ∅ else {m} := by
  ext m'
  rw [mem_changedMembers_iff, Table.lookup_insert_eq_ite]
  by_cases hm : m' = m
  · subst hm
    cases s.lookup m' with
    | none => simp
    | some old => by_cases hsame : new = old <;> simp [hsame, eq_comm]
  · by_cases hsame : s.lookup m = none ∨ s.lookup m = some new
    · rw [if_neg hm, if_pos hsame]
      simp
    · rw [if_neg hm, if_neg hsame]
      simp [hm]

theorem count_incr (s : SortedSet) (score : Int64) (m : GoString) :
    ((addedMembers s (s.insert m (incrSum (s.lookup m) score))).card : ℤ) +
        (if params.given .ch then ((changedMembers s (s.insert m (incrSum (s.lookup m) score))).card : ℤ) else 0) =
      incrCount params (s.lookup m) score := by
  rw [addedMembers_insert, changedMembers_insert, incrCount]
  cases s.lookup m with
  | none => simp
  | some old =>
    by_cases hscore : score = 0
    · simp [incrSum, hscore]
    · simp [incrSum, Int64.left_eq_add, hscore]

/-- Without INCR the members that are added are counted, and with CH those that get another score are counted
exactly when no member is written twice. -/
theorem countsMembers_addAll_iff (s : SortedSet) {pairs : List (Int64 × GoString)} (hlength : pairs.length < 2 ^ 63) :
    CountsMembers params s (addAll params s 0 0 pairs).1
        (Int64.ofNat (if params.given .ch then (writes params s pairs).length
          else (addedMembers s (addAll params s 0 0 pairs).1).card)) ↔
      (params.given .ch = true → (writes params s pairs).Nodup) := by
  have hwrites : (writes params s pairs).length ≤ pairs.length := length_writes_le s pairs
  have hcounts := @addAll_counts params s 0 0 pairs
  have hadded := @addAll_added params s 0 0 pairs
  have hword {k : ℕ} (hk : k ≤ pairs.length) : (Int64.ofNat k).toInt = k :=
    Int64.toInt_ofNat_of_lt (hk.trans_lt hlength)
  rw [CountsMembers]
  cases hch : params.given .ch with
  | false =>
    have hle : (addedMembers s (addAll params s 0 0 pairs).1).card ≤ pairs.length := by omega
    simp [hword hle]
  | true =>
    rw [← length_writes_eq_iff s 0 0 pairs, if_pos rfl, if_pos rfl, hword hwrites, forall_prop_of_true rfl,
      ← Nat.cast_add, Nat.cast_inj]

/-- Options that ask for a flag each. -/
def flags (given : List Param) : Params := fun p => if p ∈ given then flagValue else []

end SortedSet

namespace SortedSetLib

open SortedSet

variable {lib : SortedSetLib} {params : Params} {s after : lib.Carrier} {pairs : List (Int64 × GoString)}
  {returned : Int64}

/-- What ZADD does with options that it accepts: INCR of one member, or all pairs one after the other. -/
theorem zadd_eq_ok (h : lib.zadd s params pairs = .ok (after, returned)) :
    (params.given .incr = true ∧ ∃ score m, pairs = [(score, m)] ∧
        lib.scores after = (lib.scores s).insert m (incrSum ((lib.scores s).lookup m) score) ∧
        returned = incrSum ((lib.scores s).lookup m) score) ∨
      ((params.given .incr = false ∨ pairs = []) ∧
        lib.scores after = (SortedSet.addAll params (lib.scores s) 0 0 pairs).1 ∧
        returned = Int64.ofNat (if params.given .ch then (writes params (lib.scores s) pairs).length
          else (addedMembers (lib.scores s) (lib.scores after)).card)) := by
  have hall := lib.scores_addAll params s 0 0 pairs
  have hsame : lib.scores (lib.addAll params s 0 0 pairs).1 =
      (SortedSet.addAll params (lib.scores s) 0 0 pairs).1 := congrArg Prod.fst hall
  have hcounts := @addAll_counts params (lib.scores s) 0 0 pairs
  have hadded := @addAll_added params (lib.scores s) 0 0 pairs
  rw [Nat.zero_add] at hcounts hadded
  unfold zadd at h
  split at h
  · cases h
  · split at h
    · cases h
    · split at h
      · cases h
      · next hseveral =>
        split at h
        · next score m rest hincr =>
          cases h
          have hrest : rest = [] := by simpa [hincr] using hseveral
          refine .inl ⟨hincr, score, m, by rw [hrest], ?_, ?_⟩
          · rw [lib.scores_addOrUpdate, lib.getByKey_eq]
            cases (lib.scores s).lookup m <;> simp [incrSum]
          · rw [lib.getByKey_eq]
            cases (lib.scores s).lookup m <;> simp [incrSum]
        · next hother =>
          cases h
          refine .inr ⟨or_iff_not_imp_right.mpr fun hsome => eq_false_of_ne_true fun hincr => ?_, hsame, ?_⟩
          · obtain ⟨pair, rest, hcons⟩ := List.exists_cons_of_ne_nil hsome
            exact hother pair.1 pair.2 rest hincr hcons
          · rw [hsame, ← hcounts, ← hadded, ← hall]
            rfl

/-- ZADD with options that it accepts, on a set of any library: the options hold and INCR is exact, exactly when INCR is
not given or its score keeps to the options and its sum is in the range. What is returned is the number of members that
are added or changed, exactly when INCR is not given or its sum happens to be this number, and with CH no member is
written twice. The pairs are fewer than the words, as those of a slice are. -/
theorem zadd_options_iff (lib : SortedSetLib) {params : Params} {s after : lib.Carrier}
    {pairs : List (Int64 × GoString)} {returned : Int64} (h : lib.zadd s params pairs = .ok (after, returned))
    (hlength : pairs.length < 2 ^ 63) :
    ((Honours params (lib.scores s) (lib.scores after) ∧
          IncrExact params (lib.scores s) pairs (lib.scores after)) ↔
        ∀ score m, params.given .incr = true → pairs = [(score, m)] →
          IncrAllowed params ((lib.scores s).lookup m) score) ∧
      (CountsMembers params (lib.scores s) (lib.scores after) returned ↔
        (∀ score m, params.given .incr = true → pairs = [(score, m)] →
          (incrSum ((lib.scores s).lookup m) score).toInt = incrCount params ((lib.scores s).lookup m) score) ∧
        (params.given .incr = false → params.given .ch = true → (writes params (lib.scores s) pairs).Nodup)) := by
  have hcases := zadd_eq_ok h
  generalize lib.scores s = before at hcases ⊢
  generalize lib.scores after = final at hcases ⊢
  rcases hcases with ⟨hincr, score, m, rfl, rfl, rfl⟩ | ⟨hplain, rfl, rfl⟩
  · refine ⟨?_, ?_⟩
    · rw [honours_incr_iff hincr]
      constructor
      · rintro hallowed _ _ - ⟨⟩
        exact hallowed
      · intro hall
        exact hall score m hincr rfl
    · rw [CountsMembers, count_incr]
      constructor
      · intro hcount
        refine ⟨?_, fun hplain => absurd hincr (by simp [hplain])⟩
        rintro _ _ - ⟨⟩
        exact hcount
      · rintro ⟨hall, -⟩
        exact hall score m hincr rfl
  · have hnone {score : Int64} {m : GoString} (hincr : params.given .incr = true) : pairs ≠ [(score, m)] := by
      rintro rfl
      rcases hplain with hplain | hplain
      · simp [hplain] at hincr
      · cases hplain
    refine ⟨iff_of_true ⟨honours_addAll before 0 0 pairs, fun hincr score m hmem => ?_⟩
      (fun score m hincr hpairs => absurd hpairs (hnone hincr)), ?_⟩
    · rcases hplain with hplain | rfl
      · simp [hplain] at hincr
      · cases hmem
    · rw [countsMembers_addAll_iff before hlength]
      constructor
      · intro hnodup
        exact ⟨fun score m hincr hpairs => absurd hpairs (hnone hincr), fun _ => hnodup⟩
      · rintro ⟨-, hnodup⟩ hch
        rcases hplain with hplain | rfl
        · exact hnodup hplain hch
        · exact List.nodup_nil

def oneMember : SortedSet := Finmap.insert (ascii "a") 1 ∅

/-- With NX and CH a member that is there keeps its score, and the new one is counted. INCR with GT and a positive score
stores the sum. -/
theorem zadd_options_given :
    (Honours (flags [.nx, .ch]) oneMember (oneMember.insert (ascii "b") 2) ∧
        CountsMembers (flags [.nx, .ch]) oneMember (oneMember.insert (ascii "b") 2) 1) ∧
      Honours (flags [.gt, .incr]) oneMember (oneMember.insert (ascii "a") 6) ∧
      IncrExact (flags [.gt, .incr]) oneMember [(5, ascii "a")] (oneMember.insert (ascii "a") 6) := by
  have hadded := @zadd_options_iff tableLib (flags [.nx, .ch]) oneMember (oneMember.insert (ascii "b") 2)
    [(5, ascii "a"), (2, ascii "b")] 1 rfl (by decide)
  have hsum := @zadd_options_iff tableLib (flags [.gt, .incr]) oneMember (oneMember.insert (ascii "a") 6)
    [(5, ascii "a")] 6 rfl (by decide)
  refine ⟨⟨(hadded.1.mpr fun _ _ hincr => absurd hincr (by decide)).1, hadded.2.mpr ⟨?_, fun _ _ => by decide⟩⟩,
    hsum.1.mpr ?_⟩
  · exact fun _ _ hincr => absurd hincr (by decide)
  · rintro score m - ⟨⟩
    exact ⟨fun hnx => absurd hnx (by decide), fun hxx => absurd hxx (by decide), fun _ => .inr (by decide),
      fun hlt => absurd hlt (by decide), ⟨by decide, by decide⟩⟩

/-- INCR with NX changes a member that is there, and CH counts a member twice that is added and then changed. -/
theorem zadd_options_ignored :
    (tableLib.zadd (Finmap.insert (ascii "m") 1 ∅ : SortedSet) (flags [.nx, .incr]) [(5, ascii "m")]).toOption =
        some ((Finmap.insert (ascii "m") 6 ∅ : SortedSet), 6) ∧
      ¬Honours (flags [.nx, .incr]) (Finmap.insert (ascii "m") 1 ∅) (Finmap.insert (ascii "m") 6 ∅) ∧
      (tableLib.zadd (∅ : SortedSet) (flags [.ch]) [(1, ascii "m"), (2, ascii "m")]).toOption =
        some ((Finmap.insert (ascii "m") 2 ∅ : SortedSet), 2) ∧
      ¬CountsMembers (flags [.ch]) ∅ (Finmap.insert (ascii "m") 2 ∅) 2 := by
  refine ⟨rfl, fun h => ?_, rfl, ?_⟩
  · exact absurd ((h (ascii "m")).1 (by decide) 1 rfl) (by decide)
  · unfold CountsMembers
    decide

end SortedSetLib

end SevenDB.Types
