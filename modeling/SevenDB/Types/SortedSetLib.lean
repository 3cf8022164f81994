import SevenDB.Types.SortedSet

/-!
# The library of sorted sets

The source keeps its sorted sets in a library that is not part of it. What is relied on of the library is a structure
with its laws: a set stands for the table of its scores, and what the operations return and change agrees with the
table. ZADD and ZRANGE are translated over any such library. How ranks that are not positive are read is left to the
library.
-/

namespace SevenDB.Types

open SevenDB.Common

/-- A library of sorted sets, with what is relied on of it. -/
structure SortedSetLib where
  Carrier : Type
  /-- The scores that a set stands for. -/
  scores : Carrier → SortedSet
  getByKey : Carrier → GoString → Option Int64
  /-- Set the score of a member, and say whether the member is new. -/
  addOrUpdate : Carrier → GoString → Int64 → Carrier × Bool
  getByScoreRange : Carrier → Int64 → Int64 → List (Int64 × GoString)
  getByRankRange : Carrier → Int64 → Int64 → List (Int64 × GoString)
  findRank : Carrier → GoString → ℕ
  /-- The rank that a bound stands for. -/
  resolve : Carrier → Int64 → ℤ
  getByKey_eq : ∀ s m, getByKey s m = (scores s).lookup m
  scores_addOrUpdate : ∀ s m score, scores (addOrUpdate s m score).1 = (scores s).insert m score
  inserted_eq : ∀ s m score, (addOrUpdate s m score).2 = ((scores s).lookup m).isNone
  /-- The requested range is returned, in reverse order when the start exceeds the stop. -/
  scoreRange_eq : ∀ s start stop, getByScoreRange s start stop = (scores s).getByScoreRange start stop
  rankRange_eq : ∀ s start stop,
    getByRankRange s start stop = (scores s).betweenRanks (resolve s start) (resolve s stop)
  one_le_resolve : ∀ s index, 1 ≤ resolve s index
  resolve_of_pos : ∀ s (index : Int64), 0 < index → resolve s index = index.toInt
  /-- The rank of a member is its place, counted from one. -/
  findRank_eq : ∀ s i score m, (scores s).listed[i]? = some (score, m) → findRank s m = i + 1

namespace SortedSetLib

variable (lib : SortedSetLib)

/-- Add or update members one after the other and count those added and those updated. -/
def addAll (params : Params) : lib.Carrier → ℕ → ℕ → List (Int64 × GoString) → lib.Carrier × ℕ × ℕ
  | s, added, updated, [] => (s, added, updated)
  | s, added, updated, (score, member) :: rest =>
    let current := lib.getByKey s member
    if SortedSet.skips params current score then addAll params s added updated rest
    else
      let done := lib.addOrUpdate s member score
      if done.2 && current.isNone then addAll params done.1 (added + 1) updated rest
      else if current.isSome && decide (current ≠ some score) then addAll params done.1 added (updated + 1) rest
      else addAll params done.1 added updated rest

/-- Add members with scores: the set after it, and the count to return. With INCR the one score is added to
the old one and returned. -/
def zadd (s : lib.Carrier) (params : Params) (pairs : List (Int64 × GoString)) :
    Except SortedSet.ZAddError (lib.Carrier × Int64) :=
  if params.given .xx && params.given .nx then .error .xxAndNx
  else if (params.given .gt && params.given .nx) || (params.given .lt && params.given .nx) ||
      (params.given .gt && params.given .lt) then .error .gtLtNx
  else if params.given .incr && decide (1 < pairs.length) then .error .incrOfSeveral
  else
    match params.given .incr, pairs with
    | true, (score, member) :: _ =>
      let sum := match lib.getByKey s member with
        | none => score
        | some old => old + score
      .ok ((lib.addOrUpdate s member sum).1, sum)
    | _, _ =>
      match lib.addAll params s 0 0 pairs with
      | (after, added, updated) =>
        .ok (after, Int64.ofNat (if params.given .ch then added + updated else added))

/-- The members between two scores or ranks, with ranks that count on from that of the first one. -/
def zrange (s : lib.Carrier) (start stop : Int64) (byScore : Bool) : List ZElement :=
  let nodes := if byScore then lib.getByScoreRange s start stop else lib.getByRankRange s start stop
  SortedSet.elementsFrom ((nodes.head?.map fun first => lib.findRank s first.2).getD 0) nodes

/-- Adding members to a set adds them to its table, with the same counts. -/
theorem scores_addAll (params : Params) (s : lib.Carrier) (added updated : ℕ) (pairs : List (Int64 × GoString)) :
    Prod.map lib.scores id (lib.addAll params s added updated pairs) =
      SortedSet.addAll params (lib.scores s) added updated pairs := by
  induction pairs generalizing s added updated with
  | nil => rfl
  | cons pair rest ih =>
    obtain ⟨score, member⟩ := pair
    simp only [addAll, SortedSet.addAll, lib.getByKey_eq, lib.inserted_eq]
    split
    · exact ih s added updated
    · cases (lib.scores s).lookup member with
      | none => simp [ih, lib.scores_addOrUpdate]
      | some old => by_cases hscore : score = old <;> simp [hscore, eq_comm, ih, lib.scores_addOrUpdate]

end SortedSetLib

namespace SortedSet

variable (s : SortedSet)

theorem listed_pairwise : s.listed.Pairwise NotAfter := sortedList_pairwise NotAfter _

theorem listed_nodup : (s.listed.map Prod.snd).Nodup := by
  have hmem : ∀ x, x ∈ s.listed ↔ s.lookup x.2 = some x.1 := by
    intro x
    rw [listed, mem_sortedList, Multiset.mem_map, ← Option.mem_def, Finmap.mem_lookup_iff]
    exact ⟨by rintro ⟨_, hentry, rfl⟩; exact hentry, fun hentry => ⟨_, hentry, rfl⟩⟩
  refine List.Nodup.map_on (fun x hx y hy hmember => ?_) (sortedList_nodup NotAfter ?_)
  · rw [hmem] at hx hy
    rw [hmember] at hx
    exact Prod.ext (Option.some.inj (hx.symm.trans hy)) hmember
  · exact s.nodupKeys.nodup.map fun a b hab => by simpa [Sigma.ext_iff, and_comm] using hab

theorem findRank_getElem {i : ℕ} {x : Int64 × GoString} (h : s.listed[i]? = some x) : s.findRank x.2 = i + 1 := by
  have hfirst : s.listed.findIdx? (fun entry => decide (entry.2 = x.2)) = some i := by
    obtain ⟨hlt, hx⟩ := List.getElem?_eq_some_iff.mp h
    rw [List.findIdx?_eq_some_iff_getElem]
    refine ⟨hlt, by simp [hx], fun j hj => ?_⟩
    simp only [decide_eq_true_eq]
    intro heq
    have hsame : (s.listed.map Prod.snd)[j]? = (s.listed.map Prod.snd)[i]? := by
      simp [List.getElem?_eq_getElem (hj.trans hlt), h, heq]
    exact hj.ne ((List.getElem?_inj (by simpa using hj.trans hlt) s.listed_nodup).mp hsame)
  simp [findRank, hfirst]

/-- The tables are a library of sorted sets, the one that the commands are modelled with. -/
@[reducible] def tableLib : SortedSetLib where
  Carrier := SortedSet
  scores := id
  getByKey s m := s.lookup m
  addOrUpdate s m score := (s.insert m score, (s.lookup m).isNone)
  getByScoreRange := getByScoreRange
  getByRankRange := getByRankRange
  findRank := findRank
  resolve := sanitizeIndex
  getByKey_eq _ _ := rfl
  scores_addOrUpdate _ _ _ := rfl
  inserted_eq _ _ _ := rfl
  scoreRange_eq _ _ _ := rfl
  rankRange_eq _ _ _ := rfl
  one_le_resolve s index := by
    simp only [sanitizeIndex]
    split_ifs <;> omega
  resolve_of_pos s index hpos := by
    have hpos' : 0 < index.toInt := Int64.lt_iff_toInt_lt.mp hpos
    have hnot : ¬index < 0 := by simpa [Int64.lt_iff_toInt_lt] using hpos'.le
    simp [sanitizeIndex, hnot, hpos']
  findRank_eq s _ _ _ h := s.findRank_getElem h

end SortedSet

end SevenDB.Types
