import Mathlib.Data.List.Lex
import Mathlib.Data.Prod.Lex
import SevenDB.Common.FiniteTable
import SevenDB.Types.Params

/-!
# Sorted sets

A sorted set gives each of its members a score. Members are listed by score, and by their bytes where scores
are the same; ranks count from one in this order. This is the abstract model: a set is the table of its scores, and it
is listed when an order is needed. The source keeps its sets in a library that is not part of it; the next module says
what is relied on of such a library, and that the tables are one.
-/

namespace SevenDB.Types

open SevenDB.Common

/-- The scores of the members. -/
abbrev SortedSet := Table GoString Int64

/-- What the place of a member with its score is compared by. -/
def placeKey (entry : Int64 × GoString) : ℤ ×ₗ List ℕ := toLex (entry.1.toInt, entry.2.map UInt8.toNat)

/-- A member stands before another, or is the same. -/
def NotAfter (a b : Int64 × GoString) : Prop := placeKey a ≤ placeKey b

instance : DecidableRel NotAfter := fun a b => inferInstanceAs (Decidable (placeKey a ≤ placeKey b))

instance : IsTrans (Int64 × GoString) NotAfter := ⟨fun _ _ _ => le_trans⟩

instance : Std.Total NotAfter := ⟨fun a b => le_total (placeKey a) (placeKey b)⟩

instance : Std.Antisymm NotAfter where
  antisymm a b hab hba := by
    have hkey : placeKey a = placeKey b := le_antisymm hab hba
    obtain ⟨hscore, hmember⟩ := Prod.ext_iff.mp (toLex.injective hkey)
    have hbytes : Function.Injective UInt8.toNat := fun x y => UInt8.toNat_inj.mp
    exact Prod.ext (Int64.toInt_inj.mp hscore) (List.map_injective_iff.mpr hbytes hmember)

structure ZElement where
  member : GoString
  score : Int64
  rank : Int64
  deriving DecidableEq, Repr

namespace SortedSet

variable (s : SortedSet)

/-- The members with their scores in order. -/
def listed : List (Int64 × GoString) := sortedList NotAfter (s.entries.map fun entry => (entry.2, entry.1))

def getCount : ℕ := s.keys.card

/-- The rank of a member, counted from one; zero without the member. -/
def findRank (member : GoString) : ℕ :=
  match s.listed.findIdx? fun entry => decide (entry.2 = member) with
  | some i => i + 1
  | none => 0

/-- Take out the first members, at most so many, and return them in order. -/
def popMin : ℕ → SortedSet → List (Int64 × GoString) × SortedSet
  | 0, s => ([], s)
  | count + 1, s =>
    match s.listed.head? with
    | none => ([], s)
    | some entry =>
      let rest := popMin count (s.erase entry.2)
      (entry :: rest.1, rest.2)

/-- Take out the last members, at most so many, and return them from the last one on. -/
def popMax : ℕ → SortedSet → List (Int64 × GoString) × SortedSet
  | 0, s => ([], s)
  | count + 1, s =>
    match s.listed.getLast? with
    | none => ([], s)
    | some entry =>
      let rest := popMax count (s.erase entry.2)
      (entry :: rest.1, rest.2)

/-- The members with scores between two bounds, from the last one on when the bounds are the other way
round. -/
def getByScoreRange (start stop : Int64) : List (Int64 × GoString) :=
  if stop < start then (s.listed.filter fun entry => decide (stop ≤ entry.1 ∧ entry.1 ≤ start)).reverse
  else s.listed.filter fun entry => decide (start ≤ entry.1 ∧ entry.1 ≤ stop)

/-- A rank that may count from the end, made a rank from one on. -/
def sanitizeIndex (index : Int64) : ℤ :=
  let fromStart := if index < 0 then (s.getCount : ℤ) + index.toInt + 1 else index.toInt
  if fromStart ≤ 0 then 1 else fromStart

/-- The members with ranks between two bounds, from the last one on when the bounds are the other way
round. -/
def betweenRanks (first last : ℤ) : List (Int64 × GoString) :=
  if last < first then ((s.listed.take first.toNat).drop (last.toNat - 1)).reverse
  else (s.listed.take last.toNat).drop (first.toNat - 1)

/-- The members with ranks between two bounds that may count from the end. -/
def getByRankRange (start stop : Int64) : List (Int64 × GoString) :=
  s.betweenRanks (s.sanitizeIndex start) (s.sanitizeIndex stop)

inductive ZAddError
  | xxAndNx
  | gtLtNx
  | incrOfSeveral
  deriving DecidableEq, Repr

def ZAddError.text : ZAddError → String
  | xxAndNx => "XX and NX options at the same time are not compatible"
  | gtLtNx => "GT, LT, and/or NX options at the same time are not compatible"
  | incrOfSeveral => "INCR option supports a single increment-element pair"

/-- A member is left as it is because of the options. -/
def skips (params : Params) (current : Option Int64) (score : Int64) : Bool :=
  match current with
  | none => params.given .xx
  | some old =>
    params.given .nx || (params.given .gt && decide (score ≤ old)) || (params.given .lt && decide (old ≤ score))

/-- Add or update members one after the other and count those added and those updated. -/
def addAll (params : Params) : SortedSet → ℕ → ℕ → List (Int64 × GoString) → SortedSet × ℕ × ℕ
  | s, added, updated, [] => (s, added, updated)
  | s, added, updated, (score, member) :: rest =>
    if skips params (s.lookup member) score then addAll params s added updated rest
    else
      match s.lookup member with
      | none => addAll params (s.insert member score) (added + 1) updated rest
      | some old =>
        addAll params (s.insert member score) added (if score = old then updated else updated + 1) rest

/-- The members between two scores are counted. -/
def zcount (minScore maxScore : Int64) : Int64 := Int64.ofNat (s.getByScoreRange minScore maxScore).length

/-- Members with ranks that count on from a given one. -/
def elementsFrom (rank : ℕ) (nodes : List (Int64 × GoString)) : List ZElement :=
  nodes.zipIdx.map fun node => ⟨node.1.2, node.1.1, Int64.ofNat (rank + node.2)⟩

end SortedSet

end SevenDB.Types
