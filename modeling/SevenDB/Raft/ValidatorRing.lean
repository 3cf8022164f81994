import Mathlib.Data.Fin.Basic
import Mathlib.Data.List.GetD

/-!
# The ring of the log validator

The validator keeps the last tuples in a ring. Read from the newest tuple on, a new one comes first and the
others move back by one place, and seeding puts the last tuples of a list there.
-/

namespace SevenDB.Raft

/-- What the validator keeps of an entry. -/
structure WalValTuple where
  index : UInt64
  crc : UInt32
  opcode : UInt32
  sequence : UInt64
  bucket : String

/-- The tuple for an index and a checksum, with its other fields empty. -/
def WalValTuple.of (t : UInt64 × UInt32) : WalValTuple := ⟨t.1, t.2, 0, 0, ""⟩

/-- The validator, with the place that is written next and the number of tuples. -/
structure WalValidator where
  lastN : ℕ
  ring : Fin lastN → WalValTuple
  idx : ℕ
  count : ℕ
  idx_lt : idx < lastN
  count_le : count ≤ lastN

namespace WalValidator

/-- A new validator, or nil when it is to keep nothing. -/
def newWalValidator (n : ℤ) : Option WalValidator :=
  if h : n ≤ 0 then none else some ⟨n.toNat, fun _ => .of (0, 0), 0, 0, by omega, Nat.zero_le _⟩

variable (v : WalValidator)

/-- The place in the ring that a number comes to. -/
def place (i : ℕ) : Fin v.lastN := ⟨i % v.lastN, Nat.mod_lt i (Nat.zero_lt_of_lt v.idx_lt)⟩

/-- Write a tuple at the next place. -/
def add (t : WalValTuple) : WalValidator :=
  { v with
    ring := Function.update v.ring ⟨v.idx, v.idx_lt⟩ t
    idx := v.place (v.idx + 1)
    count := if v.count < v.lastN then v.count + 1 else v.count
    idx_lt := (v.place (v.idx + 1)).isLt
    count_le := by have hcount := v.count_le; split <;> omega }

/-- The tuples from the oldest one on. -/
def tuples : List WalValTuple :=
  let start := ((v.idx : ℤ) - v.count + v.lastN) % v.lastN
  (List.range v.count).map fun i => v.ring (v.place (start.toNat + i))

/-- Write tuples from the first place on, the last ones of them when there are too many. -/
def seed (tuples : List WalValTuple) : WalValidator :=
  if tuples = [] then v else
    let kept := tuples.drop (tuples.length - v.lastN)
    { v with
      ring := fun i => kept.getD i (v.ring i)
      idx := v.place kept.length
      count := kept.length
      idx_lt := (v.place kept.length).isLt
      count_le := by rw [List.length_drop]; omega }

def addTuple (checksum : List UInt8 → UInt32) (v : Option WalValidator) (index : UInt64) (payload : List UInt8) :
    Option WalValidator :=
  v.map fun v => v.add (.of (index, checksum payload))

def seedTuples (v : Option WalValidator) (tuples : List (UInt64 × UInt32)) : Option WalValidator :=
  v.map fun v => v.seed (tuples.map WalValTuple.of)

/-- The tuples that are kept, in the order in which they came. -/
def snapshot (v : Option WalValidator) : List WalValTuple := v.elim [] tuples

/-- The tuple that is some places behind the newest one. -/
def recent (j : ℕ) : WalValTuple := v.ring (v.place (v.idx + v.lastN - 1 - j))

/-- The tuples from the newest one on. -/
theorem reverse_tuples : v.tuples.reverse = (List.range v.count).map v.recent := by
  have hcount := v.count_le
  refine List.ext_getElem (by simp [tuples]) fun j hj _ => ?_
  simp only [tuples, List.length_reverse, List.length_map, List.length_range] at hj
  have hstart : (v.idx : ℤ) - v.count + v.lastN = ((v.idx + v.lastN - v.count : ℕ) : ℤ) := by omega
  simp only [tuples, List.getElem_reverse, List.getElem_map, List.getElem_range, List.length_map, List.length_range,
    recent, place, hstart, ← Int.natCast_emod, Int.toNat_natCast, Nat.mod_add_mod]
  congr 3
  omega

theorem recent_add (t : WalValTuple) {j : ℕ} (hj : j < v.lastN) :
    (v.add t).recent j = Function.update v.ring ⟨v.idx, v.idx_lt⟩ t (v.place (v.idx + v.lastN - j)) := by
  have hplace : (v.add t).place ((v.idx + 1) % v.lastN + v.lastN - 1 - j) = v.place (v.idx + v.lastN - j) := by
    refine Fin.ext ?_
    calc ((v.idx + 1) % v.lastN + v.lastN - 1 - j) % v.lastN
        = ((v.idx + 1) % v.lastN + (v.lastN - 1 - j)) % v.lastN := by congr 1; omega
      _ = (v.idx + v.lastN - j) % v.lastN := by rw [Nat.mod_add_mod]; congr 1; omega
  exact congrArg _ hplace

/-- A new tuple comes first, and the others move back. -/
theorem reverse_tuples_add (t : WalValTuple) : (v.add t).tuples.reverse = (t :: v.tuples.reverse).take v.lastN := by
  obtain ⟨n, hn⟩ := Nat.exists_eq_succ_of_ne_zero (Nat.ne_zero_of_lt v.idx_lt)
  have hidx := v.idx_lt
  have hlength : (v.add t).count = min n v.count + 1 := by
    have hcount := v.count_le
    simp only [add]
    split <;> omega
  have hfirst : (v.add t).recent 0 = t := by
    have hplace : v.place (v.idx + v.lastN - 0) = ⟨v.idx, v.idx_lt⟩ :=
      Fin.ext ((Nat.add_mod_right _ _).trans (Nat.mod_eq_of_lt hidx))
    rw [recent_add v t (by omega), hplace, Function.update_self]
  have hothers (j : ℕ) (hj : j < n) : (v.add t).recent (j + 1) = v.recent j := by
    have hne : v.place (v.idx + v.lastN - (j + 1)) ≠ ⟨v.idx, v.idx_lt⟩ := fun heq => by
      have hmod : (v.idx + v.lastN - (j + 1)) % v.lastN = v.idx := congrArg Fin.val heq
      by_cases hwrap : v.idx + v.lastN - (j + 1) < v.lastN
      · rw [Nat.mod_eq_of_lt hwrap] at hmod
        omega
      · rw [Nat.mod_eq_sub_mod (by omega), Nat.mod_eq_of_lt (by omega)] at hmod
        omega
    rw [recent_add v t (by omega), Function.update_of_ne hne, recent, Nat.sub_sub, Nat.add_comm j]
  rw [reverse_tuples, reverse_tuples, hlength, hn, List.take_succ_cons, ← List.map_take, List.take_range,
    List.range_succ_eq_map, List.map_cons, hfirst, List.map_map]
  refine congrArg (t :: ·) (List.map_congr_left fun j hj => hothers j ?_)
  have hlt := List.mem_range.mp hj
  omega

/-- Seeding an empty validator leaves the last tuples. -/
theorem reverse_tuples_seed (hempty : v.count = 0) (tuples : List WalValTuple) :
    (v.seed tuples).lastN = v.lastN ∧ (v.seed tuples).tuples.reverse = tuples.reverse.take v.lastN := by
  rw [reverse_tuples, seed, List.take_reverse]
  split
  · next hnil => simp [hnil, hempty]
  · refine ⟨rfl, List.ext_getElem (by simp) fun j hj hlast => ?_⟩
    rw [List.length_reverse] at hlast
    have hle : (tuples.drop (tuples.length - v.lastN)).length ≤ v.lastN := by rw [List.length_drop]; omega
    -- The next place is behind the last tuple, or the first place when the ring is full.
    have hplace {k : ℕ} (hk : k ≤ v.lastN) (hj : j < k) :
        (k % v.lastN + v.lastN - 1 - j) % v.lastN = k - 1 - j := by
      rcases hk.lt_or_eq with hlt | rfl
      · rw [Nat.mod_eq_of_lt hlt, Nat.mod_eq_sub_mod (by omega), Nat.mod_eq_of_lt (by omega)]
        omega
      · rw [Nat.mod_self, Nat.mod_eq_of_lt (by omega), Nat.zero_add]
    simp only [List.getElem_map, List.getElem_range, List.getElem_reverse, recent, place, hplace hle hlast]
    exact List.getD_eq_getElem _ _ (by omega)

/-- The tuples after some entries, from the newest one on. -/
theorem reverse_snapshot_foldl (checksum : List UInt8 → UInt32) (entries : List (UInt64 × List UInt8)) :
    (snapshot (entries.foldl (fun v e => addTuple checksum v e.1 e.2) (some v))).reverse =
      ((entries.map fun e => WalValTuple.of (e.1, checksum e.2)).reverse ++ v.tuples.reverse).take v.lastN := by
  induction entries generalizing v with
  | nil =>
    have hlength : v.tuples.reverse.length ≤ v.lastN := by simpa [tuples] using v.count_le
    exact (List.take_of_length_le hlength).symm
  | cons e entries ih =>
    have hstep := ih (v.add (.of (e.1, checksum e.2)))
    rw [reverse_tuples_add] at hstep
    refine hstep.trans ?_
    simp [add, List.take_append, List.take_take]

end WalValidator

open WalValidator in
/-- For every capacity, tuples to start with and entries after them, a snapshot gives the last ones of all of them in
the order in which they came, as many as there are and as the capacity allows. -/
theorem snapshot_last_tuples (checksum : List UInt8 → UInt32) (n : ℤ) (seeds : List (UInt64 × UInt32))
    (entries : List (UInt64 × List UInt8)) :
    let validator := entries.foldl (fun v e => addTuple checksum v e.1 e.2) (seedTuples (newWalValidator n) seeds)
    let total := seeds ++ entries.map fun e => (e.1, checksum e.2)
    (snapshot validator).map (fun t => (t.index, t.crc)) = total.drop (total.length - min n.toNat total.length) := by
  intro validator total
  by_cases hn : n ≤ 0
  · have hnil : validator = none := by
      simp only [validator, newWalValidator, dif_pos hn, seedTuples, Option.map_none]
      induction entries with
      | nil => rfl
      | cons e entries ih => exact ih
    simp [hnil, snapshot, Int.toNat_of_nonpos hn]
  · obtain ⟨v, hnew, hlastN, hempty⟩ : ∃ v, newWalValidator n = some v ∧ v.lastN = n.toNat ∧ v.count = 0 :=
      ⟨_, dif_neg hn, rfl, rfl⟩
    obtain ⟨hlast, htuples⟩ := v.reverse_tuples_seed hempty (seeds.map WalValTuple.of)
    have hreverse : ((snapshot validator).map fun t => (t.index, t.crc)).reverse = total.reverse.take n.toNat := by
      simp only [validator, hnew, seedTuples, Option.map_some]
      rw [← List.map_reverse, reverse_snapshot_foldl, htuples, hlast, hlastN]
      simp [total, WalValTuple.of, List.take_append, List.take_take, Function.comp_def]
    rw [List.take_reverse, List.reverse_inj] at hreverse
    rw [hreverse]
    congr 1
    omega

end SevenDB.Raft
