import Mathlib.Data.List.Basic

/-!
# The raft log in memory

The storage that the raft library keeps its log in. The library is not part of the repository, so
the storage is a parameter, and what is taken for granted of it are the laws of `RaftStorage`. Its
entries follow a position that a snapshot has covered. Appending puts new entries in place of
everything from their first index on, passes over entries at or below the covered position, and
panics on a gap. The law of appending speaks of lists with holes and repetitions too, since
loading hands out such lists: how many entries to pass over is counted, and the rest is not looked at.
-/

namespace SevenDB.Raft

inductive EntryType
  | normal
  | confChange
  | confChangeV2
  deriving DecidableEq, Repr

structure Entry where
  index : ℕ
  term : ℕ
  type : EntryType
  data : List UInt8
  deriving DecidableEq, Repr

/-- The vote and commit state of a node. -/
structure HardState where
  term : ℕ
  vote : ℕ
  commit : ℕ
  deriving DecidableEq, Repr

def HardState.empty : HardState := ⟨0, 0, 0⟩

/-- The position that a snapshot covers; index zero is no snapshot. -/
structure Snapshot where
  index : ℕ
  term : ℕ
  deriving DecidableEq, Repr

/-- Entries have consecutive indices from a given one on. -/
def ConsecutiveFrom : ℕ → List Entry → Prop
  | _, [] => True
  | n, e :: rest => e.index = n ∧ ConsecutiveFrom (n + 1) rest

instance ConsecutiveFrom.decidable : (n : ℕ) → (entries : List Entry) → Decidable (ConsecutiveFrom n entries)
  | _, [] => isTrue trivial
  | n, e :: rest =>
    have := ConsecutiveFrom.decidable (n + 1) rest
    inferInstanceAs (Decidable (e.index = n ∧ ConsecutiveFrom (n + 1) rest))

/-- The index of the first entry of a list, zero when there is none. -/
def startIndex (entries : List Entry) : ℕ := (entries.head?.map Entry.index).getD 0

/-- What the raft library hands out to be stored: a snapshot, a hard state and entries with
consecutive indices, each of which may be missing. -/
structure Ready where
  snapshot : Snapshot
  hardState : HardState
  entries : List Entry
  consecutive : ConsecutiveFrom (startIndex entries) entries

/-- What becomes of a covered position and the log behind it when entries are put into the log from the index of the
first on; `none` is a panic. A gap panics, and so does an index below the covered one, where the unsigned offset wraps
round. An entry with the covered index takes the place of the covered position. -/
def placed (covered : Snapshot) (log : List Entry) : List Entry → Option (Snapshot × List Entry)
  | [] => some (covered, log)
  | e :: rest =>
    if e.index < covered.index ∨ covered.index + log.length + 1 < e.index then none
    else if e.index = covered.index then some (⟨e.index, e.term⟩, rest)
    else some (covered, log.take (e.index - (covered.index + 1)) ++ e :: rest)

/-- The storage of the raft library, with what is taken for granted of it. -/
structure RaftStorage where
  State : Type
  new : State
  /-- The position before the first entry. -/
  covered : State → Snapshot
  entries : State → List Entry
  setHardState : State → HardState → State
  /-- Take a snapshot; one that is out of date is refused. -/
  applySnapshot : State → Snapshot → Option State
  append : State → List Entry → Option State
  covered_new : covered new = ⟨0, 0⟩
  entries_new : entries new = []
  covered_setHardState : ∀ s hs, covered (setHardState s hs) = covered s
  entries_setHardState : ∀ s hs, entries (setHardState s hs) = entries s
  applySnapshot_new : ∀ snap : Snapshot, snap.index ≠ 0 → (applySnapshot new snap).isSome
  /-- A snapshot that is taken stands in place of the log. -/
  applySnapshot_resets : ∀ {s snap t}, applySnapshot s snap = some t → covered t = snap ∧ entries t = []
  /-- As many entries are passed over as there are indices from that of the first up to the covered one, and the others
  take the place of the log from the index of the first of them on. -/
  append_places : ∀ s new, (append s new).map (fun t => (covered t, entries t)) =
    placed (covered s) (entries s) (new.drop ((covered s).index + 1 - startIndex new))

namespace RaftStorage

variable (lib : RaftStorage)

/-- The first index that may be in the log. -/
def firstIndex (s : lib.State) : ℕ := (lib.covered s).index + 1

/-- The last index of the log, or the covered one. -/
def lastIndex (s : lib.State) : ℕ := (lib.covered s).index + (lib.entries s).length

/-- Store what the raft library hands out: the snapshot first, then the entries. It is not
accepted when the snapshot is refused or appending panics. -/
def accept (s : lib.State) (rd : Ready) : Option lib.State :=
  if rd.snapshot.index = 0 then lib.append s rd.entries
  else (lib.applySnapshot s rd.snapshot).bind fun t => lib.append t rd.entries

end RaftStorage

section Consecutive

variable {n : ℕ}

theorem consecutiveFrom_append {left right : List Entry} :
    ConsecutiveFrom n (left ++ right) ↔ ConsecutiveFrom n left ∧ ConsecutiveFrom (n + left.length) right := by
  induction left generalizing n with
  | nil => exact (iff_of_eq (true_and _)).symm
  | cons e rest ih =>
    change e.index = n ∧ ConsecutiveFrom (n + 1) (rest ++ right) ↔ _
    rw [ih, ← and_assoc, List.length_cons, Nat.add_assoc, Nat.add_comm 1]
    rfl

variable {entries : List Entry}

section

variable (h : ConsecutiveFrom n entries)
include h

theorem ConsecutiveFrom.drop (k : ℕ) (hk : k ≤ entries.length) :
    ConsecutiveFrom (n + k) (entries.drop k) := by
  rw [← List.take_append_drop k entries, consecutiveFrom_append, List.length_take_of_le hk] at h
  exact h.2

theorem ConsecutiveFrom.take (k : ℕ) : ConsecutiveFrom n (entries.take k) := by
  rw [← List.take_append_drop k entries, consecutiveFrom_append] at h
  exact h.1

theorem ConsecutiveFrom.startIndex_eq (hne : entries ≠ []) :
    startIndex entries = n := by
  cases entries with
  | nil => exact absurd rfl hne
  | cons e rest => exact h.1

theorem ConsecutiveFrom.index_bounds {e : Entry} (he : e ∈ entries) :
    n ≤ e.index ∧ e.index < n + entries.length := by
  induction entries generalizing n with
  | nil => cases he
  | cons first rest ih =>
    rw [List.length_cons]
    rcases List.mem_cons.mp he with rfl | hrest
    · rw [h.1]
      omega
    · have hbounds := ih h.2 hrest
      omega

theorem ConsecutiveFrom.exists_last (hne : entries ≠ []) :
    ∃ e ∈ entries, e.index + 1 = n + entries.length := by
  have hpos : 0 < entries.length := List.length_pos_iff.mpr hne
  have hlast : entries.length - 1 < entries.length := by omega
  have hdrop := h.drop _ (Nat.le_of_lt hlast)
  rw [List.drop_eq_getElem_cons hlast] at hdrop
  exact ⟨_, List.getElem_mem hlast, by have hindex := hdrop.1; omega⟩

end

end Consecutive

namespace RaftStorage

variable {lib : RaftStorage} {s t : lib.State} {entries : List Entry}

/-- What is in the log follows the covered position without a hole. -/
def Ordered (s : lib.State) : Prop := ConsecutiveFrom (lib.firstIndex s) (lib.entries s)

/-- Appending entries with consecutive indices leaves the log alone when all of them are covered,
and otherwise keeps what comes before the first of them and adds those that are not covered. -/
theorem append_consecutive (h : ConsecutiveFrom (startIndex entries) entries)
    (happend : lib.append s entries = some t) :
    lib.covered t = lib.covered s ∧
      (startIndex entries + entries.length ≤ lib.firstIndex s ∧ lib.entries t = lib.entries s ∨
        lib.firstIndex s < startIndex entries + entries.length ∧ startIndex entries ≤ lib.lastIndex s + 1 ∧
          lib.entries t = (lib.entries s).take (startIndex entries - lib.firstIndex s) ++
            entries.drop (lib.firstIndex s - startIndex entries)) := by
  have hplaces := lib.append_places s entries
  rw [happend, Option.map_some] at hplaces
  have hnil : entries.length = 0 → startIndex entries = 0 := fun hlength => by
    rw [List.length_eq_zero_iff.mp hlength]
    rfl
  generalize startIndex entries = n at h hplaces hnil ⊢
  unfold firstIndex lastIndex
  by_cases hlong : n + entries.length ≤ (lib.covered s).index + 1
  · rw [List.drop_eq_nil_of_le (by omega), placed, Option.some.injEq, Prod.mk.injEq] at hplaces
    exact ⟨hplaces.1, Or.inl ⟨hlong, hplaces.2⟩⟩
  · have hdrop := h.drop ((lib.covered s).index + 1 - n) (by omega)
    have hrest : entries.drop ((lib.covered s).index + 1 - n) ≠ [] := by
      rw [Ne, List.drop_eq_nil_iff]
      omega
    obtain ⟨e, rest, hcons⟩ := List.exists_cons_of_ne_nil hrest
    rw [hcons] at hdrop hplaces ⊢
    have hindex : e.index = n + ((lib.covered s).index + 1 - n) := hdrop.1
    rw [placed] at hplaces
    split at hplaces
    · cases hplaces
    · next hfits =>
      rw [if_neg (by omega), Option.some.injEq, Prod.mk.injEq] at hplaces
      have htake : e.index - ((lib.covered s).index + 1) = n - ((lib.covered s).index + 1) := by omega
      rw [htake] at hplaces
      exact ⟨hplaces.1, Or.inr ⟨by omega, by omega, hplaces.2⟩⟩

/-- Appending entries with consecutive indices keeps the log in order. -/
theorem Ordered.append (hs : Ordered s) (h : ConsecutiveFrom (startIndex entries) entries)
    (happend : lib.append s entries = some t) : Ordered t := by
  obtain ⟨hcovered, hcases⟩ := append_consecutive h happend
  generalize startIndex entries = n at h hcases
  have hfirst : lib.firstIndex t = lib.firstIndex s := by rw [firstIndex, hcovered, firstIndex]
  rw [Ordered, hfirst]
  rcases hcases with ⟨_, hsame⟩ | ⟨hlong, hfits, hentries⟩
  · rw [hsame]
    exact hs
  · unfold lastIndex at hfits
    have hcount : lib.firstIndex s = (lib.covered s).index + 1 := rfl
    rw [hentries, consecutiveFrom_append, List.length_take_of_le (by omega)]
    refine ⟨hs.take _, ?_⟩
    have hstart : lib.firstIndex s + (n - lib.firstIndex s) = n + (lib.firstIndex s - n) := by omega
    rw [hstart]
    exact h.drop _ (by omega)

end RaftStorage

/-- A storage that meets the laws: a covered position, the entries behind it, and the hard state. -/
structure MemoryStorage where
  covered : Snapshot
  entries : List Entry
  hardState : HardState
  deriving DecidableEq, Repr

@[reducible] def MemoryStorage.lib : RaftStorage where
  State := MemoryStorage
  new := ⟨⟨0, 0⟩, [], .empty⟩
  covered := covered
  entries := entries
  setHardState s hs := { s with hardState := hs }
  applySnapshot s snap := if snap.index ≤ s.covered.index then none else some { s with covered := snap, entries := [] }
  append s new := (placed s.covered s.entries (new.drop (s.covered.index + 1 - startIndex new))).map
    fun result => { s with covered := result.1, entries := result.2 }
  covered_new := rfl
  entries_new := rfl
  covered_setHardState _ _ := rfl
  entries_setHardState _ _ := rfl
  applySnapshot_new snap hsnap := by simp [hsnap]
  applySnapshot_resets h := by
    split at h <;> cases h
    exact ⟨rfl, rfl⟩
  append_places s new := by
    rw [Option.map_map]
    exact Option.map_id'

end SevenDB.Raft
