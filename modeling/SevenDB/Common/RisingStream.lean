import Mathlib.Data.List.Induction
import Mathlib.Order.Lattice

/-!
# Rising streams and initial parts of ordered logs

A receiver that discards every element whose rank is not above the last one it kept, and the
initial part of a log up to a rank. In a log of strictly rising ranks the part up to a limit
grows by exactly one element when the limit moves to the next rank, which is what a cursor
over the log needs.
-/

namespace SevenDB.Common

variable {E : Type*} (rank : E → ℕ)

/-- The rank of the last element kept, zero when nothing was kept. -/
def topRank (kept : List E) : ℕ := (kept.getLast?.map rank).getD 0

/-- Keep an element whose rank is above that of the last element kept. -/
def keepRising (kept : List E) (x : E) : List E :=
  match kept.getLast? with
  | none => kept ++ [x]
  | some last => if rank x > rank last then kept ++ [x] else kept

/-- What a receiver keeps of a stream. -/
def rising (stream : List E) : List E := stream.foldl (keepRising rank) []

/-- One more element of the stream is one more decision of the receiver. -/
theorem rising_append_single (stream : List E) (x : E) :
    rising rank (stream ++ [x]) = keepRising rank (rising rank stream) x := by
  simp [rising]

@[simp] theorem topRank_append_single (kept : List E) (x : E) :
    topRank rank (kept ++ [x]) = rank x := by
  simp [topRank]

theorem keepRising_of_lt {kept : List E} {x : E} (h : topRank rank kept < rank x) :
    keepRising rank kept x = kept ++ [x] := by
  unfold keepRising
  unfold topRank at h
  cases hlast : kept.getLast? with
  | none => rfl
  | some last =>
    simp only [hlast, Option.map_some, Option.getD_some] at h
    exact if_pos h

/-- An element of positive rank that is not above the top rank is discarded. -/
theorem keepRising_of_le {kept : List E} {x : E} (hpos : 0 < rank x) (h : rank x ≤ topRank rank kept) :
    keepRising rank kept x = kept := by
  unfold keepRising
  unfold topRank at h
  cases hlast : kept.getLast? with
  | none =>
    simp only [hlast, Option.map_none, Option.getD_none] at h
    omega
  | some last =>
    simp only [hlast, Option.map_some, Option.getD_some] at h
    exact if_neg (not_lt.mpr h)

theorem topRank_le_keepRising (kept : List E) (x : E) :
    topRank rank kept ≤ topRank rank (keepRising rank kept x) := by
  by_cases h : topRank rank kept < rank x
  · rw [keepRising_of_lt rank h, topRank_append_single]
    exact h.le
  · by_cases hpos : 0 < rank x
    · rw [keepRising_of_le rank hpos (not_lt.mp h)]
    · unfold keepRising
      cases hlast : kept.getLast? with
      | none => simp [topRank, hlast]
      | some last =>
        have hout : ¬ rank x > rank last := by omega
        simp [hout]

theorem topRank_rising_append (stream more : List E) :
    topRank rank (rising rank stream) ≤ topRank rank (rising rank (stream ++ more)) := by
  induction more generalizing stream with
  | nil => rw [List.append_nil]
  | cons x more ih =>
    have hnext := ih (stream ++ [x])
    rw [rising_append_single, List.append_assoc] at hnext
    exact (topRank_le_keepRising rank _ x).trans hnext

/-- No element of the stream is above the top rank of what was kept. -/
theorem rank_le_topRank_rising {stream : List E} {x : E} (hx : x ∈ stream) :
    rank x ≤ topRank rank (rising rank stream) := by
  induction stream using List.reverseRecOn with
  | nil => cases hx
  | append_singleton stream y ih =>
    rw [rising_append_single]
    have hgrows := topRank_le_keepRising rank (rising rank stream) y
    rcases List.mem_append.mp hx with hold | hnew
    · exact (ih hold).trans hgrows
    · rw [List.mem_singleton.mp hnew]
      by_cases h : topRank rank (rising rank stream) < rank y
      · rw [keepRising_of_lt rank h, topRank_append_single]
      · exact (not_lt.mp h).trans hgrows

section Log

/-- The elements of a sorted list up to a bound are an initial part of it. -/
theorem filter_le_isPrefix {α β : Type*} [LinearOrder β] {key : α → β} {l : List α}
    (hl : l.Pairwise fun a b => key a ≤ key b) (hi : β) : (l.filter fun x => decide (key x ≤ hi)) <+: l := by
  induction l with
  | nil => exact List.prefix_rfl
  | cons x rest ih =>
    obtain ⟨hx, hrest⟩ := List.pairwise_cons.mp hl
    by_cases hhi : key x ≤ hi
    · simpa [hhi, List.cons_prefix_cons] using ih hrest
    · have hnone : rest.filter (fun y => decide (key y ≤ hi)) = [] := by
        simpa [List.filter_eq_nil_iff] using fun y hy => (not_le.mp hhi).trans_le (hx y hy)
      simp [hhi, hnone]

variable {rank} {log : List E} (hlog : log.Pairwise fun first second => rank first < rank second)
include hlog

/-- Moving the limit to the next rank of a rising log adds exactly that element. -/
theorem filter_le_next {limit : ℕ} {x : E} (hx : x ∈ log) (hlimit : limit < rank x)
    (hnext : ∀ y ∈ log, rank y < rank x → rank y ≤ limit) :
    log.filter (fun y => rank y ≤ rank x) = log.filter (fun y => rank y ≤ limit) ++ [x] := by
  induction log with
  | nil => cases hx
  | cons head rest ih =>
    obtain ⟨hhead, hrest⟩ := List.pairwise_cons.mp hlog
    rcases List.mem_cons.mp hx with rfl | hmem
    · have hnone (bound : ℕ) (hbound : bound ≤ rank x) :
          rest.filter (fun y => rank y ≤ bound) = [] := by
        rw [List.filter_eq_nil_iff]
        intro y hy
        have := hhead y hy
        simp only [decide_eq_true_eq]
        omega
      rw [List.filter_cons_of_pos (by simp), List.filter_cons_of_neg (by simpa using hlimit),
        hnone _ le_rfl, hnone _ hlimit.le]
      rfl
    · have hbefore : rank head < rank x := hhead x hmem
      have hhead_le := hnext head List.mem_cons_self hbefore
      rw [List.filter_cons_of_pos (by simpa using hbefore.le),
        List.filter_cons_of_pos (by simpa using hhead_le), List.cons_append,
        ih hrest hmem fun y hy => hnext y (List.mem_cons_of_mem head hy)]

end Log

end SevenDB.Common
