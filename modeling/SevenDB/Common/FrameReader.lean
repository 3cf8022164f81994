import Mathlib.Data.List.ReduceOption
import Mathlib.Data.List.Sort
import SevenDB.Common.ByteFrames

/-!
# Reading records from files of frames

A reader goes through the frames of a stream in order. A frame holds a record, holds none, or makes
the reader stop with an error; so may the way in which the stream ends. Several files are read one
after another until one gives an error. Files with numbers are put in the order of a key first; an
order that only moves empty files changes nothing.
-/

namespace SevenDB.Common

/-- What a reader makes of a frame, and of the end of a stream. A clean end is no error. -/
structure FrameReader (R E : Type*) where
  accept : RawFrame → Except E (Option R)
  atEnd : Ending → Option E
  atEnd_clean : atEnd .clean = none

variable {R E : Type*} (reader : FrameReader R E)

namespace FrameReader

/-- The records in some frames up to the first error, and the error. -/
def readFrames : List RawFrame → Ending → List R × Option E
  | [], ending => ([], reader.atEnd ending)
  | f :: rest, ending =>
    match reader.accept f with
    | .error e => ([], some e)
    | .ok none => readFrames rest ending
    | .ok (some record) => (record :: (readFrames rest ending).1, (readFrames rest ending).2)

/-- The records in a stream up to the first error, and the error. -/
def read (bytes : List UInt8) : List R × Option E := reader.readFrames (scan bytes).1 (scan bytes).2

/-- The records in some files up to the first error, and the error. -/
def readAll : List (List UInt8) → List R × Option E
  | [] => ([], none)
  | bytes :: rest =>
    match reader.read bytes with
    | (records, some e) => (records, some e)
    | (records, none) => (records ++ (readAll rest).1, (readAll rest).2)

/-- A stream ends cleanly, and its frames hold the given records or none. -/
structure Holds (bytes : List UInt8) (items : List (Option R)) : Prop where
  clean : (scan bytes).2 = .clean
  accepts : (scan bytes).1.map reader.accept = items.map .ok

@[simp] theorem reduceOption_map_some (records : List R) : (records.map some).reduceOption = records := by
  rw [List.reduceOption, List.filterMap_map]
  exact List.filterMap_some

theorem readFrames_of_accepts {frames : List RawFrame} {items : List (Option R)}
    (h : frames.map reader.accept = items.map .ok) (ending : Ending) :
    reader.readFrames frames ending = (items.reduceOption, reader.atEnd ending) := by
  induction frames generalizing items with
  | nil =>
    rw [List.map_nil, eq_comm, List.map_eq_nil_iff] at h
    rw [h]
    rfl
  | cons f rest ih =>
    cases items with
    | nil => cases h
    | cons item items =>
      obtain ⟨hitem, hitems⟩ := List.cons.inj h
      cases item with
      | none => rw [readFrames, hitem, ih hitems, List.reduceOption_cons_of_none]
      | some record => rw [readFrames, hitem, ih hitems, List.reduceOption_cons_of_some]

section Holds

variable {reader} {bytes more : List UInt8} {items others : List (Option R)}

theorem Holds.read_eq (h : reader.Holds bytes items) : reader.read bytes = (items.reduceOption, none) := by
  rw [read, reader.readFrames_of_accepts h.accepts, h.clean, reader.atEnd_clean]

theorem Holds.nil : reader.Holds [] [] := ⟨rfl, rfl⟩

theorem Holds.append (h : reader.Holds bytes items) (hmore : reader.Holds more others) :
    reader.Holds (bytes ++ more) (items ++ others) := by
  have hscan := scan_append h.clean more
  refine ⟨by rw [hscan]; exact hmore.clean, ?_⟩
  rw [hscan, List.map_append, List.map_append, h.accepts, hmore.accepts]

theorem Holds.frame {checksum : List UInt8 → UInt32} {payload : List UInt8} {item : Option R}
    (hlength : payload.length < 2 ^ 32) (haccept : reader.accept ⟨checksum payload, payload⟩ = .ok item) :
    reader.Holds (frame checksum payload) [item] := by
  have hscan : scan (Common.frame checksum payload) = ([⟨checksum payload, payload⟩], .clean) :=
    sumFirst.scan_frame checksum hlength
  exact ⟨by rw [hscan], by rw [hscan, List.map_singleton, haccept, List.map_singleton]⟩

/-- A stream that is cut off holds the records of the frames that fit. -/
theorem Holds.read_take (h : reader.Holds bytes items) (count : ℕ) :
    reader.read (bytes.take count) =
      ((items.take (framesWithin count (scan bytes).1)).reduceOption,
        reader.atEnd (cutEnding count (scan bytes).1)) := by
  rw [read, scan_take h.clean, reader.readFrames_of_accepts]
  rw [List.map_take, h.accepts, List.map_take]

/-- A stream that is cut off after a frame holds the records before the cut. -/
theorem Holds.take (h : reader.Holds bytes items) {count : ℕ}
    (hclean : cutEnding count (scan bytes).1 = .clean) :
    reader.Holds (bytes.take count) (items.take (framesWithin count (scan bytes).1)) := by
  have hscan := scan_take h.clean count
  refine ⟨by rw [hscan]; exact hclean, ?_⟩
  rw [hscan, List.map_take, h.accepts, List.map_take]

end Holds

theorem readAll_append {files : List (List UInt8)} (h : (reader.readAll files).2 = none)
    (others : List (List UInt8)) :
    reader.readAll (files ++ others) =
      ((reader.readAll files).1 ++ (reader.readAll others).1, (reader.readAll others).2) := by
  induction files with
  | nil => rfl
  | cons bytes rest ih =>
    rw [readAll] at h
    rw [List.cons_append, readAll, readAll]
    split at h
    · cases h
    · rw [ih h, List.append_assoc]

theorem readAll_singleton (bytes : List UInt8) : reader.readAll [bytes] = reader.read bytes := by
  rw [readAll]
  split
  · next hread => rw [hread]
  · next hread => rw [hread, readAll, List.append_nil]

theorem readAll_filter (files : List (List UInt8)) :
    reader.readAll (files.filter (· ≠ [])) = reader.readAll files := by
  induction files with
  | nil => rfl
  | cons bytes rest ih =>
    by_cases hempty : bytes = []
    · have hnil : reader.read [] = ([], none) := Holds.nil.read_eq
      rw [List.filter_cons_of_neg (by simp [hempty]), ih, hempty, readAll, hnil]
      rfl
    · rw [List.filter_cons_of_pos (by simp [hempty]), readAll, readAll, ih]

section Reached

/-- A stream that begins with a header goes on with the payload and the rest of the stream. -/
theorem read_header_append {header : List UInt8} (hheader : header.length = 8) (body : List UInt8) :
    reader.read (header ++ body) =
      if body.length < (uint32 (header.drop 4)).toNat then
        ([], reader.atEnd (.tornPayload (uint32 (header.drop 4)).toNat))
      else
        match reader.accept ⟨uint32 (header.take 4), body.take (uint32 (header.drop 4)).toNat⟩ with
        | .error e => ([], some e)
        | .ok none => reader.read (body.drop (uint32 (header.drop 4)).toNat)
        | .ok (some record) => (record :: (reader.read (body.drop (uint32 (header.drop 4)).toNat)).1,
            (reader.read (body.drop (uint32 (header.drop 4)).toNat)).2) := by
  rw [read, scan_header_append hheader]
  split
  · rfl
  · rw [readFrames]
    rfl

/-- The lengths of the payloads whose headers a reader reaches: those of all frames up to the first error,
and the one that an incomplete payload at the end should have. -/
def reachedIn : List RawFrame → Ending → List ℕ
  | [], .clean => []
  | [], .tornHeader => []
  | [], .tornPayload size => [size]
  | f :: rest, ending =>
    f.payload.length ::
      match reader.accept f with
      | .error _ => []
      | .ok _ => reachedIn rest ending

/-- The lengths of the payloads whose headers a reader reaches in some files, up to the first error. -/
def reached : List (List UInt8) → List ℕ
  | [] => []
  | bytes :: rest =>
    reader.reachedIn (scan bytes).1 (scan bytes).2 ++
      match (reader.read bytes).2 with
      | some _ => []
      | none => reached rest

variable {reader} {limit : ℕ} {e : E}

section

variable (haccept : ∀ f, reader.accept f = .error e ↔ limit < f.payload.length)
  (hend : ∀ ending, reader.atEnd ending = some e ↔ ∃ size, ending = .tornPayload size ∧ limit < size)
include haccept hend

/-- An error that only payloads beyond a limit give is given exactly when the header of one is reached. -/
theorem readFrames_ne_iff (frames : List RawFrame) (ending : Ending) :
    (reader.readFrames frames ending).2 ≠ some e ↔ ∀ size ∈ reader.reachedIn frames ending, size ≤ limit := by
  induction frames with
  | nil =>
    rw [readFrames, Ne, hend]
    cases ending <;> simp [reachedIn]
  | cons f rest ih =>
    rw [readFrames, reachedIn, List.forall_mem_cons]
    cases hf : reader.accept f with
    | error found =>
      have hlimit := haccept f
      rw [hf, Except.error.injEq] at hlimit
      simp [hlimit]
    | ok record =>
      have hlimit : f.payload.length ≤ limit := by
        rw [← Nat.not_lt, ← haccept f, hf]
        intro heq
        cases heq
      cases record with
      | none => simpa [hlimit] using ih
      | some record => simpa [hlimit] using ih

theorem readAll_ne_iff (files : List (List UInt8)) :
    (reader.readAll files).2 ≠ some e ↔ ∀ size ∈ reader.reached files, size ≤ limit := by
  induction files with
  | nil => simp [readAll, reached]
  | cons bytes rest ih =>
    have hfirst := readFrames_ne_iff haccept hend (scan bytes).1 (scan bytes).2
    rw [← read] at hfirst
    rw [readAll, reached, List.forall_mem_append, ← hfirst]
    cases hread : reader.read bytes with
    | mk records found =>
      cases found with
      | some found => simp
      | none => simpa using ih

end

end Reached

end FrameReader

section Numbered

variable {K : Type*} [LinearOrder K] (key : ℕ → K)

/-- Numbered files in the order of a key. -/
def sortFiles (files : List (ℕ × List UInt8)) : List (ℕ × List UInt8) :=
  files.insertionSort fun a b => key a.1 ≤ key b.1

/-- The files that hold something are in the order of the key. -/
def InKeyOrder (files : List (ℕ × List UInt8)) : Prop :=
  (files.filter (·.2 ≠ [])).Pairwise fun a b => key a.1 < key b.1

/-- Sorting moves no file that holds something when these files are in order. -/
theorem filter_sortFiles {files : List (ℕ × List UInt8)} (h : InKeyOrder key files) :
    (sortFiles key files).filter (·.2 ≠ []) = files.filter (·.2 ≠ []) := by
  have hsorted : (sortFiles key files).Pairwise fun a b => key a.1 ≤ key b.1 := by
    have htotal : Std.Total fun a b : ℕ × List UInt8 => key a.1 ≤ key b.1 := ⟨fun a b => le_total _ _⟩
    have htrans : IsTrans _ fun a b : ℕ × List UInt8 => key a.1 ≤ key b.1 := ⟨fun a b c => le_trans⟩
    exact List.pairwise_insertionSort _ files
  have hperm : ((sortFiles key files).filter (·.2 ≠ [])).Perm (files.filter (·.2 ≠ [])) :=
    (List.perm_insertionSort _ files).filter _
  refine List.Perm.eq_of_pairwise (fun a b ha hb hab hba => ?_) (hsorted.filter _)
    (h.imp fun hlt => hlt.le) hperm
  have hnodup : ((files.filter (·.2 ≠ [])).map fun file => key file.1).Nodup :=
    List.pairwise_map.mpr (h.imp fun hlt => hlt.ne)
  exact List.inj_on_of_nodup_map hnodup (hperm.mem_iff.mp ha) hb (le_antisymm hab hba)

/-- Reading numbered files in the order of a key reads them as they are when the files that hold
something are in order. -/
theorem readAll_sortFiles {files : List (ℕ × List UInt8)} (h : InKeyOrder key files) :
    reader.readAll ((sortFiles key files).map Prod.snd) = reader.readAll (files.map Prod.snd) := by
  have hfilter (list : List (ℕ × List UInt8)) :
      (list.map Prod.snd).filter (· ≠ []) = (list.filter (·.2 ≠ [])).map Prod.snd := List.filter_map
  rw [← reader.readAll_filter, hfilter, filter_sortFiles key h, ← hfilter, reader.readAll_filter]

end Numbered

/-- Leaving out files without a record that passes a test leaves out nothing that passes it. -/
theorem filter_flatMap_filter {F R : Type*} (keep : F → Bool) (records : F → List R) (test : R → Bool)
    {files : List F}
    (h : ∀ file ∈ files, keep file = false → ∀ record ∈ records file, test record = false) :
    ((files.filter keep).flatMap records).filter test = (files.flatMap records).filter test := by
  induction files with
  | nil => rfl
  | cons file rest ih =>
    have hrest := ih fun other hother => h other (List.mem_cons_of_mem file hother)
    rw [List.flatMap_cons, List.filter_append]
    by_cases hkeep : keep file = true
    · rw [List.filter_cons_of_pos hkeep, List.flatMap_cons, List.filter_append, hrest]
    · have hnone : (records file).filter test = [] := by
        rw [List.filter_eq_nil_iff]
        intro record hrecord
        simp [h file List.mem_cons_self (by simpa using hkeep) record hrecord]
      rw [List.filter_cons_of_neg hkeep, hrest, hnone, List.nil_append]

end SevenDB.Common
