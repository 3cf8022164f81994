import Mathlib.Data.List.Basic

/-!
# A file that is written through a buffer

A write goes into the buffer as long as there is room. Otherwise the buffer is filled up and sent to
the file, and a rest that is longer than the buffer is sent directly. The file may take only part of
what is sent to it; the writer then refuses everything that follows. What has been sent to the file
survives a crash once the file was synced.
-/

namespace SevenDB.Common

/-- A file with the buffer in front of it, the number of its bytes that are synced, and whether a
write to it has failed. A writer that has failed never writes again, so it keeps no buffer. -/
structure BufferedFile where
  capacity : ℕ
  file : List UInt8
  buf : List UInt8
  synced : ℕ
  failed : Bool
  deriving DecidableEq, Repr

namespace BufferedFile

/-- A writer at the end of an existing file. -/
def openAt (capacity : ℕ) (file : List UInt8) : BufferedFile := ⟨capacity, file, [], file.length, false⟩

/-- What the file holds once the buffer is sent. -/
def content (f : BufferedFile) : List UInt8 := f.file ++ f.buf

/-- What survives a crash. -/
def durable (f : BufferedFile) : List UInt8 := f.file.take f.synced

/-- The bytes that a write sends to the file, and those that stay in the buffer. -/
def spill (f : BufferedFile) (bytes : List UInt8) : List UInt8 × List UInt8 :=
  let available := f.capacity - f.buf.length
  if bytes.length ≤ available then ([], f.buf ++ bytes)
  else if f.buf = [] then (bytes, [])
  else if (bytes.drop available).length ≤ f.capacity then
    (f.buf ++ bytes.take available, bytes.drop available)
  else (f.buf ++ bytes, [])

/-- Send bytes to the file and keep others in the buffer. With a limit the file takes no more bytes
than that, which fails unless it is enough. -/
def send (f : BufferedFile) (limit : Option ℕ) (bytes kept : List UInt8) : BufferedFile :=
  if ∃ count ∈ limit, count < bytes.length then
    { f with file := f.file ++ bytes.take (limit.getD 0), buf := [], failed := true }
  else { f with file := f.file ++ bytes, buf := kept }

def write (f : BufferedFile) (limit : Option ℕ) (bytes : List UInt8) : BufferedFile :=
  if f.failed then f else f.send limit (f.spill bytes).1 (f.spill bytes).2

/-- Send the buffer to the file. The flush has succeeded when the writer has not failed. -/
def flush (f : BufferedFile) (limit : Option ℕ) : BufferedFile :=
  if f.failed then f else f.send limit f.buf []

def fsync (f : BufferedFile) : BufferedFile := { f with synced := f.file.length }

/-- What is sent and what is kept are the buffer and the new bytes. -/
theorem spill_append (f : BufferedFile) (bytes : List UInt8) :
    (f.spill bytes).1 ++ (f.spill bytes).2 = f.buf ++ bytes := by
  unfold spill
  dsimp only
  split
  · rfl
  · split
    · next hempty => rw [hempty, List.append_nil, List.nil_append]
    · split
      · rw [List.append_assoc, List.take_append_drop]
      · rw [List.append_nil]

section Unlimited

variable (f : BufferedFile) (bytes kept : List UInt8)

theorem send_none : f.send none bytes kept = { f with file := f.file ++ bytes, buf := kept } := by
  rw [send, if_neg]
  rintro ⟨count, hcount, _⟩
  cases hcount

theorem content_write (h : f.failed = false) : (f.write none bytes).content = f.content ++ bytes := by
  rw [write, if_neg (by simp [h]), send_none, content, content, List.append_assoc, spill_append,
    List.append_assoc]

@[simp] theorem failed_write : (f.write none bytes).failed = f.failed := by
  unfold write
  split
  · rfl
  · rw [send_none]

theorem flush_none (h : f.failed = false) : f.flush none = { f with file := f.content, buf := [] } := by
  rw [flush, if_neg (by simp [h]), send_none, content]

end Unlimited

section Limited

variable {f g : BufferedFile} {limit : Option ℕ} {bytes kept : List UInt8}

/-- A later state of a file, with nothing synced since. -/
structure Extends (f g : BufferedFile) : Prop where
  synced_eq : g.synced = f.synced
  grown : ∃ sent, g.file = f.file ++ sent

theorem Extends.durable_eq (h : Extends f g) (hsynced : f.synced ≤ f.file.length) : g.durable = f.durable := by
  obtain ⟨sent, hfile⟩ := h.grown
  rw [durable, durable, h.synced_eq, hfile, List.take_append_of_le_length hsynced]

/-- No more is synced than the file holds, in a later state as well. -/
theorem Extends.synced_le (h : Extends f g) (hsynced : f.synced ≤ f.file.length) : g.synced ≤ g.file.length := by
  obtain ⟨sent, hfile⟩ := h.grown
  rw [h.synced_eq, hfile, List.length_append]
  exact Nat.le_add_right_of_le hsynced

theorem Extends.refl (f : BufferedFile) : Extends f f := ⟨rfl, [], (List.append_nil _).symm⟩

theorem extends_send : Extends f (f.send limit bytes kept) := by
  unfold send
  split
  · exact ⟨rfl, _, rfl⟩
  · exact ⟨rfl, _, rfl⟩

theorem extends_write : Extends f (f.write limit bytes) := by
  unfold write
  split
  · exact .refl f
  · exact extends_send

theorem extends_flush : Extends f (f.flush limit) := by
  unfold flush
  split
  · exact .refl f
  · exact extends_send

theorem send_of_healthy (hf : f.failed = false) (h : (f.send limit bytes kept).failed = false) :
    f.send limit bytes kept = { f with file := f.file ++ bytes, buf := kept, failed := false } := by
  unfold send at h ⊢
  split
  · next hlimited =>
    rw [if_pos hlimited] at h
    cases h
  · rw [← hf]

theorem write_of_healthy (h : (f.write limit bytes).failed = false) :
    f.failed = false ∧ (f.write limit bytes).content = f.content ++ bytes := by
  unfold write at h ⊢
  split at h
  · next hfailed => exact absurd (hfailed.symm.trans h) (by decide)
  · next hhealthy =>
    rw [if_neg hhealthy, send_of_healthy (eq_false_of_ne_true hhealthy) h, content, content, List.append_assoc,
      spill_append, List.append_assoc]
    exact ⟨eq_false_of_ne_true hhealthy, rfl⟩

theorem flush_of_healthy (h : (f.flush limit).failed = false) :
    f.failed = false ∧ f.flush limit = { f with file := f.content, buf := [], failed := false } := by
  unfold flush at h ⊢
  split at h
  · next hfailed => exact absurd (hfailed.symm.trans h) (by decide)
  · next hhealthy =>
    rw [if_neg hhealthy, send_of_healthy (eq_false_of_ne_true hhealthy) h]
    exact ⟨eq_false_of_ne_true hhealthy, rfl⟩

end Limited

section Taking

variable {f g : BufferedFile} {bytes taken : List UInt8} (limit : Option ℕ)

/-- Since an earlier state a writer has taken some bytes: it has sent the front of them and keeps the rest. -/
def Took (f g : BufferedFile) (taken : List UInt8) : Prop :=
  ∃ sent kept, sent ++ kept = taken ∧ g = { f with file := f.file ++ sent, buf := kept, failed := false }

/-- Since an earlier state a writer has failed, with less than the given bytes sent. -/
def Lost (f g : BufferedFile) (taken : List UInt8) : Prop :=
  ∃ sent, sent <+: taken ∧ sent ≠ taken ∧ g = { f with file := f.file ++ sent, buf := [], failed := true }

theorem Took.failed_eq (h : Took f g taken) : g.failed = false := by
  obtain ⟨sent, kept, _, rfl⟩ := h
  rfl

theorem Lost.failed_eq (h : Lost f g taken) : g.failed = true := by
  obtain ⟨sent, _, _, rfl⟩ := h
  rfl

theorem Took.refl (hf : f.failed = false) (hbuf : f.buf = []) : Took f f [] := by
  refine ⟨[], [], rfl, ?_⟩
  rw [List.append_nil, ← hf, ← hbuf]

theorem Lost.append (h : Lost f g taken) (more : List UInt8) : Lost f g (taken ++ more) := by
  obtain ⟨sent, hsent, hne, hg⟩ := h
  refine ⟨sent, hsent.trans (List.prefix_append taken more), fun heq => hne ?_, hg⟩
  rw [heq] at hsent
  have hmore : more = [] := by
    have hlength := hsent.length_le
    rw [List.length_append] at hlength
    exact List.length_eq_zero_iff.mp (by omega)
  rw [heq, hmore, List.append_nil]

theorem Took.send (h : Took f g taken) {front kept : List UInt8} (hall : front ++ kept = g.buf ++ bytes) :
    Took f (g.send limit front kept) (taken ++ bytes) ∨
      limit ≠ none ∧ Lost f (g.send limit front kept) (taken ++ bytes) := by
  obtain ⟨sent, held, rfl, rfl⟩ := h
  have htaken : sent ++ held ++ bytes = sent ++ front ++ kept := by
    rw [List.append_assoc, List.append_assoc, hall]
  rw [BufferedFile.send, htaken]
  split
  · next hlimited =>
    obtain ⟨count, hcount, hlt⟩ := hlimited
    have hlimit : limit ≠ none := Option.ne_none_iff_exists'.mpr ⟨count, hcount⟩
    refine .inr ⟨hlimit, sent ++ front.take count, ?_, fun heq => ?_, ?_⟩
    · exact ((List.prefix_append_right_inj sent).mpr (List.take_prefix count front)).trans (List.prefix_append _ _)
    · have hlength := congrArg List.length heq
      simp only [List.length_append, List.length_take] at hlength
      omega
    · rw [Option.mem_def.mp hcount, ← List.append_assoc]
      rfl
  · exact .inl ⟨sent ++ front, kept, rfl, by rw [← List.append_assoc]⟩

theorem Took.write (h : Took f g taken) (bytes : List UInt8) :
    Took f (g.write limit bytes) (taken ++ bytes) ∨
      limit ≠ none ∧ Lost f (g.write limit bytes) (taken ++ bytes) := by
  rw [BufferedFile.write, if_neg (Bool.eq_false_iff.mp h.failed_eq)]
  exact h.send limit (g.spill_append bytes)

theorem Took.flush (h : Took f g taken) :
    g.flush limit = { f with file := f.file ++ taken, buf := [], failed := false } ∨
      limit ≠ none ∧ Lost f (g.flush limit) taken := by
  rw [BufferedFile.flush, if_neg (Bool.eq_false_iff.mp h.failed_eq)]
  have hall : g.buf ++ [] = g.buf ++ [] := rfl
  have hempty : (g.send limit g.buf []).buf = [] := by
    unfold BufferedFile.send
    split <;> rfl
  have hsent : Took f (g.send limit g.buf []) (taken ++ []) ∨
      limit ≠ none ∧ Lost f (g.send limit g.buf []) (taken ++ []) := h.send limit hall
  rw [List.append_nil] at hsent
  refine hsent.imp_left fun htook => ?_
  obtain ⟨sent, kept, rfl, heq⟩ := htook
  have hkept : kept = [] := (congrArg BufferedFile.buf heq).symm.trans hempty
  rw [heq, hkept, List.append_nil]

end Taking

end BufferedFile

end SevenDB.Common
