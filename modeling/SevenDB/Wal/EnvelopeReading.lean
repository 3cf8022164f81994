import SevenDB.Wal.ReaderLoops

/-!
# Reading an envelope from arbitrary bytes

Reading with checked accesses never panics, whatever the bytes are. What is read are parts of the bytes in their
order: a header, the command, and the raft entry after its length when there is room for a length.
-/

namespace SevenDB.Wal

open SevenDB.Common

/-- A part and what comes after it make up what comes from its start on. -/
theorem slice_append_drop (b : List UInt8) (off count : ℕ) :
    slice b off count ++ b.drop (off + count) = b.drop off := by
  rw [slice, ← List.drop_drop, List.take_append_drop]

/-- The parts of an envelope follow each other in some bytes: thirty bytes of header and the command, and then
fewer than four bytes, or four bytes for the length of the raft entry and the entry. -/
def HasParts (b : List UInt8) (r : UwalRecord) : Prop :=
  ∃ header tail, header.length = 30 ∧ b = header ++ (r.cmd ++ tail) ∧
    (tail.length < 4 ∧ r.raftData = [] ∨ ∃ len rest, len.length = 4 ∧ tail = len ++ (r.raftData ++ rest))

/-- What is read from some bytes are consecutive parts of them. -/
theorem hasParts_of_decodeUWAL {b : List UInt8} {r : UwalRecord} (h : decodeUWAL b = .ok r) : HasParts b r := by
  unfold decodeUWAL at h
  dsimp only at h
  split at h
  · cases h
  · split at h
    · cases h
    · next hlong =>
      have hheader : (b.take 30).length = 30 := by
        rw [List.length_take]
        omega
      have hsplit (count : ℕ) : b = b.take 30 ++ (slice b 30 count ++ b.drop (30 + count)) := by
        rw [slice_append_drop, List.take_append_drop]
      split at h
      · cases h
      · split at h
        · next htail =>
          cases h
          refine ⟨_, _, hheader, hsplit _, Or.inl ⟨?_, rfl⟩⟩
          rw [List.length_drop]
          omega
        · next htail =>
          split at h
          · cases h
          · cases h
            have hlen : (slice b (30 + (uint32 (slice b 26 4)).toNat) 4).length = 4 := by
              rw [slice, List.length_take, List.length_drop]
              omega
            have hraft (off count : ℕ) :
                b.drop off = slice b off 4 ++ (slice b (off + 4) count ++ b.drop (off + 4 + count)) := by
              rw [slice_append_drop, slice_append_drop]
            exact ⟨_, _, hheader, hsplit _, Or.inr ⟨_, _, hlen, hraft _ _⟩⟩

/-- The codec of envelopes: an envelope whose parts fit their length fields is read back, such envelopes have
different bytes when they differ, and whatever the bytes are, reading them stays within them and finds an error or
consecutive parts of them. -/
theorem uwal_codec :
    (∀ r : UwalRecord, r.cmd.length < 2 ^ 32 → r.raftData.length < 2 ^ 32 →
      decodeUWALSliced (encodeUWAL r) = some (.ok r)) ∧
    (∀ r s : UwalRecord, r.cmd.length < 2 ^ 32 → r.raftData.length < 2 ^ 32 → s.cmd.length < 2 ^ 32 →
      s.raftData.length < 2 ^ 32 → encodeUWAL r = encodeUWAL s → r = s) ∧
    ∀ b, (∃ e, decodeUWALSliced b = some (.error e)) ∨ ∃ r, decodeUWALSliced b = some (.ok r) ∧ HasParts b r := by
  refine ⟨fun r hcmd hraft => ?_, fun r s hcmd hraft hcmd' hraft' heq => ?_, fun b => ?_⟩
  · rw [decodeUWALSliced_eq, decodeUWAL_encodeUWAL r hcmd hraft]
  · have hread := decodeUWAL_encodeUWAL r hcmd hraft
    rw [heq, decodeUWAL_encodeUWAL s hcmd' hraft'] at hread
    cases hread
    rfl
  · rw [decodeUWALSliced_eq]
    cases hdecode : decodeUWAL b with
    | error e => exact Or.inl ⟨e, rfl⟩
    | ok r => exact Or.inr ⟨r, rfl, hasParts_of_decodeUWAL hdecode⟩

/-- An envelope with a command and a raft entry is read back. -/
theorem uwal_codec_normal : decodeUWALSliced (encodeUWAL ⟨uwalKindNormal, 7, 2, 1, [1, 2], [3]⟩) =
    some (.ok ⟨uwalKindNormal, 7, 2, 1, [1, 2], [3]⟩) :=
  uwal_codec.1 _ (by decide) (by decide)

end SevenDB.Wal
