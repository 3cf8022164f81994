import SevenDB.Common.FrameLayout

/-!
# Taking frames off a stream that grows

A reader of a stream that is still being written sees a front of it. It takes a frame off the bytes that it
has fetched when the frame is complete. What it takes off is the next payload of the stream, whatever part of
the stream was there to be fetched.
-/

namespace SevenDB.Common.FrameLayout

variable (layout : FrameLayout)

/-- Take a frame off the front of some bytes, if it is complete. -/
def next (bytes : List UInt8) : Option (RawFrame × List UInt8) :=
  if bytes.length < 8 then none
  else
    let header := bytes.take 8
    let body := bytes.drop 8
    let size := (layout.sizeOf header).toNat
    if body.length < size then none else some (⟨layout.sumOf header, body.take size⟩, body.drop size)

variable (checksum : List UInt8 → UInt32)

/-- The bytes that are fetched of a frame, and what there is of its payload. -/
theorem next_header_append {payload body : List UInt8} (h : payload.length < 2 ^ 32) :
    layout.next (layout.header (checksum payload) (UInt32.ofNat payload.length) ++ body) =
      if body.length < payload.length then none
      else some (⟨checksum payload, body.take payload.length⟩, body.drop payload.length) := by
  have hheader := layout.length_header (checksum payload) (UInt32.ofNat payload.length)
  rw [next, if_neg (by rw [List.length_append, hheader]; omega)]
  dsimp only
  rw [List.take_left' hheader, List.drop_left' hheader, layout.sizeOf_header, layout.sumOf_header,
    UInt32.toNat_ofNat_of_lt' h]

theorem next_frame_append {payload : List UInt8} (h : payload.length < 2 ^ 32) (rest : List UInt8) :
    layout.next (layout.frame checksum payload ++ rest) = some (⟨checksum payload, payload⟩, rest) := by
  rw [frame, List.append_assoc, layout.next_header_append checksum h, if_neg (by rw [List.length_append]; omega),
    List.take_left, List.drop_left]

theorem next_of_isPrefix_frame {payload sent : List UInt8} (h : payload.length < 2 ^ 32)
    (hsent : sent <+: layout.frame checksum payload) (hne : sent ≠ layout.frame checksum payload) :
    layout.next sent = none := by
  by_cases hshort : sent.length < 8
  · rw [next, if_pos hshort]
  · have hheader := layout.length_header (checksum payload) (UInt32.ofNat payload.length)
    have hlength : sent.length < 8 + payload.length := by
      rw [← layout.length_frame checksum payload]
      exact Nat.lt_of_le_of_ne hsent.length_le fun heq => hne (hsent.eq_of_length heq)
    have hbegins : layout.header (checksum payload) (UInt32.ofNat payload.length) <+: sent :=
      List.prefix_of_prefix_length_le (List.prefix_append _ payload) hsent (by omega)
    obtain ⟨body, rfl⟩ := hbegins
    rw [List.length_append, hheader] at hlength
    rw [layout.next_header_append checksum h, if_pos (by omega)]

/-- What is there of a stream is less than its first frame, or this frame and what is there of the rest. -/
theorem isPrefix_stream_cons {payload : List UInt8} {rest : List (List UInt8)} {bytes : List UInt8}
    (h : bytes <+: layout.stream checksum (payload :: rest)) :
    (bytes <+: layout.frame checksum payload ∧ bytes ≠ layout.frame checksum payload) ∨
      ∃ more, bytes = layout.frame checksum payload ++ more ∧ more <+: layout.stream checksum rest := by
  rw [stream, List.flatMap_cons] at h
  by_cases hlt : bytes.length < (layout.frame checksum payload).length
  · refine .inl ⟨List.prefix_of_prefix_length_le h (List.prefix_append _ _) hlt.le, fun heq => ?_⟩
    exact hlt.ne (congrArg List.length heq)
  · obtain ⟨more, rfl⟩ :=
      List.prefix_of_prefix_length_le (List.prefix_append _ _) h (Nat.not_lt.mp hlt)
    exact .inr ⟨more, rfl, (List.prefix_append_right_inj _).mp h⟩

/-- A frame that is taken off what is there of a stream is the first one. -/
theorem next_eq_some {payloads : List (List UInt8)} {bytes rest : List UInt8} {f : RawFrame}
    (hsize : ∀ payload ∈ payloads, payload.length < 2 ^ 32) (h : bytes <+: layout.stream checksum payloads)
    (hnext : layout.next bytes = some (f, rest)) :
    ∃ payload others, payloads = payload :: others ∧ f = ⟨checksum payload, payload⟩ ∧
      bytes = layout.frame checksum payload ++ rest := by
  cases payloads with
  | nil =>
    rw [List.prefix_nil.mp h] at hnext
    cases hnext
  | cons payload others =>
    have hfits := hsize payload List.mem_cons_self
    rcases layout.isPrefix_stream_cons checksum h with ⟨hless, hne⟩ | ⟨more, rfl, _⟩
    · rw [layout.next_of_isPrefix_frame checksum hfits hless hne] at hnext
      cases hnext
    · rw [layout.next_frame_append checksum hfits] at hnext
      cases hnext
      exact ⟨payload, others, rfl, rfl, rfl⟩

/-- No frame can be taken off a whole stream when there is none in it. -/
theorem eq_nil_of_next_stream {payloads : List (List UInt8)}
    (hsize : ∀ payload ∈ payloads, payload.length < 2 ^ 32)
    (hnext : layout.next (layout.stream checksum payloads) = none) : payloads = [] := by
  cases payloads with
  | nil => rfl
  | cons payload others =>
    rw [stream, List.flatMap_cons, layout.next_frame_append checksum (hsize payload List.mem_cons_self)] at hnext
    cases hnext

end SevenDB.Common.FrameLayout
