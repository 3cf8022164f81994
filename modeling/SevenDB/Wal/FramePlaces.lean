import SevenDB.Wal.Durability

/-!
# Where the frames of the log are

A frame that is written to the log has a place: a segment and an offset in it. Whatever the log does
and whichever file operation fails, what survives a crash keeps its place, and so does what is only in
the file or in the buffer as long as no write has failed. A sync that succeeds makes all of it survive.
-/

namespace SevenDB.Wal

open SevenDB.Common

/-- Where a frame was put: a segment, an offset in it, and the bytes. -/
structure Place where
  segment : ℕ
  offset : ℕ
  bytes : List UInt8
  deriving DecidableEq, Repr

/-- The bytes are found at their place. -/
def Place.LiesIn (p : Place) (segments : List (ℕ × List UInt8)) : Prop :=
  ∃ segment ∈ segments, segment.1 = p.segment ∧ slice segment.2 p.offset p.bytes.length = p.bytes

instance (p : Place) (segments : List (ℕ × List UInt8)) : Decidable (p.LiesIn segments) :=
  inferInstanceAs (Decidable (∃ segment ∈ segments, _ ∧ _))

/-- Every segment is still there, perhaps with more bytes at its end. -/
def Grown (segments later : List (ℕ × List UInt8)) : Prop :=
  ∀ segment ∈ segments, ∃ more, (segment.1, segment.2 ++ more) ∈ later

section Places

variable {segments middle later : List (ℕ × List UInt8)} {p : Place}

theorem Grown.refl (segments : List (ℕ × List UInt8)) : Grown segments segments :=
  fun segment hsegment => ⟨[], by rw [List.append_nil]; exact hsegment⟩

theorem Grown.trans (h : Grown segments middle) (hlater : Grown middle later) : Grown segments later := by
  intro segment hsegment
  obtain ⟨more, hmore⟩ := h segment hsegment
  obtain ⟨others, hothers⟩ := hlater _ hmore
  exact ⟨more ++ others, by rw [← List.append_assoc]; exact hothers⟩

theorem grown_last (files : List (ℕ × List UInt8)) (number : ℕ) {bytes longer : List UInt8}
    (h : bytes <+: longer) : Grown (files ++ [(number, bytes)]) (files ++ [(number, longer)]) := by
  obtain ⟨more, rfl⟩ := h
  intro segment hsegment
  rcases List.mem_append.mp hsegment with hfile | hlast
  · exact ⟨[], by rw [List.append_nil]; exact List.mem_append_left _ hfile⟩
  · rw [List.mem_singleton.mp hlast]
    exact ⟨more, List.mem_append_right _ List.mem_cons_self⟩

theorem grown_append (segments more : List (ℕ × List UInt8)) : Grown segments (segments ++ more) :=
  fun segment hsegment => ⟨[], by rw [List.append_nil]; exact List.mem_append_left _ hsegment⟩

/-- Bytes that are found at an offset are found there when more bytes follow. -/
theorem slice_append {bytes field : List UInt8} {off : ℕ} (h : slice bytes off field.length = field)
    (more : List UInt8) : slice (bytes ++ more) off field.length = field := by
  have hlength : field.length ≤ (bytes.drop off).length := by
    have htaken := congrArg List.length h
    rw [slice, List.length_take] at htaken
    omega
  by_cases hoff : off ≤ bytes.length
  · rw [slice, List.drop_append_of_le_length hoff, List.take_append_of_le_length hlength]
    exact h
  · rw [List.length_drop, Nat.sub_eq_zero_of_le (Nat.le_of_not_le hoff), Nat.le_zero,
      List.length_eq_zero_iff] at hlength
    rw [hlength]
    exact List.take_zero

/-- What is found at its place is still found there when segments have grown. -/
theorem Place.LiesIn.mono (h : p.LiesIn segments) (hgrown : Grown segments later) : p.LiesIn later := by
  obtain ⟨segment, hsegment, hnumber, hbytes⟩ := h
  obtain ⟨more, hmore⟩ := hgrown segment hsegment
  exact ⟨_, hmore, hnumber, slice_append hbytes more⟩

end Places

namespace Forge

variable {C : Type} (fmt : Format C) {wl middle next : Forge}

/-- Nothing that survives a crash is lost, and nothing of the content unless a write has failed. -/
structure Advances (wl next : Forge) : Prop where
  durable_grown : Grown wl.durable next.durable
  contents_grown : next.out.failed = false → wl.out.failed = false ∧ Grown wl.contents next.contents

theorem Advances.refl (wl : Forge) : Advances wl wl := ⟨.refl _, fun hhealthy => ⟨hhealthy, .refl _⟩⟩

theorem Advances.trans (h : Advances wl middle) (hnext : Advances middle next) : Advances wl next := by
  refine ⟨h.durable_grown.trans hnext.durable_grown, fun hhealthy => ?_⟩
  obtain ⟨hmiddle, hlater⟩ := hnext.contents_grown hhealthy
  obtain ⟨hbefore, hgrown⟩ := h.contents_grown hmiddle
  exact ⟨hbefore, hgrown.trans hlater⟩

theorem advances_of_same (hfiles : next.files = wl.files) (hidx : next.csIdx = wl.csIdx)
    (hout : next.out = wl.out) : Advances wl next := by
  refine ⟨?_, fun hhealthy => ⟨by rw [← hout]; exact hhealthy, ?_⟩⟩
  · rw [durable, durable, hfiles, hidx, hout]
    exact .refl _
  · rw [contents, contents, hfiles, hidx, hout]
    exact .refl _

theorem durable_isPrefix {f g : BufferedFile} (h : f.Extends g) : f.durable <+: g.durable := by
  obtain ⟨sent, hsent⟩ := h.grown
  rw [BufferedFile.durable, BufferedFile.durable, h.synced_eq, hsent, List.take_append]
  exact List.prefix_append _ _

/-- Sending bytes to the open segment advances the log when healthy files keep their content. -/
theorem advances_out (wl : Forge) {out : BufferedFile} (size : UInt32) (hextends : wl.out.Extends out)
    (hcontent : out.failed = false → wl.out.failed = false ∧ wl.out.content <+: out.content) :
    Advances wl { wl with out := out, csSize := size } := by
  refine ⟨grown_last _ _ (durable_isPrefix hextends), fun hhealthy => ?_⟩
  obtain ⟨hbefore, hgrown⟩ := hcontent hhealthy
  exact ⟨hbefore, grown_last _ _ hgrown⟩

theorem advances_flush (wl : Forge) (limit : Option ℕ) : Advances wl { wl with out := wl.out.flush limit } := by
  refine advances_out wl wl.csSize BufferedFile.extends_flush fun hhealthy => ?_
  obtain ⟨hbefore, hflush⟩ := BufferedFile.flush_of_healthy hhealthy
  refine ⟨hbefore, ?_⟩
  rw [hflush]
  exact List.prefix_append _ _

theorem advances_fsync (wl : Forge) : Advances wl { wl with out := wl.out.fsync } := by
  refine ⟨grown_last _ _ ?_, fun hhealthy => ⟨hhealthy, .refl _⟩⟩
  rw [BufferedFile.fsync, BufferedFile.durable, BufferedFile.durable, List.take_length]
  exact List.take_prefix _ _

/-- Persisting the staged hard state leaves the segments and the counters alone. -/
theorem syncHardState_same (wl : Forge) (fault : Option HardStateFault) :
    (wl.syncHardState fault).1.files = wl.files ∧ (wl.syncHardState fault).1.csIdx = wl.csIdx ∧
      (wl.syncHardState fault).1.out = wl.out ∧ (wl.syncHardState fault).1.lsn = wl.lsn ∧
      (wl.syncHardState fault).1.durableLSN = wl.durableLSN := by
  unfold syncHardState
  split
  · exact ⟨rfl, rfl, rfl, rfl, rfl⟩
  · split <;> exact ⟨rfl, rfl, rfl, rfl, rfl⟩

/-- The counters of the frontier are the same. -/
def SameCounters (wl next : Forge) : Prop := next.lsn = wl.lsn ∧ next.durableLSN = wl.durableLSN

/-- A sync advances the log and leaves the counters alone. When it returns nil, all of the content
survives a crash. -/
theorem sync_spec (wl : Forge) (faults : Faults) :
    Advances wl (wl.sync faults).1 ∧ SameCounters wl (wl.sync faults).1 ∧
      ((wl.sync faults).2 = .returnsNil →
        (wl.sync faults).1.out.failed = false ∧ (wl.sync faults).1.out.buf = [] ∧
          (wl.sync faults).1.durable = (wl.sync faults).1.contents) := by
  have hflush := advances_flush wl faults.flush
  unfold sync
  dsimp only
  split
  · exact ⟨hflush, ⟨rfl, rfl⟩, Reply.noConfusion⟩
  · next hhealthy =>
    split
    · exact ⟨hflush, ⟨rfl, rfl⟩, Reply.noConfusion⟩
    · obtain ⟨_, hflushed⟩ := BufferedFile.flush_of_healthy (eq_false_of_ne_true hhealthy)
      have hfsync := hflush.trans (advances_fsync { wl with out := wl.out.flush faults.flush })
      obtain ⟨hfiles, hidx, hout, hlsn, hdurable⟩ :=
        syncHardState_same { wl with out := (wl.out.flush faults.flush).fsync } faults.hardState
      refine ⟨hfsync.trans (advances_of_same hfiles hidx hout), ⟨hlsn, hdurable⟩, fun _ => ?_⟩
      have hwhole : (wl.out.flush faults.flush).fsync.durable = (wl.out.flush faults.flush).fsync.content := by
        rw [hflushed]
        exact List.take_length.trans (List.append_nil _).symm
      rw [durable, contents, hout, hwhole]
      exact ⟨eq_false_of_ne_true hhealthy, by rw [hflushed]; rfl, rfl⟩

/-- Writing the bytes of an element advances the log. When no write has failed, its frame is at the end of
the open segment. -/
theorem writeNoRotate_advances (wl : Forge) (limit : Option ℕ) (eb : List UInt8) :
    Advances wl (wl.writePayloadLockedNoRotate fmt limit eb).1 ∧
      SameCounters wl (wl.writePayloadLockedNoRotate fmt limit eb).1 ∧
      ((wl.writePayloadLockedNoRotate fmt limit eb).2 = .returnsNil →
        (wl.writePayloadLockedNoRotate fmt limit eb).1.out.failed = false →
          Place.LiesIn ⟨wl.csIdx, wl.out.content.length, frame fmt.checksum eb⟩
            (wl.writePayloadLockedNoRotate fmt limit eb).1.contents) := by
  unfold writePayloadLockedNoRotate
  split
  · exact ⟨.refl _, ⟨rfl, rfl⟩, Reply.noConfusion⟩
  · refine ⟨advances_out wl _ BufferedFile.extends_write fun hhealthy => ?_, ⟨rfl, rfl⟩, fun _ hhealthy => ?_⟩
    · obtain ⟨hbefore, hcontent⟩ := BufferedFile.write_of_healthy hhealthy
      rw [hcontent]
      exact ⟨hbefore, List.prefix_append _ _⟩
    · obtain ⟨_, hcontent⟩ := BufferedFile.write_of_healthy hhealthy
      refine ⟨_, List.mem_append_right _ List.mem_cons_self, rfl, ?_⟩
      dsimp only
      rw [hcontent, slice, List.drop_left, List.take_length]

theorem startSegment_advances (wl : Forge) (limit : Option ℕ) (time : ℤ) :
    Advances wl (wl.startSegment fmt limit time).1 ∧ SameCounters wl (wl.startSegment fmt limit time).1 := by
  obtain ⟨hadvances, hcounters, _⟩ := wl.writeNoRotate_advances fmt limit (wl.preambleBytes fmt time)
  exact startSegment_induction fmt (P := fun next => Advances wl next ∧ SameCounters wl next) ⟨.refl _, rfl, rfl⟩
    ⟨hadvances, hcounters⟩ fun _ h => ⟨h.1.trans (advances_flush _ _), h.2⟩

theorem rotateLog_advances (wl : Forge) (faults : Faults) (time : ℤ) :
    Advances wl (wl.rotateLog fmt faults time).1 ∧ SameCounters wl (wl.rotateLog fmt faults time).1 := by
  obtain ⟨hsync, hcounters, hnil⟩ := wl.sync_spec faults
  unfold rotateLog
  split
  · next synced heq =>
    rw [heq] at hsync hcounters hnil
    obtain ⟨hhealthy, hbuf, _⟩ := hnil rfl
    obtain ⟨hstart, hstarted⟩ := startSegment_advances fmt { synced with
      files := synced.files ++ [(synced.csIdx, synced.out.file)]
      csIdx := synced.csIdx + 1
      out := .openAt defaultBufferSize []
      csSize := 0 } faults.preamble time
    have hopened : Advances synced { synced with
        files := synced.files ++ [(synced.csIdx, synced.out.file)]
        csIdx := synced.csIdx + 1
        out := .openAt defaultBufferSize []
        csSize := 0 } := by
      refine ⟨(grown_last _ _ (List.take_prefix _ _)).trans (grown_append _ _), fun _ => ⟨hhealthy, ?_⟩⟩
      rw [contents, BufferedFile.content, hbuf, List.append_nil]
      exact grown_append _ _
    exact ⟨(hsync.trans hopened).trans hstart, hstarted.1.trans hcounters.1, hstarted.2.trans hcounters.2⟩
  · exact ⟨hsync, hcounters⟩

theorem counters_init (cfg : ForgeConfig) (manifest : Manifest) (manifestHash : List UInt8)
    (limit : Option ℕ) (time : ℤ) (directory : List (ℕ × List UInt8)) (hardState : Option (List UInt8)) :
    (Forge.init fmt cfg manifest manifestHash limit time directory hardState).1.lsn = 0 ∧
      (Forge.init fmt cfg manifest manifestHash limit time directory hardState).1.durableLSN = 0 := by
  unfold Forge.init
  dsimp only
  split
  · exact (startSegment_advances fmt _ limit time).2
  · exact ⟨rfl, rfl⟩

/-- The bytes of the next element with a payload. -/
def nextElement (wl : Forge) (times : Times) (payload : List UInt8) : List UInt8 :=
  fmt.element.encode ⟨UInt64.ofNat (wl.lsn + 1), times.element, .command, payload⟩

/-- The log in which the next element is written: another segment may have been started for it. -/
def makeRoom (wl : Forge) (faults : Faults) (times : Times) (payload : List UInt8) :
    Forge × Reply :=
  rotateLogIfNeeded fmt { wl with lsn := wl.lsn + 1 } faults times.preamble
    (UInt32.ofNat (8 + (wl.nextElement fmt times payload).length))

/-- Another segment is started for an element that leaves the open one. -/
theorem makeRoom_eq (wl : Forge) (faults : Faults) (times : Times) (payload : List UInt8) :
    wl.makeRoom fmt faults times payload =
      if wl.Leaves fmt times payload then rotateLog fmt { wl with lsn := wl.lsn + 1 } faults times.preamble
      else ({ wl with lsn := wl.lsn + 1 }, .returnsNil) := rfl

/-- Where the frame of the next element is put. -/
def placeOf (wl : Forge) (faults : Faults) (times : Times) (payload : List UInt8) : Place :=
  ⟨(wl.makeRoom fmt faults times payload).1.csIdx, (wl.makeRoom fmt faults times payload).1.out.content.length,
    frame fmt.checksum (wl.nextElement fmt times payload)⟩

theorem writeElement_eq (wl : Forge) (faults : Faults) (times : Times) (payload : List UInt8) :
    wl.writeElement fmt faults times payload =
      match wl.makeRoom fmt faults times payload with
      | (room, .returnsNil) => room.writePayloadLockedNoRotate fmt faults.write (wl.nextElement fmt times payload)
      | stopped => stopped := rfl

/-- What an append does to the log: it advances, and when it has put frames into their places it has
counted them, and they are there when no write has failed. -/
structure Appended (wl next : Forge) (places : List Place) : Prop where
  advances : Advances wl next
  durableLSN_eq : next.durableLSN = wl.durableLSN
  lsn_le : wl.lsn ≤ next.lsn
  counted : places ≠ [] → wl.lsn < next.lsn
  placed : next.out.failed = false → ∀ p ∈ places, p.LiesIn next.contents

theorem appended_nil (hadvances : Advances wl next) (hcounters : SameCounters wl next) : Appended wl next [] :=
  ⟨hadvances, hcounters.2, hcounters.1.ge, fun hne => absurd rfl hne, fun _ _ hp => absurd hp List.not_mem_nil⟩

/-- Making room for an element advances the log and counts the element. -/
theorem makeRoom_advances (wl : Forge) (faults : Faults) (times : Times) (payload : List UInt8) :
    Advances wl (wl.makeRoom fmt faults times payload).1 ∧
      SameCounters { wl with lsn := wl.lsn + 1 } (wl.makeRoom fmt faults times payload).1 := by
  have hcounted : Advances wl { wl with lsn := wl.lsn + 1 } := advances_of_same rfl rfl rfl
  rw [makeRoom_eq]
  split
  · obtain ⟨hrotate, hcounters⟩ := rotateLog_advances fmt { wl with lsn := wl.lsn + 1 } faults times.preamble
    exact ⟨hcounted.trans hrotate, hcounters⟩
  · exact ⟨hcounted, rfl, rfl⟩

/-- Writing an element puts its frame into its place if it returns nil. -/
theorem appended_writeElement (wl : Forge) (faults : Faults) (times : Times) (payload : List UInt8) :
    Appended wl (wl.writeElement fmt faults times payload).1
      (if (wl.writeElement fmt faults times payload).2 = .returnsNil then [wl.placeOf fmt faults times payload]
        else []) := by
  obtain ⟨hroom, hcounted⟩ := wl.makeRoom_advances fmt faults times payload
  rw [writeElement_eq, placeOf]
  cases hreply : wl.makeRoom fmt faults times payload with
  | mk room reply =>
    rw [hreply] at hroom hcounted
    cases reply with
    | returnsNil =>
      dsimp only
      obtain ⟨hwrite, hcounters, hplace⟩ :=
        room.writeNoRotate_advances fmt faults.write (wl.nextElement fmt times payload)
      have hlsn := (hcounters.1.trans hcounted.1).ge
      refine ⟨hroom.trans hwrite, hcounters.2.trans hcounted.2, Nat.le_of_succ_le hlsn, fun _ => hlsn,
        fun hhealthy p hp => ?_⟩
      obtain ⟨hnil, hp⟩ := List.mem_ite_nil_right.mp hp
      rw [List.mem_singleton.mp hp]
      exact hplace hnil hhealthy
    | returnsError e | panics =>
      dsimp only
      rw [if_neg Reply.noConfusion]
      exact ⟨hroom, hcounted.2, Nat.le_of_succ_le hcounted.1.ge, fun hne => absurd rfl hne,
        fun _ _ hp => absurd hp List.not_mem_nil⟩

/-- The places of the frames that a call has written: that of a call which returned nil. -/
def written (wl : Forge) (faults : Faults) (times : Times) (c : ForgeCall C) : List Place :=
  if (wl.call fmt faults times c).2 = .returnsNil then
    (c.payload? fmt).toList.map (wl.placeOf fmt faults times)
  else []

theorem appended_call (wl : Forge) (faults : Faults) (times : Times) (c : ForgeCall C) :
    Appended wl (wl.call fmt faults times c).1 (wl.written fmt faults times c) := by
  have hrefused (e : ForgeError) (hcall : wl.call fmt faults times c = (wl, .returnsError e)) :
      Appended wl (wl.call fmt faults times c).1 (wl.written fmt faults times c) := by
    rw [written, hcall, if_neg Reply.noConfusion]
    exact appended_nil (.refl _) ⟨rfl, rfl⟩
  have hwritten (payload : List UInt8) (hpayload : c.payload? fmt = some payload)
      (hcall : wl.call fmt faults times c = wl.writeElement fmt faults times payload) :
      Appended wl (wl.call fmt faults times c).1 (wl.written fmt faults times c) := by
    rw [written, hcall, hpayload]
    exact wl.appended_writeElement fmt faults times payload
  cases c with
  | log c => exact hwritten _ rfl rfl
  | normal e =>
    by_cases hforbids : wl.manifest.enforce = .strict ∧ wl.manifest.isUWAL1 = false
    · exact hrefused .manifestForbids (by rw [Forge.call, Forge.appendNormal, if_pos hforbids])
    · cases hcmd : e.cmd with
      | none => exact hrefused .nilCommand (by rw [Forge.call, Forge.appendNormal, if_neg hforbids, hcmd])
      | some c =>
        exact hwritten _ (by rw [ForgeCall.payload?, hcmd]; rfl)
          (by rw [Forge.call, Forge.appendNormal, if_neg hforbids, hcmd])
  | hardState bytes =>
    by_cases hempty : bytes = []
    · exact hrefused .emptyHardState (by rw [Forge.call, appendHardState, if_pos hempty])
    · rw [written, Forge.call, appendHardState, if_neg hempty, if_pos rfl]
      exact appended_nil (advances_of_same rfl rfl rfl) ⟨rfl, rfl⟩

end Forge

end SevenDB.Wal
