import SevenDB.Wal.ForgeReplay

/-!
# What the segments of the log hold

While no file operation fails, every segment of the log is a sequence of whole frames, each of which
holds an item or is the first record of a segment, and segments are numbered upwards. Writing an
element adds its item, and everything else that the log does adds none.
-/

namespace SevenDB.Wal

open SevenDB.Common

variable {C : Type} {fmt : Format C}

section Streams

/-- The items in the bytes of a segment. -/
def itemsIn (fmt : Format C) (bytes : List UInt8) : List (ReplayItem C) := ((itemReader fmt).read bytes).1

/-- What the readers find in a frame fits together: the first record of a segment has no position, and an
item with an index has that as its position. -/
def Placed (mark : Option (ReplayItem C) × Option UInt64) : Prop :=
  match mark.1 with
  | none => mark.2 = none
  | some item => item.index = 0 ∨ mark.2 = some item.index

/-- A segment consists of whole frames that all readers can read. -/
def Intact (fmt : Format C) (bytes : List UInt8) : Prop :=
  ∃ marks : List (Option (ReplayItem C) × Option UInt64), (itemReader fmt).Holds bytes (marks.map Prod.fst) ∧
    (commandReader fmt).Holds bytes (marks.map fun mark => mark.1.map ReplayItem.cmd) ∧
    (positionReader fmt).Holds bytes (marks.map Prod.snd) ∧ ∀ mark ∈ marks, Placed mark

variable {bytes more : List UInt8}

theorem intact_nil : Intact fmt [] := ⟨[], .nil, .nil, .nil, fun _ hmark => absurd hmark List.not_mem_nil⟩

theorem Intact.read_items (h : Intact fmt bytes) : (itemReader fmt).read bytes = (itemsIn fmt bytes, none) := by
  obtain ⟨marks, hitems, _⟩ := h
  rw [itemsIn, hitems.read_eq]

theorem Intact.read_commands (h : Intact fmt bytes) :
    (commandReader fmt).read bytes = ((itemsIn fmt bytes).map ReplayItem.cmd, none) := by
  obtain ⟨marks, hitems, hcommands, _⟩ := h
  rw [itemsIn, hitems.read_eq, hcommands.read_eq, ← List.reduceOption_map, List.map_map]
  rfl

/-- Intact bytes may be joined. -/
theorem Intact.append (h : Intact fmt bytes) (hmore : Intact fmt more) :
    Intact fmt (bytes ++ more) ∧ itemsIn fmt (bytes ++ more) = itemsIn fmt bytes ++ itemsIn fmt more := by
  obtain ⟨marks, hitems, hcommands, hpositions, hplaced⟩ := h
  obtain ⟨others, hitems', hcommands', hpositions', hplaced'⟩ := hmore
  refine ⟨⟨marks ++ others, ?_, ?_, ?_, fun mark hmark => ?_⟩, ?_⟩
  · rw [List.map_append]
    exact hitems.append hitems'
  · rw [List.map_append]
    exact hcommands.append hcommands'
  · rw [List.map_append]
    exact hpositions.append hpositions'
  · exact (List.mem_append.mp hmark).elim (hplaced mark) (hplaced' mark)
  · rw [itemsIn, itemsIn, itemsIn, (hitems.append hitems').read_eq, hitems.read_eq, hitems'.read_eq,
      List.reduceOption_append]

/-- What the readers make of an element. -/
structure ReadAs (fmt : Format C) (el : Element) (place : Option (ReplayItem C)) : Prop where
  item_eq : itemIn fmt el = .ok place
  command_eq : commandOf fmt el = .ok (place.map ReplayItem.cmd)
  placed : Placed (place, positionOf el)

/-- The frame of an element that is read is intact. -/
theorem intact_frame {el : Element} (h : 8 + (fmt.element.encode el).length ≤ frameCapacity)
    {place : Option (ReplayItem C)} (hread : ReadAs fmt el place) :
    Intact fmt (frame fmt.checksum (fmt.element.encode el)) ∧
      itemsIn fmt (frame fmt.checksum (fmt.element.encode el)) = place.toList := by
  have helement := elementOf_encode h
  have hitems : (itemReader fmt).Holds (frame fmt.checksum (fmt.element.encode el)) [place] :=
    .frame (length_lt_of_fits h) (by rw [itemReader]; dsimp only; rw [helement]; exact hread.item_eq)
  have hcommands : (commandReader fmt).Holds (frame fmt.checksum (fmt.element.encode el))
      [place.map ReplayItem.cmd] :=
    .frame (length_lt_of_fits h) (by rw [commandReader]; dsimp only; rw [helement]; exact hread.command_eq)
  have hpositions : (positionReader fmt).Holds (frame fmt.checksum (fmt.element.encode el)) [positionOf el] :=
    .frame (length_lt_of_fits h) accept_positionReader_encode
  refine ⟨⟨[(place, positionOf el)], hitems, hcommands, hpositions, fun mark hmark => ?_⟩, ?_⟩
  · rw [List.mem_singleton.mp hmark]
    exact hread.placed
  · rw [itemsIn, hitems.read_eq, List.reduceOption_singleton]

end Streams

section Elements

variable {el : Element}

/-- A command is read as it was written. -/
theorem read_command_element {c : C} (htype : el.elementType = .command)
    (hpayload : el.payload = fmt.command.encode c) :
    ReadAs fmt el (some ⟨0, 0, 0, el.timestamp, c, fmt.command.encode c⟩) := by
  have hcommand : commandIn fmt el.payload = .ok c := by rw [commandIn, hpayload, fmt.command.decode_encode]
  have hplain : ¬ isUWAL el.payload = true := by rw [hpayload, fmt.command_not_uwal]; exact Bool.false_ne_true
  refine ⟨?_, ?_, Or.inl rfl⟩
  · rw [itemIn, if_neg (not_not.mpr htype), if_neg hplain, hcommand, hpayload]
    rfl
  · rw [commandOf, if_neg hplain, hcommand]
    rfl

theorem positionOf_normal_element {index term : UInt64} {subSeq : UInt32} {cmd raftData : List UInt8}
    (htype : el.elementType = .command)
    (hpayload : el.payload = encodeUWAL ⟨uwalKindNormal, index, term, subSeq, cmd, raftData⟩)
    (h : 8 + (fmt.element.encode el).length ≤ frameCapacity) : positionOf el = some index := by
  have huwal : isUWAL el.payload = true := by rw [hpayload, isUWAL_encodeUWAL]
  rw [positionOf, if_pos ⟨htype, huwal⟩, decodeUWAL_payload hpayload h]
  dsimp only
  rw [if_neg (by decide)]

/-- A normal entry is read as it was written. -/
theorem read_normal_element {index term : UInt64} {subSeq : UInt32} {c : C} {raftData : List UInt8}
    (htype : el.elementType = .command)
    (hpayload : el.payload = encodeUWAL ⟨uwalKindNormal, index, term, subSeq, fmt.command.encode c, raftData⟩)
    (h : 8 + (fmt.element.encode el).length ≤ frameCapacity) :
    ReadAs fmt el (some ⟨index, term, subSeq, el.timestamp, c, raftData⟩) := by
  have hdecode := decodeUWAL_payload hpayload h
  have huwal : isUWAL el.payload = true := by rw [hpayload, isUWAL_encodeUWAL]
  have hcommand : commandIn fmt (fmt.command.encode c) = .ok c := by rw [commandIn, fmt.command.decode_encode]
  refine ⟨?_, ?_, Or.inr (positionOf_normal_element htype hpayload h)⟩
  · rw [itemIn, if_neg (not_not.mpr htype), if_pos huwal, hdecode]
    dsimp only
    rw [if_neg (by decide), if_neg (by decide), hcommand]
    rfl
  · rw [commandOf, if_pos huwal, hdecode]
    dsimp only
    rw [if_neg (by decide), if_neg (by decide), hcommand]
    rfl

theorem read_manifest_element {hash : List UInt8} (htype : el.elementType = .command)
    (hpayload : el.payload = encodeUWAL ⟨uwalKindManifest, 0, 0, 0, hash, []⟩)
    (h : 8 + (fmt.element.encode el).length ≤ frameCapacity) : ReadAs fmt el none := by
  have hdecode := decodeUWAL_payload hpayload h
  have huwal : isUWAL el.payload = true := by rw [hpayload, isUWAL_encodeUWAL]
  refine ⟨?_, ?_, ?_⟩
  · rw [itemIn, if_neg (not_not.mpr htype), if_pos huwal, hdecode]
    dsimp only
    rw [if_pos rfl]
  · rw [commandOf, if_pos huwal, hdecode]
    dsimp only
    rw [if_pos rfl]
    rfl
  · change positionOf el = none
    rw [positionOf, if_pos ⟨htype, huwal⟩, hdecode]
    dsimp only
    rw [if_pos rfl]

end Elements

namespace Forge

/-- The items in the segments of the log, in the order of their numbers. -/
def stored (fmt : Format C) (wl : Forge) : List (ReplayItem C) :=
  wl.contents.flatMap fun segment => itemsIn fmt segment.2

/-- The stored items are those of the closed segments and of the open one. -/
theorem stored_eq (fmt : Format C) (wl : Forge) :
    wl.stored fmt = (wl.files.flatMap fun segment => itemsIn fmt segment.2) ++ itemsIn fmt wl.out.content := by
  rw [stored, contents, List.flatMap_append, List.flatMap_singleton]

/-- Nothing has failed, and the segments are intact and numbered upwards. -/
structure Whole (fmt : Format C) (wl : Forge) : Prop where
  healthy : wl.out.failed = false
  intact : ∀ segment ∈ wl.contents, Intact fmt segment.2
  ascending : (wl.contents.map Prod.fst).Pairwise (· < ·)

/-- The log is whole, and when everything that was appended is known to be synced then the buffer is
empty. -/
structure Sound (fmt : Format C) (wl : Forge) : Prop extends Whole fmt wl where
  durable_le : wl.durableLSN ≤ wl.lsn
  flushed : wl.lsn ≤ wl.durableLSN → wl.out.buf = []

variable {wl next : Forge}

theorem Whole.intact_content (h : wl.Whole fmt) : Intact fmt wl.out.content :=
  h.intact (wl.csIdx, wl.out.content) (List.mem_append_right _ List.mem_cons_self)

/-- Bytes were written to the open segment. -/
structure WroteTo (wl next : Forge) (bytes : List UInt8) : Prop where
  files_eq : next.files = wl.files
  csIdx_eq : next.csIdx = wl.csIdx
  content_eq : next.out.content = wl.out.content ++ bytes
  healthy : next.out.failed = false

/-- Intact bytes may be written. -/
theorem Whole.wroteTo (h : wl.Whole fmt) {bytes : List UInt8} (hbytes : Intact fmt bytes)
    (hwrote : WroteTo wl next bytes) :
    next.Whole fmt ∧ next.stored fmt = wl.stored fmt ++ itemsIn fmt bytes := by
  obtain ⟨hintact, hitems⟩ := h.intact_content.append hbytes
  have hcontents : next.contents = wl.files ++ [(wl.csIdx, wl.out.content ++ bytes)] := by
    rw [contents, hwrote.files_eq, hwrote.csIdx_eq, hwrote.content_eq]
  refine ⟨⟨hwrote.healthy, fun segment hsegment => ?_, ?_⟩, ?_⟩
  · rw [hcontents] at hsegment
    rcases List.mem_append.mp hsegment with hold | hlast
    · exact h.intact segment (List.mem_append_left _ hold)
    · rw [List.mem_singleton.mp hlast]
      exact hintact
  · have hascending := h.ascending
    rw [contents, List.map_append] at hascending
    rw [hcontents, List.map_append]
    exact hascending
  · rw [stored, stored, hcontents, contents, List.flatMap_append, List.flatMap_append, List.append_assoc,
      List.flatMap_singleton, List.flatMap_singleton, hitems]

theorem Whole.of_contents (h : wl.Whole fmt) (next : Forge) (hcontents : next.contents = wl.contents)
    (hhealthy : next.out.failed = false) : next.Whole fmt ∧ next.stored fmt = wl.stored fmt :=
  ⟨⟨hhealthy, by rw [hcontents]; exact h.intact, by rw [hcontents]; exact h.ascending⟩,
    by rw [stored, hcontents, stored]⟩

section Operations

/-- The log after a sync in which nothing fails. -/
def afterSync (wl : Forge) : Forge :=
  { wl with
    out := { wl.out with file := wl.out.content, buf := [], synced := wl.out.content.length }
    hardState := if wl.pendingHS = [] then wl.hardState else some wl.pendingHS
    durableHS := if wl.pendingHS = [] then wl.durableHS else some wl.pendingHS
    pendingHS := [] }

/-- A sync without faults succeeds. -/
theorem sync_clear (h : wl.out.failed = false) : wl.sync .clear = (wl.afterSync, .returnsNil) := by
  rw [sync, Faults.clear, BufferedFile.flush_none _ h]
  dsimp only
  rw [if_neg (by simp [h]), if_neg Bool.false_ne_true, syncHardState, afterSync, BufferedFile.fsync]
  dsimp only
  split
  · next hpending => rw [hpending]
  · rfl

theorem contents_afterSync (wl : Forge) : wl.afterSync.contents = wl.contents := by
  have hcontent : wl.afterSync.out.content = wl.out.content := List.append_nil _
  rw [contents, hcontent]
  rfl

theorem Sound.afterSync (h : wl.Sound fmt) : wl.afterSync.Sound fmt ∧ wl.afterSync.stored fmt = wl.stored fmt := by
  obtain ⟨hwhole, hstored⟩ := h.toWhole.of_contents wl.afterSync (contents_afterSync wl) h.healthy
  exact ⟨⟨hwhole, h.durable_le, fun _ => rfl⟩, hstored⟩

/-- What a successful write to the open segment does. -/
theorem writeNoRotate_spec {eb : List UInt8} (h : wl.out.failed = false)
    (hnil : wl.writePayloadLockedNoRotate fmt none eb = (next, .returnsNil)) :
    8 + eb.length ≤ frameCapacity ∧ WroteTo wl next (frame fmt.checksum eb) ∧ next.lsn = wl.lsn ∧
      next.durableLSN = wl.durableLSN := by
  rw [writePayloadLockedNoRotate] at hnil
  split at hnil
  · cases hnil
  · next hfits =>
    cases hnil
    exact ⟨Nat.not_lt.mp hfits, ⟨rfl, rfl, BufferedFile.content_write _ _ h, by rw [BufferedFile.failed_write, h]⟩,
      rfl, rfl⟩

variable {time : ℤ}

/-- The first record of a segment keeps the log whole and stores no item. -/
theorem Whole.writePreamble (h : wl.Whole fmt)
    (hnil : wl.writeManifestPreambleLocked fmt none time = (next, .returnsNil)) :
    next.Whole fmt ∧ next.stored fmt = wl.stored fmt ∧ next.lsn = wl.lsn ∧ next.durableLSN = wl.durableLSN := by
  rw [writeManifestPreambleLocked] at hnil
  split at hnil
  · cases hnil
    exact ⟨h, rfl, rfl, rfl⟩
  · obtain ⟨hfits, hwrote, hlsn, hdurable⟩ := writeNoRotate_spec h.healthy hnil
    have hread : ReadAs fmt
        ⟨0, time, .command, encodeUWAL ⟨uwalKindManifest, 0, 0, 0, wl.manifestHash, []⟩⟩ none :=
      read_manifest_element rfl rfl hfits
    obtain ⟨hintact, hitems⟩ := intact_frame hfits hread
    obtain ⟨hwhole, hstored⟩ := h.wroteTo hintact hwrote
    rw [hitems] at hstored
    exact ⟨hwhole, hstored.trans (List.append_nil _), hlsn, hdurable⟩

/-- Starting a segment keeps the log whole, stores no item, and leaves the buffer empty. -/
theorem Whole.startSegment (h : wl.Whole fmt) (hnil : wl.startSegment fmt none time = (next, .returnsNil)) :
    next.Whole fmt ∧ next.stored fmt = wl.stored fmt ∧ next.lsn = wl.lsn ∧ next.durableLSN = wl.durableLSN ∧
      next.out.buf = [] := by
  rw [Forge.startSegment] at hnil
  split at hnil
  · next middle hpreamble =>
    obtain ⟨hwhole, hstored, hlsn, hdurable⟩ := h.writePreamble hpreamble
    rw [BufferedFile.flush_none _ hwhole.healthy] at hnil
    dsimp only at hnil
    rw [if_neg (by simp [hwhole.healthy])] at hnil
    cases hnil
    have hcontent : ({ middle.out with file := middle.out.content, buf := [] } : BufferedFile).content =
        middle.out.content := List.append_nil _
    obtain ⟨hflushed, hsame⟩ := hwhole.of_contents
      { middle with out := { middle.out with file := middle.out.content, buf := [] } }
      (by rw [contents, hcontent]; rfl) hwhole.healthy
    exact ⟨hflushed, hsame.trans hstored, hlsn, hdurable, rfl⟩
  · next hstopped =>
    rw [hnil] at hstopped
    exact absurd rfl (hstopped next)

theorem Whole.openNext (h : wl.Whole fmt) (hbuf : wl.out.buf = []) (size : UInt32) :
    Whole fmt { wl with
      files := wl.files ++ [(wl.csIdx, wl.out.file)]
      csIdx := wl.csIdx + 1
      out := .openAt defaultBufferSize []
      csSize := size } ∧
    stored fmt { wl with
      files := wl.files ++ [(wl.csIdx, wl.out.file)]
      csIdx := wl.csIdx + 1
      out := .openAt defaultBufferSize []
      csSize := size } = wl.stored fmt := by
  have hfile : wl.files ++ [(wl.csIdx, wl.out.file)] = wl.contents := by
    rw [contents, BufferedFile.content, hbuf, List.append_nil]
  have hcontents : contents { wl with
      files := wl.files ++ [(wl.csIdx, wl.out.file)]
      csIdx := wl.csIdx + 1
      out := .openAt defaultBufferSize []
      csSize := size } = wl.contents ++ [(wl.csIdx + 1, [])] := by
    rw [contents, hfile]
    rfl
  refine ⟨⟨rfl, fun segment hsegment => ?_, ?_⟩, ?_⟩
  · rw [hcontents] at hsegment
    rcases List.mem_append.mp hsegment with hold | hnew
    · exact h.intact segment hold
    · rw [List.mem_singleton.mp hnew]
      exact intact_nil
  · rw [hcontents, List.map_append, List.pairwise_append]
    refine ⟨h.ascending, List.pairwise_singleton _ _, fun number hnumber later hlater => ?_⟩
    rw [List.map_singleton, List.mem_singleton] at hlater
    have hascending := h.ascending
    rw [contents, List.map_append, List.pairwise_append] at hascending
    rw [contents, List.map_append, List.mem_append] at hnumber
    rw [hlater]
    rcases hnumber with hold | hopen
    · exact Nat.lt_succ_of_lt (hascending.2.2 number hold wl.csIdx (by simp))
    · rw [List.map_singleton, List.mem_singleton] at hopen
      rw [hopen]
      exact Nat.lt_succ_self _
  · rw [stored, hcontents, List.flatMap_append, List.flatMap_singleton, stored]
    exact List.append_nil _

section

variable (h : wl.Sound fmt)
include h

/-- A rotation keeps the items. -/
theorem Sound.rotateLog (hnil : wl.rotateLog fmt .clear time = (next, .returnsNil)) :
    next.Sound fmt ∧ next.stored fmt = wl.stored fmt ∧ next.lsn = wl.lsn ∧ next.durableLSN = wl.durableLSN := by
  rw [Forge.rotateLog, sync_clear h.healthy] at hnil
  obtain ⟨hsynced, hstored⟩ := h.afterSync
  obtain ⟨hopened, hstored'⟩ := hsynced.toWhole.openNext rfl 0
  obtain ⟨hwhole, hstored'', hlsn, hdurable, hbuf⟩ := hopened.startSegment hnil
  refine ⟨⟨hwhole, ?_, fun _ => hbuf⟩, hstored''.trans (hstored'.trans hstored), hlsn, hdurable⟩
  rw [hlsn, hdurable]
  exact h.durable_le

/-- A write adds its item. -/
theorem Sound.writePayload (hlsn : wl.durableLSN < wl.lsn) {el : Element} (item : ReplayItem C)
    (hread : 8 + (fmt.element.encode el).length ≤ frameCapacity → ReadAs fmt el (some item))
    (hnil : wl.writePayloadLocked fmt .clear time (fmt.element.encode el) = (next, .returnsNil)) :
    next.Sound fmt ∧ next.stored fmt = wl.stored fmt ++ [item] := by
  have hwrite {middle : Forge} (hmiddle : middle.Sound fmt) (hunsynced : middle.durableLSN < middle.lsn)
      (heq : middle.writePayloadLockedNoRotate fmt none (fmt.element.encode el) = (next, .returnsNil)) :
      next.Sound fmt ∧ next.stored fmt = middle.stored fmt ++ [item] := by
    obtain ⟨hfits, hwrote, hlsn', hdurable⟩ := writeNoRotate_spec hmiddle.healthy heq
    obtain ⟨hintact, hitems⟩ := intact_frame hfits (hread hfits)
    obtain ⟨hwhole, hstored⟩ := hmiddle.toWhole.wroteTo hintact hwrote
    rw [hitems] at hstored
    refine ⟨⟨hwhole, ?_, fun hle => ?_⟩, hstored⟩
    · rw [hlsn', hdurable]
      exact hunsynced.le
    · rw [hlsn', hdurable] at hle
      exact absurd hunsynced (Nat.not_lt.mpr hle)
  rw [writePayloadLocked, rotateLogIfNeeded] at hnil
  split at hnil
  · next middle hrotated =>
    split at hrotated
    · obtain ⟨hmiddle, hstored, hlsn', hdurable⟩ := h.rotateLog hrotated
      rw [← hstored]
      refine hwrite hmiddle ?_ hnil
      rw [hlsn', hdurable]
      exact hlsn
    · cases hrotated
      exact hwrite h hlsn hnil
  · next hstopped =>
    rw [hnil] at hstopped
    exact absurd rfl (hstopped next)

/-- Counting an element makes no difference to the segments, and afterwards not everything is synced. -/
theorem Sound.countElement :
    Sound fmt { wl with lsn := wl.lsn + 1 } ∧ stored fmt { wl with lsn := wl.lsn + 1 } = wl.stored fmt ∧
      wl.durableLSN < wl.lsn + 1 :=
  ⟨⟨⟨h.healthy, h.intact, h.ascending⟩, Nat.le_succ_of_le h.durable_le,
    fun hle => absurd (Nat.lt_succ_of_le h.durable_le) (Nat.not_lt.mpr hle)⟩, rfl, Nat.lt_succ_of_le h.durable_le⟩

/-- A logged command becomes an item. -/
theorem Sound.logCommand {times : Times} {c : C}
    (hnil : wl.logCommand fmt .clear times c = (next, .returnsNil)) :
    next.Sound fmt ∧
      next.stored fmt = wl.stored fmt ++ [⟨0, 0, 0, times.element, c, fmt.command.encode c⟩] := by
  obtain ⟨hcounted, hstored, hlsn⟩ := h.countElement
  rw [← hstored]
  exact hcounted.writePayload hlsn ⟨0, 0, 0, times.element, c, fmt.command.encode c⟩
    (fun _ => read_command_element rfl rfl) hnil

/-- A normal entry becomes an item. -/
theorem Sound.appendNormal {times : Times} {e : NormalEntry C}
    (hnil : wl.appendNormal fmt .clear times e = (next, .returnsNil)) :
    ∃ c ∈ e.cmd, next.Sound fmt ∧
      next.stored fmt = wl.stored fmt ++ [⟨e.index, e.term, e.subSeq, times.element, c, e.raftData⟩] := by
  rw [Forge.appendNormal] at hnil
  split at hnil
  · cases hnil
  · split at hnil
    · cases hnil
    · next c hcmd =>
      refine ⟨c, hcmd, ?_⟩
      obtain ⟨hcounted, hstored, hlsn⟩ := h.countElement
      rw [← hstored]
      exact hcounted.writePayload hlsn ⟨e.index, e.term, e.subSeq, times.element, c, e.raftData⟩
        (fun hfits => read_normal_element rfl rfl hfits) hnil

/-- A staged hard state is no item. -/
theorem Sound.appendHardState (hardState : List UInt8) :
    (wl.appendHardState hardState).1.Sound fmt ∧ (wl.appendHardState hardState).1.stored fmt = wl.stored fmt := by
  unfold Forge.appendHardState
  split
  · exact ⟨h, rfl⟩
  · exact ⟨⟨⟨h.healthy, h.intact, h.ascending⟩, h.durable_le, h.flushed⟩, rfl⟩

/-- A sync on request keeps the log sound, stores nothing, and leaves all of the content in the files. -/
theorem Sound.syncNeeded :
    (wl.syncNeeded .clear).2 = .returnsNil ∧ (wl.syncNeeded .clear).1.Sound fmt ∧
      (wl.syncNeeded .clear).1.stored fmt = wl.stored fmt ∧ (wl.syncNeeded .clear).1.out.buf = [] := by
  rw [Forge.syncNeeded]
  split
  · next hle => exact ⟨rfl, h, rfl, h.flushed hle⟩
  · next hlt =>
    rw [sync_clear h.healthy]
    obtain ⟨hsynced, hstored⟩ := h.afterSync
    refine ⟨rfl, ⟨⟨hsynced.healthy, hsynced.intact, hsynced.ascending⟩, ?_, fun _ => rfl⟩, hstored, rfl⟩
    exact max_le (Nat.le_refl _) h.durable_le

end

/-- The first record of a segment is written, or there is no space to put it together. -/
theorem reply_startSegment (h : wl.Whole fmt) (time : ℤ) (e : ForgeError) :
    (wl.startSegment fmt none time).2 ≠ .returnsError e := by
  unfold Forge.startSegment
  split
  · next middle hpreamble =>
    have hhealthy := (h.writePreamble hpreamble).1.healthy
    rw [BufferedFile.flush_none _ hhealthy]
    dsimp only
    rw [if_neg (by simp [hhealthy])]
    exact Reply.noConfusion
  · unfold writeManifestPreambleLocked writePayloadLockedNoRotate
    split
    · exact Reply.noConfusion
    · split <;> exact Reply.noConfusion

/-- A rotation reports no error. -/
theorem reply_rotateLog (h : wl.Sound fmt) (time : ℤ) (e : ForgeError) :
    (wl.rotateLog fmt .clear time).2 ≠ .returnsError e := by
  rw [Forge.rotateLog, sync_clear h.healthy]
  exact reply_startSegment (h.afterSync.1.toWhole.openNext rfl 0).1 time e

/-- A write reports no error. -/
theorem reply_writeElement (h : wl.Sound fmt) (times : Times) (payload : List UInt8) (e : ForgeError) :
    (wl.writeElement fmt .clear times payload).2 ≠ .returnsError e := by
  have hcounted := h.countElement.1
  unfold writeElement writePayloadLocked
  dsimp only
  split
  · unfold writePayloadLockedNoRotate
    split <;> exact Reply.noConfusion
  · unfold rotateLogIfNeeded
    split
    · exact reply_rotateLog hcounted _ e
    · exact Reply.noConfusion

end Operations

end Forge

end SevenDB.Wal
