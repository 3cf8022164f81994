import SevenDB.Wal.FramePlaces

/-!
# The elements in the segments

While no file operation fails, a segment is exactly the frames of the elements that were written to
it. A call adds its element to the open segment, or to the next one behind that segment's first
record. Syncs add nothing, and rotations and starts add first records only.
-/

namespace SevenDB.Wal

open SevenDB.Common

variable {C : Type} {fmt : Format C}

/-- The bytes of a segment with some elements. -/
def segmentBytes (fmt : Format C) (els : List Element) : List UInt8 :=
  stream fmt.checksum (els.map fmt.element.encode)

/-- An element is the first record of a segment. -/
def Element.IsPreamble (el : Element) : Prop :=
  el.elementType = .command ∧ ∃ hash, el.payload = encodeUWAL ⟨uwalKindManifest, 0, 0, 0, hash, []⟩

/-- An element fits the space for a frame. -/
def FitsFrame (fmt : Format C) (el : Element) : Prop := 8 + (fmt.element.encode el).length ≤ frameCapacity

theorem segmentBytes_concat (fmt : Format C) (els : List Element) (el : Element) :
    segmentBytes fmt (els ++ [el]) = segmentBytes fmt els ++ frame fmt.checksum (fmt.element.encode el) := by
  rw [segmentBytes, List.map_append, stream, List.flatMap_append]
  exact congrArg (_ ++ ·) (List.flatMap_singleton _ _)

theorem scan_segmentBytes {els : List Element} (h : ∀ el ∈ els, FitsFrame fmt el) :
    scan (segmentBytes fmt els) =
      (els.map fun el => ⟨fmt.checksum (fmt.element.encode el), fmt.element.encode el⟩, .clean) := by
  have hlength : ∀ payload ∈ els.map fmt.element.encode, payload.length < 2 ^ 32 := by
    intro payload hpayload
    obtain ⟨el, hel, rfl⟩ := List.mem_map.mp hpayload
    exact length_lt_of_fits (h el hel)
  have hscan := sumFirst.scan_stream fmt.checksum hlength
  rw [List.map_map] at hscan
  exact hscan

namespace Forge

/-- The closed segments and the open one are the frames of some elements. -/
structure Carries (fmt : Format C) (wl : Forge) (closed : List (ℕ × List Element)) (last : List Element) : Prop where
  files_eq : wl.files = closed.map fun segment => (segment.1, segmentBytes fmt segment.2)
  content_eq : wl.out.content = segmentBytes fmt last
  fits : ∀ el ∈ closed.flatMap Prod.snd ++ last, FitsFrame fmt el

variable {wl next : Forge} {closed : List (ℕ × List Element)} {last added : List Element}

section

variable (h : wl.Carries fmt closed last)
include h

/-- A log with the same files and the same content carries the same elements. -/
theorem Carries.of_same (hfiles : next.files = wl.files)
    (hcontent : next.out.content = wl.out.content) : next.Carries fmt closed last :=
  ⟨hfiles.trans h.files_eq, hcontent.trans h.content_eq, h.fits⟩

theorem Carries.wroteTo {el : Element} (hfits : FitsFrame fmt el)
    (hwrote : WroteTo wl next (frame fmt.checksum (fmt.element.encode el))) : next.Carries fmt closed (last ++ [el]) := by
  refine ⟨hwrote.files_eq.trans h.files_eq, ?_, fun other hother => ?_⟩
  · rw [hwrote.content_eq, h.content_eq, segmentBytes_concat]
  · rw [← List.append_assoc] at hother
    rcases List.mem_append.mp hother with hold | hnew
    · exact h.fits other hold
    · rw [List.mem_singleton.mp hnew]
      exact hfits

theorem Carries.startSegment (hhealthy : wl.out.failed = false) {time : ℤ}
    (hnil : wl.startSegment fmt none time = (next, .returnsNil)) :
    ∃ first, (∀ el ∈ first, el.IsPreamble) ∧ next.Carries fmt closed (last ++ first) ∧ next.csIdx = wl.csIdx ∧
      (wl.manifestHash ≠ [] → wl.csSize = 0 → first ≠ []) := by
  rw [Forge.startSegment] at hnil
  split at hnil
  · next middle hpreamble =>
    obtain ⟨first, hfirst, hcarries, hidx, hbegun, hmiddle⟩ : ∃ first, (∀ el ∈ first, el.IsPreamble) ∧
        middle.Carries fmt closed (last ++ first) ∧ middle.csIdx = wl.csIdx ∧
        (wl.manifestHash ≠ [] → wl.csSize = 0 → first ≠ []) ∧ middle.out.failed = false := by
      rw [writeManifestPreambleLocked] at hpreamble
      split at hpreamble
      · next hnone =>
        cases hpreamble
        refine ⟨[], fun el hel => absurd hel List.not_mem_nil, ?_, rfl, fun hhash hsize => ?_, hhealthy⟩
        · rw [List.append_nil]
          exact h
        · exact absurd hnone (by simp [hhash, hsize])
      · obtain ⟨hfits, hwrote, _⟩ := writeNoRotate_spec hhealthy hpreamble
        refine ⟨[_], fun el hel => ?_, h.wroteTo hfits hwrote, hwrote.csIdx_eq, fun _ _ => List.cons_ne_nil _ _,
          hwrote.healthy⟩
        rw [List.mem_singleton.mp hel]
        exact ⟨rfl, wl.manifestHash, rfl⟩
    rw [BufferedFile.flush_none _ hmiddle] at hnil
    dsimp only at hnil
    rw [if_neg (by simp [hmiddle])] at hnil
    cases hnil
    exact ⟨first, hfirst, hcarries.of_same rfl (List.append_nil _), hidx, hbegun⟩
  · next hstopped =>
    rw [hnil] at hstopped
    exact absurd rfl (hstopped next)

/-- Leaving a segment closes it, and the next one has a first record at most. -/
theorem Carries.rotateLog (hhealthy : wl.out.failed = false) {time : ℤ}
    (hnil : wl.rotateLog fmt .clear time = (next, .returnsNil)) :
    ∃ first, (∀ el ∈ first, el.IsPreamble) ∧ next.Carries fmt (closed ++ [(wl.csIdx, last)]) first ∧
      next.csIdx = wl.csIdx + 1 := by
  rw [Forge.rotateLog, sync_clear hhealthy] at hnil
  dsimp only at hnil
  have hopened : Carries fmt { wl.afterSync with
      files := wl.afterSync.files ++ [(wl.afterSync.csIdx, wl.afterSync.out.file)]
      csIdx := wl.afterSync.csIdx + 1
      out := .openAt defaultBufferSize []
      csSize := 0 } (closed ++ [(wl.csIdx, last)]) [] := by
    refine ⟨?_, rfl, ?_⟩
    · rw [List.map_append, ← h.files_eq, List.map_singleton, ← h.content_eq]
      rfl
    · rw [List.flatMap_append, List.flatMap_singleton, List.append_nil]
      exact h.fits
  obtain ⟨first, hfirst, hcarries, hidx, _⟩ := hopened.startSegment rfl hnil
  exact ⟨first, hfirst, hcarries, hidx⟩

end

/-- Elements are added to the open segment, or the segment is left and they are the first of the next one. -/
def Adds (fmt : Format C) (wl next : Forge) (closed : List (ℕ × List Element)) (last added : List Element) : Prop :=
  next.Carries fmt closed (last ++ added) ∧ next.csIdx = wl.csIdx ∨
    next.Carries fmt (closed ++ [(wl.csIdx, last)]) added ∧ next.csIdx = wl.csIdx + 1

/-- What it means that elements are added: they come behind the earlier ones, and new files come behind the
earlier ones. -/
theorem Adds.spec (h : wl.Adds fmt next closed last added) (hcarries : wl.Carries fmt closed last) :
    (∃ closed' last', next.Carries fmt closed' last' ∧
      closed'.flatMap Prod.snd ++ last' = closed.flatMap Prod.snd ++ last ++ added) ∧
    (∃ more, next.files = wl.files ++ more ∧ ∀ file ∈ more, wl.csIdx ≤ file.1) ∧ wl.csIdx ≤ next.csIdx := by
  rcases h with ⟨hstays, hidx⟩ | ⟨hleft, hidx⟩
  · refine ⟨⟨closed, last ++ added, hstays, (List.append_assoc ..).symm⟩, ⟨[], ?_, ?_⟩, hidx.ge⟩
    · rw [hstays.files_eq, hcarries.files_eq, List.append_nil]
    · exact fun file hfile => absurd hfile List.not_mem_nil
  · refine ⟨⟨_, added, hleft, ?_⟩, ⟨[(wl.csIdx, segmentBytes fmt last)], ?_, ?_⟩, hidx ▸ Nat.le_succ _⟩
    · rw [List.flatMap_append, List.flatMap_singleton]
    · rw [hleft.files_eq, hcarries.files_eq, List.map_append, List.map_singleton]
    · intro file hfile
      rw [List.mem_singleton.mp hfile]

/-- Nothing is added to a log that has the same files and the same content. -/
theorem Carries.adds_nil (h : wl.Carries fmt closed last) (hfiles : next.files = wl.files)
    (hcontent : next.out.content = wl.out.content) (hidx : next.csIdx = wl.csIdx) :
    wl.Adds fmt next closed last [] := by
  refine Or.inl ⟨?_, hidx⟩
  rw [List.append_nil]
  exact h.of_same hfiles hcontent

/-- The element that is written next with a payload. -/
def elementFor (wl : Forge) (times : Times) (payload : List UInt8) : Element :=
  ⟨UInt64.ofNat (wl.lsn + 1), times.element, .command, payload⟩

/-- Writing an element adds it, behind the first record of the next segment if the open one is left. -/
theorem Carries.writeElement (h : wl.Carries fmt closed last) (hsound : wl.Sound fmt) {times : Times}
    {payload : List UInt8} (hnil : wl.writeElement fmt .clear times payload = (next, .returnsNil)) :
    ∃ first, (∀ el ∈ first, el.IsPreamble) ∧
      wl.Adds fmt next closed last (first ++ [wl.elementFor times payload]) := by
  have hcounted : Carries fmt { wl with lsn := wl.lsn + 1 } closed last := h.of_same rfl rfl
  rw [writeElement_eq, makeRoom_eq] at hnil
  by_cases hleaves : wl.Leaves fmt times payload
  · rw [if_pos hleaves] at hnil
    split at hnil
    · next room hroom =>
      obtain ⟨first, hfirst, hcarries, hidx⟩ := hcounted.rotateLog hsound.healthy hroom
      have hhealthy := (hsound.countElement.1.rotateLog hroom).1.healthy
      obtain ⟨hfits, hwrote, _⟩ := writeNoRotate_spec hhealthy hnil
      exact ⟨first, hfirst, Or.inr ⟨hcarries.wroteTo hfits hwrote, hwrote.csIdx_eq.trans hidx⟩⟩
    · next hstopped =>
      rw [hnil] at hstopped
      exact absurd rfl (hstopped next)
  · rw [if_neg hleaves] at hnil
    have hhealthy : { wl with lsn := wl.lsn + 1 }.out.failed = false := hsound.healthy
    obtain ⟨hfits, hwrote, _⟩ := writeNoRotate_spec hhealthy hnil
    exact ⟨[], fun el hel => absurd hel List.not_mem_nil, Or.inl ⟨hcounted.wroteTo hfits hwrote, hwrote.csIdx_eq⟩⟩

/-- The element that a call has written: that of a call which returned nil. -/
def carried (fmt : Format C) (wl : Forge) (times : Times) (c : ForgeCall C) : List Element :=
  if (wl.call fmt .clear times c).2 = .returnsNil then (c.payload? fmt).toList.map (wl.elementFor times) else []

/-- A call that does not panic adds its element, if it has written one. -/
theorem Carries.call (h : wl.Carries fmt closed last) (hsound : wl.Sound fmt) {times : Times} {c : ForgeCall C}
    (hcall : Continues (wl.call fmt .clear times c) = some next) :
    ∃ first, (∀ el ∈ first, el.IsPreamble) ∧ wl.Adds fmt next closed last (first ++ wl.carried fmt times c) := by
  obtain ⟨hstate, hnopanic⟩ := continues_eq_some hcall
  have hnone (hsame : next.files = wl.files ∧ next.out.content = wl.out.content ∧ next.csIdx = wl.csIdx) :
      ∃ first, (∀ el ∈ first, el.IsPreamble) ∧ wl.Adds fmt next closed last (first ++ []) :=
    ⟨[], fun el hel => absurd hel List.not_mem_nil, h.adds_nil hsame.1 hsame.2.1 hsame.2.2⟩
  rw [carried]
  cases hreply : (wl.call fmt .clear times c).2 with
  | panics => exact absurd hreply hnopanic
  | returnsError e =>
    rw [if_neg Reply.noConfusion]
    refine hnone ?_
    rw [hsound.call_error (Prod.ext hstate hreply)]
    exact ⟨rfl, rfl, rfl⟩
  | returnsNil =>
    have hnil : wl.call fmt .clear times c = (next, .returnsNil) := Prod.ext hstate hreply
    rw [if_pos rfl]
    cases c with
    | log c => exact h.writeElement hsound hnil
    | normal e =>
      rw [Forge.call, Forge.appendNormal] at hnil
      split at hnil
      · cases hnil
      · split at hnil
        · cases hnil
        · next c hcmd =>
          rw [ForgeCall.payload?, hcmd]
          exact h.writeElement hsound hnil
    | hardState bytes =>
      refine hnone ?_
      rw [Forge.call, Forge.appendHardState] at hnil
      split at hnil
      · cases hnil
      · cases hnil
        exact ⟨rfl, rfl, rfl⟩

/-- A start on the files of a log whose buffer is empty adds a first record at most. -/
theorem Carries.init (h : wl.Carries fmt closed last) (hwhole : wl.Whole fmt) (hbuf : wl.out.buf = [])
    {cfg : ForgeConfig} {manifest : Manifest} {manifestHash : List UInt8} {time : ℤ} {hardState : Option (List UInt8)}
    (hopened : Forge.init fmt cfg manifest manifestHash none time wl.directory hardState = (next, .returnsNil)) :
    ∃ first, (∀ el ∈ first, el.IsPreamble) ∧ wl.Adds fmt next closed last first := by
  rw [Forge.init, hwhole.sortFiles_directory hbuf, contents, List.getLast?_concat,
    List.dropLast_concat, Option.getD_some] at hopened
  have hcarries (size : UInt32) : Carries fmt ⟨cfg.maxSegmentSizeBytes, wl.files, wl.csIdx,
      .openAt cfg.bufferSize wl.out.content, size, 0, 0, [], hardState, hardState, manifest, manifestHash, false⟩
      closed last := h.of_same rfl (List.append_nil _)
  dsimp only at hopened
  split at hopened
  · obtain ⟨first, hfirst, hstarted, hidx, _⟩ := (hcarries _).startSegment rfl hopened
    exact ⟨first, hfirst, Or.inl ⟨hstarted, hidx⟩⟩
  · cases hopened
    exact ⟨[], fun el hel => absurd hel List.not_mem_nil,
      h.adds_nil rfl (List.append_nil _) rfl⟩

/-- The elements that an action has written, first records apart. -/
def carriedBy (fmt : Format C) (wl : Forge) : ForgeAction C → List Element
  | .call times c => wl.carried fmt times c
  | .sync | .periodicSync | .rotate _ | .restart _ _ _ _ => []

/-- Every step adds first records at most and then the elements that it has written. -/
theorem Carries.step (h : wl.Carries fmt closed last) (hsound : wl.Sound fmt) {action : ForgeAction C}
    (hstep : wl.step fmt action = some next) :
    ∃ first, (∀ el ∈ first, el.IsPreamble) ∧ wl.Adds fmt next closed last (first ++ wl.carriedBy fmt action) := by
  have hnone (hsame : next.files = wl.files ∧ next.out.content = wl.out.content ∧ next.csIdx = wl.csIdx) :
      ∃ first, (∀ el ∈ first, el.IsPreamble) ∧ wl.Adds fmt next closed last (first ++ []) :=
    ⟨[], fun el hel => absurd hel List.not_mem_nil, h.adds_nil hsame.1 hsame.2.1 hsame.2.2⟩
  have hsynced : (wl.syncNeeded .clear).1.files = wl.files ∧
      (wl.syncNeeded .clear).1.out.content = wl.out.content ∧ (wl.syncNeeded .clear).1.csIdx = wl.csIdx := by
    rw [Forge.syncNeeded]
    by_cases hle : wl.lsn ≤ wl.durableLSN
    · rw [if_pos hle]
      exact ⟨rfl, rfl, rfl⟩
    · rw [if_neg hle, sync_clear hsound.healthy]
      exact ⟨rfl, List.append_nil _, rfl⟩
  cases action with
  | call times c => exact h.call hsound hstep
  | sync =>
    rw [← (continues_eq_some hstep).1] at hnone ⊢
    exact hnone hsynced
  | periodicSync =>
    rw [Forge.step, sync_clear hsound.healthy] at hstep
    cases hstep
    exact hnone ⟨rfl, List.append_nil _, rfl⟩
  | rotate time =>
    obtain ⟨first, hfirst, hleft, hidx⟩ := h.rotateLog hsound.healthy (hsound.rotateLog_of_step hstep)
    refine ⟨first, hfirst, Or.inr ⟨?_, hidx⟩⟩
    rw [carriedBy, List.append_nil]
    exact hleft
  | restart cfg manifest manifestHash time =>
    obtain ⟨synced, hsync, hopened⟩ := Option.bind_eq_some_iff.mp hstep
    obtain ⟨_, hsyncedSound, _, hbuf⟩ := hsound.syncNeeded
    rw [opened_eq_some hsync] at hsynced hsyncedSound hbuf
    obtain ⟨first, hfirst, hadds⟩ :=
      (h.of_same hsynced.1 hsynced.2.1).init hsyncedSound.toWhole hbuf (opened_eq_some hopened)
    refine ⟨first, hfirst, ?_⟩
    rw [Adds, hsynced.2.2] at hadds
    rw [carriedBy, List.append_nil]
    exact hadds

theorem carries_init {cfg : ForgeConfig} {manifest : Manifest} {manifestHash : List UInt8} {time : ℤ}
    (hopened : Forge.init fmt cfg manifest manifestHash none time [] none = (wl, .returnsNil)) :
    ∃ first, (∀ el ∈ first, el.IsPreamble) ∧ wl.Carries fmt [] first ∧ wl.csIdx = 0 ∧
      (manifestHash ≠ [] → first ≠ []) := by
  have hempty : Carries fmt ⟨cfg.maxSegmentSizeBytes, [], 0, .openAt cfg.bufferSize [], 0, 0, 0, [], none, none,
      manifest, manifestHash, false⟩ [] [] := ⟨rfl, rfl, fun el hel => absurd hel List.not_mem_nil⟩
  obtain ⟨first, hfirst, hcarries, hidx, hbegun⟩ := hempty.startSegment rfl hopened
  exact ⟨first, hfirst, hcarries, hidx, fun hhash => hbegun hhash rfl⟩

end Forge

end SevenDB.Wal
