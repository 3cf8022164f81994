import SevenDB.Wal.FramePlaces

/-!
# What the log accepts, refuses, and cannot take

A frame is put together in a space of fixed size. An append checks that its element fits only after it
has counted the element and left the segment, and panics if it does not fit. As long as it fits, and no
file operation fails, an append stores its entry or refuses it without any effect. That holds of a log that was started
on intact segments; behind a frame that a kill has left incomplete, an entry is accepted that no replay comes to.
-/

namespace SevenDB.Wal

open SevenDB.Common

variable {C : Type} {fmt : Format C}

namespace Forge

variable {wl next : Forge}

/-- An append returns nil and its entry is read back after a sync, behind what was there, or it returns an
error and has changed nothing. It does not panic. -/
def AcceptsOrRefuses (fmt : Format C) (wl : Forge) (times : Times) (c : ForgeCall C) : Prop :=
  match wl.call fmt .clear times c with
  | (next, .returnsNil) =>
    (next.syncNeeded .clear).2 = .returnsNil ∧
      replayItems fmt (next.syncNeeded .clear).1.directory =
        (wl.stored fmt ++ (c.item? fmt times).toList, none) ∧
      replayCommand fmt (next.syncNeeded .clear).1.directory =
        ((wl.stored fmt ++ (c.item? fmt times).toList).map ReplayItem.cmd, none)
  | (next, .returnsError _) => next = wl
  | (_, .panics) => False

/-- The payload of the element that a call goes on to write: that of an entry which is not refused. -/
def admitted (fmt : Format C) (wl : Forge) : ForgeCall C → Option (List UInt8)
  | .log c => some (fmt.command.encode c)
  | .normal e =>
    if wl.manifest.enforce = .strict ∧ wl.manifest.isUWAL1 = false then none
    else ForgeCall.payload? fmt (.normal e)
  | .hardState _ => none

/-- The next element fits the space for a frame, and so does the first record of the next segment if the
element has to go there. -/
def Fits (fmt : Format C) (wl : Forge) (times : Times) (payload : List UInt8) : Prop :=
  8 + (wl.nextElement fmt times payload).length ≤ frameCapacity ∧
    (wl.Leaves fmt times payload → wl.manifestHash ≠ [] →
      8 + (wl.preambleBytes fmt times.preamble).length ≤ frameCapacity)

theorem not_fits_of_long {times : Times} {payload : List UInt8} (h : frameCapacity < 8 + payload.length) :
    ¬ wl.Fits fmt times payload := by
  intro hfits
  have hlength := fmt.length_payload_le ⟨UInt64.ofNat (wl.lsn + 1), times.element, .command, payload⟩
  exact absurd (Nat.add_le_add_left hlength 8) (Nat.not_le.mpr (hfits.1.trans_lt h))

theorem writeNoRotate_panics_iff (wl : Forge) (limit : Option ℕ) (eb : List UInt8) :
    (wl.writePayloadLockedNoRotate fmt limit eb).2 = .panics ↔ frameCapacity < 8 + eb.length := by
  unfold writePayloadLockedNoRotate
  split
  · next hlarge => exact iff_of_true rfl hlarge
  · next hfits => exact iff_of_false Reply.noConfusion hfits

/-- Starting an empty segment panics when its first record does not fit. -/
theorem startSegment_panics_iff (h : wl.Whole fmt) (hempty : wl.csSize = 0) (time : ℤ) :
    (wl.startSegment fmt none time).2 = .panics ↔
      wl.manifestHash ≠ [] ∧ frameCapacity < 8 + (wl.preambleBytes fmt time).length := by
  have hpreamble : (wl.writeManifestPreambleLocked fmt none time).2 = .panics ↔
      wl.manifestHash ≠ [] ∧ frameCapacity < 8 + (wl.preambleBytes fmt time).length := by
    unfold writeManifestPreambleLocked
    by_cases hhash : wl.manifestHash = []
    · rw [if_pos (Or.inl hhash)]
      exact iff_of_false Reply.noConfusion fun hboth => hboth.1 hhash
    · rw [if_neg (by simp [hhash, hempty]), writeNoRotate_panics_iff]
      exact (and_iff_right hhash).symm
  rw [← hpreamble]
  unfold Forge.startSegment
  split
  · next middle heq =>
    have hhealthy := (h.writePreamble heq).1.healthy
    rw [BufferedFile.flush_none _ hhealthy, heq]
    dsimp only
    rw [if_neg (by simp [hhealthy])]
  · rfl

section

variable (h : wl.Sound fmt) (times : Times)
include h

/-- Making room panics when the first record of the next segment does not fit, and otherwise it succeeds. -/
theorem makeRoom_reply (payload : List UInt8) :
    ((wl.makeRoom fmt .clear times payload).2 = .panics ↔
      wl.Leaves fmt times payload ∧ wl.manifestHash ≠ [] ∧
        frameCapacity < 8 + (wl.preambleBytes fmt times.preamble).length) ∧
      ∀ e, (wl.makeRoom fmt .clear times payload).2 ≠ .returnsError e := by
  have hcounted := h.countElement.1
  rw [makeRoom_eq]
  by_cases hleaves : wl.Leaves fmt times payload
  · rw [if_pos hleaves, Forge.rotateLog, sync_clear hcounted.healthy]
    have hopened := (hcounted.afterSync.1.toWhole.openNext rfl 0).1
    refine ⟨(startSegment_panics_iff hopened rfl times.preamble).trans (and_iff_right hleaves).symm, ?_⟩
    exact reply_startSegment hopened times.preamble
  · rw [if_neg hleaves]
    exact ⟨iff_of_false Reply.noConfusion fun hboth => hleaves hboth.1, fun e => Reply.noConfusion⟩

theorem writeElement_panics_iff (payload : List UInt8) :
    (wl.writeElement fmt .clear times payload).2 = .panics ↔ ¬ wl.Fits fmt times payload := by
  obtain ⟨hpanics, herror⟩ := makeRoom_reply h times payload
  rw [writeElement_eq, Fits]
  cases hroom : wl.makeRoom fmt .clear times payload with
  | mk room reply =>
    rw [hroom] at hpanics herror
    cases reply with
    | returnsNil =>
      have hfits : wl.Leaves fmt times payload → wl.manifestHash ≠ [] →
          8 + (wl.preambleBytes fmt times.preamble).length ≤ frameCapacity := by
        intro hleaves hhash
        by_contra hlarge
        cases hpanics.mpr ⟨hleaves, hhash, Nat.not_le.mp hlarge⟩
      rw [writeNoRotate_panics_iff, and_iff_left hfits, Nat.not_le]
    | returnsError e => exact absurd rfl (herror e)
    | panics =>
      obtain ⟨hleaves, hhash, hlarge⟩ := hpanics.mp rfl
      exact iff_of_true rfl fun hboth => Nat.not_lt.mpr (hboth.2 hleaves hhash) hlarge

/-- A call panics exactly when it goes on to write an element that does not fit. -/
theorem call_panics_iff (c : ForgeCall C) :
    (wl.call fmt .clear times c).2 = .panics ↔ ∃ payload ∈ wl.admitted fmt c, ¬ wl.Fits fmt times payload := by
  -- a call writes the element of the payload that is admitted, or it is refused and nothing is
  have hcases : (∃ payload, wl.call fmt .clear times c = wl.writeElement fmt .clear times payload ∧
      wl.admitted fmt c = some payload) ∨
      (wl.call fmt .clear times c).2 ≠ .panics ∧ wl.admitted fmt c = none := by
    cases c with
    | log c => exact Or.inl ⟨_, rfl, rfl⟩
    | normal e =>
      rw [Forge.call, Forge.appendNormal, admitted]
      by_cases hforbids : wl.manifest.enforce = .strict ∧ wl.manifest.isUWAL1 = false
      · rw [if_pos hforbids, if_pos hforbids]
        exact Or.inr ⟨Reply.noConfusion, rfl⟩
      · rw [if_neg hforbids, if_neg hforbids, ForgeCall.payload?]
        cases e.cmd with
        | none => exact Or.inr ⟨Reply.noConfusion, rfl⟩
        | some c => exact Or.inl ⟨_, rfl, rfl⟩
    | hardState bytes =>
      refine Or.inr ⟨?_, rfl⟩
      rw [Forge.call, Forge.appendHardState]
      split <;> exact Reply.noConfusion
  rcases hcases with ⟨payload, hcall, hadmitted⟩ | ⟨hreply, hadmitted⟩
  · rw [hcall, hadmitted, writeElement_panics_iff h]
    simp
  · simp [hreply, hadmitted]

theorem acceptsOrRefuses_iff (c : ForgeCall C) :
    wl.AcceptsOrRefuses fmt times c ↔ (wl.call fmt .clear times c).2 ≠ .panics := by
  rw [AcceptsOrRefuses]
  cases hcall : wl.call fmt .clear times c with
  | mk next reply =>
    cases reply with
    | returnsNil =>
      obtain ⟨hsound, hstored⟩ := h.call_nil hcall
      obtain ⟨hnil, hsynced, hsame, hbuf⟩ := hsound.syncNeeded
      obtain ⟨hitems, hcommands⟩ := hsynced.replays hbuf
      rw [hsame, hstored] at hitems hcommands
      exact iff_of_true ⟨hnil, hitems, hcommands⟩ Reply.noConfusion
    | returnsError e => exact iff_of_true (h.call_error hcall) Reply.noConfusion
    | panics => exact iff_of_false id fun hne => hne rfl

end

/-- A start on intact segments with different numbers gives a sound log. -/
theorem sound_init_of_intact {directory : List (ℕ × List UInt8)} (hintact : ∀ segment ∈ directory, Intact fmt segment.2)
    (hnumbers : (directory.map Prod.fst).Nodup) {cfg : ForgeConfig} {manifest : Manifest} {manifestHash : List UInt8}
    {time : ℤ} {hardState : Option (List UInt8)}
    (hopened : Forge.init fmt cfg manifest manifestHash none time directory hardState = (wl, .returnsNil)) :
    wl.Sound fmt := by
  rw [Forge.init] at hopened
  dsimp only at hopened
  generalize hfiles : sortFiles id directory = files at hopened
  have hperm : files.Perm directory := hfiles ▸ List.perm_insertionSort _ _
  have hascending : (files.map Prod.fst).Pairwise (· < ·) := by
    have hsorted : (files.map Prod.fst).Pairwise (· ≤ ·) := by
      rw [← hfiles, List.pairwise_map]
      exact List.pairwise_insertionSort (fun a b : ℕ × List UInt8 => a.1 ≤ b.1) directory
    have hnodup : (files.map Prod.fst).Nodup := (hperm.map Prod.fst).nodup_iff.mpr hnumbers
    exact (hsorted.and hnodup).imp fun h => lt_of_le_of_ne h.1 h.2
  have hcontents : (∀ segment ∈ files.dropLast ++ [files.getLast?.getD (0, [])], Intact fmt segment.2) ∧
      ((files.dropLast ++ [files.getLast?.getD (0, [])]).map Prod.fst).Pairwise (· < ·) := by
    rcases List.eq_nil_or_concat files with rfl | ⟨front, last, rfl⟩
    · simp [intact_nil]
    · rw [List.concat_eq_append] at hascending hperm ⊢
      rw [List.dropLast_concat, List.getLast?_concat, Option.getD_some]
      exact ⟨fun segment hsegment => hintact segment (hperm.subset hsegment), hascending⟩
  have hwhole (size : UInt32) : Forge.Whole fmt
      ⟨cfg.maxSegmentSizeBytes, files.dropLast, (files.getLast?.getD (0, [])).1,
        .openAt cfg.bufferSize (files.getLast?.getD (0, [])).2, size, 0, 0, [], hardState,
        hardState, manifest, manifestHash, false⟩ := by
    have hsame : (BufferedFile.openAt cfg.bufferSize (files.getLast?.getD (0, [])).2).content =
        (files.getLast?.getD (0, [])).2 := List.append_nil _
    refine ⟨rfl, ?_, ?_⟩
    · rw [contents, hsame]
      exact hcontents.1
    · rw [contents, hsame]
      exact hcontents.2
  split at hopened
  · obtain ⟨hstarted, _, hlsn, hdurable, hempty⟩ := (hwhole _).startSegment hopened
    exact ⟨hstarted, by rw [hlsn, hdurable], fun _ => hempty⟩
  · cases hopened
    exact ⟨hwhole _, Nat.le_refl _, fun _ => rfl⟩

end Forge

/-- In every state that a log comes to which was started on intact segments, an append is accepted or refused exactly
when the element that it goes on to write fits the space for a frame. -/
theorem append_accepts_iff {cfg : ForgeConfig} {manifest : Manifest} {manifestHash : List UInt8} {time : ℤ}
    {directory : List (ℕ × List UInt8)} {hardState : Option (List UInt8)} {start wl : Forge}
    {actions : List (ForgeAction C)} (hintact : ∀ segment ∈ directory, Intact fmt segment.2)
    (hnumbers : (directory.map Prod.fst).Nodup)
    (hstart : Forge.init fmt cfg manifest manifestHash none time directory hardState = (start, .returnsNil))
    (hrun : Run (Forge.step fmt) (fun _ _ => True) start actions wl) (times : Times) (c : ForgeCall C) :
    wl.AcceptsOrRefuses fmt times c ↔ ∀ payload ∈ wl.admitted fmt c, wl.Fits fmt times payload := by
  have hsound := (Forge.Sound.run hrun (Forge.sound_init_of_intact hintact hnumbers hstart)).1
  rw [Forge.acceptsOrRefuses_iff hsound, Ne, Forge.call_panics_iff hsound]
  push Not
  exact Iff.rfl

instance (wl : Forge) (times : Times) (payload : List UInt8) : Decidable (wl.Fits fmt times payload) :=
  inferInstanceAs (Decidable (_ ≤ _ ∧ (_ → _ ≠ _ → _ ≤ _)))

/-- A command that leaves the segment is accepted. -/
theorem append_accepts_iff_small : smallForge.AcceptsOrRefuses tallyFormat ⟨1, 2⟩ (.log 5) := by
  refine (append_accepts_iff (fun segment hsegment => absurd hsegment List.not_mem_nil) List.nodup_nil
    init_smallForge (.nil _) ⟨1, 2⟩ (.log 5)).mpr fun payload hpayload => ?_
  cases hpayload
  decide +kernel

/-- A command of more than ten kilobytes makes a new log panic. -/
theorem append_panics :
    Forge.init tallyFormat largeConfig mixedManifest [7] none 0 [] none = (largeForge, .returnsNil) ∧
      (largeForge.call tallyFormat .clear ⟨1, 2⟩ (.log 10240)).2 = .panics := by
  have hlength : (tallyFormat.command.encode 10240).length = 10241 := by
    change (putTally 10240).length = 10241
    rw [putTally, List.length_append, List.length_replicate, List.length_singleton]
  refine ⟨init_largeForge, (Forge.call_panics_iff (Forge.sound_init init_largeForge).1 ⟨1, 2⟩ (.log 10240)).mpr
    ⟨tallyFormat.command.encode 10240, rfl, Forge.not_fits_of_long ?_⟩⟩
  rw [hlength]
  decide

end SevenDB.Wal
