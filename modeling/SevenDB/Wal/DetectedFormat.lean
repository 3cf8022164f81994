import SevenDB.Wal.FormatDetection

/-!
# The detected format against what was written

No marshalled element begins with the magic of an envelope, so a directory with elements is always taken
for one of commands. That is what was written only when no entry came from AppendEntry. The first record of a segment is
an element as well, so a log that was started under a strict manifest for envelopes is refused by its next start even
when nothing was appended.
-/

namespace SevenDB.Wal

open SevenDB.Common

variable {C : Type} {fmt : Format C}

section Segments

variable {els : List Element} {el : Element}

/-- What the detection looks at in a segment are bytes of its elements. -/
theorem mem_scannedPayloads (hfits : ∀ el ∈ els, FitsFrame fmt el) {payload : List UInt8}
    (hpayload : payload ∈ scannedPayloads (segmentBytes fmt els)) : ∃ el ∈ els, fmt.element.encode el = payload := by
  have hmem := (List.takeWhile_sublist _).subset hpayload
  rw [scan_segmentBytes hfits, List.map_map] at hmem
  exact List.mem_map.mp hmem

/-- The detection looks at the first element of a segment if it takes bytes. -/
theorem head_mem_scannedPayloads (hfits : ∀ el ∈ els, FitsFrame fmt el) (hhead : els.head? = some el)
    (hne : fmt.element.encode el ≠ []) : fmt.element.encode el ∈ scannedPayloads (segmentBytes fmt els) := by
  cases els with
  | nil => cases hhead
  | cons first rest =>
    cases hhead
    have hlength : (fmt.element.encode el).length ≤ detectionLimit := by
      have hfirst := hfits el List.mem_cons_self
      rw [FitsFrame, frameCapacity] at hfirst
      rw [detectionLimit]
      omega
    rw [scannedPayloads, scan_segmentBytes hfits, List.map_cons, List.map_cons, List.takeWhile_cons_of_pos]
    · exact List.mem_cons_self
    · simp [hne, hlength]

theorem exists_head {segments : List (List Element)} (h : segments.flatten.head? = some el) :
    ∃ els ∈ segments, els.head? = some el := by
  induction segments with
  | nil => cases h
  | cons els rest ih =>
    rw [List.flatten_cons] at h
    cases els with
    | nil =>
      obtain ⟨later, hlater, hhead⟩ := ih h
      exact ⟨later, List.mem_cons_of_mem _ hlater, hhead⟩
    | cons first others => exact ⟨first :: others, List.mem_cons_self, h⟩

end Segments

/-- An element takes bytes if it has a sequence number. -/
def NumberedTakeBytes (fmt : Format C) : Prop := ∀ el : Element, el.lsn ≠ 0 → fmt.element.encode el ≠ []

/-- No element begins with the magic of an envelope. -/
def WithoutMagic (fmt : Format C) : Prop := ∀ el : Element, isUWAL (fmt.element.encode el) = false

theorem encode_preamble_ne_nil {el : Element} (h : el.IsPreamble) : fmt.element.encode el ≠ [] := by
  obtain ⟨_, hash, hpayload⟩ := h
  have hlength := fmt.length_payload_le el
  rw [hpayload, length_encodeUWAL] at hlength
  intro hnil
  rw [hnil, List.length_nil] at hlength
  omega

/-- What the detection finds within its limits decides for commands when nothing begins with the magic. -/
theorem detectFormat_of_plain {directory : List (ℕ × List UInt8)} {segments : List (List UInt8)}
    (hsegments : (sortFiles id directory).map Prod.snd = segments)
    (hplain : ∀ payload ∈ segments.flatMap scannedPayloads, isUWAL payload = false) {maxSegments maxEntries : ℕ}
    (hfound : (if maxSegments = 0 then segments else segments.take maxSegments).flatMap scannedPayloads ≠ []) :
    detectFormat directory maxSegments maxEntries = .legacy := by
  have hnonempty : segments ≠ [] := by
    rintro rfl
    simp at hfound
  rw [detectFormat, hsegments]
  dsimp only
  rw [if_neg hnonempty]
  generalize hchosen : (if maxSegments = 0 then segments else segments.take maxSegments) = chosen at hfound
  generalize hpayloads : (if maxEntries = 0 then chosen.flatMap scannedPayloads
    else (chosen.flatMap scannedPayloads).take maxEntries) = payloads
  have hsubset : ∀ payload ∈ payloads, isUWAL payload = false := by
    intro payload hpayload
    have hmem : payload ∈ chosen.flatMap scannedPayloads := by
      rw [← hpayloads] at hpayload
      split at hpayload
      · exact hpayload
      · exact List.mem_of_mem_take hpayload
    obtain ⟨bytes, hbytes, hscanned⟩ := List.mem_flatMap.mp hmem
    refine hplain payload (List.mem_flatMap.mpr ⟨bytes, ?_, hscanned⟩)
    rw [← hchosen] at hbytes
    split at hbytes
    · exact hbytes
    · exact List.mem_of_mem_take hbytes
  have hsome : payloads ≠ [] := by
    rw [← hpayloads]
    split
    · exact hfound
    · next hlimit => simpa [hlimit] using hfound
  have huwal : payloads.countP isUWAL = 0 :=
    List.countP_eq_zero.mpr fun payload hpayload => by rw [hsubset payload hpayload]; exact Bool.false_ne_true
  have hlegacy : 0 < payloads.countP fun payload => !isUWAL payload := by
    obtain ⟨payload, hpayload⟩ := List.exists_mem_of_ne_nil _ hsome
    exact List.countP_pos_iff.mpr ⟨payload, hpayload, by rw [hsubset payload hpayload]; rfl⟩
  rw [huwal, if_neg (by omega), if_pos ⟨rfl, hlegacy⟩]

section Detection

variable {begun : Prop} {wl : Forge} {sources : List EntrySource}

/-- What was written is detected as commands: without limits if there are entries, and with those of a start if the log
has begun. -/
theorem Forge.Written.detectFormat_eq (h : wl.Written fmt begun sources) (hmagic : WithoutMagic fmt)
    (hbytes : NumberedTakeBytes fmt) (hbuf : wl.out.buf = []) :
    (sources ≠ [] → detectFormat wl.directory 0 0 = .legacy) ∧ (begun → detectFormat wl.directory 2 16 = .legacy) := by
  obtain ⟨hsound, closed, last, hcarries, hhead, hempty, hbegun⟩ := h
  have hsegments : (sortFiles id wl.directory).map Prod.snd =
      (closed.map Prod.snd ++ [last]).map (segmentBytes fmt) := by
    rw [hsound.sortFiles_directory hbuf, Forge.contents, hcarries.files_eq,
      hcarries.content_eq, List.map_append, List.map_append, List.map_map, List.map_map]
    rfl
  have hfits (els : List Element) (hels : els ∈ closed.map Prod.snd ++ [last]) : ∀ el ∈ els, FitsFrame fmt el := by
    intro el hel
    refine hcarries.fits el ?_
    rcases List.mem_append.mp hels with hclosed | hlast
    · obtain ⟨segment, hsegment, rfl⟩ := List.mem_map.mp hclosed
      exact List.mem_append_left _ (List.mem_flatMap.mpr ⟨segment, hsegment, hel⟩)
    · rw [List.mem_singleton.mp hlast] at hel
      exact List.mem_append_right _ hel
  have hplain : ∀ payload ∈ ((closed.map Prod.snd ++ [last]).map (segmentBytes fmt)).flatMap scannedPayloads,
      isUWAL payload = false := by
    intro payload hpayload
    obtain ⟨bytes, hsegment, hmem⟩ := List.mem_flatMap.mp hpayload
    obtain ⟨els, hels, rfl⟩ := List.mem_map.mp hsegment
    obtain ⟨el, _, rfl⟩ := mem_scannedPayloads (hfits els hels) hmem
    exact hmagic el
  have hflatten : (closed.map Prod.snd ++ [last]).flatten = closed.flatMap Prod.snd ++ last := by
    rw [List.flatten_append, List.flatten_singleton, List.flatMap_def]
  -- the first element takes bytes, so the detection finds it in its segment
  have hfinds {el : Element} {els : List Element} (hall : (closed.flatMap Prod.snd ++ last).head? = some el)
      (hels : els ∈ closed.map Prod.snd ++ [last]) (hfirst : els.head? = some el) :
      fmt.element.encode el ∈ scannedPayloads (segmentBytes fmt els) := by
    refine head_mem_scannedPayloads (hfits els hels) hfirst ?_
    rcases hhead el hall with hpreamble | hlsn
    · exact encode_preamble_ne_nil hpreamble
    · exact hbytes el (by rw [hlsn]; decide)
  constructor
  · intro hne
    refine detectFormat_of_plain hsegments hplain ?_
    rw [if_pos rfl]
    cases hall : (closed.flatMap Prod.snd ++ last).head? with
    | none => exact absurd (hempty (List.head?_eq_none_iff.mp hall)).2 hne
    | some el =>
      obtain ⟨els, hels, hfirst⟩ := exists_head (hflatten ▸ hall)
      exact List.ne_nil_of_mem (List.mem_flatMap.mpr ⟨_, List.mem_map_of_mem hels, hfinds hall hels hfirst⟩)
  · intro hstarted
    refine detectFormat_of_plain hsegments hplain ?_
    obtain ⟨els, rest, hcons⟩ : ∃ els rest, closed.map Prod.snd ++ [last] = els :: rest :=
      List.exists_cons_of_ne_nil (by simp)
    have hels : els = Forge.firstElements closed last := by
      cases closed with
      | nil | cons => exact (List.cons.inj hcons).1.symm
    obtain ⟨el, others, hel⟩ := List.exists_cons_of_ne_nil (hels ▸ hbegun hstarted)
    have hall : (closed.flatMap Prod.snd ++ last).head? = some el := by
      rw [← hflatten, hcons, hel]
      rfl
    have hfound := hfinds hall (hcons ▸ List.mem_cons_self) (by rw [hel]; rfl)
    rw [if_neg (by decide), hcons, List.map_cons, List.take_succ_cons, List.flatMap_cons]
    exact List.append_ne_nil_of_left_ne_nil (List.ne_nil_of_mem hfound) _

/-- A start under a strict manifest for envelopes refuses a directory that is taken for one of commands. -/
theorem not_reopens (hlegacy : detectFormat wl.directory 2 16 = .legacy) (hstrict : wl.manifest.enforce = .strict)
    (huwal : wl.manifest.isUWAL1 = true) (cfg : ForgeConfig) : ¬wl.Reopens fmt := by
  intro hreopens
  obtain ⟨fresh, hfresh⟩ := hreopens hstrict huwal cfg ⟨false, false, .warn⟩ [] false 0
  rw [startLog, chooseManifest, hlegacy, StoredManifest.verifyAgainst, hstrict, huwal] at hfresh
  cases hfresh

end Detection

/-- After a run from an empty directory and a sync, the detection without limits gives what was written, and a log
of envelopes can be started again under its strict manifest, exactly when no entry came from AppendEntry, and some came
from LogCommand if the manifest is a strict one for envelopes. A strict manifest has a hash, with which the log was
started. -/
theorem detectFormat_matches_iff (hmagic : WithoutMagic fmt) (hbytes : NumberedTakeBytes fmt) {cfg : ForgeConfig}
    {manifest : Manifest} {manifestHash : List UInt8} {time : ℤ} {start wl synced : Forge}
    {actions : List (ForgeAction C)}
    (hstart : Forge.init fmt cfg manifest manifestHash none time [] none = (start, .returnsNil))
    (hrun : Run (Forge.step fmt) (fun _ _ => True) start actions wl)
    (hsync : wl.syncNeeded .clear = (synced, .returnsNil))
    (hhash : synced.manifest.enforce = .strict → manifestHash ≠ []) :
    synced.MatchesWritten fmt (outputs (Forge.step fmt) (Forge.source fmt) start actions) ↔
      (∀ source ∈ outputs (Forge.step fmt) (Forge.source fmt) start actions, source = .command) ∧
        (outputs (Forge.step fmt) (Forge.source fmt) start actions = [] →
          ¬(synced.manifest.enforce = .strict ∧ synced.manifest.isUWAL1 = true)) := by
  have hwritten := Forge.Written.run hrun (Forge.written_init hstart)
  rw [List.nil_append] at hwritten
  have hbuf := hwritten.1.syncNeeded.2.2.2
  have hstep : wl.step fmt .sync = some synced := by
    rw [Forge.step, hsync]
    rfl
  have hafter := hwritten.step hstep
  rw [Forge.source, List.append_nil] at hafter
  rw [hsync] at hbuf
  obtain ⟨hlegacy, hrefused⟩ := hafter.detectFormat_eq hmagic hbytes hbuf
  generalize outputs (Forge.step fmt) (Forge.source fmt) start actions = sources at hlegacy ⊢
  constructor
  · intro hmatches
    refine ⟨fun source hsource => ?_, fun hnone hstrict => ?_⟩
    · have hne := List.ne_nil_of_mem hsource
      cases source with
      | command => rfl
      | entry =>
        by_cases hcommand : EntrySource.command ∈ sources
        · have hmixed := hmatches.mixed hsource hcommand
          rw [hlegacy hne] at hmixed
          cases hmixed
        · have huwal := hmatches.uwal1 hne fun other hother => ?_
          · rw [hlegacy hne] at huwal
            cases huwal
          · cases other with
            | command => exact absurd hother hcommand
            | entry => rfl
    · have hvacuous : ∀ source ∈ sources, source = .entry := by
        rw [hnone]
        exact fun source hsource => absurd hsource List.not_mem_nil
      exact not_reopens (hrefused (hhash hstrict.1)) hstrict.1 hstrict.2 cfg (hmatches.reopens hvacuous)
  · rintro ⟨hcommands, hstarts⟩
    have hnone (hentries : ∀ source ∈ sources, source = .entry) :
        sources = [] := by
      by_contra hne
      obtain ⟨source, hsource⟩ := List.exists_mem_of_ne_nil _ hne
      have hboth := (hcommands source hsource).symm.trans (hentries source hsource)
      cases hboth
    exact
      { uwal1 := fun hne hentries => absurd (hnone hentries) hne
        legacy := fun hne _ => hlegacy hne
        mixed := fun hentry _ => by cases hcommands _ hentry
        reopens := fun hentries hstrict huwal => absurd ⟨hstrict, huwal⟩ (hstarts (hnone hentries)) }

theorem encode_tallyElement (el : Element) : ∃ rest, tallyFormat.element.encode el = 1 :: rest := ⟨_, rfl⟩

/-- Two commands are detected as such. -/
theorem detectFormat_matches_iff_commands :
    ∃ wl synced : Forge, Run (Forge.step tallyFormat) (fun _ _ => True) largeForge
        [.call ⟨1, 2⟩ (.log 5), .rotate 3, .call ⟨4, 5⟩ (.log 6)] wl ∧
      wl.syncNeeded .clear = (synced, .returnsNil) ∧ synced.MatchesWritten tallyFormat [.command, .command] := by
  have hmagic : WithoutMagic tallyFormat := by
    intro el
    obtain ⟨rest, hrest⟩ := encode_tallyElement el
    rw [hrest]
    simp [isUWAL, uwalMagic]
  have hbytes : NumberedTakeBytes tallyFormat := by
    intro el _
    obtain ⟨rest, hrest⟩ := encode_tallyElement el
    rw [hrest]
    exact List.cons_ne_nil _ _
  obtain ⟨wl, hrun, htest⟩ := exists_run_of_check (Forge.step tallyFormat) (fun _ _ => True) largeForge
    [.call ⟨1, 2⟩ (.log 5), .rotate 3, .call ⟨4, 5⟩ (.log 6)]
    (fun wl : Forge => decide ((wl.syncNeeded .clear).2 = .returnsNil)) (by decide +kernel)
  have hsync : wl.syncNeeded .clear = ((wl.syncNeeded .clear).1, .returnsNil) := Prod.ext rfl (of_decide_eq_true htest)
  have hsources : outputs (Forge.step tallyFormat) (Forge.source tallyFormat) largeForge
      [.call ⟨1, 2⟩ (.log 5), .rotate 3, .call ⟨4, 5⟩ (.log 6)] = [.command, .command] := by decide +kernel
  have hmatches := detectFormat_matches_iff hmagic hbytes init_largeForge hrun hsync fun _ => by decide
  rw [hsources] at hmatches
  exact ⟨wl, _, hrun, hsync, hmatches.mpr ⟨by decide, nofun⟩⟩

/-- A strict manifest that declares envelopes. -/
def strictManifest : Manifest := ⟨.uwal1, 1, .strict⟩

/-- The settings for a directory without a manifest do not matter here. -/
def anyPolicy : ManifestPolicy := ⟨false, true, .warn⟩

def strictForge : Forge := (Forge.init tallyFormat largeConfig strictManifest [7] none 0 [] none).1

/-- A start of the directory of a log under the strict manifest. -/
def startAgain (wl : Forge) : Except StartError (Forge × Reply) :=
  startLog tallyFormat largeConfig anyPolicy [] (some (⟨strictManifest, true⟩, [7])) none 5 wl.directory wl.hardState

/-- A log that was started under the strict manifest and has taken one entry from AppendEntry is taken for one of
commands, and the next start is refused. With a command besides it is still not mixed. -/
theorem detectFormat_misses_envelopes :
    startLog tallyFormat largeConfig anyPolicy [] (some (⟨strictManifest, true⟩, [7])) none 0 [] none =
      .ok (strictForge, .returnsNil) ∧
    (∃ wl ∈ strictForge.step tallyFormat (.call ⟨1, 2⟩ (.normal ⟨1, 1, 3, some 6, [9]⟩)),
      (wl.syncNeeded .clear).2 = .returnsNil ∧
      detectFormat (wl.syncNeeded .clear).1.directory 0 0 = .legacy ∧
      startAgain (wl.syncNeeded .clear).1 = .error (.formatMismatch .legacy) ∧
      ∃ mixed ∈ wl.step tallyFormat (.call ⟨3, 4⟩ (.log 5)), (mixed.syncNeeded .clear).2 = .returnsNil ∧
        detectFormat (mixed.syncNeeded .clear).1.directory 0 0 = .legacy) := by
  decide +kernel

end SevenDB.Wal
