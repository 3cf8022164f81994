import SevenDB.RaftWal.ReplayOrder

/-!
# A torn tail of the shadow log

A crash may leave only the beginning of the last segment. A replay passes over a torn header, but a
torn payload makes it fail. A writer that opens the directory again appends behind the torn bytes,
so what it writes is read back only if the segment was cut off at the end of a frame.
-/

namespace SevenDB.RaftWal

open SevenDB.Common

namespace Writer

/-- The directory when the last segment is cut off after a number of bytes. -/
def torn (w : Writer) (count : ℕ) : List (ℕ × List UInt8) := w.files ++ [(w.segIdx, w.out.content.take count)]

/-- How the last segment ends when it is cut off. -/
def tornEnding (w : Writer) (count : ℕ) : Ending := cutEnding count (scan w.out.content).1

/-- The last segment is cut off inside a payload. -/
def TearsPayload (w : Writer) (count : ℕ) : Prop := ∃ size, w.tornEnding count = .tornPayload size

/-- The envelopes whose frames are complete when the last segment is cut off. -/
def completeFrames (codec : ByteCodec Envelope) (checksum : List UInt8 → UInt32) (w : Writer) (count : ℕ) :
    List Envelope :=
  (w.files.flatMap fun segment => envelopesIn codec checksum segment.2) ++
    (envelopesIn codec checksum w.out.content).take (framesWithin count (scan w.out.content).1)

end Writer

section Reopening

/-- A directory with numbers that rise is opened at its last segment. -/
theorem newWriter_concat (cfg : Config) {files : List (ℕ × List UInt8)} {segIdx : ℕ} (last : List UInt8)
    (hlt : ∀ segment ∈ files, segment.1 < segIdx) :
    newWriter cfg (files ++ [(segIdx, last)]) = ⟨files, segIdx, .openAt cfg.bufSize last, 0, 0, false⟩ := by
  have hmax (numbers : List ℕ) (hall : ∀ n ∈ numbers, n < segIdx) : numbers.foldl max 0 ≤ segIdx :=
    List.foldlRecOn (motive := (· ≤ segIdx)) numbers max segIdx.zero_le fun _ hle n hn => max_le hle (hall n hn).le
  have hhighest : ((files ++ [(segIdx, last)]).map Prod.fst).foldl max 0 = segIdx := by
    rw [List.map_append, List.foldl_append, List.map_singleton, List.foldl_cons, List.foldl_nil]
    refine max_eq_right (hmax _ fun n hn => ?_)
    obtain ⟨segment, hsegment, rfl⟩ := List.mem_map.mp hn
    exact hlt segment hsegment
  have hfiles : (files ++ [(segIdx, last)]).filter (fun file => file.1 ≠ segIdx) = files := by
    rw [List.filter_append, List.filter_cons_of_neg (by simp), List.filter_nil, List.append_nil,
      List.filter_eq_self]
    exact fun segment hsegment => decide_eq_true (hlt segment hsegment).ne
  have hlast : (files ++ [(segIdx, last)]).find? (fun file => file.1 = segIdx) = some (segIdx, last) := by
    rw [List.find?_append, List.find?_eq_none.mpr, Option.none_or, List.find?_cons_of_pos (by simp)]
    exact fun segment hsegment => by simpa using (hlt segment hsegment).ne
  unfold newWriter
  dsimp only
  rw [hhighest, hfiles, hlast]
  rfl

variable {codec : ByteCodec Envelope} {checksum : List UInt8 → UInt32} {w : Writer}

/-- Cutting off the last segment keeps the segments in the order of names. -/
theorem inKeyOrder_torn (horder : InKeyOrder segmentFileName w.contents) (count : ℕ) :
    InKeyOrder segmentFileName (w.torn count) := by
  rw [InKeyOrder, Writer.contents, List.filter_append, List.pairwise_append] at horder
  rw [InKeyOrder, Writer.torn, List.filter_append, List.pairwise_append]
  refine ⟨horder.1, List.Pairwise.filter _ (List.pairwise_singleton _ _), fun segment hsegment last hlast => ?_⟩
  obtain ⟨hmem, hne⟩ := List.mem_filter.mp hlast
  rw [List.mem_singleton] at hmem
  rw [hmem] at hne ⊢
  have hcontent : w.out.content ≠ [] := by
    intro hnil
    rw [hnil, List.take_nil] at hne
    cases hne
  exact horder.2.2 segment hsegment (w.segIdx, w.out.content)
    (List.mem_filter.mpr ⟨List.mem_cons_self, decide_eq_true hcontent⟩)

theorem Writer.Sound.intact_content (h : w.Sound codec checksum) : Intact codec checksum w.out.content :=
  h.intact (w.segIdx, w.out.content) (List.mem_append_right _ List.mem_cons_self)

/-- A replay of a directory whose last segment is cut off gives the complete frames, and an error when a
payload is torn. -/
theorem replay_torn (h : w.Sound codec checksum) (horder : InKeyOrder segmentFileName w.contents)
    (count : ℕ) :
    replay codec checksum (w.torn count) =
      (w.completeFrames codec checksum count, (segmentReader codec checksum).atEnd (w.tornEnding count)) := by
  have hfiles := readAll_intact fun segment hsegment => h.intact segment (List.mem_append_left _ hsegment)
  have hlast := h.intact_content.read_take count
  rw [← List.map_take, FrameReader.reduceOption_map_some] at hlast
  rw [replay, readAll_sortFiles _ _ (inKeyOrder_torn horder count), Writer.torn, List.map_append,
    FrameReader.readAll_append _ (by rw [hfiles]), hfiles, List.map_singleton,
    FrameReader.readAll_singleton, hlast]
  rfl

/-- A writer that opens a directory whose last segment was cut off after a frame is sound and has stored
the complete frames. -/
theorem sound_reopened (cfg : Config) (h : w.Sound codec checksum) {count : ℕ}
    (hclean : w.tornEnding count = .clean) :
    (newWriter cfg (w.torn count)).Sound codec checksum ∧
      (newWriter cfg (w.torn count)).stored codec checksum = w.completeFrames codec checksum count ∧
      (newWriter cfg (w.torn count)).contents = w.torn count := by
  have hcut := h.intact_content.take hclean
  rw [← List.map_take] at hcut
  obtain ⟨hintact, henvs⟩ := intact_of_holds hcut
  rw [Writer.torn, newWriter_concat cfg _ fun segment => h.lt_segIdx]
  have hcontent : (BufferedFile.openAt cfg.bufSize (w.out.content.take count)).content =
      w.out.content.take count := List.append_nil _
  refine ⟨⟨rfl, rfl, fun segment hsegment => ?_, ?_⟩, ?_, ?_⟩
  · rw [Writer.contents, hcontent] at hsegment
    rcases List.mem_append.mp hsegment with hold | hlast
    · exact h.intact segment (List.mem_append_left _ hold)
    · rw [List.mem_singleton.mp hlast]
      exact hintact
  · have hascending := h.ascending
    rw [Writer.contents, List.map_append] at hascending ⊢
    exact hascending
  · rw [Writer.stored, Writer.contents, hcontent, List.flatMap_append, List.flatMap_singleton, henvs]
    rfl
  · rw [Writer.contents, hcontent]

end Reopening

variable {codec : ByteCodec Envelope} {checksum : List UInt8 → UInt32} {cfg : Config} {w : Writer}

theorem completeFrames_isPrefix {calls : List Call}
    (hstored : w.stored codec checksum = calls.map Call.env) (count : ℕ) :
    w.completeFrames codec checksum count <+: calls.map Call.env := by
  rw [← hstored, Writer.stored, Writer.contents, List.flatMap_append, List.flatMap_singleton,
    Writer.completeFrames, List.prefix_append_right_inj]
  exact List.take_prefix _ _

/-- The end of a cut segment is an error exactly when a payload is torn. -/
theorem atEnd_tornEnding (count : ℕ) :
    (segmentReader codec checksum).atEnd (w.tornEnding count) = none ↔ ¬ w.TearsPayload count := by
  rw [Writer.TearsPayload]
  cases w.tornEnding count with
  | clean | tornHeader => simp [segmentReader]
  | tornPayload size => simp [segmentReader]

/-- After calls that are read back, the last segment is cut off somewhere. A replay gives the complete
frames, which are the first of those appended. It reports no error, and the last hard state is the last one
among them, exactly when no payload is torn. When the cut is at the end of a frame, envelopes that are
appended after opening the directory again are read back behind them. -/
theorem replay_torn_tail {calls : List Call}
    (hrun : Run (Writer.step cfg codec checksum) (ReadsBack codec) (newWriter cfg []) calls w) (count : ℕ) :
    w.completeFrames codec checksum count <+: calls.map Call.env ∧
      (replay codec checksum (w.torn count) = (w.completeFrames codec checksum count, none) ↔
        ¬ w.TearsPayload count) ∧
      (replayLastHardState codec checksum (w.torn count) =
          .ok (((w.completeFrames codec checksum count).filter (·.kind = .hardState)).getLast?.map
            Envelope.appBytes) ↔ ¬ w.TearsPayload count) ∧
      (w.tornEnding count = .clean →
        ∀ (later : Config) (more : List Call) (reopened : Writer),
          Run (Writer.step later codec checksum) (ReadsBack codec) (newWriter later (w.torn count)) more reopened →
            replay codec checksum reopened.close.directory =
              (w.completeFrames codec checksum count ++ more.map Call.env, none)) := by
  obtain ⟨hnew, hnone⟩ : (newWriter cfg []).Sound codec checksum ∧ _ := sound_newWriter cfg
  obtain ⟨hsound, horder⟩ := inKeyOrder_run hrun hnew (inKeyOrder_newWriter cfg)
  have hstored := (hnew.run (fun _ _ hallowed => hallowed.1) hrun).2
  rw [hnone, List.nil_append] at hstored
  have hstart := completeFrames_isPrefix hstored count
  have hreplay := replay_torn hsound horder count
  refine ⟨hstart, ?_, ⟨fun hlast => ?_, fun hwhole => ?_⟩, fun hclean later more reopened hreopened => ?_⟩
  · rw [hreplay, Prod.mk.injEq, atEnd_tornEnding]
    exact and_iff_right rfl
  · rw [replayLastHardState, collect, hreplay] at hlast
    split at hlast
    · cases hlast
    · next heq => exact (atEnd_tornEnding count).mp (Prod.mk.inj heq).2
  · rw [(atEnd_tornEnding count).mpr hwhole] at hreplay
    rw [replayLastHardState, collect_of_replay hreplay, lastHardState_eq]
    exact fun env henv => appBytes_ne_nil_of_run hrun env (hstart.subset henv)
  · obtain ⟨hsound', hstored', hcontents⟩ := sound_reopened later hsound hclean
    have horder' := inKeyOrder_torn horder count
    rw [← hcontents] at horder'
    rw [replay_run hreopened hsound' horder', hstored']

/-- A writer with the default length of segments. -/
def plainConfig : Config := ⟨1, 0, 0, false⟩

/-- The second of two frames is cut off as a whole, and a third envelope is appended behind the first. -/
theorem replay_torn_tail_at_frame_end :
    ∃ w reopened : Writer,
      Run (Writer.step plainConfig tallyEnvelope lengthChecksum) (ReadsBack tallyEnvelope)
        (newWriter plainConfig []) [normalCall 1, normalCall 2] w ∧ w.tornEnding 29 = .clean ∧
      Run (Writer.step plainConfig tallyEnvelope lengthChecksum) (ReadsBack tallyEnvelope)
        (newWriter plainConfig (w.torn 29)) [normalCall 3] reopened ∧
      replay tallyEnvelope lengthChecksum (w.torn 29) = ([(normalCall 1).env], none) ∧
      replay tallyEnvelope lengthChecksum reopened.close.directory =
        ([(normalCall 1).env, (normalCall 3).env], none) := by
  obtain ⟨w, hrun, htest⟩ := exists_run_of_check (Writer.step plainConfig tallyEnvelope lengthChecksum)
    (ReadsBack tallyEnvelope) (newWriter plainConfig []) [normalCall 1, normalCall 2]
    (fun w : Writer => decide (w.tornEnding 29 = .clean ∧
      w.completeFrames tallyEnvelope lengthChecksum 29 = [(normalCall 1).env]) &&
      (runChecked (Writer.step plainConfig tallyEnvelope lengthChecksum) (ReadsBack tallyEnvelope)
        (newWriter plainConfig (w.torn 29)) [normalCall 3]).isSome) (by decide +kernel)
  rw [Bool.and_eq_true, Option.isSome_iff_exists] at htest
  obtain ⟨hcut, reopened, hreopened⟩ := htest
  obtain ⟨hclean, hcomplete⟩ := of_decide_eq_true hcut
  have hagain := (runChecked_eq_some_iff _ _ _ _ _).mp hreopened
  obtain ⟨_, hreplay, _, hlater⟩ := replay_torn_tail hrun 29
  have hwhole : ¬ w.TearsPayload 29 := by
    rintro ⟨size, hsize⟩
    rw [hclean] at hsize
    cases hsize
  rw [hcomplete] at hreplay hlater
  exact ⟨w, reopened, hrun, hclean, hagain, hreplay.mpr hwhole, hlater hclean plainConfig _ _ hagain⟩

/-- With two frames in the segment, a cut inside the payload of the second makes every scan fail, and after
a cut inside its header what a reopened writer appends is not read back. -/
theorem torn_tail_breaks_replay :
    ∃ w : Writer,
      Run (Writer.step plainConfig tallyEnvelope lengthChecksum) (ReadsBack tallyEnvelope)
        (newWriter plainConfig []) [normalCall 1, normalCall 2] w ∧
      replay tallyEnvelope lengthChecksum (w.torn 40) = ([(normalCall 1).env], some .unexpectedEOF) ∧
      replayLastHardState tallyEnvelope lengthChecksum (w.torn 40) = .error .unexpectedEOF ∧
      ∃ reopened ∈ (newWriter plainConfig (w.torn 31)).step plainConfig tallyEnvelope lengthChecksum (normalCall 3),
        replay tallyEnvelope lengthChecksum reopened.close.directory =
          ([(normalCall 1).env], some .unexpectedEOF) :=
  exists_run (by decide +kernel)

end SevenDB.RaftWal
