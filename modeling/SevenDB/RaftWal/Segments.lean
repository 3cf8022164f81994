import SevenDB.Common.GuardedRun
import SevenDB.RaftWal.Writer

/-!
# What the segments of the shadow log hold

While nothing else touches the directory, every segment of a writer is a sequence of whole frames
with an envelope in each, and segments are numbered upwards. Appending an envelope adds it to the
segment that is then open and may add empty segments behind it.
-/

namespace SevenDB.RaftWal

open SevenDB.Common

section Streams

variable (codec : ByteCodec Envelope) (checksum : List UInt8 → UInt32)

/-- The envelopes that a scan of a segment gives. -/
def envelopesIn (bytes : List UInt8) : List Envelope := ((segmentReader codec checksum).read bytes).1

/-- A segment consists of whole frames with an envelope in each. -/
def Intact (bytes : List UInt8) : Prop :=
  (segmentReader codec checksum).Holds bytes ((envelopesIn codec checksum bytes).map some)

/-- An envelope takes some bytes, and not more than the length field of a frame can say. -/
def Fits (env : Envelope) : Prop := codec.encode env ≠ [] ∧ (codec.encode env).length < 2 ^ 32

instance (env : Envelope) : Decidable (Fits codec env) := inferInstanceAs (Decidable (_ ∧ _))

variable {codec checksum} {bytes : List UInt8} {env : Envelope}

theorem intact_of_holds {envs : List Envelope}
    (h : (segmentReader codec checksum).Holds bytes (envs.map some)) :
    Intact codec checksum bytes ∧ envelopesIn codec checksum bytes = envs := by
  have henvs : envelopesIn codec checksum bytes = envs := by
    rw [envelopesIn, h.read_eq, FrameReader.reduceOption_map_some]
  rw [Intact, henvs]
  exact ⟨h, rfl⟩

theorem intact_nil : Intact codec checksum [] := FrameReader.Holds.nil

/-- A scan of an intact segment gives its envelopes without an error. -/
theorem Intact.read_eq (h : Intact codec checksum bytes) :
    (segmentReader codec checksum).read bytes = (envelopesIn codec checksum bytes, none) := by
  rw [FrameReader.Holds.read_eq h, FrameReader.reduceOption_map_some]

theorem accept_encode (hfits : Fits codec env) :
    (segmentReader codec checksum).accept ⟨checksum (codec.encode env), codec.encode env⟩ = .ok (some env) := by
  rw [segmentReader]
  dsimp only
  rw [if_neg hfits.1, if_neg (not_not.mpr rfl), codec.decode_encode]

theorem Intact.append_frame (h : Intact codec checksum bytes) (hfits : Fits codec env) :
    Intact codec checksum (bytes ++ frame checksum (codec.encode env)) ∧
      envelopesIn codec checksum (bytes ++ frame checksum (codec.encode env)) =
        envelopesIn codec checksum bytes ++ [env] := by
  apply intact_of_holds
  rw [List.map_append]
  exact h.append (.frame hfits.2 (accept_encode hfits))

end Streams

namespace Writer

/-- Segments that were opened and not written to. -/
def freshSegments (first count : ℕ) : List (ℕ × List UInt8) := (List.range' first count).map fun n => (n, [])

/-- A writer has gone on to later segments, if any, and has written nothing. -/
structure MovedOn (w next : Writer) (count : ℕ) : Prop where
  segIdx_eq : next.segIdx = w.segIdx + count
  contents_eq : next.contents = w.contents ++ freshSegments (w.segIdx + 1) count
  closed_eq : next.closed = w.closed
  healthy : next.out.failed = false

section Moving

variable {w middle next : Writer}

theorem MovedOn.refl (h : w.out.failed = false) : MovedOn w w 0 := ⟨rfl, (List.append_nil _).symm, rfl, h⟩

theorem MovedOn.trans {first second : ℕ} (h : MovedOn w middle first) (hnext : MovedOn middle next second) :
    MovedOn w next (first + second) := by
  refine ⟨by rw [hnext.segIdx_eq, h.segIdx_eq, Nat.add_assoc], ?_, hnext.closed_eq.trans h.closed_eq,
    hnext.healthy⟩
  have hrange : List.range' (w.segIdx + first + 1) second = List.range' (w.segIdx + 1 + first) second := by
    rw [Nat.add_right_comm]
  rw [hnext.contents_eq, h.contents_eq, h.segIdx_eq, List.append_assoc, freshSegments, freshSegments,
    freshSegments, ← List.map_append, hrange, List.range'_append_1]

theorem movedOn_rotateLocked (h : w.out.failed = false) : MovedOn w w.rotateLocked 1 := by
  refine ⟨rfl, ?_, rfl, rfl⟩
  rw [contents, rotateLocked, BufferedFile.flush_none _ h]
  rfl

/-- Counting an append towards a forced rotation moves on by at most one segment. -/
theorem movedOn_forceRotate (cfg : Config) (h : w.out.failed = false) :
    ∃ count, MovedOn w (w.forceRotate cfg) count := by
  unfold forceRotate
  split
  · dsimp only
    split
    · have hmoved := movedOn_rotateLocked (w := { w with appendCount := w.appendCount + 1 }) h
      exact ⟨1, hmoved.segIdx_eq, hmoved.contents_eq, hmoved.closed_eq, hmoved.healthy⟩
    · exact ⟨0, rfl, (List.append_nil _).symm, rfl, h⟩
  · exact ⟨0, .refl h⟩

end Moving

/-- The state right after bytes were written to the open segment. -/
structure WroteTo (w next : Writer) (bytes : List UInt8) : Prop where
  segIdx_eq : next.segIdx = w.segIdx
  files_eq : next.files = w.files
  content_eq : next.out.content = w.out.content ++ bytes
  closed_eq : next.closed = w.closed
  healthy : next.out.failed = false

/-- Writing a frame puts it at the end of the open segment and then goes on to later ones, if any. -/
theorem writeFrame_spec (cfg : Config) (checksum : List UInt8 → UInt32) {w : Writer}
    (h : w.out.failed = false) (payload : List UInt8) :
    ∃ written count, WroteTo w written (frame checksum payload) ∧
      MovedOn written (w.writeFrame cfg checksum payload) count := by
  have hwrote : WroteTo w { w with
      out := if cfg.strictSync then ((w.out.write none (frame checksum payload)).flush none).fsync
        else w.out.write none (frame checksum payload) } (frame checksum payload) := by
    have hfailed : (w.out.write none (frame checksum payload)).failed = false := by
      rw [BufferedFile.failed_write, h]
    refine ⟨rfl, rfl, ?_, rfl, ?_⟩
    · cases cfg.strictSync with
      | false => exact BufferedFile.content_write _ _ h
      | true =>
        rw [if_pos rfl, BufferedFile.flush_none _ hfailed, BufferedFile.content]
        exact (List.append_nil _).trans (BufferedFile.content_write _ _ h)
    · cases cfg.strictSync with
      | false => exact hfailed
      | true =>
        rw [if_pos rfl, BufferedFile.flush_none _ hfailed]
        exact hfailed
  unfold writeFrame
  dsimp only
  split
  · have hmoved := movedOn_rotateLocked hwrote.healthy
    obtain ⟨count, hforced⟩ := movedOn_forceRotate cfg hmoved.healthy
    exact ⟨_, 1 + count, hwrote, hmoved.trans hforced⟩
  · obtain ⟨count, hforced⟩ := movedOn_forceRotate cfg hwrote.healthy
    exact ⟨_, count, hwrote, hforced⟩

end Writer

inductive Call
  | envelope (raftIndex : UInt64) (env : Envelope)
  | hardState (env : Envelope)
  deriving DecidableEq, Repr

def Call.env : Call → Envelope
  | .envelope _ env | .hardState env => env

namespace Writer

/-- Marshal the envelope of a call and append it. -/
def step (cfg : Config) (codec : ByteCodec Envelope) (checksum : List UInt8 → UInt32) (w : Writer) :
    Call → Option Writer
  | .envelope raftIndex env => w.appendEnvelope cfg checksum raftIndex (codec.encode env)
  | .hardState env => w.appendHardState cfg checksum (codec.encode env)

/-- The number of the segment that a call appends to. -/
def target (w : Writer) : Call → ℕ
  | .envelope raftIndex _ => if w.Conflicts raftIndex then w.segIdx + 1 else w.segIdx
  | .hardState _ => w.segIdx

/-- A call goes on to the segment that it appends to, writes its frame there, and goes on from there. -/
theorem step_spec {cfg : Config} {codec : ByteCodec Envelope} {checksum : List UInt8 → UInt32}
    {w next : Writer} {call : Call} (hhealthy : w.out.failed = false)
    (hstep : w.step cfg codec checksum call = some next) :
    ∃ before first written count, MovedOn w before first ∧ before.segIdx = w.target call ∧
      WroteTo before written (frame checksum (codec.encode call.env)) ∧ MovedOn written next count := by
  cases call with
  | envelope raftIndex env =>
    rw [step, appendEnvelope] at hstep
    split at hstep
    · cases hstep
    · cases hstep
      by_cases hconflict : w.Conflicts raftIndex
      · have hmoved := movedOn_rotateLocked hhealthy
        obtain ⟨written, count, hwrote, hnext⟩ := writeFrame_spec cfg checksum
          (w := { w.rotateLocked with lastIndex := raftIndex }) hmoved.healthy (codec.encode env)
        rw [if_pos hconflict]
        refine ⟨{ w.rotateLocked with lastIndex := raftIndex }, 1, written, count,
          ⟨hmoved.segIdx_eq, hmoved.contents_eq, hmoved.closed_eq, hmoved.healthy⟩, ?_, hwrote, hnext⟩
        rw [target, if_pos hconflict]
        rfl
      · obtain ⟨written, count, hwrote, hnext⟩ := writeFrame_spec cfg checksum
          (w := { w with lastIndex := raftIndex }) hhealthy (codec.encode env)
        rw [if_neg hconflict]
        refine ⟨{ w with lastIndex := raftIndex }, 0, written, count, ⟨rfl, (List.append_nil _).symm, rfl, hhealthy⟩, ?_,
          hwrote, hnext⟩
        rw [target, if_neg hconflict]
  | hardState env =>
    rw [step, appendHardState] at hstep
    split at hstep
    · cases hstep
    · cases hstep
      obtain ⟨written, count, hwrote, hnext⟩ := writeFrame_spec cfg checksum hhealthy (codec.encode env)
      exact ⟨w, 0, written, count, .refl hhealthy, rfl, hwrote, hnext⟩

end Writer

section Soundness

variable (codec : ByteCodec Envelope) (checksum : List UInt8 → UInt32)

/-- The envelopes in the segments of a writer, in the order of their numbers. -/
def Writer.stored (w : Writer) : List Envelope :=
  w.contents.flatMap fun segment => envelopesIn codec checksum segment.2

/-- A writer is open, its segments are intact and numbered upwards, and nothing has failed. -/
structure Writer.Sound (w : Writer) : Prop where
  opened : w.closed = false
  healthy : w.out.failed = false
  intact : ∀ segment ∈ w.contents, Intact codec checksum segment.2
  ascending : (w.contents.map Prod.fst).Pairwise (· < ·)

variable {codec checksum} {w before written next : Writer} {count : ℕ} {env : Envelope}

theorem Writer.Sound.lt_segIdx (h : w.Sound codec checksum) {segment : ℕ × List UInt8}
    (hsegment : segment ∈ w.files) : segment.1 < w.segIdx := by
  have hascending := h.ascending
  rw [contents, List.map_append, List.pairwise_append] at hascending
  exact hascending.2.2 _ (List.mem_map_of_mem hsegment) _ (by simp)

/-- Going on to later segments keeps a writer sound and stores nothing. -/
theorem Writer.Sound.movedOn (h : w.Sound codec checksum) (hmoved : Writer.MovedOn w next count) :
    next.Sound codec checksum ∧ next.stored codec checksum = w.stored codec checksum := by
  have hempty : ∀ segment ∈ freshSegments (w.segIdx + 1) count, segment.2 = [] := by
    intro segment hsegment
    obtain ⟨n, _, rfl⟩ := List.mem_map.mp hsegment
    rfl
  refine ⟨⟨hmoved.closed_eq.trans h.opened, hmoved.healthy, fun segment hsegment => ?_, ?_⟩, ?_⟩
  · rw [hmoved.contents_eq] at hsegment
    rcases List.mem_append.mp hsegment with hold | hfresh
    · exact h.intact segment hold
    · rw [hempty segment hfresh]
      exact intact_nil
  · rw [hmoved.contents_eq, List.map_append, List.pairwise_append]
    have hnumbers : (freshSegments (w.segIdx + 1) count).map Prod.fst = List.range' (w.segIdx + 1) count := by
      rw [freshSegments, List.map_map]
      exact List.map_id _
    rw [hnumbers]
    refine ⟨h.ascending, List.pairwise_lt_range', fun number hnumber later hlater => ?_⟩
    have hle : number ≤ w.segIdx := by
      rw [contents, List.map_append, List.mem_append] at hnumber
      rcases hnumber with hfile | hopen
      · obtain ⟨segment, hsegment, rfl⟩ := List.mem_map.mp hfile
        exact (h.lt_segIdx hsegment).le
      · rw [List.map_singleton, List.mem_singleton] at hopen
        exact hopen.le
    have hge := (List.mem_range'_1.mp hlater).1
    omega
  · rw [stored, stored, hmoved.contents_eq, List.flatMap_append]
    have hnone : (freshSegments (w.segIdx + 1) count).flatMap
        (fun segment => envelopesIn codec checksum segment.2) = [] := by
      rw [List.flatMap_eq_nil_iff]
      intro segment hsegment
      rw [hempty segment hsegment]
      rfl
    rw [hnone, List.append_nil]

/-- Writing the frame of an envelope that fits keeps a writer sound and stores the envelope. -/
theorem Writer.Sound.wroteTo (h : before.Sound codec checksum) (hfits : Fits codec env)
    (hwrote : Writer.WroteTo before written (frame checksum (codec.encode env))) :
    written.Sound codec checksum ∧ written.stored codec checksum = before.stored codec checksum ++ [env] := by
  have hopen : Intact codec checksum before.out.content :=
    h.intact (before.segIdx, before.out.content) (List.mem_append_right _ List.mem_cons_self)
  obtain ⟨hintact, henvs⟩ := hopen.append_frame hfits
  refine ⟨⟨hwrote.closed_eq.trans h.opened, hwrote.healthy, fun segment hsegment => ?_, ?_⟩, ?_⟩
  · rw [contents, hwrote.files_eq, hwrote.segIdx_eq, hwrote.content_eq] at hsegment
    rcases List.mem_append.mp hsegment with hold | hlast
    · exact h.intact segment (List.mem_append_left _ hold)
    · rw [List.mem_singleton] at hlast
      rw [hlast]
      exact hintact
  · have hnumbers : written.contents.map Prod.fst = before.contents.map Prod.fst := by
      rw [contents, contents, hwrote.files_eq, hwrote.segIdx_eq, List.map_append, List.map_append]
      rfl
    rw [hnumbers]
    exact h.ascending
  · rw [stored, stored, contents, contents, hwrote.files_eq, hwrote.segIdx_eq, hwrote.content_eq,
      List.flatMap_append, List.flatMap_append, List.append_assoc]
    congr 1
    rw [List.flatMap_singleton, List.flatMap_singleton, henvs]

/-- A call whose envelope fits keeps a writer sound and stores the envelope. -/
theorem Writer.Sound.step {cfg : Config} {call : Call} (h : w.Sound codec checksum)
    (hfits : Fits codec call.env) (hstep : w.step cfg codec checksum call = some next) :
    next.Sound codec checksum ∧ next.stored codec checksum = w.stored codec checksum ++ [call.env] := by
  obtain ⟨before, _, written, _, hbefore, _, hwrote, hnext⟩ := Writer.step_spec h.healthy hstep
  obtain ⟨hsound, hstored⟩ := h.movedOn hbefore
  obtain ⟨hsound', hstored'⟩ := hsound.wroteTo hfits hwrote
  obtain ⟨hsound'', hstored''⟩ := hsound'.movedOn hnext
  exact ⟨hsound'', by rw [hstored'', hstored', hstored]⟩

/-- A run of calls whose envelopes fit keeps a writer sound and stores the envelopes. -/
theorem Writer.Sound.run {cfg : Config} {allowed : Writer → Call → Prop} {calls : List Call}
    (hfits : ∀ state call, allowed state call → Fits codec call.env)
    (hrun : Run (Writer.step cfg codec checksum) allowed w calls next) (h : w.Sound codec checksum) :
    next.Sound codec checksum ∧
      next.stored codec checksum = w.stored codec checksum ++ calls.map Call.env := by
  induction hrun with
  | nil => exact ⟨h, (List.append_nil _).symm⟩
  | cons hallowed hstep _ ih =>
    obtain ⟨hsound, hstored⟩ := h.step (hfits _ _ hallowed) hstep
    obtain ⟨hfinal, hall⟩ := ih hsound
    exact ⟨hfinal, by rw [hall, hstored, List.append_assoc]; rfl⟩

end Soundness

end SevenDB.RaftWal
