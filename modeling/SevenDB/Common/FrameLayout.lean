import Mathlib.Algebra.Ring.Nat
import Mathlib.Data.List.Basic
import Mathlib.Order.Nat

/-!
# Frames with a header of eight bytes

A frame is a header of eight bytes, which holds a checksum and the length of the payload in some order,
and the payload. A stream is taken apart from its front. It ends cleanly after a frame, inside a header,
or inside a payload. Streams that end cleanly compose, and cutting such a stream off leaves the frames
that fit. Taking a stream apart does not verify checksums.
-/

namespace SevenDB.Common

/-- A frame as it is found in a stream, its checksum not verified. -/
structure RawFrame where
  sum : UInt32
  payload : List UInt8
  deriving DecidableEq, Repr

/-- How a stream ends: after a frame, inside a header, or inside a payload of some length. -/
inductive Ending
  | clean
  | tornHeader
  | tornPayload (size : ℕ)
  deriving DecidableEq, Repr

def RawFrame.length (f : RawFrame) : ℕ := 8 + f.payload.length

/-- The number of leading frames that lie within a number of bytes. -/
def framesWithin : ℕ → List RawFrame → ℕ
  | _, [] => 0
  | count, f :: rest => if f.length ≤ count then framesWithin (count - f.length) rest + 1 else 0

/-- How a stream of frames ends when it is cut off after a number of bytes. -/
def cutEnding : ℕ → List RawFrame → Ending
  | _, [] => .clean
  | count, f :: rest =>
    if f.length ≤ count then cutEnding (count - f.length) rest
    else if count = 0 then .clean
    else if count < 8 then .tornHeader
    else .tornPayload f.payload.length

/-- How the checksum and the length of a payload are put into a header. -/
structure FrameLayout where
  header : UInt32 → UInt32 → List UInt8
  sumOf : List UInt8 → UInt32
  sizeOf : List UInt8 → UInt32
  length_header : ∀ sum size, (header sum size).length = 8
  sumOf_header : ∀ sum size, sumOf (header sum size) = sum
  sizeOf_header : ∀ sum size, sizeOf (header sum size) = size

/-- A stream that is long enough for a header is a header and a body. -/
theorem exists_header {bytes : List UInt8} (h : 8 ≤ bytes.length) :
    ∃ header body, bytes = header ++ body ∧ header.length = 8 :=
  ⟨bytes.take 8, bytes.drop 8, (List.take_append_drop 8 bytes).symm, List.length_take_of_le h⟩

namespace FrameLayout

variable (layout : FrameLayout)

/-- Take at most a given number of frames off the front of a stream. -/
def scanFrames : ℕ → List UInt8 → List RawFrame × Ending
  | 0, _ => ([], .clean)
  | count + 1, bytes =>
    if bytes = [] then ([], .clean)
    else if bytes.length < 8 then ([], .tornHeader)
    else
      let header := bytes.take 8
      let body := bytes.drop 8
      let size := (layout.sizeOf header).toNat
      if body.length < size then ([], .tornPayload size)
      else
        let rest := scanFrames count (body.drop size)
        (⟨layout.sumOf header, body.take size⟩ :: rest.1, rest.2)

/-- Take a stream apart. A frame takes bytes, so there are at most as many frames as bytes. -/
def scan (bytes : List UInt8) : List RawFrame × Ending := layout.scanFrames bytes.length bytes

variable {layout}

variable {bytes : List UInt8}

theorem scanFrames_eq_scan {count : ℕ} (h : bytes.length ≤ count) :
    layout.scanFrames count bytes = layout.scan bytes := by
  unfold scan
  generalize hlength : bytes.length = length at h
  induction count using Nat.strong_induction_on generalizing bytes length with
  | _ count ih =>
    subst hlength
    match count, bytes with
    | 0, [] => rfl
    | 0, byte :: rest => exact absurd h (by simp)
    | count + 1, [] => rfl
    | count + 1, byte :: rest =>
      have hcount : rest.length ≤ count := Nat.le_of_succ_le_succ h
      have hdrop (size : ℕ) : (((byte :: rest).drop 8).drop size).length ≤ rest.length := by
        rw [List.length_drop, List.length_drop, List.length_cons]
        omega
      have hrest (size : ℕ) : layout.scanFrames count (((byte :: rest).drop 8).drop size) =
          layout.scanFrames rest.length (((byte :: rest).drop 8).drop size) := by
        rw [ih count (Nat.lt_succ_self count) _ rfl ((hdrop size).trans hcount),
          ← ih rest.length (Nat.lt_succ_of_le hcount) _ rfl (hdrop size)]
      rw [List.length_cons, scanFrames, scanFrames]
      dsimp only
      rw [hrest]

theorem scan_short (hne : bytes ≠ []) (hlt : bytes.length < 8) : layout.scan bytes = ([], .tornHeader) := by
  obtain ⟨count, hcount⟩ := Nat.exists_eq_succ_of_ne_zero (mt List.length_eq_zero_iff.mp hne)
  rw [scan, hcount, scanFrames, if_neg hne, if_pos hlt]

/-- A stream that begins with a header goes on with the payload that the header announces. -/
theorem scan_header_append {header : List UInt8} (hheader : header.length = 8) (body : List UInt8) :
    layout.scan (header ++ body) =
      if body.length < (layout.sizeOf header).toNat then ([], .tornPayload (layout.sizeOf header).toNat)
      else (⟨layout.sumOf header, body.take (layout.sizeOf header).toNat⟩ ::
        (layout.scan (body.drop (layout.sizeOf header).toNat)).1,
        (layout.scan (body.drop (layout.sizeOf header).toNat)).2) := by
  have hlength : (header ++ body).length = body.length + 7 + 1 := by rw [List.length_append, hheader]; omega
  have hne : header ++ body ≠ [] := by
    intro hnil
    rw [hnil] at hlength
    cases hlength
  rw [scan, hlength, scanFrames, if_neg hne, if_neg (by omega), List.take_left' hheader, List.drop_left' hheader]
  dsimp only
  rw [scanFrames_eq_scan]
  rw [List.length_drop]
  omega

/-- The rule for streams: one that ends cleanly is its first frame and a stream that ends cleanly. -/
theorem cleanStream_induction {motive : (bytes : List UInt8) → (layout.scan bytes).2 = .clean → Prop}
    (nil : motive [] rfl)
    (frame : ∀ header body (_ : header.length = 8) (_ : (layout.sizeOf header).toNat ≤ body.length)
      (hrest : (layout.scan (body.drop (layout.sizeOf header).toNat)).2 = .clean),
      motive (body.drop (layout.sizeOf header).toNat) hrest → ∀ h, motive (header ++ body) h)
    (bytes : List UInt8) (h : (layout.scan bytes).2 = .clean) : motive bytes h := by
  generalize hlength : bytes.length = length
  induction length using Nat.strong_induction_on generalizing bytes with
  | _ length ih =>
    subst hlength
    by_cases hne : bytes = []
    · subst hne
      exact nil
    · by_cases hlt : bytes.length < 8
      · rw [scan_short hne hlt] at h
        cases h
      · obtain ⟨header, body, rfl, hheader⟩ := exists_header (Nat.not_lt.mp hlt)
        have hrest := h
        rw [scan_header_append hheader] at hrest
        split at hrest
        · cases hrest
        · next hsize =>
          refine frame header body hheader (Nat.not_lt.mp hsize) hrest (ih _ ?_ _ hrest rfl) h
          rw [List.length_drop, List.length_append, hheader]
          omega

theorem scan_append {front : List UInt8} (h : (layout.scan front).2 = .clean) (back : List UInt8) :
    layout.scan (front ++ back) = ((layout.scan front).1 ++ (layout.scan back).1, (layout.scan back).2) := by
  induction front, h using cleanStream_induction with
  | nil => rfl
  | frame header body hheader hsize _ ih =>
    rw [List.append_assoc, scan_header_append hheader, scan_header_append hheader,
      if_neg (by rw [List.length_append]; omega), if_neg (by omega), List.take_append_of_le_length hsize,
      List.drop_append_of_le_length hsize, ih]
    rfl

/-- Cutting off a stream that ends cleanly leaves the frames that fit. -/
theorem scan_take (h : (layout.scan bytes).2 = .clean) (count : ℕ) :
    layout.scan (bytes.take count) =
      ((layout.scan bytes).1.take (framesWithin count (layout.scan bytes).1),
        cutEnding count (layout.scan bytes).1) := by
  induction bytes, h using cleanStream_induction generalizing count with
  | nil => rw [List.take_nil]; rfl
  | frame header body hheader hsize _ ih =>
    rw [scan_header_append hheader, if_neg (by omega)]
    dsimp only
    have hlength : RawFrame.length ⟨layout.sumOf header, body.take (layout.sizeOf header).toNat⟩ =
        8 + (layout.sizeOf header).toNat := by
      rw [RawFrame.length, List.length_take_of_le hsize]
    rw [framesWithin, cutEnding, hlength]
    by_cases hshort : count < 8
    · rw [if_neg (by omega), if_neg (by omega), if_pos hshort, List.take_zero]
      by_cases hzero : count = 0
      · rw [if_pos hzero, hzero, List.take_zero]
        rfl
      · have hbytes : ((header ++ body).take count).length = count := by
          rw [List.length_take_of_le]
          rw [List.length_append]
          omega
        rw [if_neg hzero, scan_short]
        · intro hnil
          rw [hnil] at hbytes
          exact hzero hbytes.symm
        · omega
    · rw [List.take_append, List.take_of_length_le (by omega), hheader, scan_header_append hheader]
      by_cases hfits : 8 + (layout.sizeOf header).toNat ≤ count
      · rw [if_pos hfits, if_pos hfits, if_neg (by rw [List.length_take]; omega), List.take_take,
          Nat.min_eq_left (by omega), List.drop_take, Nat.sub_sub, ih]
        rfl
      · rw [if_neg hfits, if_neg hfits, if_pos (by rw [List.length_take]; omega), if_neg (by omega),
          if_neg hshort, List.length_take_of_le hsize]
        rfl

/-- The first frame of a stream stays the first when more bytes follow. -/
theorem scan_cons_append {front : List UInt8} {f : RawFrame} {rest : List RawFrame}
    (h : (layout.scan front).1 = f :: rest) (back : List UInt8) :
    ∃ more, (layout.scan (front ++ back)).1 = f :: more := by
  by_cases hne : front = []
  · rw [hne] at h
    cases h
  · by_cases hlt : front.length < 8
    · rw [scan_short hne hlt] at h
      cases h
    · obtain ⟨header, body, rfl, hheader⟩ := exists_header (Nat.not_lt.mp hlt)
      rw [scan_header_append hheader] at h
      by_cases hsize : body.length < (layout.sizeOf header).toNat
      · rw [if_pos hsize] at h
        cases h
      · rw [if_neg hsize] at h
        rw [List.append_assoc, scan_header_append hheader, if_neg (by rw [List.length_append]; omega),
          List.take_append_of_le_length (Nat.not_lt.mp hsize), ← (List.cons.inj h).1]
        exact ⟨_, rfl⟩

/-- The frames of a stream that ends cleanly are as long as the stream. -/
theorem sum_length_scan (h : (layout.scan bytes).2 = .clean) :
    ((layout.scan bytes).1.map RawFrame.length).sum = bytes.length := by
  induction bytes, h using cleanStream_induction with
  | nil => rfl
  | frame header body hheader hsize _ ih =>
    rw [scan_header_append hheader, if_neg (by omega), List.map_cons, List.sum_cons, ih, RawFrame.length,
      List.length_take_of_le hsize, List.length_drop, List.length_append, hheader]
    omega

variable (layout) (checksum : List UInt8 → UInt32)

def frame (payload : List UInt8) : List UInt8 :=
  layout.header (checksum payload) (UInt32.ofNat payload.length) ++ payload

@[simp] theorem length_frame (payload : List UInt8) :
    (layout.frame checksum payload).length = 8 + payload.length := by
  rw [frame, List.length_append, layout.length_header]

/-- A frame whose length fits its field is taken off as it was put on. -/
theorem scan_frame {payload : List UInt8} (h : payload.length < 2 ^ 32) :
    layout.scan (layout.frame checksum payload) = ([⟨checksum payload, payload⟩], .clean) := by
  rw [frame, scan_header_append (layout.length_header _ _), layout.sumOf_header, layout.sizeOf_header,
    UInt32.toNat_ofNat_of_lt' h, if_neg (Nat.lt_irrefl _), List.take_length, List.drop_length]
  rfl

theorem scan_of_isPrefix_frame {payload sent : List UInt8} (h : payload.length < 2 ^ 32)
    (hsent : sent <+: layout.frame checksum payload) (hne : sent ≠ layout.frame checksum payload) :
    (layout.scan sent).1 = [] := by
  have hframe := layout.scan_frame checksum h
  have hlength : ¬ RawFrame.length ⟨checksum payload, payload⟩ ≤ sent.length := by
    rw [RawFrame.length, ← layout.length_frame checksum payload, Nat.not_le]
    exact Nat.lt_of_le_of_ne hsent.length_le fun heq => hne (hsent.eq_of_length heq)
  rw [List.prefix_iff_eq_take.mp hsent, scan_take (by rw [hframe]), hframe]
  dsimp only
  rw [framesWithin, if_neg hlength, List.take_zero]

/-- Payloads as frames, one after another. -/
def stream (payloads : List (List UInt8)) : List UInt8 := payloads.flatMap (layout.frame checksum)

theorem scan_stream {payloads : List (List UInt8)} (h : ∀ payload ∈ payloads, payload.length < 2 ^ 32) :
    layout.scan (layout.stream checksum payloads) =
      (payloads.map fun payload => ⟨checksum payload, payload⟩, .clean) := by
  induction payloads with
  | nil => rfl
  | cons payload rest ih =>
    have hfirst := layout.scan_frame checksum (h payload List.mem_cons_self)
    rw [stream, List.flatMap_cons, scan_append (by rw [hfirst]), hfirst]
    change (_ ++ (layout.scan (layout.stream checksum rest)).1, (layout.scan (layout.stream checksum rest)).2) = _
    rw [ih fun other hother => h other (List.mem_cons_of_mem payload hother)]
    rfl

/-- A stream that is cut off after a frame is the stream of the payloads before the cut. -/
theorem take_stream (payloads : List (List UInt8)) {count : ℕ}
    (h : cutEnding count (payloads.map fun payload => ⟨checksum payload, payload⟩) = .clean) :
    (layout.stream checksum payloads).take count =
      layout.stream checksum (payloads.take
        (framesWithin count (payloads.map fun payload => ⟨checksum payload, payload⟩))) := by
  induction payloads generalizing count with
  | nil => exact List.take_nil
  | cons payload rest ih =>
    have hlength : RawFrame.length ⟨checksum payload, payload⟩ = (layout.frame checksum payload).length :=
      (layout.length_frame checksum payload).symm
    rw [List.map_cons, cutEnding, hlength] at h
    rw [List.map_cons, framesWithin, hlength, stream, List.flatMap_cons]
    by_cases hfits : (layout.frame checksum payload).length ≤ count
    · rw [if_pos hfits] at h
      rw [if_pos hfits, List.take_append, List.take_of_length_le hfits, List.take_succ_cons]
      exact congrArg (layout.frame checksum payload ++ ·) (ih h)
    · have hzero : count = 0 := by
        by_contra hne
        rw [if_neg hfits, if_neg hne] at h
        split at h <;> cases h
      rw [if_neg hfits, hzero, List.take_zero, List.take_zero]
      rfl

end FrameLayout

end SevenDB.Common
