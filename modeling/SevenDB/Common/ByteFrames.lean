import SevenDB.Common.FrameLayout

/-!
# Frames in a stream of bytes

The header of a frame is a checksum and the length of the payload, each in four little-endian bytes.
Either may come first. Streams of frames whose checksum comes first are taken apart here as they are
read, and what holds of every layout of a header holds of them.
-/

namespace SevenDB.Common

/-- A number as a given count of little-endian bytes. -/
def leBytes : ℕ → ℕ → List UInt8
  | 0, _ => []
  | width + 1, n => UInt8.ofNat n :: leBytes width (n / 256)

/-- The number that little-endian bytes denote. -/
def leValue : List UInt8 → ℕ
  | [] => 0
  | byte :: rest => byte.toNat + 256 * leValue rest

@[simp] theorem length_leBytes (width n : ℕ) : (leBytes width n).length = width := by
  induction width generalizing n with
  | zero => rfl
  | succ width ih => rw [leBytes, List.length_cons, ih]

theorem leValue_leBytes {width n : ℕ} (h : n < 256 ^ width) : leValue (leBytes width n) = n := by
  induction width generalizing n with
  | zero =>
    rw [Nat.pow_zero] at h
    rw [leBytes, leValue]
    omega
  | succ width ih =>
    have hrest : n / 256 < 256 ^ width := by
      rw [Nat.div_lt_iff_lt_mul (by decide), ← Nat.pow_succ]
      exact h
    rw [leBytes, leValue, ih hrest, UInt8.toNat_ofNat']
    omega

def putUint32 (n : UInt32) : List UInt8 := leBytes 4 n.toNat

def uint32 (bytes : List UInt8) : UInt32 := UInt32.ofNat (leValue bytes)

def putUint64 (n : UInt64) : List UInt8 := leBytes 8 n.toNat

def uint64 (bytes : List UInt8) : UInt64 := UInt64.ofNat (leValue bytes)

@[simp] theorem length_putUint32 (n : UInt32) : (putUint32 n).length = 4 := length_leBytes 4 _

@[simp] theorem length_putUint64 (n : UInt64) : (putUint64 n).length = 8 := length_leBytes 8 _

@[simp] theorem uint32_putUint32 (n : UInt32) : uint32 (putUint32 n) = n := by
  rw [uint32, putUint32, leValue_leBytes n.toNat_lt, UInt32.ofNat_toNat]

@[simp] theorem uint64_putUint64 (n : UInt64) : uint64 (putUint64 n) = n := by
  rw [uint64, putUint64, leValue_leBytes n.toNat_lt, UInt64.ofNat_toNat]

def sumFirst : FrameLayout where
  header sum size := putUint32 sum ++ putUint32 size
  sumOf header := uint32 (header.take 4)
  sizeOf header := uint32 (header.drop 4)
  length_header sum size := by rw [List.length_append, length_putUint32, length_putUint32]
  sumOf_header sum size := by rw [List.take_left' (length_putUint32 sum), uint32_putUint32]
  sizeOf_header sum size := by rw [List.drop_left' (length_putUint32 sum), uint32_putUint32]

def sizeFirst : FrameLayout where
  header sum size := putUint32 size ++ putUint32 sum
  sumOf header := uint32 (header.drop 4)
  sizeOf header := uint32 (header.take 4)
  length_header sum size := by rw [List.length_append, length_putUint32, length_putUint32]
  sumOf_header sum size := by rw [List.drop_left' (length_putUint32 size), uint32_putUint32]
  sizeOf_header sum size := by rw [List.take_left' (length_putUint32 size), uint32_putUint32]

/-- Take apart a stream of frames whose checksum comes first. -/
def scan (bytes : List UInt8) : List RawFrame × Ending := sumFirst.scan bytes

/-- A stream that begins with a header goes on with the payload that the header announces. -/
theorem scan_header_append {header : List UInt8} (hheader : header.length = 8) (body : List UInt8) :
    scan (header ++ body) =
      if body.length < (uint32 (header.drop 4)).toNat then ([], .tornPayload (uint32 (header.drop 4)).toNat)
      else (⟨uint32 (header.take 4), body.take (uint32 (header.drop 4)).toNat⟩ ::
        (scan (body.drop (uint32 (header.drop 4)).toNat)).1,
        (scan (body.drop (uint32 (header.drop 4)).toNat)).2) :=
  FrameLayout.scan_header_append hheader body

theorem scan_append {front : List UInt8} (h : (scan front).2 = .clean) (back : List UInt8) :
    scan (front ++ back) = ((scan front).1 ++ (scan back).1, (scan back).2) :=
  FrameLayout.scan_append h back

/-- Cutting off a stream that ends cleanly leaves the frames that fit. -/
theorem scan_take {bytes : List UInt8} (h : (scan bytes).2 = .clean) (count : ℕ) :
    scan (bytes.take count) =
      ((scan bytes).1.take (framesWithin count (scan bytes).1), cutEnding count (scan bytes).1) :=
  FrameLayout.scan_take h count

def frame (checksum : List UInt8 → UInt32) (payload : List UInt8) : List UInt8 :=
  putUint32 (checksum payload) ++ putUint32 (UInt32.ofNat payload.length) ++ payload

/-- Payloads as frames, one after another. -/
def stream (checksum : List UInt8 → UInt32) (payloads : List (List UInt8)) : List UInt8 :=
  payloads.flatMap (frame checksum)

end SevenDB.Common
