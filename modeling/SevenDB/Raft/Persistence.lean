import Mathlib.Logic.Equiv.List
import Mathlib.Tactic.DeriveEncodable
import SevenDB.Common.LineFile
import SevenDB.Raft.Storage

/-!
# The files of a shard's raft state

Three files hold the raft state of a shard: the last snapshot, the last hard state, and the entries,
one to a line. The first two are written aside and renamed into place. Entries are only ever added
at the end. Each file operation may fail; a pattern says which, and how much of the buffered text
reaches the entry file before a write, the flush or the closing fails. How an entry is put on a line
is a parameter. Pruning, which rewrites the entry file, is not modelled.
-/

namespace SevenDB.Raft

open SevenDB.Common

/-- The files as the next start finds them; `none` is a file that does not exist. -/
structure Files where
  snapshot : Option Snapshot
  hardState : Option HardState
  entries : Option (List Char)

def Files.empty : Files := ⟨none, none, none⟩

def Files.text (files : Files) : List Char := files.entries.getD []

/-- The file operations that fail or succeed as a whole. -/
inductive FileOp
  | writeSnapshot
  | renameSnapshot
  | writeHardState
  | renameHardState
  | openEntries
  deriving DecidableEq, Repr

/-- Which operations fail, and how much of the buffered text reaches the entry file when not all
of the writes, the flush and the closing succeed. -/
structure Faults where
  fails : FileOp → Bool
  reached : Option ℕ

def Faults.clear : Faults := ⟨fun _ => false, none⟩

/-- The part of a buffered text that reaches the file. -/
def Faults.landed (faults : Faults) (text : List Char) : List Char :=
  match faults.reached with
  | none => text
  | some count => text.take count

/-- Write a snapshot aside and rename it into place; the result names the operation whose error is
returned. -/
def Files.writeSnapshot (files : Files) (faults : Faults) (snap : Snapshot) : Files × Option FileOp :=
  if faults.fails .writeSnapshot then (files, some .writeSnapshot)
  else if faults.fails .renameSnapshot then (files, some .renameSnapshot)
  else ({ files with snapshot := some snap }, none)

/-- Write a hard state aside and rename it into place. Neither error is returned. -/
def Files.writeHardState (files : Files) (faults : Faults) (hs : HardState) : Files :=
  if hs = .empty ∨ faults.fails .writeHardState ∨ faults.fails .renameHardState then files
  else { files with hardState := some hs }

section Codec

variable (codec : LineCodec Entry)

/-- Add entries at the end of their file. Only the error of opening the file is returned. -/
def Files.writeEntries (files : Files) (faults : Faults) (entries : List Entry) : Files × Option FileOp :=
  if entries = [] then (files, none)
  else if faults.fails .openEntries then (files, some .openEntries)
  else ({ files with entries := some (files.text ++ faults.landed (codec.write entries)) }, none)

/-- Write the hard state and the entries of what the raft library hands out. -/
def Files.writeState (files : Files) (faults : Faults) (rd : Ready) : Files × Option FileOp :=
  (files.writeHardState faults rd.hardState).writeEntries codec faults rd.entries

/-- Write the parts of what the raft library hands out, the snapshot first. -/
def Files.persist (files : Files) (faults : Faults) (rd : Ready) : Files × Option FileOp :=
  if rd.snapshot.index = 0 then files.writeState codec faults rd
  else
    match files.writeSnapshot faults rd.snapshot with
    | (files, some failed) => (files, some failed)
    | (files, none) => files.writeState codec faults rd

variable {lib : RaftStorage}

/-- What loading reports beside the storage. -/
structure LoadResult (lib : RaftStorage) where
  storage : lib.State
  loaded : Bool
  snapIdx : ℕ
  lastEntryIdx : ℕ

/-- Load the snapshot; one that the storage refuses is left out. -/
def Files.loadSnapshot (files : Files) (storage : lib.State) : LoadResult lib :=
  match files.snapshot with
  | none => ⟨storage, false, 0, 0⟩
  | some snap =>
    if snap.index = 0 then ⟨storage, false, 0, 0⟩
    else
      match lib.applySnapshot storage snap with
      | none => ⟨storage, false, 0, 0⟩
      | some storage => ⟨storage, true, snap.index, snap.index⟩

/-- Load the hard state; an empty one is left out. -/
def Files.loadHardState (files : Files) (result : LoadResult lib) : LoadResult lib :=
  match files.hardState with
  | none => result
  | some hs =>
    if hs = .empty then result
    else { result with storage := lib.setHardState result.storage hs, loaded := true }

/-- The highest index seen so far, going through the entries. -/
def highestIndex (start : ℕ) (entries : List Entry) : ℕ :=
  entries.foldl (fun last e => if last < e.index then e.index else last) start

/-- Load the entries with a single append; `none` is a panic of the storage. -/
def Files.loadEntries (files : Files) (result : LoadResult lib) : Option (LoadResult lib) :=
  let entries := codec.read files.text
  if entries = [] then some result
  else
    (lib.append result.storage entries).map fun storage =>
      { result with
        storage := storage
        loaded := true
        lastEntryIdx := highestIndex result.lastEntryIdx entries }

/-- Load the snapshot, the hard state and the entries into a storage. -/
def Files.load (files : Files) (storage : lib.State) : Option (LoadResult lib) :=
  files.loadEntries codec (files.loadHardState (files.loadSnapshot storage))

end Codec

/-- Bytes are counted by their values. -/
instance encodableByte : Encodable UInt8 := Encodable.ofLeftInverse UInt8.toNat UInt8.ofNat fun _ => UInt8.ofNat_toNat

deriving instance Encodable for EntryType
deriving instance Encodable for Entry

end SevenDB.Raft
