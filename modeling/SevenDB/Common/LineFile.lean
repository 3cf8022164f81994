import Mathlib.Data.List.Basic
import Mathlib.Logic.Encodable.Basic

/-!
# Records kept one to a line

A text file of records: each record is written as a line of its own. The reader takes the text
apart at the newlines, also when the last line has none, and leaves out the lines that hold no
record. What was written is read back as long as the text it was added to ends a line.
-/

namespace SevenDB.Common

/-- Records as single lines of text. -/
structure LineCodec (R : Type*) where
  encode : R → List Char
  decode : List Char → Option R
  decode_encode : ∀ record, decode (encode record) = some record
  encode_ne_nil : ∀ record, encode record ≠ []
  newline_notMem : ∀ record, '\n' ∉ encode record

/-- Parts of a text one after another, each ended by a separator. -/
def endEach (sep : Char) (parts : List (List Char)) : List Char := parts.flatMap fun part => part ++ [sep]

/-- Taking ended parts apart gives the parts, and an empty rest after the last separator. -/
theorem splitOn_endEach {sep : Char} {parts : List (List Char)} (hparts : ∀ part ∈ parts, sep ∉ part) :
    (endEach sep parts).splitOn sep = parts ++ [[]] := by
  induction parts with
  | nil => rfl
  | cons part rest ih =>
    have hcons : endEach sep (part :: rest) = part ++ sep :: endEach sep rest := by simp [endEach]
    rw [hcons, List.splitOn_append_cons_self_of_not_mem (hparts part List.mem_cons_self),
      ih fun other hother => hparts other (List.mem_cons_of_mem part hother), List.cons_append]

/-- A text is empty or ends with a newline. -/
def EndsLine (text : List Char) : Prop := text = [] ∨ ∃ front, text = front ++ ['\n']

theorem endsLine_endEach (lines : List (List Char)) : EndsLine (endEach '\n' lines) := by
  rcases List.eq_nil_or_concat lines with rfl | ⟨front, last, rfl⟩
  · exact Or.inl rfl
  · refine Or.inr ⟨endEach '\n' front ++ last, ?_⟩
    simp [endEach]

theorem EndsLine.append {text more : List Char} (htext : EndsLine text) (hmore : EndsLine more) :
    EndsLine (text ++ more) := by
  rcases hmore with rfl | ⟨front, rfl⟩
  · rw [List.append_nil]
    exact htext
  · exact Or.inr ⟨text ++ front, (List.append_assoc _ _ _).symm⟩

namespace LineCodec

variable {R : Type*} (codec : LineCodec R)

/-- The record that a line holds; an empty line holds none. -/
def readLine (line : List Char) : Option R := if line = [] then none else codec.decode line

def read (text : List Char) : List R := (text.splitOn '\n').filterMap codec.readLine

def write (records : List R) : List Char := endEach '\n' (records.map codec.encode)

theorem readLine_encode (record : R) : codec.readLine (codec.encode record) = some record := by
  rw [readLine, if_neg (codec.encode_ne_nil record), codec.decode_encode]

theorem read_endEach {lines : List (List Char)} (hlines : ∀ line ∈ lines, '\n' ∉ line) :
    codec.read (endEach '\n' lines) = lines.filterMap codec.readLine := by
  rw [read, splitOn_endEach hlines, List.filterMap_append]
  exact List.append_nil _

theorem read_write (records : List R) : codec.read (codec.write records) = records := by
  rw [write, codec.read_endEach, List.filterMap_map]
  · have hround : codec.readLine ∘ codec.encode = some := funext codec.readLine_encode
    rw [hround, List.filterMap_some]
  · intro line hline
    obtain ⟨record, _, rfl⟩ := List.mem_map.mp hline
    exact codec.newline_notMem record

theorem read_append {text : List Char} (htext : EndsLine text) (more : List Char) :
    codec.read (text ++ more) = codec.read text ++ codec.read more := by
  rcases htext with rfl | ⟨front, rfl⟩
  · rfl
  · rw [List.append_assoc, List.singleton_append, read, read, read, List.splitOn_append_cons_self,
      List.splitOn_append_cons_self, List.filterMap_append, List.filterMap_append]
    congr 1
    exact (List.append_nil _).symm

/-- One way to put countable records on lines: as many strokes as the number of the record, and one more. -/
def tally (R : Type*) [Encodable R] : LineCodec R where
  encode record := List.replicate (Encodable.encode record + 1) 'i'
  decode line := Encodable.decode (line.length - 1)
  decode_encode record := by rw [List.length_replicate, Nat.add_sub_cancel, Encodable.encodek]
  encode_ne_nil record := by simp
  newline_notMem record := by simp

end LineCodec

end SevenDB.Common
