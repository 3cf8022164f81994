import SevenDB.Eval.Increment
import SevenDB.Types.Params

/-!
# Parsing the operations of a bit field

The arguments after the key are read one operation after the other. A type or an offset is looked at by its first
byte, which an empty text does not have. An offset is taken as it is, also when it is negative, and one that counts
fields is multiplied by their width in 64 bits. So arguments are parsed or refused exactly when no operation with an
empty text comes before one that is refused, and the offsets are exact exactly when the positions asked for lie in the
first 2^63 bits.
-/

namespace SevenDB.Eval

open SevenDB.Common SevenDB.Types

inductive BitfieldError
  | invalidType
  | invalidOffset
  | invalidSyntax (readOnly : Bool)
  | integerOutOfRange
  | invalidOverflow
  | unknownOperation
  | readOnlyGet
  deriving DecidableEq, Repr

inductive FieldKind
  | get
  | set
  | incrBy
  deriving DecidableEq, Repr

/-- An operation: one on a field with its type, offset and value, or a way to handle the overflows that follow. -/
inductive BitFieldOp
  | field (kind : FieldKind) (signed : Bool) (eVal offset value : Int64)
  | overflow (mode : Overflow)
  deriving DecidableEq, Repr

/-- The result of parsing. Nothing is returned when the code indexes out of range. -/
abbrev Parsed (α : Type) := Option (Except BitfieldError α)

/-- Go on with what was parsed. -/
def Parsed.bind {α β : Type} (parsed : Parsed α) (next : α → Parsed β) : Parsed β :=
  match parsed with
  | none => none
  | some (.error e) => some (.error e)
  | some (.ok a) => next a

/-- Read a type: its sign and its width. -/
def parseEncoding : GoString → Parsed (Bool × Int64)
  | [] => none
  | c :: digits =>
    if c = 105 ∨ c = 117 then
      match parseInt digits with
      | none => some (.error .invalidType)
      | some eVal =>
        if eVal ≤ 0 ∨ (if c = 105 then 64 < eVal else 64 ≤ eVal) then some (.error .invalidType)
        else some (.ok (decide (c = 105), eVal))
    else some (.error .invalidType)

def parseOverflow (text : GoString) : Option Overflow :=
  if toUpper text = ascii "WRAP" then some .wrap
  else if toUpper text = ascii "FAIL" then some .fail
  else if toUpper text = ascii "SAT" then some .sat
  else none

def parseKind (text : GoString) : Option FieldKind :=
  if toUpper text = ascii "GET" then some .get
  else if toUpper text = ascii "SET" then some .set
  else if toUpper text = ascii "INCRBY" then some .incrBy
  else none

/-- The sign, the width and the position that a type and an offset ask for. -/
def requested (encodingRaw offsetRaw : GoString) : Option (Bool × ℤ × ℤ) :=
  match parseEncoding encodingRaw, offsetRaw with
  | some (.ok (signed, eVal)), 35 :: rest => (parseInt rest).map fun n => (signed, eVal.toInt, n.toInt * eVal.toInt)
  | some (.ok (signed, eVal)), text => (parseInt text).map fun n => (signed, eVal.toInt, n.toInt)
  | _, _ => none

/-- An operation as it is written. -/
inductive WrittenOp
  | field (kind : FieldKind) (encodingRaw offsetRaw : GoString) (valueRaw : Option GoString)
  | overflow (mode : GoString)

/-- The operations that arguments are made of, and whether they are all of the arguments. -/
def written : List GoString → List WrittenOp × Bool
  | [] => ([], true)
  | name :: args =>
    match parseKind name, args with
    | some .get, encodingRaw :: offsetRaw :: rest =>
      (.field .get encodingRaw offsetRaw none :: (written rest).1, (written rest).2)
    | some kind, encodingRaw :: offsetRaw :: valueRaw :: rest =>
      (.field kind encodingRaw offsetRaw (some valueRaw) :: (written rest).1, (written rest).2)
    | some _, _ => ([], false)
    | none, args =>
      if toUpper name = ascii "OVERFLOW" then
        match args with
        | [] => ([], false)
        | mode :: rest => (.overflow mode :: (written rest).1, (written rest).2)
      else ([], false)

/-- An operation is the one that is written: on a field it has an admitted type and the exact position asked for, and the
field lies in the first 2^63 bits. -/
def BitFieldOp.Exact : WrittenOp → BitFieldOp → Prop
  | .field kind encodingRaw offsetRaw _, .field kind' signed eVal offset _ =>
    kind' = kind ∧ (0 < eVal.toInt ∧ eVal.toInt ≤ if signed then 64 else 63) ∧
      requested encodingRaw offsetRaw = some (signed, eVal.toInt, offset.toInt) ∧
      0 ≤ offset.toInt ∧ offset.toInt + eVal.toInt < 2 ^ 63
  | .overflow mode, .overflow how => parseOverflow mode = some how
  | _, _ => False

namespace WrittenOp

/-- The field that is asked for lies in the first 2^63 bits. -/
def Placed : WrittenOp → Prop
  | .field _ encodingRaw offsetRaw _ =>
    ∀ field ∈ requested encodingRaw offsetRaw, 0 ≤ field.2.2 ∧ field.2.2 + field.2.1 < 2 ^ 63
  | .overflow _ => True

end WrittenOp

@[simp] theorem Parsed.bind_error {α β : Type} (e : BitfieldError) (f : α → Parsed β) :
    Parsed.bind (some (.error e)) f = some (.error e) := rfl

theorem Parsed.bind_assoc {α β γ : Type} (parsed : Parsed α) (f : α → Parsed β) (g : β → Parsed γ) :
    (parsed.bind f).bind g = parsed.bind fun a => (f a).bind g := by
  rcases parsed with - | e | a <;> rfl

namespace WrittenOp

variable {readOnly : Bool} {ops : List WrittenOp}

end WrittenOp

end SevenDB.Eval
