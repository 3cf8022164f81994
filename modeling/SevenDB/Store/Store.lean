import SevenDB.Common.FloatText
import SevenDB.Types.SortedSet

/-!
# The store

The store has an object under each key, and an expiry time for some objects, in milliseconds. A lookup of an
object that has expired deletes it. Commands work on what stands under a key, which is called a slot here; a
command on one key is a function of that slot. The stores of the shards are one table here: a key is only
ever looked up in the store of its own shard. Access times, eviction and the count of keys are left out.
-/

namespace SevenDB

open SevenDB.Common SevenDB.Types

namespace Store

/-- The values of objects, one constructor for each type of object that a command makes. -/
inductive Value
  | str (text : GoString)
  | int (n : Int64)
  | float (f : Binary64)
  | ssmap (fields : Table GoString GoString)
  | sortedSet (members : SortedSet)
  deriving DecidableEq

def Value.typeName : Value → String
  | str _ => "string"
  | int _ => "int"
  | float _ => "float"
  | ssmap _ => "ssmap"
  | sortedSet _ => "sortedset"

/-- An object with its expiry time, if it has one. -/
structure Entry where
  value : Value
  expiry : Option Int64
  deriving DecidableEq

/-- What stands under a key. -/
abbrev Slot := Option Entry

def Entry.hasExpired (now : Int64) (obj : Entry) : Bool :=
  match obj.expiry with
  | none => false
  | some exp => decide (exp ≤ now)

/-- Look an object up. What is found is also what stands under the key afterwards. -/
def Slot.get (slot : Slot) (now : Int64) : Slot := slot.filter fun obj => !obj.hasExpired now

@[simp] theorem Slot.get_none (now : Int64) : Slot.get none now = none := rfl

/-- What is found in a slot is what stands there, unless it has expired. -/
theorem Slot.get_some (obj : Entry) (now : Int64) :
    Slot.get (some obj) now = if obj.hasExpired now then none else some obj := by
  rw [Slot.get, Option.filter_some]
  cases obj.hasExpired now <;> rfl

theorem Slot.get_eq_self {slot : Slot} {now : Int64} (h : slot.get now ≠ none) : slot.get now = slot := by
  cases slot with
  | none => rfl
  | some obj =>
    rw [Slot.get_some] at h ⊢
    split at h
    · exact absurd rfl h
    · next hlive => rw [if_neg hlive]

@[simp] theorem Slot.get_get (slot : Slot) (now : Int64) : (slot.get now).get now = slot.get now := by
  simp [Slot.get, Option.filter_filter]

theorem Slot.get_found {slot found : Slot} {now : Int64} (h : slot.get now = found) : found.get now = found := by
  rw [← h, Slot.get_get]

/-- Make an object that expires after some milliseconds, or never when these are negative. -/
def newObj (now : Int64) (value : Value) (expDurationMs : Int64) : Entry :=
  ⟨value, if 0 ≤ expDurationMs then some (now + expDurationMs) else none⟩

/-- Put an object under a key. With KeepTTL it gets the expiry time of the object that it replaces. -/
def Slot.put (slot : Slot) (keepTTL : Bool) (obj : Entry) : Slot :=
  match slot.bind Entry.expiry with
  | some exp => if keepTTL ∧ 0 < exp then some { obj with expiry := some exp } else some obj
  | none => some obj

/-- An object that is put without KEEPTTL has its own expiry time. -/
@[simp] theorem Slot.put_false (slot : Slot) (obj : Entry) : slot.put false obj = some obj := by
  unfold Slot.put
  split
  · rw [if_neg]
    simp
  · rfl

inductive ExpiryError
  | unsupportedOption (option : GoString)
  | gtAndLt
  | nxAndOthers
  deriving DecidableEq, Repr

def ExpiryError.text : ExpiryError → GoString
  | unsupportedOption option => ascii "unsupported option " ++ option
  | gtAndLt => ascii "GT and LT options at the same time are not compatible"
  | nxAndOthers => ascii "NX and XX, GT or LT options at the same time are not compatible"

/-- The options of an expiry that have been read, and whether one of them asks for the expiry to be set. -/
structure ExpiryOptions where
  nx : Bool
  xx : Bool
  gt : Bool
  lt : Bool
  shouldSet : Bool
  deriving DecidableEq, Repr

/-- Read the options of an expiry, given the expiry time that the object has. -/
def readExpiryOptions (prev : Option Int64) (newExpiry : Int64) :
    ExpiryOptions → List GoString → Except ExpiryError ExpiryOptions
  | opts, [] => .ok opts
  | opts, sub :: rest =>
    if toUpper sub = ascii "NX" then
      readExpiryOptions prev newExpiry
        { opts with nx := true, shouldSet := opts.shouldSet || decide (prev = none) } rest
    else if toUpper sub = ascii "XX" then
      readExpiryOptions prev newExpiry
        { opts with xx := true, shouldSet := opts.shouldSet || decide (prev ≠ none) } rest
    else if toUpper sub = ascii "GT" then
      readExpiryOptions prev newExpiry
        { opts with gt := true, shouldSet := opts.shouldSet || prev.any fun old => decide (old < newExpiry) } rest
    else if toUpper sub = ascii "LT" then
      readExpiryOptions prev newExpiry
        { opts with lt := true, shouldSet := opts.shouldSet || prev.any fun old => decide (newExpiry < old) } rest
    else .error (.unsupportedOption sub)

/-- Set the expiry time of an object as the options ask for. The result says whether it counts as changed:
with XX an object without an expiry time gets one, but does not count. -/
def evaluateAndSetExpiry (subCommands : List GoString) (newExpiry : Int64) (now : Int64) (slot : Slot) :
    Except ExpiryError Bool × Slot :=
  match slot.get now with
  | none => (.ok false, none)
  | some obj =>
    let set : Slot := some { obj with expiry := some newExpiry }
    if subCommands = [] then (.ok true, set)
    else
      match readExpiryOptions obj.expiry newExpiry ⟨false, false, false, false, false⟩ subCommands with
      | .error e => (.error e, some obj)
      | .ok opts =>
        if !opts.nx && opts.gt && opts.lt then (.error .gtAndLt, some obj)
        else if opts.nx && (opts.xx || opts.gt || opts.lt) then (.error .nxAndOthers, some obj)
        else if opts.shouldSet then (.ok true, set)
        else if opts.xx && decide (obj.expiry = none) then (.ok false, set)
        else (.ok false, some obj)

end Store

/-- The store: an object under each key. -/
abbrev Store := Table GoString Store.Entry

namespace Store

def slot (s : Store) (key : GoString) : Slot := s.lookup key

def setSlot (s : Store) (key : GoString) : Slot → Store
  | none => s.erase key
  | some obj => s.insert key obj

@[simp] theorem slot_setSlot (s : Store) (key other : GoString) (new : Slot) :
    (s.setSlot key new).slot other = if other = key then new else s.slot other := by
  cases new with
  | none => exact Table.lookup_erase_eq_ite s key other
  | some obj => exact Table.lookup_insert_eq_ite s key other obj

theorem ext_slot {s t : Store} (h : ∀ key, s.slot key = t.slot key) : s = t := Finmap.ext_lookup h

@[simp] theorem setSlot_self (s : Store) (key : GoString) : s.setSlot key (s.slot key) = s := by
  apply ext_slot
  intro other
  rw [slot_setSlot]
  split
  · next heq => rw [heq]
  · rfl

end Store

end SevenDB
