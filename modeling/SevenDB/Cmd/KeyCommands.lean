import SevenDB.Cmd.Results

/-!
# The commands on expiry times and types

EXPIRE and EXPIREAT set an expiry time under the same options. EXPIREAT refuses times that are more than ten
years after the start of the server.
-/

namespace SevenDB.Cmd

open SevenDB.Common SevenDB.Types SevenDB.Store

def expiryOutcome : Except ExpiryError Bool → Outcome
  | .ok isChanged => .returns (okResult (.changed isChanged))
  | .error e => .fails (.expiry e)

def evalEXPIRE : Eval := fun now args slot =>
  match args with
  | _ :: text :: opts =>
    match parseInt text with
    | none => (.fails (.invalidExpireTime "EXPIRE"), slot)
    | some sec =>
      if sec < 0 then (.fails (.invalidExpireTime "EXPIRE"), slot)
      else
        match slot.get now with
        | none => (.returns (okResult (.changed false)), none)
        | some obj =>
          let result := evaluateAndSetExpiry opts (now + sec * 1000) now (some obj)
          (expiryOutcome result.1, result.2)
  | _ => (.fails (.wrongArgumentCount "EXPIRE"), slot)

/-- EXPIREAT key unix-time with options, for a server that accepts times up to a limit. -/
def evalEXPIREAT (maxAbsTimestamp : Int64) : Eval := fun now args slot =>
  match args with
  | _ :: text :: opts =>
    match parseInt text with
    | none => (.fails (.invalidExpireTime "EXPIREAT"), slot)
    | some sec =>
      if sec < 0 ∨ maxAbsTimestamp < sec then (.fails (.invalidExpireTime "EXPIREAT"), slot)
      else
        let result := evaluateAndSetExpiry opts (sec * 1000) now slot
        (expiryOutcome result.1, result.2)
  | _ => (.fails (.wrongArgumentCount "EXPIREAT"), slot)

/-- A command that only looks its key up. -/
def evalLookup (command : String) (result : Int64 → Slot → Response) : Eval := fun now args slot =>
  match args with
  | [_] => (.returns (okResult (result now (slot.get now))), slot.get now)
  | _ => (.fails (.wrongArgumentCount command), slot)

/-- EXPIRETIME key: the expiry time in seconds, minus one without one, minus two without the key. -/
def evalEXPIRETIME : Eval := evalLookup "EXPIRETIME" fun _ found =>
  match found with
  | none => .number (-2)
  | some ⟨_, none⟩ => .number (-1)
  | some ⟨_, some exp⟩ => .number (exp / 1000)

/-- TTL key: the seconds left, minus one without an expiry time, minus two without the key. -/
def evalTTL : Eval := evalLookup "TTL" fun now found =>
  match found with
  | none => .number (-2)
  | some ⟨_, none⟩ => .number (-1)
  | some ⟨_, some exp⟩ => .number ((exp - now) / 1000)

def evalTYPE : Eval := evalLookup "TYPE" fun _ found =>
  match found with
  | none => .typeName "none"
  | some obj => .typeName obj.value.typeName

end SevenDB.Cmd
