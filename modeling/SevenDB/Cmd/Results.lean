import SevenDB.Store.Store

/-!
# Results of commands

A command returns a result for the client, or an error, or panics. A result has a status of its own: some
commands report a failure in a result with an error status. The many result messages of the wire protocol
are told apart here by the shape of what they carry.
-/

namespace SevenDB.Cmd

open SevenDB.Common SevenDB.Types

inductive Status
  | ok
  | err
  deriving DecidableEq, Repr

inductive Response
  | empty
  | value (text : GoString)
  | number (n : Int64)
  | changed (isChanged : Bool)
  | typeName (name : String)
  | fields (table : Table GoString GoString)
  | elements (list : List ZElement)
  | element (found : Option ZElement)
  | keys (found : Finset GoString)
  deriving DecidableEq

structure Result where
  status : Status
  message : String
  response : Response
  deriving DecidableEq

/-- A result with the status and the message of a success. -/
def okResult (response : Response) : Result := ⟨.ok, "OK", response⟩

inductive CmdError
  | unknownCmd (cmd : String)
  | wrongArgumentCount (command : String)
  | invalidSyntax (command : String)
  | invalidValue (command param : String)
  | invalidExpireTime (command : String)
  | integerOutOfRange
  | invalidNumberFormat
  | wrongTypeOperation
  | badPattern
  | expiry (e : Store.ExpiryError)
  | zadd (e : SortedSet.ZAddError)
  deriving DecidableEq

def CmdError.text : CmdError → GoString
  | unknownCmd cmd => ascii "ERROR unknown command '" ++ cmd.toUTF8.data.toList ++ ascii "'"
  | wrongArgumentCount command => ascii ("wrong number of arguments for '" ++ command ++ "' command")
  | invalidSyntax command => ascii ("invalid syntax for '" ++ command ++ "' command")
  | invalidValue command param =>
    ascii ("invalid value for a parameter in '" ++ command ++ "' command for " ++ param ++ " parameter")
  | invalidExpireTime command => ascii ("invalid expire time in '" ++ command ++ "' command")
  | integerOutOfRange => ascii "value is not an integer or out of range"
  | invalidNumberFormat => ascii "value is not an integer or a float"
  | wrongTypeOperation => ascii "wrongtype operation against a key holding the wrong kind of value"
  | badPattern => ascii "syntax error in pattern"
  | expiry e => e.text
  | zadd e => ascii e.text

inductive Outcome
  | returns (result : Result)
  | fails (e : CmdError)
  | panics
  deriving DecidableEq

def Outcome.succeeds : Outcome → Bool
  | returns _ => true
  | fails _ | panics => false

/-- A command on one key: it reads the clock, its arguments and what stands under the key, which is the first
argument. -/
abbrev Eval := Int64 → List GoString → Store.Slot → Outcome × Store.Slot

end SevenDB.Cmd
