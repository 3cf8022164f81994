import SevenDB.Cmd.EmitCommands
import SevenDB.Ironhawk.WatchManager

/-!
# The bridge from emissions to connections

The notifier hands a data event to this sender, which finds the connections it goes to. The name of
the subscription is split at its first colon. A fingerprint after the colon selects the clients that
are recorded for it; without one the event goes to the client before the colon, and without a colon to
every connection. When no recorded client has accepted the event, their connections are tried once
more. What the connections answer is an argument, and so are the orders in which the two maps are
gone through.
-/

namespace SevenDB.Ironhawk

open SevenDB.Common SevenDB.Emission

/-- A result on the wire; the response to a GET carries the new value. -/
structure WireResult where
  status : Cmd.Status
  message : List UInt8
  fingerprint64 : UInt64
  getRes : Option (List UInt8)
  deriving DecidableEq

/-- The text of an emission: its position in brackets, then the delta. -/
def prefixedMsg (ev : DataEvent) : List UInt8 :=
  ("[emit_epoch=" ++ ev.emitSeq.epoch.bucketUUID ++ ":" ++ formatUint ev.emitSeq.epoch.epochCounter ++
    ", emit_commit_index=" ++ formatUint ev.emitSeq.commitIndex ++ "] ").toUTF8.data.toList ++ ev.delta

/-- The name of a command without the ending of its watched form. -/
def Command.base (c : Command) : String :=
  if ".WATCH".toList.isSuffixOf c.cmd.toList then String.ofList (c.cmd.toList.take (c.cmd.length - 6)) else c.cmd

/-- Read the remaining digits of a fingerprint after the value read so far; other characters make it
zero. -/
def parseFingerprint (value : UInt64) : List Char → UInt64
  | [] => value
  | c :: rest =>
    if c.isDigit then parseFingerprint (value * 10 + UInt64.ofNat (c.toNat - '0'.toNat)) rest else 0

/-- One send to the connection of a client and whether the connection took it. -/
structure Attempt (T : Type) where
  client : String
  thread : T
  rs : WireResult
  accepted : Bool

/-- What a send did, and the error that it returned. -/
structure BridgeOutcome (T : Type) where
  attempts : List (Attempt T)
  error : Option String

/-- The clients whose connections have accepted, in the order of the sends. -/
def delivered {T : Type} (attempts : List (Attempt T)) : List String :=
  (attempts.filter fun attempt => attempt.accepted).map Attempt.client

theorem delivered_cons {T : Type} (attempt : Attempt T) (rest : List (Attempt T)) :
    delivered (attempt :: rest) =
      if attempt.accepted = true then attempt.client :: delivered rest else delivered rest := by
  rw [delivered, List.filter_cons]
  split <;> rfl

theorem delivered_append {T : Type} (left right : List (Attempt T)) :
    delivered (left ++ right) = delivered left ++ delivered right := by
  rw [delivered, List.filter_append, List.map_append, delivered, delivered]

/-- The orders in which a send happens to go through the clients of the fingerprint and through the
connections. -/
structure SendOrder where
  targets : List String
  threads : List String

/-- What the connections answer: the first time they are tried, and when they are tried again. -/
structure Answers where
  first : String → Bool
  again : String → Bool

namespace WatchManager

variable {T : Type} (w : WatchManager T)

/-- The orders go through the maps of the watch manager. -/
def CoveredBy (order : SendOrder) (fp : UInt64) : Prop :=
  (order.targets.Nodup ∧ order.targets.toFinset = w.clients fp) ∧ Lists order.threads w.clientWatchThreadMap

instance (order : SendOrder) (fp : UInt64) : Decidable (w.CoveredBy order fp) :=
  inferInstanceAs (Decidable (_ ∧ _))

/-- The result for an event, with the value where the fingerprint is that of a GET. -/
def emissionResult (fp : UInt64) (ev : DataEvent) : WireResult where
  status := .ok
  message := prefixedMsg ev
  fingerprint64 := fp
  getRes :=
    if fp ≠ 0 ∧ ∃ c ∈ w.fpCmdMap.lookup fp, c.base = "GET" then some ev.delta else none

/-- Send a result to those of the clients that have a connection. -/
def sendTo (rs : WireResult) (accepts : String → Bool) : List String → List (Attempt T)
  | [] => []
  | client :: rest =>
    match w.clientWatchThreadMap.lookup client with
    | none => sendTo rs accepts rest
    | some thread => ⟨client, thread, rs, accepts client⟩ :: sendTo rs accepts rest

/-- Send an event to the targets, and where they are recorded for a fingerprint and none has accepted,
to all their connections once more. -/
def sendTargets (order : SendOrder) (answers : Answers) (ev : DataEvent) (fp : UInt64) (targetIDs : List String) :
    BridgeOutcome T :=
  let rs := w.emissionResult fp ev
  let tried := w.sendTo rs answers.first targetIDs
  let attempts :=
    if delivered tried = [] ∧ fp ≠ 0 then
      tried ++ w.sendTo rs answers.again (order.threads.filter fun client => client ∈ w.clients fp)
    else tried
  ⟨attempts,
    if delivered attempts = [] then
      some ("bridge: no active thread for client(s) [" ++ " ".intercalate targetIDs ++ "]")
    else none⟩

/-- Send an event to the connections it is meant for. -/
def send (order : SendOrder) (answers : Answers) (ev : DataEvent) : BridgeOutcome T :=
  match splitColon ev.subID with
  | none =>
    let attempts := w.sendTo (w.emissionResult 0 ev) answers.first order.threads
    ⟨attempts, if delivered attempts = [] then some ("bridge: no recipients for sub_id " ++ ev.subID) else none⟩
  | some (originalClientID, fpStr) =>
    let fp := parseFingerprint 0 fpStr.toList
    if fp ≠ 0 then
      if w.clients fp ≠ ∅ then w.sendTargets order answers ev fp order.targets
      else ⟨[], some ("bridge: no active subscribers for fp " ++ formatUint fp)⟩
    else w.sendTargets order answers ev fp [originalClientID]

theorem mem_sendTo {rs : WireResult} {accepts : String → Bool} {clients : List String} {attempt : Attempt T}
    (h : attempt ∈ w.sendTo rs accepts clients) :
    attempt.client ∈ clients ∧ w.clientWatchThreadMap.lookup attempt.client = some attempt.thread ∧
      attempt.rs = rs := by
  induction clients with
  | nil => cases h
  | cons client rest ih =>
    rw [sendTo] at h
    cases hthread : w.clientWatchThreadMap.lookup client with
    | none =>
      rw [hthread] at h
      exact ⟨List.mem_cons_of_mem client (ih h).1, (ih h).2⟩
    | some thread =>
      rw [hthread] at h
      rcases List.mem_cons.mp h with rfl | h
      · exact ⟨List.mem_cons_self, hthread, rfl⟩
      · exact ⟨List.mem_cons_of_mem client (ih h).1, (ih h).2⟩

/-- Who accepts what is sent to a list of clients: those with a connection that takes it. -/
theorem delivered_sendTo (rs : WireResult) (accepts : String → Bool) (clients : List String) :
    delivered (w.sendTo rs accepts clients) =
      clients.filter fun client => (w.clientWatchThreadMap.lookup client).isSome && accepts client := by
  induction clients with
  | nil => rfl
  | cons client rest ih =>
    rw [sendTo]
    cases hthread : w.clientWatchThreadMap.lookup client with
    | none => rw [ih, List.filter_cons_of_neg (by simp [hthread])]
    | some thread =>
      rw [delivered_cons, ih, List.filter_cons, hthread, Option.isSome_some, Bool.true_and]

end WatchManager

end SevenDB.Ironhawk
