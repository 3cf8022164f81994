import SevenDB.Common.Fields
import SevenDB.Ironhawk.WatchManager

/-!
# Subscriptions that are restored from the log

The watch manager logs a SUBSCRIBE record with the text of the watched command, in which name and arguments
are joined by blanks, and an UNSUBSCRIBE record. A restart rebuilds the subscriptions from these records. The
command is taken from its text again by splitting it at white space.
-/

namespace SevenDB.Ironhawk

open SevenDB.Common

/-- The text of a command, which is also what its fingerprint is the hash of. -/
def Command.text (c : Command) : String := c.cmd ++ " " ++ " ".intercalate c.args

def isSpace (c : Char) : Bool :=
  (9 ≤ c.toNat && c.toNat ≤ 13) || c.toNat == 0x20 || c.toNat == 0x85 || c.toNat == 0xA0 || c.toNat == 0x1680 ||
    (0x2000 ≤ c.toNat && c.toNat ≤ 0x200A) || c.toNat == 0x2028 || c.toNat == 0x2029 || c.toNat == 0x202F ||
    c.toNat == 0x205F || c.toNat == 0x3000

/-- The command in a text; none in a text of white space. -/
def commandOfText (commandStr : String) : Option Command :=
  match (fields isSpace commandStr.toList).map String.ofList with
  | [] => none
  | name :: args => some ⟨name, args⟩

/-- The name and the arguments of a command are words without white space. -/
def Command.Plain (c : Command) : Prop := ∀ word ∈ c.cmd :: c.args, IsWord isSpace word.toList

instance (c : Command) : Decidable c.Plain := List.decidableBAll _ _

theorem Command.toList_text (c : Command) :
    c.text.toList = c.cmd.toList ++ ' ' :: [' '].intercalate (c.args.map String.toList) := by
  simp [Command.text, String.toList_append, String.toList_intercalate]

theorem plain_of_commandOfText {commandStr : String} {c : Command} (h : commandOfText commandStr = some c) :
    c.Plain := by
  unfold commandOfText at h
  split at h
  · cases h
  · next name args hfields =>
    cases h
    intro word hword
    rw [← hfields] at hword
    obtain ⟨part, hpart, rfl⟩ := List.mem_map.mp hword
    rw [String.toList_ofList]
    exact isWord_of_mem_fields hpart

theorem Command.Plain.commandOfText_text {c : Command} (h : c.Plain) : commandOfText c.text = some c := by
  have hargs : ∀ word ∈ c.args.map String.toList, IsWord isSpace word := by
    intro word hword
    obtain ⟨arg, harg, rfl⟩ := List.mem_map.mp hword
    exact h arg (List.mem_cons_of_mem c.cmd harg)
  have hfields : (fields isSpace c.text.toList).map String.ofList = c.cmd :: c.args := by
    rw [c.toList_text, fields_append_cons (h c.cmd List.mem_cons_self) (by decide),
      fields_intercalate hargs (by decide)]
    simp [Function.comp_def]
  rw [commandOfText, hfields]

theorem Command.Plain.text_ne {c d : Command} (hc : c.Plain) (hd : d.Plain) (hne : c ≠ d) : c.text ≠ d.text := by
  intro htext
  have hsame := hc.commandOfText_text
  rw [htext, hd.commandOfText_text] at hsame
  exact hne (Option.some.inj hsame).symm

def subscribeRecord (clientID : String) (c : Command) (fp : UInt64) : Command :=
  ⟨"SUBSCRIBE", [clientID, c.text, formatUint fp]⟩

def unsubscribeRecord (clientID : String) (fp : UInt64) : Command := ⟨"UNSUBSCRIBE", [clientID, formatUint fp]⟩

namespace WatchManager

variable {T : Type}

/-- Rebuild a subscription; a text without a command is passed over. -/
def restoreSubscription (w : WatchManager T) (clientID commandStr : String) (fp : UInt64) : WatchManager T :=
  match commandOfText commandStr with
  | none => w
  | some c =>
    { w with
      keyFPMap := w.keyFPMap.insert c.key (insert fp (w.fingerprints c.key))
      fpClientMap := w.fpClientMap.insert fp (insert clientID (w.clients fp))
      fpCmdMap := w.fpCmdMap.insert fp c }

def removeSubscription (w : WatchManager T) (clientID : String) (fp : UInt64) : WatchManager T :=
  w.removeClient fp clientID

/-- Rebuild from a SUBSCRIBE record; records with too few arguments or no fingerprint are passed over. -/
def restoreSubscribe (w : WatchManager T) : List String → WatchManager T
  | clientID :: commandStr :: fpStr :: _ =>
    match parseUint fpStr with
    | (fp, none) => w.restoreSubscription clientID commandStr fp
    | (_, some _) => w
  | _ => w

/-- Rebuild from an UNSUBSCRIBE record; records with too few arguments or no fingerprint are passed over. -/
def restoreUnsubscribe (w : WatchManager T) : List String → WatchManager T
  | clientID :: fpStr :: _ =>
    match parseUint fpStr with
    | (fp, none) => w.removeSubscription clientID fp
    | (_, some _) => w
  | _ => w

end WatchManager

end SevenDB.Ironhawk
