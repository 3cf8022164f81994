import SevenDB.Ironhawk.Subscribers

/-!
# Who is recorded after an action

When clients keep apart, an action changes the subscribers of a fingerprint only by its own client: a
successful watching or rebinding adds it, and a successful unwatching or the end of its connection
takes it off.
-/

namespace SevenDB.Ironhawk

open SevenDB.Common SevenDB.Emission

variable {T : Type} (fingerprint : Command → UInt64) (clientID : T → String)

/-- A client successfully watches a fingerprint or rebinds it to itself. -/
def Server.Subscribes (s : Server T) (client : String) (fp : UInt64) : ClientAction T → Prop
  | .watch t c logged executes _ =>
    clientID t = client ∧ fingerprint c = fp ∧ logged = true ∧ executes = true
  | .reconnect t args order =>
    clientID t = client ∧ s.reconnects clientID t args order ∧
      ∃ key subID rest, args = key :: subID :: rest ∧ rest ≠ [] ∧
        if (Cmd.clientAndFingerprint subID).2 ≠ 0 then (Cmd.clientAndFingerprint subID).2 = fp
        else (Cmd.clientAndFingerprint subID).1 ≠ "" ∧ fp ∈ s.watch.fingerprints key ∧
          (Cmd.clientAndFingerprint subID).1 ∈ s.watch.clients fp
  | .unwatch _ _ _ | .disconnect _ => False

/-- A client successfully unwatches a fingerprint, or its connection ends and it has no other. -/
def Server.Leaves (s : Server T) (client : String) (fp : UInt64) : ClientAction T → Prop
  | .unwatch t args logged =>
    clientID t = client ∧ logged = true ∧ ∃ text, args = [text] ∧ parseUint text = (fp, none)
  | .disconnect t =>
    clientID t = client ∧ ∀ existing ∈ s.watch.clientWatchThreadMap.lookup client, existing = t
  | .watch _ _ _ _ _ | .reconnect _ _ _ => False

variable {fingerprint clientID} {s : Server T} {client : String} {fp : UInt64}

/-- Binding a fingerprint for which nobody else is recorded adds the client to it and changes nothing
else. -/
theorem mem_clients_of_bound {w next : WatchManager T} {value : UInt64} {own : String}
    (hnext : ∀ other, next.clients other = if other = value then {own} else w.clients other)
    (hothers : w.clients value ⊆ {own}) :
    client ∈ next.clients fp ↔ (own = client ∧ value = fp) ∨ client ∈ w.clients fp := by
  rw [hnext]
  by_cases hfp : fp = value
  · rw [if_pos hfp, Finset.mem_singleton]
    constructor
    · exact fun h => Or.inl ⟨h.symm, hfp.symm⟩
    · rintro (h | h)
      · exact h.1.symm
      · rw [hfp] at h
        exact Finset.mem_singleton.mp (hothers h)
  · rw [if_neg hfp]
    exact (or_iff_right fun h => hfp h.2.symm).symm

/-- Watching apart from the others adds the client to the fingerprint and changes nothing else. -/
theorem mem_clients_handleWatch {t : T} {c : Command} {logged executes : Bool} {order : SearchOrder}
    (happart : KeepsApart fingerprint clientID s (.watch t c logged executes order)) :
    client ∈ (s.handleWatch fingerprint clientID t c logged executes order).watch.clients fp ↔
      (clientID t = client ∧ fingerprint c = fp ∧ logged = true ∧ executes = true) ∨
        client ∈ s.watch.clients fp := by
  cases logged with
  | false => exact (or_iff_right fun h => by cases h.2.2.1).symm
  | true =>
    obtain ⟨hexecutes, hothers, _⟩ := happart rfl
    have hclients (other : UInt64) :
        (s.handleWatch fingerprint clientID t c true executes order).watch.clients other =
          if other = fingerprint c then {clientID t} else s.watch.clients other := by
      obtain ⟨registered, hregistered⟩ :
          ∃ registered, s.watch.handleWatch true (fingerprint c) c (clientID t) t = some registered := ⟨_, rfl⟩
      rw [Server.handleWatch, hregistered]
      dsimp only
      rw [if_pos hexecutes, WatchManager.clients_registerThread, WatchManager.clients_rebindClientForFP,
        WatchManager.clients_handleWatch hregistered other]
      by_cases hother : other = fingerprint c
      · rw [if_pos hother, if_pos hother]
      · rw [if_neg hother, if_neg hother, if_neg hother]
    rw [mem_clients_of_bound hclients hothers]
    exact or_congr_left ⟨fun h => ⟨h.1, h.2, rfl, hexecutes⟩, fun h => ⟨h.1, h.2.1⟩⟩

theorem mem_clients_handleUnwatch (s : Server T) (t : T) (args : List String) (logged : Bool) :
    client ∈ (s.handleUnwatch clientID t args logged).watch.clients fp ↔
      client ∈ s.watch.clients fp ∧
        ¬ (clientID t = client ∧ logged = true ∧ ∃ text, args = [text] ∧ parseUint text = (fp, none)) := by
  unfold Server.handleUnwatch
  match args with
  | [] | _ :: _ :: _ => exact (and_iff_left fun ⟨_, _, _, heq, _⟩ => by cases heq).symm
  | [text] =>
    have hnamed : (∃ named, [text] = [named] ∧ parseUint named = (fp, none)) ↔ parseUint text = (fp, none) := by
      simp
    rw [hnamed, if_neg (by simp), WatchManager.handleUnwatch]
    rcases hparse : parseUint text with ⟨value, _ | error⟩
    · dsimp only
      by_cases hlogged : logged = true
      · rw [if_pos hlogged, WatchManager.clients_registerThread, WatchManager.clients_removeClient]
        by_cases hfp : fp = value
        · rw [if_pos hfp, Finset.mem_erase, ← hfp, and_comm]
          refine and_congr_right fun _ => not_congr ⟨fun h => ?_, fun h => h.1.symm⟩
          exact ⟨h.symm, hlogged, rfl⟩
        · rw [if_neg hfp]
          exact (and_iff_left fun h => hfp (congrArg Prod.fst h.2.2).symm).symm
      · rw [if_neg hlogged]
        exact (and_iff_left fun h => hlogged h.2.1).symm
    · exact (and_iff_left fun h => by cases h.2.2).symm

/-- Rebinding apart from the others adds the client to the fingerprint in the name and changes nothing
else; without a fingerprint it changes nothing. -/
theorem mem_clients_rebindReconnected {w : WatchManager T} {key subID own : String}
    (happart : w.ReconnectsApart key subID own) :
    client ∈ (w.rebindReconnected key subID own).clients fp ↔
      (own = client ∧
          if (Cmd.clientAndFingerprint subID).2 ≠ 0 then (Cmd.clientAndFingerprint subID).2 = fp
          else (Cmd.clientAndFingerprint subID).1 ≠ "" ∧ fp ∈ w.fingerprints key ∧
            (Cmd.clientAndFingerprint subID).1 ∈ w.clients fp) ∨
        client ∈ w.clients fp := by
  unfold WatchManager.ReconnectsApart at happart
  unfold WatchManager.rebindReconnected
  generalize Cmd.clientAndFingerprint subID = old at happart ⊢
  obtain ⟨oldClient, value⟩ := old
  dsimp only at happart ⊢
  by_cases hvalue : value ≠ 0
  · rw [if_pos hvalue] at happart
    rw [if_pos hvalue, if_pos hvalue]
    exact mem_clients_of_bound (fun other => w.clients_rebindClientForFP value other own) happart
  · rw [if_neg hvalue] at happart
    rw [if_neg hvalue, if_neg hvalue]
    by_cases hempty : oldClient ≠ ""
    · rw [if_pos hempty, WatchManager.clients_rebindClientForKey]
      by_cases hmoves : fp ∈ w.fingerprints key ∧ oldClient ∈ w.clients fp
      · have hown : oldClient = own := by
          by_contra hother
          exact happart hother fp hmoves.1 hmoves.2
        rw [if_pos hmoves, hown, Finset.insert_erase (hown ▸ hmoves.2)]
        refine ⟨Or.inr, fun h => ?_⟩
        rcases h with ⟨rfl, h⟩ | h
        · exact h.2.2
        · exact h
      · rw [if_neg hmoves]
        exact (or_iff_right fun h => hmoves h.2.2).symm
    · rw [if_neg hempty]
      exact (or_iff_right fun h => hempty h.2.1).symm

/-- Reconnecting apart from the others subscribes the client where it succeeds, and changes nothing
else. -/
theorem mem_clients_handleReconnect {t : T} {args : List String} {order : SearchOrder}
    (happart : KeepsApart fingerprint clientID s (.reconnect t args order)) :
    client ∈ (s.handleReconnect clientID t args order).watch.clients fp ↔
      s.Subscribes fingerprint clientID client fp (.reconnect t args order) ∨
        client ∈ s.watch.clients fp := by
  have hshort (h : ∀ key subID rest, args = key :: subID :: rest → rest = []) :
      ¬ s.Subscribes fingerprint clientID client fp (.reconnect t args order) := by
    rintro ⟨_, _, key, subID, rest, heq, hrest, _⟩
    exact hrest (h key subID rest heq)
  unfold Server.handleReconnect
  match args with
  | [] | [_] => exact (or_iff_right (hshort fun _ _ _ heq => by cases heq)).symm
  | [_, _] => exact (or_iff_right (hshort fun _ _ _ heq => by cases heq; rfl)).symm
  | key :: subID :: last :: rest =>
    dsimp only
    by_cases hok : s.reconnects clientID t (key :: subID :: last :: rest) order
    · rw [if_pos hok, mem_clients_rebindReconnected (w := s.watch.registerThread (clientID t) t) happart]
      refine or_congr_left ⟨fun h => ?_, fun h => ?_⟩
      · exact ⟨h.1, hok, key, subID, last :: rest, rfl, List.cons_ne_nil _ _, h.2⟩
      · obtain ⟨hown, _, _, _, _, heq, _, hbinds⟩ := h
        cases heq
        exact ⟨hown, hbinds⟩
    · rw [if_neg hok]
      exact (or_iff_right fun h => hok h.2.1).symm

/-- The end of a connection takes its client off every fingerprint when the client has no other. -/
theorem mem_clients_disconnect [DecidableEq T] (w : WatchManager T) (t : T) :
    client ∈ (w.cleanupThreadWatchSubscriptions (clientID t) t).1.clients fp ↔
      client ∈ w.clients fp ∧
        ¬ (clientID t = client ∧ ∀ existing ∈ w.clientWatchThreadMap.lookup client, existing = t) := by
  rw [WatchManager.clients_cleanup, WatchManager.cleanupThreadWatchSubscriptions]
  by_cases hother : ∃ existing ∈ w.clientWatchThreadMap.lookup (clientID t), existing ≠ t
  · rw [if_pos hother]
    obtain ⟨existing, hexisting, hne⟩ := hother
    refine (and_iff_left ?_).symm
    rintro ⟨rfl, hall⟩
    exact hne (hall existing hexisting)
  · rw [if_neg hother, if_pos rfl, Finset.mem_erase, and_comm]
    refine and_congr_right fun _ => not_congr ⟨?_, fun h => h.1.symm⟩
    rintro rfl
    refine ⟨rfl, fun existing hexisting => ?_⟩
    by_contra hne
    exact hother ⟨existing, hexisting, hne⟩

/-- What an action of clients that keep apart does to the subscribers. -/
theorem mem_clients_step [DecidableEq T] {action : ClientAction T} {next : Server T}
    (happart : KeepsApart fingerprint clientID s action)
    (hstep : s.step fingerprint clientID action = some next) :
    client ∈ next.watch.clients fp ↔
      s.Subscribes fingerprint clientID client fp action ∨
        client ∈ s.watch.clients fp ∧ ¬ s.Leaves clientID client fp action := by
  cases action with
  | watch t c logged executes order =>
    simp only [Server.step] at hstep
    split at hstep
    · cases hstep
      rw [mem_clients_handleWatch happart]
      exact or_congr_right (and_iff_left id).symm
    · cases hstep
  | unwatch t args logged =>
    cases hstep
    rw [mem_clients_handleUnwatch]
    exact (or_iff_right id).symm
  | reconnect t args order =>
    simp only [Server.step] at hstep
    split at hstep
    · cases hstep
      rw [mem_clients_handleReconnect happart]
      exact or_congr_right (and_iff_left id).symm
    · cases hstep
  | disconnect t =>
    cases hstep
    dsimp only
    rw [mem_clients_disconnect]
    exact (or_iff_right id).symm

end SevenDB.Ironhawk
