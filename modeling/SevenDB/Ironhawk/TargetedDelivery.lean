import SevenDB.Ironhawk.EmissionBridge

/-!
# Where an event is delivered

An event for a subscription goes to the clients that are recorded for its fingerprint, whoever its
name names. None of them accepts it twice, nobody else is sent it, and the send succeeds exactly when
one of them has accepted.
-/

namespace SevenDB.Ironhawk

open SevenDB.Common SevenDB.Emission

theorem takeWhile_ne_colon {front : List Char} (hfront : ':' ∉ front) (tail : List Char) :
    (front ++ ':' :: tail).takeWhile (fun c => c ≠ ':') = front := by
  rw [List.takeWhile_append_of_pos, List.takeWhile_cons_of_neg (by simp), List.append_nil]
  intro c hc
  rw [decide_eq_true_iff]
  exact ne_of_mem_of_not_mem hc hfront

theorem dropWhile_ne_colon {front : List Char} (hfront : ':' ∉ front) (tail : List Char) :
    (front ++ ':' :: tail).dropWhile (fun c => c ≠ ':') = ':' :: tail := by
  rw [List.dropWhile_append_of_pos, List.dropWhile_cons_of_neg (by simp)]
  intro c hc
  rw [decide_eq_true_iff]
  exact ne_of_mem_of_not_mem hc hfront

theorem splitColon_of_toList {text : String} {front tail : List Char}
    (htext : text.toList = front ++ ':' :: tail) (hfront : ':' ∉ front) :
    splitColon text = some (String.ofList front, String.ofList tail) := by
  rw [splitColon, htext, dropWhile_ne_colon hfront, takeWhile_ne_colon hfront]

/-- Digits are read as the word of their value, which wraps around. -/
theorem parseFingerprint_ofDigitChars (digits : List Char) (value : ℕ) (hdigits : ∀ c ∈ digits, c.isDigit) :
    parseFingerprint (UInt64.ofNat value) digits = UInt64.ofNat (Nat.ofDigitChars 10 digits value) := by
  induction digits generalizing value with
  | nil => simp [parseFingerprint]
  | cons c rest ih =>
    have hnext : UInt64.ofNat value * 10 + UInt64.ofNat (c.toNat - '0'.toNat) =
        UInt64.ofNat (10 * value + (c.toNat - '0'.toNat)) := by
      rw [UInt64.ofNat_add, UInt64.ofNat_mul, UInt64.mul_comm]
      rfl
    rw [parseFingerprint, if_pos (hdigits c List.mem_cons_self), hnext,
      ih _ fun d hd => hdigits d (List.mem_cons_of_mem c hd), Nat.ofDigitChars_cons]

theorem parseFingerprint_formatUint (fp : UInt64) : parseFingerprint 0 (formatUint fp).toList = fp := by
  have hlist : (formatUint fp).toList = Nat.toDigits 10 fp.toNat := Nat.toList_repr
  have hread := parseFingerprint_ofDigitChars (Nat.toDigits 10 fp.toNat) 0
    fun c hc => Nat.isDigit_of_mem_toDigits (by decide) (by decide) hc
  rw [Nat.ofDigitChars_ten_toDigits, UInt64.ofNat_toNat] at hread
  rw [hlist]
  exact hread

theorem parseFingerprint_colon (value : UInt64) {chars : List Char} (hcolon : ':' ∈ chars) :
    parseFingerprint value chars = 0 := by
  induction chars generalizing value with
  | nil => cases hcolon
  | cons c rest ih =>
    rw [parseFingerprint]
    split
    · next hdigit =>
      rcases List.mem_cons.mp hcolon with rfl | hrest
      · cases hdigit
      · exact ih _ hrest
    · rfl

/-- The part of a client's identifier before its first colon, which is all of it without one. -/
def beforeColon (client : String) : String := String.ofList (client.toList.takeWhile fun c => c ≠ ':')

/-- How the name of a subscription is taken apart. A colon in the identifier of the client hides the
fingerprint. -/
theorem splitColon_subIDOf (client : String) (fp : UInt64) :
    ∃ fpStr, splitColon (subIDOf client fp) = some (beforeColon client, fpStr) ∧
      parseFingerprint 0 fpStr.toList = if ':' ∈ client.toList then 0 else fp := by
  have hname : (subIDOf client fp).toList = client.toList ++ ':' :: (formatUint fp).toList := by
    simp [subIDOf]
  by_cases hcolon : ':' ∈ client.toList
  · obtain ⟨front, tail, hsplit, hfront⟩ := List.eq_append_cons_of_mem hcolon
    refine ⟨String.ofList (tail ++ ':' :: (formatUint fp).toList), ?_, ?_⟩
    · rw [beforeColon, hsplit, takeWhile_ne_colon hfront]
      exact splitColon_of_toList (by rw [hname, hsplit, List.append_assoc, List.cons_append]) hfront
    · rw [if_pos hcolon, String.toList_ofList]
      exact parseFingerprint_colon 0 (by simp)
  · refine ⟨formatUint fp, ?_, ?_⟩
    · rw [splitColon_of_toList hname hcolon, beforeColon, String.ofList_toList, String.ofList_toList,
        List.takeWhile_eq_self_iff.mpr, String.ofList_toList]
      intro c hc
      rw [decide_eq_true_iff]
      exact ne_of_mem_of_not_mem hc hcolon
    · rw [if_neg hcolon]
      exact parseFingerprint_formatUint fp

namespace WatchManager

variable {T : Type} (w : WatchManager T)

/-- A send reaches somebody exactly when a client has a connection that takes it. -/
theorem delivered_sendTo_ne_nil (rs : WireResult) (accepts : String → Bool) (clients : List String) :
    delivered (w.sendTo rs accepts clients) ≠ [] ↔
      ∃ client ∈ clients, client ∈ w.clientWatchThreadMap ∧ accepts client = true := by
  rw [delivered_sendTo, ne_eq, List.filter_eq_nil_iff]
  simp only [Bool.and_eq_true, Finmap.lookup_isSome, not_forall, not_not, exists_prop]

/-- The outcome of sending an event that is meant for a set of clients, whose connections may be tried a second
time: it is sent to nobody else, none of them accepts it twice, and it succeeds exactly when one of
them accepts. -/
structure Reaches (answers : Answers) (ev : DataEvent) (bound : Finset String) (retried : Prop)
    (outcome : BridgeOutcome T) : Prop where
  confined : ∀ attempt ∈ outcome.attempts, attempt.client ∈ bound ∧
    w.clientWatchThreadMap.lookup attempt.client = some attempt.thread ∧ attempt.rs.message = prefixedMsg ev
  nodup : (delivered outcome.attempts).Nodup
  error_iff : outcome.error = none ↔ delivered outcome.attempts ≠ []
  accepted_iff : outcome.error = none ↔ ∃ client ∈ bound, client ∈ w.clientWatchThreadMap ∧
    (answers.first client = true ∨ retried ∧ answers.again client = true)

section Targets

variable {order : SendOrder} {answers : Answers} {ev : DataEvent} {fp : UInt64} {targetIDs : List String}

/-- Targets recorded for a fingerprint that have all failed are tried again: nobody else is sent the
event, and those accept it whose connection takes it now. -/
theorem delivered_again (answers : Answers) (fp : UInt64) (rs : WireResult)
    (hthreads : Lists order.threads w.clientWatchThreadMap) :
    (delivered (w.sendTo rs answers.again (order.threads.filter fun client => client ∈ w.clients fp))).Nodup ∧
      (delivered (w.sendTo rs answers.again (order.threads.filter fun client => client ∈ w.clients fp)) ≠ [] ↔
        ∃ client ∈ w.clients fp, client ∈ w.clientWatchThreadMap ∧ answers.again client = true) := by
  constructor
  · rw [delivered_sendTo]
    exact (hthreads.1.filter _).filter _
  · rw [delivered_sendTo_ne_nil]
    constructor
    · rintro ⟨client, hclient, hconnected, haccepts⟩
      rw [List.mem_filter, decide_eq_true_iff] at hclient
      exact ⟨client, hclient.2, hconnected, haccepts⟩
    · rintro ⟨client, hclient, hconnected, haccepts⟩
      have hlisted : client ∈ order.threads := by
        rw [← List.mem_toFinset, hthreads.2, Finmap.mem_keys]
        exact hconnected
      exact ⟨client, List.mem_filter.mpr ⟨hlisted, decide_eq_true hclient⟩, hconnected, haccepts⟩

/-- Who accepts an event that is sent to targets, none of them twice. -/
theorem delivered_sendTargets (answers : Answers) (ev : DataEvent) (hnodup : targetIDs.Nodup)
    (hthreads : Lists order.threads w.clientWatchThreadMap)
    (hrecorded : fp ≠ 0 → targetIDs.toFinset = w.clients fp) :
    (delivered (w.sendTargets order answers ev fp targetIDs).attempts).Nodup ∧
      (delivered (w.sendTargets order answers ev fp targetIDs).attempts ≠ [] ↔
        ∃ client ∈ targetIDs.toFinset, client ∈ w.clientWatchThreadMap ∧
          (answers.first client = true ∨ fp ≠ 0 ∧ answers.again client = true)) := by
  have hfirst := w.delivered_sendTo_ne_nil (w.emissionResult fp ev) answers.first targetIDs
  have hagain := w.delivered_again answers fp (w.emissionResult fp ev) hthreads
  unfold sendTargets
  dsimp only
  split
  · next hretry =>
    rw [delivered_append, hretry.1, List.nil_append]
    refine ⟨hagain.1, hagain.2.trans ?_⟩
    rw [← hrecorded hretry.2]
    constructor
    · rintro ⟨client, hclient, hconnected, haccepts⟩
      exact ⟨client, hclient, hconnected, Or.inr ⟨hretry.2, haccepts⟩⟩
    · rintro ⟨client, hclient, hconnected, haccepts | haccepts⟩
      · exact absurd hretry.1 (hfirst.mpr ⟨client, List.mem_toFinset.mp hclient, hconnected, haccepts⟩)
      · exact ⟨client, hclient, hconnected, haccepts.2⟩
  · next hretry =>
    constructor
    · rw [delivered_sendTo]
      exact hnodup.filter _
    · constructor
      · intro h
        obtain ⟨client, hclient, hconnected, haccepts⟩ := hfirst.mp h
        exact ⟨client, List.mem_toFinset.mpr hclient, hconnected, Or.inl haccepts⟩
      · rintro ⟨client, hclient, hconnected, haccepts | haccepts⟩
        · exact hfirst.mpr ⟨client, List.mem_toFinset.mp hclient, hconnected, haccepts⟩
        · exact fun hnone => hretry ⟨hnone, haccepts.1⟩

theorem confined_sendTargets (hrecorded : fp ≠ 0 → targetIDs.toFinset = w.clients fp) {attempt : Attempt T}
    (h : attempt ∈ (w.sendTargets order answers ev fp targetIDs).attempts) :
    attempt.client ∈ targetIDs.toFinset ∧
      w.clientWatchThreadMap.lookup attempt.client = some attempt.thread ∧
      attempt.rs = w.emissionResult fp ev := by
  have hfirst (h : attempt ∈ w.sendTo (w.emissionResult fp ev) answers.first targetIDs) :
      attempt.client ∈ targetIDs.toFinset ∧
        w.clientWatchThreadMap.lookup attempt.client = some attempt.thread ∧
        attempt.rs = w.emissionResult fp ev :=
    ⟨List.mem_toFinset.mpr (w.mem_sendTo h).1, (w.mem_sendTo h).2⟩
  unfold sendTargets at h
  dsimp only at h
  split at h
  · next hretry =>
    rcases List.mem_append.mp h with h | h
    · exact hfirst h
    · have hsent := w.mem_sendTo h
      rw [List.mem_filter, decide_eq_true_iff, ← hrecorded hretry.2] at hsent
      exact ⟨hsent.1.2, hsent.2⟩
  · exact hfirst h

theorem reaches_sendTargets (answers : Answers) (ev : DataEvent) (hnodup : targetIDs.Nodup)
    (hthreads : Lists order.threads w.clientWatchThreadMap)
    (hrecorded : fp ≠ 0 → targetIDs.toFinset = w.clients fp) {retried : Prop} (hretried : fp ≠ 0 ↔ retried) :
    w.Reaches answers ev targetIDs.toFinset retried (w.sendTargets order answers ev fp targetIDs) := by
  obtain rfl := propext hretried
  have hdelivered := w.delivered_sendTargets answers ev hnodup hthreads hrecorded
  have herror : (w.sendTargets order answers ev fp targetIDs).error = none ↔
      delivered (w.sendTargets order answers ev fp targetIDs).attempts ≠ [] := by
    unfold sendTargets
    simp
  refine ⟨fun attempt hattempt => ?_, hdelivered.1, herror, herror.trans hdelivered.2⟩
  obtain ⟨hclient, hthread, hrs⟩ := w.confined_sendTargets hrecorded hattempt
  rw [hrs]
  exact ⟨hclient, hthread, rfl⟩

end Targets

theorem reaches_nobody (answers : Answers) (ev : DataEvent) (retried : Prop) (text : String) :
    w.Reaches answers ev ∅ retried ⟨[], some text⟩ where
  confined _ hattempt := by cases hattempt
  nodup := List.nodup_nil
  error_iff := iff_of_false (Option.some_ne_none text) fun h => h rfl
  accepted_iff := iff_of_false (Option.some_ne_none text) fun ⟨_, hclient, _⟩ => Finset.notMem_empty _ hclient

/-- A successful send that is meant for one client was accepted by this client, once. -/
theorem Reaches.delivered_only {answers : Answers} {ev : DataEvent} {only : String} {retried : Prop}
    {outcome : BridgeOutcome T} (h : w.Reaches answers ev {only} retried outcome) (hok : outcome.error = none) :
    delivered outcome.attempts = [only] := by
  have hall : ∀ client ∈ delivered outcome.attempts, client = only := by
    intro client hclient
    obtain ⟨attempt, hattempt, rfl⟩ := List.mem_map.mp hclient
    exact Finset.mem_singleton.mp (h.confined attempt (List.mem_filter.mp hattempt).1).1
  have hsome := h.error_iff.mp hok
  have hnodup := h.nodup
  match hlist : delivered outcome.attempts with
  | [] => exact absurd hlist hsome
  | [client] => rw [hall client (by simp [hlist])]
  | client :: second :: rest =>
    rw [hlist] at hnodup
    have hsame : client = second :=
      (hall client (by simp [hlist])).trans (hall second (by simp [hlist])).symm
    exact absurd hsame fun heq => (List.nodup_cons.mp hnodup).1 (by simp [heq])

/-- Whether the name of a subscription shows a fingerprint: there is one, and no colon in the
identifier of the client hides it. -/
def ShowsFingerprint (client : String) (fp : UInt64) : Prop := fp ≠ 0 ∧ ':' ∉ client.toList

instance (client : String) (fp : UInt64) : Decidable (ShowsFingerprint client fp) :=
  inferInstanceAs (Decidable (_ ∧ _))

/-- The clients to whom an event for a subscription goes: those recorded for the fingerprint, and
without one that shows the client before the first colon. -/
def addressees (client : String) (fp : UInt64) : Finset String :=
  if ShowsFingerprint client fp then w.clients fp else {beforeColon client}

/-- An event for a subscription is sent only to connections of the clients recorded for its
fingerprint, or of the client before the first colon when the name shows no fingerprint. None of them
accepts it twice, and the send succeeds exactly when one of them accepts, the recorded ones possibly
only when they are tried again. If there is one such client, it accepts exactly once when the send
succeeds. -/
theorem send_reaches_addressees {order : SendOrder} {ev : DataEvent} {client : String} {fp : UInt64}
    (answers : Answers) (hcovers : w.CoveredBy order fp) (hsub : ev.subID = subIDOf client fp) :
    w.Reaches answers ev (w.addressees client fp) (ShowsFingerprint client fp) (w.send order answers ev) ∧
      ∀ only, w.addressees client fp = {only} → (w.send order answers ev).error = none →
        delivered (w.send order answers ev).attempts = [only] := by
  have hreaches : w.Reaches answers ev (w.addressees client fp) (ShowsFingerprint client fp)
      (w.send order answers ev) := by
    obtain ⟨fpStr, hsplit, hparse⟩ := splitColon_subIDOf client fp
    rw [send, hsub, hsplit]
    dsimp only
    rw [hparse, addressees]
    by_cases hshows : ShowsFingerprint client fp
    · rw [if_pos hshows, if_neg hshows.2, if_pos hshows.1]
      by_cases hrecorded : w.clients fp ≠ ∅
      · rw [if_pos hrecorded, ← hcovers.1.2]
        exact w.reaches_sendTargets answers ev hcovers.1.1 hcovers.2 (fun _ => hcovers.1.2)
          (iff_of_true hshows.1 hshows)
      · rw [if_neg hrecorded, not_not.mp hrecorded]
        exact w.reaches_nobody answers ev _ _
    · have hzero : (if ':' ∈ client.toList then 0 else fp) = 0 := by
        split
        · rfl
        · next hcolon => exact by_contra fun hfp => hshows ⟨hfp, hcolon⟩
      rw [if_neg hshows, hzero, if_neg (not_not.mpr rfl)]
      exact w.reaches_sendTargets answers ev (List.nodup_singleton _) hcovers.2 (fun h => absurd rfl h)
        (iff_of_false (not_not.mpr rfl) hshows)
  refine ⟨hreaches, fun only honly hok => ?_⟩
  rw [honly] at hreaches
  exact hreaches.delivered_only w hok

end WatchManager

/-- Two clients are connected, and the fingerprint is bound to the second. -/
def reboundManager : WatchManager Bool :=
  (((newWatchManager Bool).registerThread "a" true).registerThread "b" false).rebindClientForFP 1 "b"

/-- The orders of a send in this watch manager. -/
def reboundOrder : SendOrder := ⟨["b"], ["a", "b"]⟩

/-- An event for a client's subscription to the fingerprint. -/
def eventFor (client : String) : DataEvent := ⟨subIDOf client 1, ⟨⟨"s", 0⟩, 5⟩, [120]⟩

/-- The second client's connection takes an event for its own subscription when it is tried again. -/
theorem send_reaches_addressees_again :
    (reboundManager.send reboundOrder ⟨fun _ => false, fun _ => true⟩ (eventFor "b")).error = none ∧
      delivered (reboundManager.send reboundOrder ⟨fun _ => false, fun _ => true⟩ (eventFor "b")).attempts =
        ["b"] := by
  have hok : (reboundManager.send reboundOrder ⟨fun _ => false, fun _ => true⟩ (eventFor "b")).error = none := by
    decide
  exact ⟨hok, (reboundManager.send_reaches_addressees ⟨fun _ => false, fun _ => true⟩
    (by decide : reboundManager.CoveredBy reboundOrder 1) rfl).2 "b" (by decide) hok⟩

/-- An event for the first client's subscription goes to the second client alone, although both are
connected, and the send succeeds. -/
theorem send_misses_named_client :
    (eventFor "a").subID = subIDOf "a" 1 ∧ reboundManager.CoveredBy reboundOrder 1 ∧
      "a" ∈ reboundManager.clientWatchThreadMap ∧
      (reboundManager.send reboundOrder ⟨fun _ => true, fun _ => true⟩ (eventFor "a")).error = none ∧
      delivered (reboundManager.send reboundOrder ⟨fun _ => true, fun _ => true⟩ (eventFor "a")).attempts =
        ["b"] := by
  decide

end SevenDB.Ironhawk
