import SevenDB.Common.DecimalText
import SevenDB.Emission.Notifier

/-!
# Rebinding a subscription to another client

A client that comes back under a new identifier takes its subscription with it: the pending
entries and the watermarks of the old name are moved to the new one. The old name is looked up
directly, by the old client, or by the fingerprint at its end. The searches go through maps in
an order that the source does not fix, so this order is an argument here. The source repeats
the last search over the outbox, which finds nothing that the first one did not.
-/

namespace SevenDB.Emission

open SevenDB.Common

/-- The orders in which a search happens to go through the three maps of a manager. -/
structure SearchOrder where
  bySub : List String
  lastAck : List String
  compactThrough : List String

/-- A list goes through every key of a table once. -/
def Lists {V : Type} (order : List String) (table : Table String V) : Prop :=
  order.Nodup ∧ order.toFinset = table.keys

instance {V : Type} (order : List String) (table : Table String V) : Decidable (Lists order table) :=
  inferInstanceAs (Decidable (_ ∧ _))

/-- A search goes through the maps of this manager. -/
def SearchOrder.Covers (order : SearchOrder) (m : Manager) : Prop :=
  Lists order.bySub m.ob.bySub ∧ Lists order.lastAck m.lastAck ∧
    Lists order.compactThrough m.compactThrough

instance (order : SearchOrder) (m : Manager) : Decidable (order.Covers m) :=
  inferInstanceAs (Decidable (_ ∧ _ ∧ _))

/-- The first match in the outbox, then among the acknowledgments, then among the compaction
watermarks, and the empty text when there is none. -/
def SearchOrder.find (order : SearchOrder) (test : String → Bool) : String :=
  ((order.bySub ++ order.lastAck ++ order.compactThrough).find? test).getD ""

/-- Whether a text ends in the given one and has something before it. -/
def hasSuffix (text tail : String) : Bool :=
  decide (tail.toList.length < text.toList.length) && tail.toList.isSuffixOf text.toList

/-- Split a text at its first colon. -/
def splitColon (text : String) : Option (String × String) :=
  match text.toList.dropWhile (fun c => c ≠ ':') with
  | [] => none
  | _ :: tail => some (String.ofList (text.toList.takeWhile fun c => c ≠ ':'), String.ofList tail)

def subIDOf (clientID : String) (fp : UInt64) : String := clientID ++ ":" ++ formatUint fp

/-- Whether the manager holds anything under a name. -/
def Manager.knows (m : Manager) (sub : String) : Bool :=
  decide (sub ∈ m.ob.bySub) || decide (sub ∈ m.lastAck) || decide (sub ∈ m.compactThrough)

/-- The fingerprint, the old name and the new name as far as they are known; an empty name is
not known. -/
structure RebindPlan where
  fp : UInt64
  oldSub : String
  newSub : String

/-- Look for the old name under the fingerprint given, or by the old client without one. -/
def Manager.planRebind (m : Manager) (order : SearchOrder) (fp : UInt64)
    (oldClientID newClientID : String) : RebindPlan :=
  if fp ≠ 0 then
    let candidate := subIDOf oldClientID fp
    ⟨fp, if oldClientID ≠ "" ∧ m.knows candidate then candidate else "", subIDOf newClientID fp⟩
  else if oldClientID ≠ "" then
    let oldSub := order.find fun sub => hasPrefix sub (oldClientID ++ ":")
    match splitColon oldSub with
    | some (_, tail) =>
      match parseUint tail with
      | (value, none) => ⟨value, oldSub, newClientID ++ ":" ++ tail⟩
      | (_, some _) => ⟨0, oldSub, ""⟩
    | none => ⟨0, oldSub, ""⟩
  else ⟨0, "", ""⟩

/-- The old name, searched by the fingerprint at its end when it is not known yet. -/
def RebindPlan.locate (plan : RebindPlan) (order : SearchOrder) : String :=
  if plan.oldSub = "" ∧ plan.fp ≠ 0 then
    order.find fun sub => hasSuffix sub (":" ++ formatUint plan.fp)
  else plan.oldSub

/-- Whether a watermark that is moved takes the place of the one already there. -/
def isNewer (v : EmitSeq) (cur : Option EmitSeq) : Bool := cur.all fun cur => v.newer cur

/-- The later of the watermark moved and the one already there. -/
def laterMark (moved cur : Option EmitSeq) : Option EmitSeq :=
  match moved with
  | none => cur
  | some v => if isNewer v cur then some v else cur

/-- Move the watermark of the old name to the new one unless a later one is there. -/
def moveMark (marks : Table String EmitSeq) (oldSub newSub : String) : Table String EmitSeq :=
  match marks.lookup oldSub with
  | none => marks
  | some v => (if isNewer v (marks.lookup newSub) then marks.insert newSub v else marks).erase oldSub

/-- After a move the new name has the later watermark and the old one has none. -/
theorem lookup_moveMark (marks : Table String EmitSeq) {oldSub newSub : String} (hne : oldSub ≠ newSub)
    (sub : String) :
    Finmap.lookup sub (moveMark marks oldSub newSub) =
      if sub = newSub then laterMark (marks.lookup oldSub) (marks.lookup newSub)
      else if sub = oldSub then none else marks.lookup sub := by
  unfold moveMark laterMark
  cases hold : marks.lookup oldSub with
  | none =>
    dsimp only
    split
    · next hnew => rw [hnew]
    · split
      · next hsub => rw [hsub, hold]
      · rfl
  | some v =>
    dsimp only
    rw [Table.lookup_erase_eq_ite]
    by_cases hsub : sub = oldSub
    · subst hsub
      rw [if_pos rfl, if_neg hne, if_pos rfl]
    · rw [if_neg hsub, if_neg hsub]
      by_cases hnew : sub = newSub
      · subst hnew
        rw [if_pos rfl]
        split
        · rw [Finmap.lookup_insert]
        · rfl
      · rw [if_neg hnew]
        split
        · rw [Finmap.lookup_insert_of_ne _ hnew]
        · rfl

/-- The entries of a new name after those of an old one were moved over them. -/
def movedEntries (moved kept : Table UInt64 OutboxEntry) (newSub : String) : Table UInt64 OutboxEntry :=
  Table.mapValues (fun e : OutboxEntry => { e with subID := newSub }) moved ∪ kept

theorem lookup_movedEntries (moved kept : Table UInt64 OutboxEntry) (newSub : String) (idx : UInt64) :
    Finmap.lookup idx (movedEntries moved kept newSub) =
      ((moved.lookup idx).map fun e => { e with subID := newSub }).or (kept.lookup idx) := by
  have hmap := Table.lookup_mapValues (fun e : OutboxEntry => { e with subID := newSub }) moved idx
  unfold movedEntries
  cases hmoved : moved.lookup idx with
  | none =>
    rw [hmoved, Option.map_none] at hmap
    rw [Finmap.lookup_union_right (Finmap.lookup_eq_none.mp hmap)]
    rfl
  | some e =>
    rw [hmoved, Option.map_some] at hmap
    rw [Finmap.lookup_union_left (Finmap.mem_of_lookup_eq_some hmap), hmap]
    rfl

/-- Move all pending entries of the old name to the new one. -/
def OutboxState.moveSub (o : OutboxState) (oldSub newSub : String) : OutboxState :=
  match hold : o.bySub.lookup oldSub with
  | none => o
  | some oldMap =>
    { bySub := (o.bySub.insert newSub (movedEntries oldMap (o.entries newSub) newSub)).erase oldSub
      filed := by
        obtain ⟨hnonempty, hentries⟩ := o.filed oldSub oldMap hold
        apply Filed.erase
        apply o.filed.insert
        · intro hempty
          apply hnonempty
          rw [Table.keys_eq_empty_iff] at hempty ⊢
          intro idx
          have hnone := hempty idx
          rw [lookup_movedEntries, Option.or_eq_none_iff, Option.map_eq_none_iff] at hnone
          exact hnone.1
        · intro idx entry hlookup
          rw [lookup_movedEntries, Option.or_eq_some_iff, Option.map_eq_some_iff] at hlookup
          rcases hlookup with ⟨e, he, rfl⟩ | ⟨_, hkept⟩
          · exact ⟨rfl, (hentries idx e he).2⟩
          · exact OutboxState.entryAt_filed hkept }

/-- After a move the entries of the old name are under the new one, over those it had. -/
theorem OutboxState.entryAt_moveSub (o : OutboxState) {oldSub newSub : String} (hne : oldSub ≠ newSub)
    (sub : String) (idx : UInt64) :
    (o.moveSub oldSub newSub).entryAt sub idx =
      if sub = newSub then
        ((o.entryAt oldSub idx).map fun e => { e with subID := newSub }).or (o.entryAt newSub idx)
      else if sub = oldSub then none else o.entryAt sub idx := by
  unfold OutboxState.moveSub
  split
  · next hold =>
    have hnone : o.entryAt oldSub idx = none := by simp [OutboxState.entryAt, OutboxState.entries, hold]
    rw [hnone, Option.map_none, Option.none_or]
    split
    · next hnew => rw [hnew]
    · split
      · next hsub => rw [hsub, hnone]
      · rfl
  · next oldMap hold =>
    have hmoved : o.entryAt oldSub idx = oldMap.lookup idx := by
      simp [OutboxState.entryAt, OutboxState.entries, hold]
    rw [hmoved]
    simp only [OutboxState.entryAt, OutboxState.entries, Table.lookup_erase_eq_ite,
      Table.lookup_insert_eq_ite]
    by_cases hsub : sub = oldSub
    · subst hsub
      simp [hne]
    · by_cases hnew : sub = newSub
      · subst hnew
        simp [hne.symm, lookup_movedEntries]
      · simp [hnew, hsub]

/-- Move everything the manager holds under the old name to the new one. -/
def Manager.moveSub (m : Manager) (oldSub newSub : String) : Manager :=
  { m with
    ob := m.ob.moveSub oldSub newSub
    lastAck := moveMark m.lastAck oldSub newSub
    compactThrough := moveMark m.compactThrough oldSub newSub }

/-- What a rebind returns beside the manager: the name moved from, which is empty when nothing
was found, the new name and the number of entries moved. -/
structure RebindResult where
  mgr : Manager
  oldSub : String
  newSub : String
  moved : ℕ

def Manager.rebindByFingerprint (m : Manager) (order : SearchOrder) (fp : UInt64)
    (oldClientID newClientID : String) : RebindResult :=
  let plan := m.planRebind order fp oldClientID newClientID
  let oldSub := plan.locate order
  if oldSub = "" then
    ⟨m, "", if plan.newSub = "" ∧ plan.fp ≠ 0 then subIDOf newClientID plan.fp else plan.newSub, 0⟩
  else
    let newSub :=
      if plan.newSub = "" then (splitColon oldSub).map fun parts => newClientID ++ ":" ++ parts.2
      else some plan.newSub
    match newSub with
    | none => ⟨m, "", "", 0⟩
    | some newSub =>
      if oldSub = newSub then ⟨m, oldSub, newSub, 0⟩
      else ⟨m.moveSub oldSub newSub, oldSub, newSub, (m.ob.entries oldSub).keys.card⟩

section

variable (m : Manager) (order : SearchOrder) (fp : UInt64) (oldClientID newClientID : String)

/-- A rebind moves one name to another exactly when it reports two different ones, and changes
nothing otherwise. -/
theorem Manager.rebindByFingerprint_mgr :
    (m.rebindByFingerprint order fp oldClientID newClientID).mgr =
      if (m.rebindByFingerprint order fp oldClientID newClientID).oldSub = "" ∨
        (m.rebindByFingerprint order fp oldClientID newClientID).oldSub =
          (m.rebindByFingerprint order fp oldClientID newClientID).newSub then m
      else m.moveSub (m.rebindByFingerprint order fp oldClientID newClientID).oldSub
        (m.rebindByFingerprint order fp oldClientID newClientID).newSub := by
  unfold Manager.rebindByFingerprint
  dsimp only
  split
  · rw [if_pos (Or.inl rfl)]
  · next hfound =>
    split
    · rw [if_pos (Or.inl rfl)]
    · split
      · next heq => rw [if_pos (Or.inr heq)]
      · next hne => rw [if_neg (not_or.mpr ⟨hfound, hne⟩)]

theorem Manager.currentEpoch_rebindByFingerprint :
    (m.rebindByFingerprint order fp oldClientID newClientID).mgr.currentEpoch = m.currentEpoch := by
  rw [Manager.rebindByFingerprint_mgr]
  split <;> rfl

end

end SevenDB.Emission
