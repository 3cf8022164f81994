import Mathlib.Data.List.Induction
import Mathlib.Order.Nat
import SevenDB.Common.GuardedRun

/-!
# Replaying records over keyed contents

A record sets what some keys hold and leaves the others alone, so after a sequence of records
every key holds what the last record that touches it has set. A second reader that applies the
same sequence behind a first one changes nothing in the end: for every key, at every moment,
the content is that of a replay which stands between the two readers.
-/

namespace SevenDB.Common

variable {R K W S P : Type*}

/-- What a key holds after a sequence of records, each of which sets it or leaves it alone. -/
def replay (effect : R → K → Option W) (start : K → W) (records : List R) (key : K) : W :=
  records.foldl (fun content record => (effect record key).getD content) (start key)

section Replay

variable {effect : R → K → Option W} {start : K → W} {key : K}

/-- One more record sets the key or leaves the content of the replay before it. -/
theorem replay_append_single (records : List R) (record : R) :
    replay effect start (records ++ [record]) key =
      (effect record key).getD (replay effect start records key) := by
  simp only [replay, List.foldl_append, List.foldl_cons, List.foldl_nil]

/-- Records that leave the key alone can be dropped from the end. -/
theorem replay_append_untouched (records : List R) {rest : List R}
    (hrest : ∀ record ∈ rest, effect record key = none) :
    replay effect start (records ++ rest) key = replay effect start records key := by
  induction rest using List.reverseRecOn with
  | nil => rw [List.append_nil]
  | append_singleton front last ih =>
    have hlast := hrest last (List.mem_append_right _ (List.mem_singleton_self last))
    rw [← List.append_assoc, replay_append_single, hlast]
    exact ih fun record hrecord => hrest record (List.mem_append_left _ hrecord)

/-- Either no record touches the key, or the last one that does has set its content. -/
theorem replay_cases (effect : R → K → Option W) (start : K → W) (records : List R) (key : K) :
    ((∀ record ∈ records, effect record key = none) ∧ replay effect start records key = start key) ∨
      ∃ before record after content, records = before ++ record :: after ∧
        effect record key = some content ∧ (∀ later ∈ after, effect later key = none) ∧
        replay effect start records key = content := by
  induction records using List.reverseRecOn with
  | nil => exact Or.inl ⟨fun record hrecord => (by cases hrecord), rfl⟩
  | append_singleton front last ih =>
    rw [replay_append_single]
    cases hlast : effect last key with
    | some content =>
      exact Or.inr ⟨front, last, [], content, rfl, hlast, fun later hlater => (by cases hlater), rfl⟩
    | none =>
      rcases ih with ⟨huntouched, hstart⟩ | ⟨before, record, after, content, rfl, hset, hafter, hcontent⟩
      · refine Or.inl ⟨fun record hrecord => ?_, hstart⟩
        rcases List.mem_append.mp hrecord with hfront | hself
        · exact huntouched record hfront
        · rw [List.mem_singleton.mp hself]
          exact hlast
      · refine Or.inr ⟨before, record, after ++ [last], content, by simp, hset, fun later hlater => ?_, hcontent⟩
        rcases List.mem_append.mp hlater with hbefore | hself
        · exact hafter later hbefore
        · rw [List.mem_singleton.mp hself]
          exact hlast

/-- The last record that touches the key has set its content. -/
theorem replay_last (before after : List R) {record : R} {content : W}
    (hset : effect record key = some content) (hafter : ∀ later ∈ after, effect later key = none) :
    replay effect start (before ++ record :: after) key = content := by
  have hsplit : before ++ record :: after = before ++ [record] ++ after := by simp
  rw [hsplit, replay_append_untouched _ hafter, replay_append_single, hset]
  rfl

end Replay

/-- Applying a record to a state has the given effect on the contents of the state. -/
def HasEffect (content : S → K → W) (effect : R → K → Option W) (apply : S → R → S) : Prop :=
  ∀ state record key, content (apply state record) key = (effect record key).getD (content state key)

/-- The contents after applying a sequence of records are those of its replay. -/
theorem HasEffect.foldl {content : S → K → W} {effect : R → K → Option W} {apply : S → R → S}
    (h : HasEffect content effect apply) (start : S) (records : List R) (key : K) :
    content (records.foldl apply start) key = replay effect (content start) records key := by
  induction records using List.reverseRecOn with
  | nil => rfl
  | append_singleton front last ih =>
    rw [List.foldl_append, List.foldl_cons, List.foldl_nil, h, replay_append_single, ih]

/-- A state that two readers of one sequence of records write to, with how far each has come. -/
structure Chase (S : Type*) where
  state : S
  ahead : ℕ
  behind : ℕ

/-- Which of the two readers takes its next record; the second one does so under circumstances
that can differ from record to record. -/
inductive Turn (P : Type*)
  | lead
  | follow (circumstance : P)

/-- The first reader takes the next record of the sequence, and the second one takes the next
record that the first one has taken. -/
def chaseStep (lead : S → R → S) (follow : P → S → R → S) (records : List R) (chase : Chase S) :
    Turn P → Option (Chase S)
  | .lead => records[chase.ahead]?.map fun record =>
      ⟨lead chase.state record, chase.ahead + 1, chase.behind⟩
  | .follow circumstance =>
    if chase.behind < chase.ahead then
      records[chase.behind]?.map fun record =>
        ⟨follow circumstance chase.state record, chase.ahead, chase.behind + 1⟩
    else none

section Chase

variable {content : S → K → W} {effect : R → K → Option W} {lead : S → R → S} {follow : P → S → R → S}
  {records : List R} (hlead : HasEffect content effect lead)
  (hfollow : ∀ circumstance, HasEffect content effect (follow circumstance))
include hlead hfollow

section

variable {start : S} {turns : List (Turn P)} {chase : Chase S}
  (hrun : Run (chaseStep lead follow records) (fun _ _ => True) ⟨start, 0, 0⟩ turns chase)
include hrun

/-- At every moment a key holds what a replay between the two readers gives it. -/
theorem chase_between (key : K) :
    ∃ reader, chase.behind ≤ reader ∧ reader ≤ chase.ahead ∧
      content chase.state key = replay effect (content start) (records.take reader) key := by
  have hnext (reader : ℕ) {record : R} (hrecord : records[reader]? = some record) :
      replay effect (content start) (records.take (reader + 1)) key =
        (effect record key).getD (replay effect (content start) (records.take reader) key) := by
    rw [List.take_add_one, hrecord, Option.toList_some, replay_append_single]
  refine hrun.invariant (fun chase => ∃ reader, chase.behind ≤ reader ∧ reader ≤ chase.ahead ∧
    content chase.state key = replay effect (content start) (records.take reader) key) ?_ ?_
  · rintro ⟨state, ahead, behind⟩ turn next ⟨reader, hbehind, hahead, hcontent⟩ _ hstep
    cases turn with
    | lead =>
      obtain ⟨record, hrecord, rfl⟩ := Option.map_eq_some_iff.mp hstep
      change behind ≤ reader at hbehind
      change reader ≤ ahead at hahead
      change records[ahead]? = some record at hrecord
      cases htouch : effect record key with
      | none =>
        refine ⟨reader, hbehind, hahead.trans (Nat.le_succ ahead), ?_⟩
        rw [hlead, htouch]
        exact hcontent
      | some set =>
        refine ⟨ahead + 1, (hbehind.trans hahead).trans (Nat.le_succ ahead), le_rfl, ?_⟩
        rw [hlead, hnext ahead hrecord, htouch]
        rfl
    | follow circumstance =>
      simp only [chaseStep] at hstep
      split at hstep
      · next hroom =>
        obtain ⟨record, hrecord, rfl⟩ := Option.map_eq_some_iff.mp hstep
        change behind ≤ reader at hbehind
        change reader ≤ ahead at hahead
        by_cases hsame : reader = behind ∨ (effect record key).isSome
        · refine ⟨behind + 1, le_rfl, hroom, ?_⟩
          rw [hfollow, hnext behind hrecord]
          rcases hsame with rfl | hset
          · rw [hcontent]
          · obtain ⟨set, hset⟩ := Option.isSome_iff_exists.mp hset
            rw [hset]
            rfl
        · rw [not_or, Option.not_isSome_iff_eq_none] at hsame
          refine ⟨reader, Nat.lt_of_le_of_ne hbehind (Ne.symm hsame.1), hahead, ?_⟩
          rw [hfollow, hsame.2]
          exact hcontent
      · cases hstep
  · exact ⟨0, le_rfl, le_rfl, rfl⟩

/-- When the second reader has come to the end, the contents are those of one replay. -/
theorem chase_drained (hdrained : chase.behind = records.length) (key : K) :
    content chase.state key = replay effect (content start) records key := by
  obtain ⟨reader, hbehind, _, hcontent⟩ := chase_between hlead hfollow hrun key
  rw [hcontent, List.take_of_length_le (hdrained ▸ hbehind)]

end

end Chase

end SevenDB.Common
