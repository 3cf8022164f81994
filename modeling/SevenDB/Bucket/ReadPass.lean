import Mathlib.Data.List.TakeWhile
import SevenDB.Bucket.ApplyLoop
import SevenDB.Bucket.Recovery

/-!
# One read of the apply loop

The file of a bucket to which entries were appended is the stream of their frames. A reader sees a front of
it. At every moment it has taken the first so many entries apart; those before the place where it has to start
are skipped, and the others are in the channel or applied, in their order.
-/

namespace SevenDB.Bucket

open SevenDB.Common

variable {B : Type*} (fmt : BucketFormat B)

/-- The frames of entries, one after another. -/
def entryStream (entries : List (WALEntry B)) : List UInt8 :=
  sizeFirst.stream fmt.checksum (entries.map fmt.json.encode)

/-- The JSON of every entry fits into a frame. -/
def FitFrames (entries : List (WALEntry B)) : Prop := ∀ e ∈ entries, (fmt.json.encode e).length < 2 ^ 32

section Stream

variable {fmt} {entries : List (WALEntry B)}

theorem entryStream_append (more : List (WALEntry B)) :
    entryStream fmt (entries ++ more) = entryStream fmt entries ++ entryStream fmt more := by
  rw [entryStream, List.map_append, FrameLayout.stream, List.flatMap_append]
  rfl

theorem entryStream_stamp (s : BucketState) (entry : WALEntry B) (now : ℤ) :
    entryStream fmt [s.stamp entry now] = s.stampedFrame fmt entry now := List.flatMap_singleton _ _

theorem FitFrames.payloads (h : FitFrames fmt entries) :
    ∀ payload ∈ entries.map fmt.json.encode, payload.length < 2 ^ 32 := by
  intro payload hpayload
  obtain ⟨e, he, rfl⟩ := List.mem_map.mp hpayload
  exact h e he

theorem readable_entryStream (h : FitFrames fmt entries) : readable fmt (entryStream fmt entries) = entries := by
  have hscan := sizeFirst.scan_stream fmt.checksum h.payloads
  have hvalid : ((entries.map fmt.json.encode).map fun payload =>
      (⟨fmt.checksum payload, payload⟩ : RawFrame)).takeWhile fmt.matches =
      (entries.map fmt.json.encode).map fun payload => ⟨fmt.checksum payload, payload⟩ := by
    rw [List.takeWhile_eq_self_iff]
    intro f hf
    obtain ⟨payload, _, rfl⟩ := List.mem_map.mp hf
    exact decide_eq_true rfl
  rw [readable, validFrames, entryStream, hscan, hvalid, List.map_map, List.filterMap_map]
  have hentry : (fmt.entryIn ∘ (fun payload => (⟨fmt.checksum payload, payload⟩ : RawFrame)) ∘ fmt.json.encode) =
      some := by
    funext e
    exact fmt.json.decode_encode e
  rw [hentry, List.filterMap_some]

end Stream

/-- The file of a bucket is the stream of the entries that were appended to it. -/
structure BucketState.Holds (s : BucketState) (entries : List (WALEntry B)) : Prop where
  whole : s.Whole fmt
  fit : FitFrames fmt entries
  file_eq : s.file.file = entryStream fmt entries

namespace BucketState.Holds

variable {fmt} {s : BucketState} {entries : List (WALEntry B)}

theorem nil : (BucketState.onDisk []).Holds fmt [] :=
  ⟨.onDisk .nil rfl, fun _ he => absurd he List.not_mem_nil, rfl⟩

section

variable (h : s.Holds fmt entries)
include h

theorem readable_eq : readable fmt s.file.file = entries := by
  rw [h.file_eq, readable_entryStream h.fit]

theorem numbered : Numbered entries := by
  have hnumbered := h.whole.sound.numbered
  rw [h.readable_eq] at hnumbered
  exact hnumbered

theorem openBucket :
    (s.openBucket fmt).Holds fmt entries ∧ (s.openBucket fmt).commitIdx = some entries.length := by
  obtain ⟨hwhole, hfile, hcommit⟩ := h.whole.openBucket
  rw [h.readable_eq] at hcommit
  exact ⟨⟨hwhole, h.fit, hfile.trans h.file_eq⟩, hcommit⟩

theorem reopen : BucketState.Holds fmt ⟨s.file.flush none, none⟩ entries :=
  ⟨h.whole.reopen.1, h.fit, h.whole.reopen.2.trans h.file_eq⟩

theorem append {entry : WALEntry B} {now : ℤ}
    (hok : ((s.openBucket fmt).append fmt entry now .none).2.isOk = true) :
    ((s.openBucket fmt).stampedJSON fmt entry now).length < 2 ^ 32 ∧
      ((s.openBucket fmt).append fmt entry now .none).1.Holds fmt
        (entries ++ [(s.openBucket fmt).stamp entry now]) := by
  obtain ⟨hopened, hcommit⟩ := h.openBucket
  rw [← hopened.readable_eq] at hcommit
  rcases hopened.whole.append hcommit entry now with ⟨error, hdone⟩ | ⟨t, hdone, ht, hsize, hfile⟩
  · rw [hdone] at hok
    cases hok
  · rw [hdone]
    refine ⟨by omega, ht, fun e he => ?_, ?_⟩
    · rcases List.mem_append.mp he with hold | hnew
      · exact h.fit e hold
      · rw [List.mem_singleton.mp hnew]
        exact Nat.lt_trans hsize (by decide)
    · rw [hfile, hopened.file_eq, entryStream_append, entryStream_stamp]

end

end BucketState.Holds

theorem Numbered.commitIndex_eq {entries : List (WALEntry B)} (h : Numbered entries) {i : ℕ} {e : WALEntry B}
    (he : entries[i]? = some e) : e.commitIndex = i + 1 := by
  have hindex : (entries.map (·.commitIndex))[i]? = some e.commitIndex := by rw [List.getElem?_map, he]; rfl
  rw [h, List.getElem?_range' (List.getElem?_eq_some_iff.mp he).1] at hindex
  rw [← Option.some.inj hindex]
  omega

/-- A read that has taken the first entries apart: what it has fetched are their frames and what is not taken
apart yet, and the entries that it did not skip are applied or in the channel. -/
structure Pass.Follows (p : Pass B) (applied entries : List (WALEntry B)) (visible : List UInt8) (taken : ℕ) :
    Prop where
  taken_le : taken ≤ entries.length
  from_pos : 0 < p.fromCommitIndex
  from_le : p.fromCommitIndex ≤ applied.length + 1
  offset_le : p.offset ≤ visible.length
  fetched_eq : visible.take p.offset = entryStream fmt (entries.take taken) ++ p.fetched
  sent_eq : applied ++ p.channel = entries.take (max taken (p.fromCommitIndex - 1))

namespace Pass.Follows

variable {fmt} {p q : Pass B} {applied entries : List (WALEntry B)} {visible : List UInt8} {taken : ℕ}

theorem start {count : ℕ} (hcount : count ≤ entries.length) (visible : List UInt8) :
    (Pass.start (count + 1)).Follows fmt (entries.take count) entries visible 0 where
  taken_le := Nat.zero_le _
  from_pos := Nat.succ_pos _
  from_le := by
    change count + 1 ≤ _
    rw [List.length_take_of_le hcount]
  offset_le := Nat.zero_le _
  fetched_eq := rfl
  sent_eq := by
    change entries.take count ++ [] = entries.take (max 0 count)
    rw [List.append_nil, Nat.zero_max]

section

variable (h : p.Follows fmt applied entries visible taken)
include h

theorem applied_le : applied.length ≤ entries.length := by
  have hlength := congrArg List.length h.sent_eq
  rw [List.length_append, List.length_take] at hlength
  omega

theorem grow {others : List (WALEntry B)} {seen : List UInt8}
    (hentries : entries <+: others) (hvisible : visible <+: seen) : p.Follows fmt applied others seen taken := by
  have hsent : max taken (p.fromCommitIndex - 1) ≤ entries.length := by
    have hfrom := h.from_le
    have happlied := h.applied_le
    have htaken := h.taken_le
    omega
  obtain ⟨more, rfl⟩ := hentries
  obtain ⟨tail, rfl⟩ := hvisible
  exact
    { taken_le := h.taken_le.trans (by rw [List.length_append]; exact Nat.le_add_right _ _)
      from_pos := h.from_pos
      from_le := h.from_le
      offset_le := h.offset_le.trans (by rw [List.length_append]; exact Nat.le_add_right _ _)
      fetched_eq := by
        rw [List.take_append_of_le_length h.offset_le, List.take_append_of_le_length h.taken_le, h.fetched_eq]
      sent_eq := by rw [List.take_append_of_le_length hsent, h.sent_eq] }

theorem fetch (count : ℕ) :
    (p.fetch visible count).Follows fmt applied entries visible taken := by
  have hlength : ((visible.drop p.offset).take count).length = min count (visible.length - p.offset) := by
    rw [List.length_take, List.length_drop]
  refine ⟨h.taken_le, h.from_pos, h.from_le, ?_, ?_, h.sent_eq⟩
  · change p.offset + ((visible.drop p.offset).take count).length ≤ visible.length
    have hoffset := h.offset_le
    omega
  · change visible.take (p.offset + ((visible.drop p.offset).take count).length) = _
    rw [List.take_add, h.fetched_eq, List.append_assoc]
    change _ = entryStream fmt (entries.take taken) ++ (p.fetched ++ (visible.drop p.offset).take count)
    rw [hlength, ← List.length_drop, ← List.take_eq_take_min]

/-- What is not taken apart yet belongs to the entries that are not taken apart yet. -/
theorem fetched_isPrefix
    (hvisible : visible <+: entryStream fmt entries) : p.fetched <+: entryStream fmt (entries.drop taken) := by
  have hfetched := (List.take_prefix p.offset visible).trans hvisible
  rw [h.fetched_eq, ← List.take_append_drop taken entries, entryStream_append] at hfetched
  rw [List.take_append_drop] at hfetched
  exact (List.prefix_append_right_inj _).mp hfetched

theorem next_eq_some
    (hvisible : visible <+: entryStream fmt entries) (hfit : FitFrames fmt entries) {f : RawFrame}
    {rest : List UInt8} (hnext : sizeFirst.next p.fetched = some (f, rest)) :
    ∃ e, entries[taken]? = some e ∧ f = ⟨fmt.checksum (fmt.json.encode e), fmt.json.encode e⟩ ∧
      p.fetched = sizeFirst.frame fmt.checksum (fmt.json.encode e) ++ rest := by
  have hdrop : FitFrames fmt (entries.drop taken) := fun e he => hfit e (List.mem_of_mem_drop he)
  obtain ⟨payload, others, hpayloads, hf, hfetched⟩ :=
    sizeFirst.next_eq_some fmt.checksum hdrop.payloads (h.fetched_isPrefix hvisible) hnext
  obtain ⟨e, later, hlater, rfl, _⟩ := List.map_eq_cons_iff.mp hpayloads
  refine ⟨e, ?_, hf, hfetched⟩
  rw [← List.head?_drop, hlater, List.head?_cons]

end

/-- What taking a frame off comes to, for the frame of an entry. -/
theorem takeFrame_eq {e : WALEntry B} {rest : List UInt8}
    (hnext : sizeFirst.next p.fetched = some (⟨fmt.checksum (fmt.json.encode e), fmt.json.encode e⟩, rest)) :
    p.takeFrame fmt =
      if e.commitIndex < p.fromCommitIndex then some { p with fetched := rest }
      else if p.channel.length < channelSize then some { p with fetched := rest, channel := p.channel ++ [e] }
      else none := by
  have hmatches : ¬ fmt.matches ⟨fmt.checksum (fmt.json.encode e), fmt.json.encode e⟩ = false := by
    rw [Bool.not_eq_false]
    exact decide_eq_true rfl
  have hentry : fmt.entryIn ⟨fmt.checksum (fmt.json.encode e), fmt.json.encode e⟩ = some e :=
    fmt.json.decode_encode e
  rw [takeFrame, hnext]
  dsimp only
  rw [if_neg hmatches, hentry]

section

variable (h : p.Follows fmt applied entries visible taken)
include h

theorem takeFrame (hvisible : visible <+: entryStream fmt entries)
    (hfit : FitFrames fmt entries) (hnumbered : Numbered entries) (htake : p.takeFrame fmt = some q) :
    q.Follows fmt applied entries visible (taken + 1) ∧ q.closed = p.closed := by
  cases hnext : sizeFirst.next p.fetched with
  | none =>
    rw [Pass.takeFrame, hnext] at htake
    cases htake
  | some found =>
    obtain ⟨f, rest⟩ := found
    obtain ⟨e, he, rfl, hfetched⟩ := h.next_eq_some hvisible hfit hnext
    have hindex := hnumbered.commitIndex_eq he
    have htaken : taken + 1 ≤ entries.length := (List.getElem?_eq_some_iff.mp he).1
    have hone : entries.take (taken + 1) = entries.take taken ++ [e] := by rw [List.take_add_one, he]; rfl
    have hstream : visible.take p.offset = entryStream fmt (entries.take (taken + 1)) ++ rest := by
      rw [h.fetched_eq, hfetched, hone, entryStream_append, List.append_assoc]
      exact congrArg (fun frame => _ ++ (frame ++ rest)) (List.flatMap_singleton _ _).symm
    rw [takeFrame_eq hnext] at htake
    by_cases hskip : e.commitIndex < p.fromCommitIndex
    · rw [if_pos hskip] at htake
      cases htake
      refine ⟨⟨htaken, h.from_pos, h.from_le, h.offset_le, hstream, ?_⟩, rfl⟩
      change applied ++ p.channel = entries.take (max (taken + 1) (p.fromCommitIndex - 1))
      rw [h.sent_eq, Nat.max_eq_right (by omega), Nat.max_eq_right (by omega)]
    · rw [if_neg hskip] at htake
      obtain ⟨_, rfl⟩ := Option.ite_some_none_eq_some.mp htake
      refine ⟨⟨htaken, h.from_pos, h.from_le, h.offset_le, hstream, ?_⟩, rfl⟩
      change applied ++ (p.channel ++ [e]) = entries.take (max (taken + 1) (p.fromCommitIndex - 1))
      rw [← List.append_assoc, h.sent_eq, Nat.max_eq_left (by omega), Nat.max_eq_left (by omega), hone]

theorem receive (hnumbered : Numbered entries)
    {e : WALEntry B} {rest : List (WALEntry B)} (hchannel : p.channel = e :: rest) :
    e.commitIndex = applied.length + 1 ∧
      ({ p with channel := rest } : Pass B).Follows fmt (applied ++ [e]) entries visible taken := by
  have hsent : applied ++ e :: rest = entries.take (max taken (p.fromCommitIndex - 1)) := by
    rw [← h.sent_eq, hchannel]
  have hentry : entries[applied.length]? = some e := by
    have hget : (applied ++ e :: rest)[applied.length]? = some e := by
      rw [List.getElem?_append_right (Nat.le_refl _), Nat.sub_self, List.getElem?_cons_zero]
    rw [hsent, List.getElem?_take] at hget
    exact (Option.ite_none_right_eq_some.mp hget).2
  refine ⟨hnumbered.commitIndex_eq hentry, h.taken_le, h.from_pos, ?_, h.offset_le, h.fetched_eq, ?_⟩
  · rw [List.length_append]
    exact h.from_le.trans (Nat.add_le_add_right (Nat.le_add_right _ _) 1)
  · rw [List.append_assoc]
    exact hsent

theorem closed :
    ({ p with closed := true } : Pass B).Follows fmt applied entries visible taken :=
  ⟨h.taken_le, h.from_pos, h.from_le, h.offset_le, h.fetched_eq, h.sent_eq⟩

/-- At the end of a stream that can all be seen, every entry is applied or in the channel. -/
theorem atEnd (hvisible : visible = entryStream fmt entries)
    (hfit : FitFrames fmt entries) (hend : p.atEnd visible = some q) : applied ++ p.channel = entries := by
  obtain ⟨⟨hnext, hoffset⟩, _⟩ := Option.ite_none_right_eq_some.mp hend
  have hfetched : p.fetched = entryStream fmt (entries.drop taken) := by
    have hall := h.fetched_eq
    rw [List.take_of_length_le hoffset, hvisible] at hall
    nth_rewrite 1 [← List.take_append_drop taken entries] at hall
    rw [entryStream_append] at hall
    exact (List.append_cancel_left hall).symm
  have hdrop : FitFrames fmt (entries.drop taken) := fun e he => hfit e (List.mem_of_mem_drop he)
  rw [hfetched] at hnext
  have hnone := sizeFirst.eq_nil_of_next_stream fmt.checksum hdrop.payloads hnext
  have htaken := List.drop_eq_nil_iff.mp (List.map_eq_nil_iff.mp hnone)
  rw [h.sent_eq, List.take_of_length_le (htaken.trans (Nat.le_max_left _ _))]

end

end Pass.Follows

end SevenDB.Bucket
