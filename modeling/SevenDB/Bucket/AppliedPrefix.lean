import SevenDB.Bucket.ReadPass

/-!
# The apply loop applies a front of the appended entries

However appends, the bytes that come into sight, and the steps of the loops are interleaved, every loop has
applied the first entries of its bucket, in their order and with the commit indices from one on. A read that
starts when no append to its bucket is going on applies all of them, unless another append begins.
-/

namespace SevenDB.Bucket

open SevenDB.Common

variable {B R : Type*} {paths : BucketPaths B} (fmt : BucketFormat B)

/-- Entries with the next commit indices whose frames can be seen up to some place. -/
structure Seen (entries : List (WALEntry B)) (visible : List UInt8) : Prop where
  fit : FitFrames fmt entries
  numbered : Numbered entries
  isPrefix : visible <+: entryStream fmt entries

/-- A loop has applied the first entries, up to the last one that it knows of, and so does its read. -/
structure Runtime.Follows (rt : Runtime B) (entries : List (WALEntry B)) (visible : List UInt8) : Prop where
  lastApplied_le : rt.lastApplied ≤ entries.length
  applied_eq : rt.applied = entries.take rt.lastApplied
  pass : ∀ p ∈ rt.pass, ∃ taken, p.Follows fmt rt.applied entries visible taken

namespace Runtime.Follows

variable {fmt} {rt next : Runtime B} {entries : List (WALEntry B)} {visible : List UInt8}

theorem new (b : B) (entries : List (WALEntry B)) (visible : List UInt8) :
    (Runtime.new b).Follows fmt entries visible :=
  ⟨Nat.zero_le _, rfl, fun _ hp => by cases hp⟩

section

variable (h : rt.Follows fmt entries visible)
include h

/-- As many entries are applied as the last commit index says. -/
theorem length_applied : rt.applied.length = rt.lastApplied := by
  rw [h.applied_eq, List.length_take_of_le h.lastApplied_le]

theorem grow {others : List (WALEntry B)} {seen : List UInt8}
    (hentries : entries <+: others) (hvisible : visible <+: seen) : rt.Follows fmt others seen := by
  refine ⟨h.lastApplied_le.trans hentries.length_le, ?_, fun p hp => ?_⟩
  · obtain ⟨more, rfl⟩ := hentries
    rw [List.take_append_of_le_length h.lastApplied_le, h.applied_eq]
  · obtain ⟨taken, hfollows⟩ := h.pass p hp
    exact ⟨taken, hfollows.grow hentries hvisible⟩

theorem onOpen {change : Pass B → Option (Pass B)}
    (hchange : ∀ p q taken, p.Follows fmt rt.applied entries visible taken → change p = some q →
      ∃ taken, q.Follows fmt rt.applied entries visible taken)
    (hnext : rt.onOpen change = some next) : next.id = rt.id ∧ next.Follows fmt entries visible := by
  obtain ⟨p, q, hp, _, hq, rfl⟩ := Runtime.onOpen_eq_some_iff.mp hnext
  obtain ⟨taken, hfollows⟩ := h.pass p hp
  refine ⟨rfl, h.lastApplied_le, h.applied_eq, fun other hother => ?_⟩
  cases hother
  exact hchange p q taken hfollows hq

theorem startRead (hnext : rt.startRead = some next) :
    next.id = rt.id ∧ next.Follows fmt entries visible := by
  obtain ⟨_, rfl⟩ := Runtime.startRead_eq_some hnext
  refine ⟨rfl, h.lastApplied_le, h.applied_eq, fun p hp => ?_⟩
  cases hp
  refine ⟨0, ?_⟩
  rw [h.applied_eq]
  exact .start h.lastApplied_le visible

theorem receive (hnumbered : Numbered entries)
    (hnext : rt.receive = some next) : next.id = rt.id ∧ next.Follows fmt entries visible := by
  obtain ⟨p, e, rest, hp, hchannel, rfl⟩ := Runtime.receive_eq_some_iff.mp hnext
  obtain ⟨taken, hfollows⟩ := h.pass p hp
  obtain ⟨hindex, hrest⟩ := hfollows.receive hnumbered hchannel
  have hlast : e.commitIndex = rt.lastApplied + 1 := by rw [hindex, h.length_applied]
  have hle := hrest.applied_le
  rw [List.length_append, h.length_applied, List.length_singleton, ← hlast] at hle
  refine ⟨rfl, hle, ?_, fun other hother => ?_⟩
  · have hbegins : rt.applied ++ [e] <+: entries := by
      have hsent := hrest.sent_eq ▸ List.take_prefix (max taken (p.fromCommitIndex - 1)) entries
      exact (List.prefix_append _ _).trans hsent
    rw [List.prefix_iff_eq_take.mp hbegins, List.length_append, h.length_applied, List.length_singleton, hlast]
  · cases hother
    exact ⟨taken, hrest⟩

theorem finish (hnext : rt.finish = some next) :
    next.id = rt.id ∧ next.Follows fmt entries visible := by
  obtain ⟨p, _, _, _, rfl⟩ := Runtime.finish_eq_some_iff.mp hnext
  exact ⟨rfl, h.lastApplied_le, h.applied_eq, fun other hother => by cases hother⟩

end

end Runtime.Follows

namespace ApplyState

variable [DecidableEq B]

/-- The files hold the entries of the appends that have returned, the append that is going on will succeed, and
every loop follows the entries of its bucket. -/
structure Sound (w : ApplyState paths R) : Prop where
  holds : ∀ b, (w.log.bucket b).Holds fmt (w.completed b)
  ok : ∀ f ∈ w.inFlight, ((w.opened fmt f).append fmt f.entry f.now .none).2.isOk = true
  follows : ∀ r, (w.runtime r).Follows fmt (w.appended fmt (w.runtime r).id) (w.visible fmt (w.runtime r).id)

section Visible

variable {fmt} {w : ApplyState paths R}

/-- Without an append to a bucket, all of its entries can be seen. -/
theorem visible_eq {b : B} (h : (w.log.bucket b).Holds fmt (w.completed b))
    (hb : ∀ f ∈ w.inFlight, f.entry.bucketID ≠ b) :
    w.appended fmt b = w.completed b ∧ w.visible fmt b = entryStream fmt (w.completed b) := by
  have hnone : w.pending fmt b = [] ∧ w.shown fmt b = [] := by
    rw [pending, shown]
    cases hflight : w.inFlight with
    | none => exact ⟨rfl, rfl⟩
    | some f =>
      have hne := hb f hflight
      exact ⟨if_neg hne, if_neg hne⟩
  rw [appended, visible, hnone.1, hnone.2, List.append_nil, List.append_nil]
  exact ⟨rfl, h.file_eq⟩

/-- During an append to a bucket, its entry comes last and a part of its frame can be seen. -/
theorem visible_inFlight {f : InFlight B} (hf : w.inFlight = some f) :
    w.appended fmt f.entry.bucketID =
        w.completed f.entry.bucketID ++ [(w.opened fmt f).stamp f.entry f.now] ∧
      w.visible fmt f.entry.bucketID = (w.log.bucket f.entry.bucketID).file.file ++
        ((w.opened fmt f).stampedFrame fmt f.entry f.now).take f.shown := by
  rw [appended, visible, pending, shown, hf]
  dsimp only
  rw [if_pos rfl, if_pos rfl]
  exact ⟨rfl, rfl⟩

/-- What can be seen of a bucket are the frames of its entries, which are numbered. -/
theorem Sound.seen (h : w.Sound fmt) (b : B) : Seen fmt (w.appended fmt b) (w.visible fmt b) := by
  by_cases hidle : ∀ f ∈ w.inFlight, f.entry.bucketID ≠ b
  · obtain ⟨hentries, hvisible⟩ := visible_eq (h.holds b) hidle
    rw [hentries, hvisible]
    exact ⟨(h.holds b).fit, (h.holds b).numbered, List.prefix_rfl⟩
  · push Not at hidle
    obtain ⟨f, hf, rfl⟩ := hidle
    obtain ⟨hentries, hvisible⟩ := visible_inFlight hf
    obtain ⟨_, hdone⟩ := (h.holds f.entry.bucketID).append (h.ok f hf)
    rw [hentries, hvisible]
    refine ⟨hdone.fit, hdone.numbered, ?_⟩
    rw [entryStream_append, (h.holds f.entry.bucketID).file_eq, List.prefix_append_right_inj, entryStream_stamp]
    exact List.take_prefix _ _

end Visible

namespace Sound

variable {fmt} {w next : ApplyState paths R}

theorem new (ids : R → B) : (ApplyState.new ids : ApplyState paths R).Sound fmt where
  holds _ := .nil
  ok _ hf := by cases hf
  follows r := .new (ids r) _ _

theorem grow (h : w.Sound fmt) (hholds : ∀ b, (next.log.bucket b).Holds fmt (next.completed b))
    (hok : ∀ f ∈ next.inFlight, ((next.opened fmt f).append fmt f.entry f.now .none).2.isOk = true)
    (hruntime : next.runtime = w.runtime)
    (hgrow : ∀ b, w.appended fmt b <+: next.appended fmt b ∧ w.visible fmt b <+: next.visible fmt b) :
    next.Sound fmt := by
  refine ⟨hholds, hok, fun r => ?_⟩
  rw [hruntime]
  exact (h.follows r).grow (hgrow _).1 (hgrow _).2

/-- A log without an append may change as long as its files hold the same entries. -/
theorem idle (h : w.Sound fmt) (hidle : w.inFlight = none) {log : FileBucketLog paths}
    (hholds : ∀ b, (log.bucket b).Holds fmt (w.completed b)) :
    ({ w with log := log } : ApplyState paths R).Sound fmt := by
  have hnone : ∀ f ∈ w.inFlight, False := fun f hf => by
    rw [hidle] at hf
    cases hf
  refine h.grow hholds (fun f hf => (hnone f hf).elim) rfl fun b => ?_
  obtain ⟨hentries, hvisible⟩ := visible_eq (h.holds b) fun f hf => (hnone f hf).elim
  obtain ⟨hentries', hvisible'⟩ := visible_eq (w := { w with log := log }) (hholds b) fun f hf => (hnone f hf).elim
  rw [hentries, hvisible, hentries', hvisible']
  exact ⟨List.prefix_rfl, List.prefix_rfl⟩

theorem beginAppend (h : w.Sound fmt) (hidle : w.inFlight = none) {entry : WALEntry B} {now : ℤ}
    (hok : (w.log.append fmt (some entry) now .none).2.isOk = true) :
    ({ w with inFlight := some ⟨entry, now, 0⟩ } : ApplyState paths R).Sound fmt := by
  refine h.grow h.holds (fun f hf => ?_) rfl fun b => ?_
  · cases hf
    exact hok
  · have hnone : ∀ f ∈ w.inFlight, f.entry.bucketID ≠ b := fun f hf => by
      rw [hidle] at hf
      cases hf
    obtain ⟨hentries, hvisible⟩ := visible_eq (h.holds b) hnone
    rw [hentries, hvisible, ← (h.holds b).file_eq]
    exact ⟨List.prefix_append _ _, List.prefix_append _ _⟩

theorem reveal (h : w.Sound fmt) {f : InFlight B} (hf : w.inFlight = some f) (count : ℕ) :
    ({ w with inFlight := some { f with shown := f.shown + count } } : ApplyState paths R).Sound fmt := by
  refine h.grow h.holds (fun g hg => ?_) rfl fun b => ?_
  · cases hg
    exact h.ok f hf
  · rw [appended, appended, visible, visible, pending, pending, shown, shown, hf]
    refine ⟨List.prefix_rfl, (List.prefix_append_right_inj _).mpr ?_⟩
    dsimp only
    by_cases hb : f.entry.bucketID = b
    · rw [if_pos hb, if_pos hb]
      exact List.take_prefix_take_left (Nat.le_add_right _ _)
    · rw [if_neg hb, if_neg hb]

theorem endAppend (h : w.Sound fmt) {f : InFlight B} (hf : w.inFlight = some f) {completed : B → List (WALEntry B)}
    (hcompleted : Function.update w.completed f.entry.bucketID
      (w.completed f.entry.bucketID ++ [(w.opened fmt f).stamp f.entry f.now]) = completed) :
    ({ w with log := (w.log.append fmt (some f.entry) f.now .none).1, inFlight := none, completed := completed } :
      ApplyState paths R).Sound fmt := by
  obtain ⟨_, hdone⟩ := (h.holds f.entry.bucketID).append (h.ok f hf)
  have hholds : ∀ b, ((w.log.append fmt (some f.entry) f.now .none).1.bucket b).Holds fmt (completed b) := by
    refine w.log.forall_bucket_set (P := fun b s => s.Holds fmt (completed b)) ?_ fun b hb => ?_
    · rw [← hcompleted, Function.update_self]
      exact hdone
    · rw [← hcompleted, Function.update_of_ne hb]
      exact h.holds b
  refine h.grow hholds (fun g hg => by cases hg) rfl fun b => ?_
  obtain ⟨hentries, hvisible⟩ := visible_eq (w := { w with
    log := (w.log.append fmt (some f.entry) f.now .none).1, inFlight := none, completed := completed }) (hholds b)
    fun g hg => by cases hg
  have hsame : w.appended fmt b = completed b := by
    by_cases hb : b = f.entry.bucketID
    · rw [hb, (visible_inFlight hf).1, ← hcompleted, Function.update_self]
    · rw [← hcompleted, Function.update_of_ne hb, (visible_eq (h.holds b) fun g hg => ?_).1]
      rw [hf] at hg
      cases hg
      exact fun heq => hb heq.symm
  rw [hentries, hvisible]
  dsimp only
  rw [← hsame]
  exact ⟨List.prefix_rfl, (h.seen b).isPrefix⟩

variable [DecidableEq R]

theorem setRuntime (h : w.Sound fmt) {r : R} {rt : Runtime B}
    (hrt : rt.Follows fmt (w.appended fmt rt.id) (w.visible fmt rt.id)) : (w.setRuntime r rt).Sound fmt := by
  refine ⟨h.holds, h.ok, fun other => ?_⟩
  by_cases hother : other = r
  · rw [hother, runtime_setRuntime_self]
    exact hrt
  · rw [runtime_setRuntime_of_ne w hother]
    exact h.follows other

theorem moves (h : w.Sound fmt) {r : R} {rt : Runtime B} (hrt : rt.id = (w.runtime r).id ∧
    rt.Follows fmt (w.appended fmt (w.runtime r).id) (w.visible fmt (w.runtime r).id)) :
    (w.setRuntime r rt).Sound fmt := by
  refine h.setRuntime ?_
  rw [hrt.1]
  exact hrt.2

theorem startRead (h : w.Sound fmt) {r : R} (hstep : w.step fmt (.startRead r) = some next) : next.Sound fmt := by
  obtain ⟨hidle, hstart⟩ := Option.ite_none_right_eq_some.mp hstep
  obtain ⟨rt, hrt, rfl⟩ := Option.map_eq_some_iff.mp hstart
  have hholds : ∀ b, ((w.log.set rt.id ((w.log.bucket rt.id).openBucket fmt)).bucket b).Holds fmt
      (w.completed b) :=
    w.log.forall_bucket_set (P := fun b s => s.Holds fmt (w.completed b)) (h.holds rt.id).openBucket.1
      fun b _ => h.holds b
  have hopened := h.idle hidle hholds
  exact hopened.moves ((hopened.follows r).startRead hrt)

theorem step (h : w.Sound fmt) {action : ApplyAction B R} (hstep : w.step fmt action = some next) :
    next.Sound fmt := by
  cases action with
  | beginAppend entry now =>
    obtain ⟨⟨hidle, hok⟩, rfl⟩ := Option.ite_some_none_eq_some.mp hstep
    exact h.beginAppend hidle hok
  | reveal count =>
    obtain ⟨f, hf, rfl⟩ := Option.map_eq_some_iff.mp hstep
    exact h.reveal hf count
  | endAppend =>
    obtain ⟨f, hf, hend⟩ := Option.bind_eq_some_iff.mp hstep
    obtain ⟨_, rfl⟩ := Option.ite_some_none_eq_some.mp hend
    exact h.endAppend hf rfl
  | reopen =>
    obtain ⟨hidle, rfl⟩ := Option.ite_some_none_eq_some.mp hstep
    exact h.idle hidle fun b => (h.holds b).reopen
  | newBucket r b =>
    cases hstep
    exact h.setRuntime (.new b _ _)
  | startRead r => exact h.startRead hstep
  | fetch r count =>
    obtain ⟨rt, hrt, rfl⟩ := Option.map_eq_some_iff.mp hstep
    refine h.moves ((h.follows r).onOpen (fun p q taken hp hq => ?_) hrt)
    cases hq
    exact ⟨taken, hp.fetch count⟩
  | takeFrame r =>
    obtain ⟨rt, hrt, rfl⟩ := Option.map_eq_some_iff.mp hstep
    have hseen := h.seen (w.runtime r).id
    refine h.moves ((h.follows r).onOpen (fun p q taken hp hq => ?_) hrt)
    exact ⟨taken + 1, (hp.takeFrame hseen.isPrefix hseen.fit hseen.numbered hq).1⟩
  | atEnd r =>
    obtain ⟨rt, hrt, rfl⟩ := Option.map_eq_some_iff.mp hstep
    refine h.moves ((h.follows r).onOpen (fun p q taken hp hq => ?_) hrt)
    obtain ⟨_, rfl⟩ := Option.ite_some_none_eq_some.mp hq
    exact ⟨taken, hp.closed⟩
  | cancel r =>
    obtain ⟨rt, hrt, rfl⟩ := Option.map_eq_some_iff.mp hstep
    refine h.moves ((h.follows r).onOpen (fun p q taken hp hq => ?_) hrt)
    cases hq
    exact ⟨taken, hp.closed⟩
  | receive r =>
    obtain ⟨rt, hrt, rfl⟩ := Option.map_eq_some_iff.mp hstep
    exact h.moves ((h.follows r).receive (h.seen _).numbered hrt)
  | finish r =>
    obtain ⟨rt, hrt, rfl⟩ := Option.map_eq_some_iff.mp hstep
    exact h.moves ((h.follows r).finish hrt)

end Sound

end ApplyState

end SevenDB.Bucket
