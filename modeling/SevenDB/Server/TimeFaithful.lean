import SevenDB.Cmd.SetGet
import SevenDB.Server.Replayed

/-!
# A restart and the clock

The log has commands without the times they were executed at. The replay evaluates durations and options
against the clock of the restart: a duration starts again, a point in time in seconds is moved by a part of a
second, and a SET with a point in time that has passed is skipped, which leaves the value that it had
overwritten.
-/

namespace SevenDB.Server

open SevenDB.Common SevenDB.Types SevenDB.Cmd SevenDB.Ironhawk

/-- Execute commands one after the other, each at its time and with success. -/
def executeAll (env : Env) (history : List (Int64 × Command)) : Option Store :=
  applyAll (fun entry => replayAt env entry.1 entry.2) history ∅

/-- The replay of a history of commands that succeeded processes all records, and at every later time there are
the same live objects with the same expiry times as in the original store. This holds when no command gives a
duration, or a point in time in seconds other than by EXPIREAT, and all points in time are after the end of the
replay; each command is replayed after it was executed, by a server that accepts as late times. -/
theorem restart_time_faithful {T : Type} {env envLater : Env} (hmatch : envLater.pathMatch = env.pathMatch)
    (hmax : env.maxAbsTimestamp ≤ envLater.maxAbsTimestamp) (history : List (Int64 × Command)) {final : Store}
    (hexecuted : executeAll env history = some final) (times : List Int64) (hlength : times.length = history.length)
    (hlater : ∀ pair ∈ times.zip history, pair.2.1 ≤ pair.1) (deadline : Int64)
    (hdeadline : ∀ later ∈ times, later ≤ deadline)
    (hahead : ∀ entry ∈ history, SetsOnly (fun exp => deadline < exp) (wireCommand entry.2)) :
    ∃ restored, replayAll envLater (times.zip (history.map Prod.snd)) (nothingRestored T) = (.ok, restored) ∧
      ∀ later key, (restored.store.slot key).get later = (final.slot key).get later := by
  have hP : ∀ pair ∈ times.zip history, ∀ exp, deadline < exp → pair.2.1 ≤ pair.1 ∧ pair.1 < exp ∧
      env.maxAbsTimestamp ≤ envLater.maxAbsTimestamp := by
    intro pair hpair exp hexp
    have hreplayed : pair.1 ≤ deadline := hdeadline pair.1 (List.of_mem_zip hpair).1
    exact ⟨hlater pair hpair, Int64.lt_of_le_of_lt hreplayed hexp, hmax⟩
  obtain ⟨restored, hreplay, hstore⟩ : ∃ restored,
      replayAll envLater (times.zip (history.map Prod.snd)) (nothingRestored T) = (.ok, restored) ∧
        restored.store = final :=
    replayAll_of_applyAll hmatch hlength hP (fun entry hentry => .inr (hahead entry hentry))
      storeExpiriesIn_empty hexecuted
  refine ⟨restored, hreplay, fun later key => ?_⟩
  rw [hstore]

/-- A value is set and gets an expiry time by GETEX, and both are replayed before that time. -/
theorem restart_time_faithful_getex :
    ∃ final, executeAll bareEnv [(1000, ⟨"SET", ["k", "5"]⟩), (2000, ⟨"GETEX", ["k", "PXAT", "9000"]⟩)] = some final ∧
      ∃ restored, replayAll bareEnv ([3000, 4000].zip [⟨"SET", ["k", "5"]⟩, ⟨"GETEX", ["k", "PXAT", "9000"]⟩])
          (nothingRestored Unit) = (.ok, restored) ∧
        ∀ later key, (restored.store.slot key).get later = (final.slot key).get later := by
  have hgetex : SetsOnly (fun exp => 4000 < exp) (wireCommand ⟨"GETEX", ["k", "PXAT", "9000"]⟩) := by
    refine ⟨?_, ?_, ?_⟩
    · exact (by decide : "GETEX" ≠ "EXPIRE")
    · rintro ps ⟨⟩
      refine ⟨rfl, rfl, rfl, fun _ => ?_⟩
      rintro v ⟨⟩
      decide
    · exact fun hcmd => absurd hcmd (by decide : "GETEX" ≠ "EXPIREAT")
  have hdeadline : ∀ later ∈ [3000, 4000], later ≤ (4000 : Int64) :=
    List.forall_mem_cons.mpr ⟨by decide, List.forall_mem_singleton.mpr (by decide)⟩
  refine ⟨_, rfl, restart_time_faithful rfl (Int64.le_refl _)
    [(1000, ⟨"SET", ["k", "5"]⟩), (2000, ⟨"GETEX", ["k", "PXAT", "9000"]⟩)] rfl [3000, 4000] rfl (by decide) 4000
    hdeadline ?_⟩
  intro entry hentry
  simp only [List.mem_cons, List.not_mem_nil, or_false] at hentry
  rcases hentry with rfl | rfl
  · exact setsOnly_SET _ _ _
  · exact hgetex

/-- A key that is set for a hundred seconds and replayed fifty seconds later expires fifty seconds late. A SET
with a point in time that has passed is skipped, so an older value is live again, and the INCRBY that succeeded on
the new value fails and ends the replay. -/
theorem restart_drifts :
    (executeAll bareEnv [(0, ⟨"SET", ["k", "v", "EX", "100"]⟩)]).map (fun s => s.slot (ascii "k")) =
        some (some ⟨.str (ascii "v"), some 100000⟩) ∧
      (replayAll bareEnv [(50000, ⟨"SET", ["k", "v", "EX", "100"]⟩)] (nothingRestored Unit)).2.store.slot (ascii "k") =
        some ⟨.str (ascii "v"), some 150000⟩ ∧
      (executeAll bareEnv [(500, ⟨"SET", ["k", "v"]⟩), (1000, ⟨"SET", ["k", "5", "PXAT", "2000"]⟩),
          (1500, ⟨"INCRBY", ["k", "1"]⟩)]).map (fun s => (s.slot (ascii "k")).get 3000) = some none ∧
      (replayAll bareEnv [(3000, ⟨"SET", ["k", "v"]⟩), (3000, ⟨"SET", ["k", "5", "PXAT", "2000"]⟩),
          (3000, ⟨"INCRBY", ["k", "1"]⟩)] (nothingRestored Unit)).1 = .error ∧
      (replayAll bareEnv [(3000, ⟨"SET", ["k", "v"]⟩), (3000, ⟨"SET", ["k", "5", "PXAT", "2000"]⟩),
          (3000, ⟨"INCRBY", ["k", "1"]⟩)] (nothingRestored Unit)).2.store.slot (ascii "k") =
        some ⟨.str (ascii "v"), none⟩ := by
  decide +kernel

end SevenDB.Server
