import SevenDB.Ironhawk.Subscribing

/-!
# Subscribers that keep out of each other's way

A client should be recorded for a fingerprint from its own watching or reconnecting on until its own
unwatching or disconnecting. This holds of every run in which clients keep apart. Another client that
watches the same command takes the first one off the fingerprint and moves its pending entries.
-/

namespace SevenDB.Ironhawk

open SevenDB.Common SevenDB.Emission

/-- A rebind without an old client changes nothing when every known name with the fingerprint is
already that of the new client. -/
theorem rebind_own {e : Cmd.ShardEmission} {order : SearchOrder} {fp : UInt64} {own : String}
    (hcovers : order.Covers e.mgr) (hnames : OwnNames e.mgr fp own) : e.rebind order fp "" own = e := by
  have hmgr : (e.mgr.rebindByFingerprint order fp "" own).mgr = e.mgr := by
    rw [Manager.rebindByFingerprint_eq]
    by_cases hfp : fp ≠ 0
    · rcases hcovers.located fp "" with ⟨hnone, _⟩ | ⟨hknown, hfound⟩
      · rw [hnone]
        exact (e.mgr.rebindFrom_frame fp own "").2.2.1 rfl
      · rw [if_pos hfp, if_neg (by simp)] at hfound
        have hmem : e.mgr.located order fp "" ∈
            e.mgr.ob.bySub.keys ∪ e.mgr.lastAck.keys ∪ e.mgr.compactThrough.keys := by
          rw [Manager.knows, Bool.or_eq_true, Bool.or_eq_true, decide_eq_true_iff, decide_eq_true_iff,
            decide_eq_true_iff] at hknown
          rw [Finset.mem_union, Finset.mem_union, Finmap.mem_keys, Finmap.mem_keys, Finmap.mem_keys]
          exact hknown
        have hown := hnames _ hmem hfound
        rw [hown, Manager.rebindFrom, if_neg (subIDOf_ne_empty own fp), if_pos]
        rw [renamedSub, if_pos hfp]
    · have hnone : e.mgr.located order fp "" = "" := by
        rw [Manager.located, if_neg hfp, if_neg (not_not.mpr rfl)]
      rw [hnone]
      exact (e.mgr.rebindFrom_frame fp own "").2.2.1 rfl
  obtain ⟨mgr, applier, hagrees⟩ := e
  unfold Cmd.ShardEmission.rebind
  congr

/-- A change that leaves the emission side of a shard as it is leaves the shards as they are. -/
theorem updateEmission_eq_self {sm : Cmd.ShardManager} {key : String}
    {change : Cmd.ShardEmission → Cmd.ShardEmission}
    (hsame : ∀ e ∈ sm.emissionForKey key, change e = e) : sm.updateEmission key change = sm := by
  have hshards : sm.shards.modify (sm.shardIndex key)
      (fun shard => { shard with emission := shard.emission.map change }) = sm.shards := by
    apply List.ext_getElem?
    intro i
    rw [List.getElem?_modify]
    by_cases hi : sm.shardIndex key = i
    · subst hi
      rw [Cmd.ShardManager.emissionForKey] at hsame
      cases hshard : sm.shards[sm.shardIndex key]? with
      | none => rfl
      | some shard =>
        rw [hshard] at hsame
        obtain ⟨raftNode, emission⟩ := shard
        cases emission with
        | none => simp
        | some e => simp [hsame e rfl]
    · simp [hi]
  rw [Cmd.ShardManager.updateEmission, hshards]

variable {T : Type} {fingerprint : Command → UInt64} {clientID : T → String}

theorem shards_handleWatch {s : Server T} {t : T} {c : Command} {logged executes : Bool}
    {order : SearchOrder} (hcovers : s.CoveredBy c.key order)
    (happart : KeepsApart fingerprint clientID s (.watch t c logged executes order)) :
    (s.handleWatch fingerprint clientID t c logged executes order).shards = s.shards := by
  unfold Server.handleWatch
  cases logged with
  | false => rfl
  | true => exact updateEmission_eq_self fun e he => rebind_own (hcovers e he) ((happart rfl).2.2 e he)

/-- While clients keep apart, a client is recorded for a fingerprint exactly when it has successfully
watched it or rebound it to itself, and has since then neither unwatched it nor disconnected; and
another client that watches a command takes it off no fingerprint and moves no pending entry. -/
theorem subscribers_independent [DecidableEq T] {shards : Cmd.ShardManager}
    {actions : List (ClientAction T)} {s : Server T}
    (hrun : Run (Server.step fingerprint clientID) (KeepsApart fingerprint clientID)
      ⟨newWatchManager T, shards⟩ actions s) (client : String) (fp : UInt64) :
    (client ∈ s.watch.clients fp ↔
      ∃ before action after middle next, actions = before ++ action :: after ∧
        Run (Server.step fingerprint clientID) (KeepsApart fingerprint clientID)
          ⟨newWatchManager T, shards⟩ before middle ∧
        middle.step fingerprint clientID action = some next ∧
        middle.Subscribes fingerprint clientID client fp action ∧
        Run (Server.step fingerprint clientID) (fun state action => ¬ state.Leaves clientID client fp action)
          next after s) ∧
      ∀ (t : T) (c : Command) (logged executes : Bool) (order : SearchOrder) (next : Server T),
        KeepsApart fingerprint clientID s (.watch t c logged executes order) →
          s.step fingerprint clientID (.watch t c logged executes order) = some next →
            (client ∈ s.watch.clients fp → client ∈ next.watch.clients fp) ∧ next.shards = s.shards := by
  constructor
  · rw [hrun.holds_iff (P := fun state => client ∈ state.watch.clients fp)
      fun _ _ _ happart hstep => mem_clients_step happart hstep]
    exact or_iff_right fun h => Finset.notMem_empty _ h.1
  · intro t c logged executes order next happart hstep
    refine ⟨fun hclient => (mem_clients_step happart hstep).mpr (Or.inr ⟨hclient, id⟩), ?_⟩
    simp only [Server.step] at hstep
    split at hstep
    · next hcovers =>
      cases hstep
      exact shards_handleWatch hcovers happart
    · cases hstep

/-- Two clients, each with a connection of its own. -/
def twoClients (t : Bool) : String := if t then "a" else "b"

/-- A fingerprint for the key that the clients share, and another for the others. -/
def keyFingerprint (c : Command) : UInt64 := if c.key = "k" then 1 else 2

/-- One shard, in which an event is pending for the first client's subscription to the key. -/
def sharedKeyShards : Cmd.ShardManager :=
  ⟨[⟨some "s", some ((Cmd.newShardEmission "s" 0).settle 1 ⟨.dataEvent, ["a:1", "x"]⟩)⟩], fun _ => 0⟩

def sharedKeyOrder : SearchOrder := ⟨["a:1"], [], []⟩

/-- The first client watches the key, the second watches another key and unwatches it again. -/
theorem subscribers_independent_two_keys :
    ∃ (actions : List (ClientAction Bool)) (s : Server Bool),
      Run (Server.step keyFingerprint twoClients) (KeepsApart keyFingerprint twoClients)
        ⟨newWatchManager Bool, sharedKeyShards⟩ actions s ∧ s.watch.clients 2 = ∅ ∧
      ∃ before action after, ∃ middle next : Server Bool, actions = before ++ action :: after ∧
        middle.step keyFingerprint twoClients action = some next ∧
        middle.Subscribes keyFingerprint twoClients "a" 1 action := by
  obtain ⟨s, hrun, htest⟩ := exists_run_of_check (Server.step keyFingerprint twoClients)
    (KeepsApart keyFingerprint twoClients) ⟨newWatchManager Bool, sharedKeyShards⟩
    [.watch true ⟨"GET.WATCH", ["k"]⟩ true true sharedKeyOrder,
      .watch false ⟨"GET.WATCH", ["j"]⟩ true true sharedKeyOrder, .unwatch false ["2"] true]
    (fun s : Server Bool => decide ("a" ∈ s.watch.clients 1 ∧ s.watch.clients 2 = ∅)) (by decide)
  obtain ⟨hrecorded, hnone⟩ := of_decide_eq_true htest
  obtain ⟨before, action, after, middle, next, heq, _, hstep, hsubscribes, _⟩ :=
    (subscribers_independent hrun "a" 1).1.mp hrecorded
  exact ⟨_, s, hrun, hnone, before, action, after, middle, next, heq, hstep, hsubscribes⟩

/-- The second client watches the command that the first one watches: the first is no longer recorded
for the fingerprint, and its pending entry now belongs to the second. -/
theorem watching_unsubscribes_other :
    ∃ s : Server Bool,
      Run (Server.step keyFingerprint twoClients) (fun _ _ => True) ⟨newWatchManager Bool, sharedKeyShards⟩
        [.watch true ⟨"GET.WATCH", ["k"]⟩ true true sharedKeyOrder] s ∧
      s.watch.clients 1 = {"a"} ∧
      (s.shards.emissionForKey "k").map (fun e => (e.mgr.ob.entries "a:1").keys.card) = some 1 ∧
      ∃ next ∈ s.step keyFingerprint twoClients (.watch false ⟨"GET.WATCH", ["k"]⟩ true true sharedKeyOrder),
        next.watch.clients 1 = {"b"} ∧
        (next.shards.emissionForKey "k").map (fun e => (e.mgr.ob.entries "a:1").keys.card) = some 0 :=
  exists_run (by decide)

end SevenDB.Ironhawk
