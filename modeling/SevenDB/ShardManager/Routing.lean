import SevenDB.Emission.Rebind
import SevenDB.ShardManager.LeaderNotifier

/-!
# Routing of keys to shards

The shard manager keeps one slice per feature, with an entry for each shard. All lookups take the hash
of the key modulo the number of shards, and the number of shards goes through a signed byte on the way.
From 128 shards on the byte is another number: it is negative, or zero, or too small. The loop that wires
the sender of emissions at startup runs to the same number.
-/

namespace SevenDB.ShardManager

open SevenDB.Emission

variable {K E : Type}

/-- The run-time errors of the language that a lookup can end in. -/
inductive RuntimeError
  | integerDivideByZero
  | indexOutOfRange
  deriving DecidableEq, Repr

/-- The notifier of a shard as far as it is wired: it sends through the gate until a sender is set. -/
structure ShardNotifier (E : Type) where
  shardID : String
  sender : Option (E → Except SendError Unit)

/-- The slices of the shard manager. A slice is missing while its feature is disabled, and an entry is
missing when the raft node of the shard has not started. A shard is known by its number, and a raft node
by the identifier of its shard. -/
structure Slices (K E : Type) where
  hash : K → UInt64
  shards : List ℕ
  raftNodes : Option (List (Option String))
  emissionMgrs : Option (List (Option Manager))
  emissionNotifiers : Option (List (Option (ShardNotifier E)))
  emissionGates : Option (List (Option (GatedSender E)))

namespace Slices

variable (s : Slices K E) (key : K)

/-- The number of shards, through a signed byte. -/
def shardCount : Int8 := Int8.ofNat s.shards.length

/-- The hash of a key modulo the number of shards, which is first extended to 64 bits. -/
def hashIndex : Except RuntimeError UInt64 :=
  if s.shardCount.toInt64.toUInt64 = 0 then .error .integerDivideByZero
  else .ok (s.hash key % s.shardCount.toInt64.toUInt64)

def getShardForKey : Except RuntimeError ℕ :=
  match s.hashIndex key with
  | .error e => .error e
  | .ok idx =>
    match s.shards[idx.toNat]? with
    | none => .error .indexOutOfRange
    | some shard => .ok shard

/-- The entry of a slice for a key, with its index: none when the feature is disabled, the index is out of
range as an int, or the entry is missing. -/
def entryForKey {A : Type} (slice : Option (List (Option A))) : Except RuntimeError (Option (ℕ × A)) :=
  match slice with
  | none => .ok none
  | some entries =>
    match s.hashIndex key with
    | .error e => .error e
    | .ok hashed =>
      let idx := hashed.toInt64.toInt
      if idx < 0 ∨ (entries.length : ℤ) ≤ idx then .ok none
      else .ok (entries[idx.toNat]?.join.map fun entry => (idx.toNat, entry))

def getRaftNodeForKey : Except RuntimeError (Option String) :=
  (s.entryForKey key s.raftNodes).map fun found => found.map Prod.snd

def notifierForKey : Except RuntimeError (Option (ShardNotifier E)) :=
  (s.entryForKey key s.emissionNotifiers).map fun found => found.map Prod.snd

/-- A reconnect at the manager that was found; the zero answer without one. -/
def reconnectAt (req : ReconnectRequest) : Option (ℕ × Manager) → ReconnectAck
  | none => ⟨.ok, ⟨"", 0⟩, 0⟩
  | some found => found.2.reconnect req

def emissionReconnectForKey (req : ReconnectRequest) : Except RuntimeError ReconnectAck :=
  (s.entryForKey key s.emissionMgrs).map (reconnectAt req)

/-- A rebind at the manager that was found: whether an entry was moved, and the slices after it. -/
def rebindAt (order : SearchOrder) (fp : UInt64) (oldClientID newClientID : String) :
    Option (ℕ × Manager) → Bool × Slices K E
  | none => (false, s)
  | some (idx, mgr) =>
    let result := mgr.rebindByFingerprint order fp oldClientID newClientID
    (decide (0 < result.moved),
      { s with emissionMgrs := s.emissionMgrs.map fun entries => entries.set idx (some result.mgr) })

def emissionRebindForKey (order : SearchOrder) (fp : UInt64) (oldClientID newClientID : String) :
    Except RuntimeError (Bool × Slices K E) :=
  (s.entryForKey key s.emissionMgrs).map (s.rebindAt order fp oldClientID newClientID)

/-- Wire a sender to the gate of a shard, or to its notifier when it has no gate. -/
def setEmissionSender (shardIdx : ℕ) (sender : E → Except SendError Unit) : Slices K E :=
  match s.emissionNotifiers with
  | none => s
  | some notifiers =>
    if notifiers.length ≤ shardIdx then s
    else
      match s.emissionGates.bind fun gates => gates[shardIdx]?.join with
      | some gate =>
        { s with
          emissionGates := s.emissionGates.map fun gates =>
            gates.set shardIdx (some (gate.setUnderlying (some sender))) }
      | none =>
        { s with
          emissionNotifiers := some (notifiers.modify shardIdx fun entry =>
            entry.map fun notifier => { notifier with sender := some sender }) }

/-- The loop at startup that wires one sender to all shards. -/
def wireSenders (sender : E → Except SendError Unit) : Slices K E :=
  (List.range s.shardCount.toInt.toNat).foldl (fun slices i => slices.setEmissionSender i sender) s

end Slices

/-- The identifier of the raft group of a shard, one character counted from the letter a. -/
def shardID (i : ℕ) : String :=
  String.singleton (if ((97 + i) % 2 ^ 32).isValidChar then Char.ofNat ((97 + i) % 2 ^ 32) else '�')

/-- What a start depends on: the two switches, and which raft nodes start without an error. -/
structure StartConfig where
  raftEnabled : Bool
  emissionContractEnabled : Bool
  nodeStarts : ℕ → Bool

/-- The entries of a slice at startup: one for each shard whose raft node has started. -/
def StartConfig.entries {A : Type} (cfg : StartConfig) (enabled : Bool) (n : ℕ) (make : ℕ → A) :
    Option (List (Option A)) :=
  if enabled then some ((List.range n).map fun i => if cfg.nodeStarts i then some (make i) else none) else none

def newShardManager (cfg : StartConfig) (hash : K → UInt64) (shardCount : ℕ) : Slices K E :=
  let emission := cfg.raftEnabled && cfg.emissionContractEnabled
  { hash := hash
    shards := List.range shardCount
    raftNodes := cfg.entries cfg.raftEnabled shardCount shardID
    emissionMgrs := cfg.entries emission shardCount fun i => newManager (shardID i)
    emissionNotifiers := cfg.entries emission shardCount fun i => ⟨shardID i, none⟩
    emissionGates := cfg.entries emission shardCount fun _ => newGatedSender none }

/-- The slices once the server has wired the bridge that delivers emissions. -/
def startServer (cfg : StartConfig) (hash : K → UInt64) (bridge : E → Except SendError Unit) (shardCount : ℕ) :
    Slices K E :=
  let slices := newShardManager cfg hash shardCount
  if cfg.emissionContractEnabled then slices.wireSenders bridge else slices

namespace Slices

def entryAt {A : Type} (slice : Option (List (Option A))) (i : ℕ) : Option (ℕ × A) :=
  (slice.bind fun entries => entries[i]?.join).map fun entry => (i, entry)

/-- Every slice that is there has one entry for each of so many shards, and where there are gates there are
notifiers. -/
structure Sized (s : Slices K E) (n : ℕ) : Prop where
  shards : s.shards.length = n
  raftNodes : ∀ entries ∈ s.raftNodes, entries.length = n
  emissionMgrs : ∀ entries ∈ s.emissionMgrs, entries.length = n
  emissionNotifiers : ∀ entries ∈ s.emissionNotifiers, entries.length = n
  emissionGates : ∀ entries ∈ s.emissionGates, entries.length = n
  gated : s.emissionGates.isSome → s.emissionNotifiers.isSome

/-- All five lookups work on the entries with this index, which is in range. -/
structure Selects (s : Slices K E) (key : K) (i : ℕ) : Prop where
  inRange : i < s.shards.length
  shard : ∃ shard, s.shards[i]? = some shard ∧ s.getShardForKey key = .ok shard
  raftNode : s.getRaftNodeForKey key = .ok ((entryAt s.raftNodes i).map Prod.snd)
  notifier : s.notifierForKey key = .ok ((entryAt s.emissionNotifiers i).map Prod.snd)
  reconnect : ∀ req, s.emissionReconnectForKey key req = .ok (reconnectAt req (entryAt s.emissionMgrs i))
  rebind : ∀ order fp oldClientID newClientID,
    s.emissionRebindForKey key order fp oldClientID newClientID =
      .ok (s.rebindAt order fp oldClientID newClientID (entryAt s.emissionMgrs i))

/-- The gate of a shard, if it has one, passes events on to this sender. -/
def Wired (s : Slices K E) (i : ℕ) (sender : E → Except SendError Unit) : Prop :=
  ∀ found ∈ entryAt s.emissionGates i, found.2.underlying = some sender

section Lookups

variable {s : Slices K E} {n : ℕ} {key : K}

/-- Up to 127 shards the signed byte is the number of shards. -/
theorem extended_shardCount (hcount : s.shards.length = n) (hn : n ≤ 127) :
    s.shardCount.toInt64.toUInt64 = UInt64.ofNat n ∧ s.shardCount.toInt = n := by
  have hall : ∀ n < 128, (Int8.ofNat n).toInt64.toUInt64 = UInt64.ofNat n ∧ (Int8.ofNat n).toInt = n := by
    decide +kernel
  rw [shardCount, hcount]
  exact hall n (by omega)

/-- Up to 127 shards the index is the hash modulo the number of shards. -/
theorem hashIndex_of_le (key : K) (hcount : s.shards.length = n) (hpos : 1 ≤ n) (hn : n ≤ 127) :
    ∃ idx, s.hashIndex key = .ok idx ∧ idx.toNat = (s.hash key).toNat % n ∧
      idx.toInt64.toInt = ((s.hash key).toNat % n : ℕ) := by
  have hmod : (UInt64.ofNat n).toNat = n := by
    rw [UInt64.toNat_ofNat']
    omega
  have hne : UInt64.ofNat n ≠ 0 := by
    intro hzero
    rw [hzero] at hmod
    simp at hmod
    omega
  have hidx : (s.hash key % UInt64.ofNat n).toNat = (s.hash key).toNat % n := by
    rw [UInt64.toNat_mod, hmod]
  refine ⟨s.hash key % UInt64.ofNat n, ?_, hidx, ?_⟩
  · rw [hashIndex, (extended_shardCount hcount hn).1, if_neg hne]
  · have hlt : (s.hash key).toNat % n < n := Nat.mod_lt _ (by omega)
    rw [← hidx, ← Int64.toInt_toBitVec, UInt64.toBitVec_toInt64, BitVec.toInt_eq_toNat_of_lt]
    · rfl
    · change 2 * (s.hash key % UInt64.ofNat n).toNat < 2 ^ 64
      omega

/-- Up to 127 shards a lookup in a slice finds the entry at the hash modulo the number of shards. -/
theorem entryForKey_of_le {A : Type} {slice : Option (List (Option A))} (hcount : s.shards.length = n)
    (hpos : 1 ≤ n) (hn : n ≤ 127) (hslice : ∀ entries ∈ slice, entries.length = n) :
    s.entryForKey key slice = .ok (entryAt slice ((s.hash key).toNat % n)) := by
  obtain ⟨idx, hidx, _, hint⟩ := hashIndex_of_le key hcount hpos hn
  have hlt : (s.hash key).toNat % n < n := Nat.mod_lt _ (by omega)
  cases slice with
  | none => rfl
  | some entries =>
    have hlength : entries.length = n := hslice entries rfl
    have hrange : ¬ (((s.hash key).toNat % n : ℕ) < (0 : ℤ) ∨ (entries.length : ℤ) ≤ ((s.hash key).toNat % n : ℕ)) := by
      omega
    simp only [entryForKey, hidx, hint, if_neg hrange, Int.toNat_natCast]
    rfl

/-- Up to 127 shards all lookups select the hash modulo the number of shards. -/
theorem Sized.selects (h : s.Sized n) (hpos : 1 ≤ n) (hn : n ≤ 127) (key : K) :
    s.Selects key ((s.hash key).toNat % n) := by
  have hlt : (s.hash key).toNat % n < s.shards.length := by
    rw [h.shards]
    exact Nat.mod_lt _ (by omega)
  obtain ⟨idx, hidx, hnat, _⟩ := hashIndex_of_le key h.shards hpos hn
  have hshard := List.getElem?_eq_getElem hlt
  refine ⟨hlt, ⟨_, hshard, ?_⟩, ?_, ?_, fun req => ?_, fun order fp oldClientID newClientID => ?_⟩
  · simp only [getShardForKey, hidx, hnat, hshard]
  · rw [getRaftNodeForKey, entryForKey_of_le h.shards hpos hn h.raftNodes]
    rfl
  · rw [notifierForKey, entryForKey_of_le h.shards hpos hn h.emissionNotifiers]
    rfl
  · rw [emissionReconnectForKey, entryForKey_of_le h.shards hpos hn h.emissionMgrs]
    rfl
  · rw [emissionRebindForKey, entryForKey_of_le h.shards hpos hn h.emissionMgrs]
    rfl

end Lookups

section Wiring

variable {s : Slices K E} {n : ℕ} (sender : E → Except SendError Unit)

theorem Sized.setEmissionSender (h : s.Sized n) (shardIdx : ℕ) : (s.setEmissionSender shardIdx sender).Sized n := by
  cases hnotifiers : s.emissionNotifiers with
  | none =>
    simp only [Slices.setEmissionSender, hnotifiers]
    exact h
  | some notifiers =>
    have hsize : notifiers.length = n := h.emissionNotifiers notifiers hnotifiers
    simp only [Slices.setEmissionSender, hnotifiers]
    by_cases hidx : notifiers.length ≤ shardIdx
    · rw [if_pos hidx]
      exact h
    rw [if_neg hidx]
    cases s.emissionGates.bind fun gates => gates[shardIdx]?.join with
    | none =>
      refine ⟨h.shards, h.raftNodes, h.emissionMgrs, fun entries hentries => ?_, h.emissionGates, fun _ => rfl⟩
      cases hentries
      rw [List.length_modify, hsize]
    | some gate =>
      refine ⟨h.shards, h.raftNodes, h.emissionMgrs, fun entries hentries => ?_, fun entries hentries => ?_,
        fun _ => rfl⟩
      · cases hentries
        exact hsize
      · obtain ⟨gates, hgates, rfl⟩ := Option.map_eq_some_iff.mp hentries
        rw [List.length_set, h.emissionGates gates hgates]

/-- Wiring one shard sets the transport under its gate, and only there. -/
theorem Sized.entryAt_setEmissionSender (h : s.Sized n) {shardIdx : ℕ} (hidx : shardIdx < n) (i : ℕ) :
    entryAt (s.setEmissionSender shardIdx sender).emissionGates i =
      (entryAt s.emissionGates i).map fun found =>
        if i = shardIdx then (found.1, found.2.setUnderlying (some sender)) else found := by
  cases hgates : s.emissionGates with
  | none =>
    have hsame : (s.setEmissionSender shardIdx sender).emissionGates = none := by
      unfold Slices.setEmissionSender
      split
      · exact hgates
      · split
        · exact hgates
        · rw [hgates]
          rfl
    rw [hsame]
    rfl
  | some gates =>
    obtain ⟨notifiers, hnotifiers⟩ := Option.isSome_iff_exists.mp (h.gated (by rw [hgates]; rfl))
    have hlength : ¬ notifiers.length ≤ shardIdx := by
      rw [h.emissionNotifiers notifiers hnotifiers]
      omega
    simp only [Slices.setEmissionSender, hnotifiers, if_neg hlength, hgates, Option.bind_some, Option.map_some]
    cases hgate : gates[shardIdx]?.join with
    | none =>
      simp only [entryAt, Option.bind_some]
      by_cases hi : i = shardIdx
      · rw [hi, hgate]
        rfl
      · simp only [if_neg hi, Option.map_id']
    | some gate =>
      have hfound : shardIdx < gates.length := by rw [h.emissionGates gates hgates]; exact hidx
      simp only [entryAt, Option.bind_some]
      by_cases hi : i = shardIdx
      · rw [hi, hgate, List.getElem?_set_self hfound]
        simp
      · rw [List.getElem?_set_ne (Ne.symm hi)]
        simp only [if_neg hi, Option.map_id']

theorem Sized.entryAt_wired (h : s.Sized n) {bound : ℕ} (hbound : bound ≤ n) (i : ℕ) :
    let wired := (List.range bound).foldl (fun slices j => slices.setEmissionSender j sender) s
    wired.Sized n ∧ entryAt wired.emissionGates i =
      (entryAt s.emissionGates i).map fun found =>
        if i < bound then (found.1, found.2.setUnderlying (some sender)) else found := by
  induction bound with
  | zero => exact ⟨h, by simp⟩
  | succ bound ih =>
    obtain ⟨hsized, hentry⟩ := ih (by omega)
    rw [List.range_succ, List.foldl_append]
    refine ⟨hsized.setEmissionSender sender bound, ?_⟩
    rw [List.foldl_cons, List.foldl_nil, hsized.entryAt_setEmissionSender sender (by omega), hentry, Option.map_map]
    congr 1
    funext found
    by_cases hlast : i = bound
    · simp [hlast]
    · by_cases hbelow : i < bound
      · simp [hlast, hbelow, Nat.lt_succ_of_lt hbelow]
      · simp [hlast, hbelow, show ¬ i < bound + 1 by omega]

end Wiring

section Startup

variable (cfg : StartConfig) (hash : K → UInt64) (bridge : E → Except SendError Unit) (n : ℕ)

theorem length_entries {A : Type} {enabled : Bool} {make : ℕ → A} :
    ∀ entries ∈ cfg.entries enabled n make, entries.length = n := by
  intro entries hentries
  obtain ⟨_, rfl⟩ := Option.ite_some_none_eq_some.mp hentries
  rw [List.length_map, List.length_range]

theorem isSome_entries {A : Type} {enabled : Bool} {make : ℕ → A} :
    (cfg.entries enabled n make).isSome = enabled := by
  cases enabled <;> rfl

theorem sized_newShardManager : (newShardManager cfg hash n : Slices K E).Sized n where
  shards := List.length_range
  raftNodes := length_entries cfg n
  emissionMgrs := length_entries cfg n
  emissionNotifiers := length_entries cfg n
  emissionGates := length_entries cfg n
  gated := by
    intro hgates
    rw [newShardManager, isSome_entries] at hgates ⊢
    exact hgates

/-- The bound of the loop at startup is at most the number of shards. -/
theorem toNat_shardCount_le : (Int8.ofNat n).toInt.toNat ≤ n := by
  by_cases hn : n ≤ 127
  · have hall : ∀ n < 128, (Int8.ofNat n).toInt = n := by decide +kernel
    rw [hall n (by omega), Int.toNat_natCast]
  · have hmax : (Int8.ofNat n).toInt ≤ 127 := Int8.toInt_le _
    omega

/-- The loop at startup wires the shards below the signed byte. -/
theorem entryAt_wireSenders (i : ℕ) :
    entryAt ((newShardManager cfg hash n : Slices K E).wireSenders bridge).emissionGates i =
      (entryAt (newShardManager cfg hash n : Slices K E).emissionGates i).map fun found =>
        if i < (Int8.ofNat n).toInt.toNat then (found.1, found.2.setUnderlying (some bridge)) else found := by
  have hsized := sized_newShardManager (E := E) cfg hash n
  rw [wireSenders, shardCount, hsized.shards]
  exact (hsized.entryAt_wired bridge (toNat_shardCount_le n) i).2

theorem wired_startServer (hn : n ≤ 127) (i : ℕ) (hi : i < n) : (startServer cfg hash bridge n).Wired i bridge := by
  have hcount := (extended_shardCount (sized_newShardManager (E := E) cfg hash n).shards hn).2
  rw [shardCount, (sized_newShardManager (E := E) cfg hash n).shards] at hcount
  intro found hfound
  unfold startServer at hfound
  by_cases hemission : cfg.emissionContractEnabled = true
  · rw [if_pos hemission, entryAt_wireSenders, hcount, Int.toNat_natCast] at hfound
    obtain ⟨before, _, rfl⟩ := Option.map_eq_some_iff.mp hfound
    rw [if_pos hi]
    rfl
  · have hnone : (newShardManager cfg hash n : Slices K E).emissionGates = none := by
      simp [newShardManager, StartConfig.entries, hemission]
    rw [if_neg hemission, hnone] at hfound
    cases hfound

/-- With both features on and all raft nodes started, the last of more than 127 shards has a gate that is not
wired. -/
theorem not_wired_last (hn : 127 < n) :
    ¬ (startServer ⟨true, true, fun _ => true⟩ hash bridge n).Wired (n - 1) bridge := by
  intro hwired
  have hmax : (Int8.ofNat n).toInt ≤ 127 := Int8.toInt_le _
  have hgate : entryAt (newShardManager ⟨true, true, fun _ => true⟩ hash n : Slices K E).emissionGates (n - 1) =
      some (n - 1, newGatedSender none) := by
    have hlt : n - 1 < n := by omega
    simp [newShardManager, StartConfig.entries, entryAt, hlt]
  have hlast := entryAt_wireSenders ⟨true, true, fun _ => true⟩ hash bridge n (n - 1)
  rw [hgate, Option.map_some, if_neg (by omega)] at hlast
  cases hwired _ hlast

end Startup

end Slices

/-- The lookups for a key all work on the shard at the hash modulo the number of shards, whatever the slices
hold, and every shard gets the sender at startup, whatever the configuration: exactly up to 127 shards. -/
theorem routing_iff (hash : K → UInt64) (bridge : E → Except SendError Unit) {n : ℕ} (hpos : 1 ≤ n) :
    ((∀ s : Slices K E, s.hash = hash → s.Sized n → ∀ key, s.Selects key ((hash key).toNat % n)) ∧
      ∀ cfg, ∀ i < n, (startServer cfg hash bridge n).Wired i bridge) ↔ n ≤ 127 := by
  constructor
  · rintro ⟨_, hwired⟩
    by_contra hn
    exact Slices.not_wired_last hash bridge n (by omega) (hwired _ (n - 1) (by omega))
  · intro hn
    refine ⟨fun s hhash hsized key => ?_, fun cfg => Slices.wired_startServer cfg hash bridge n hn⟩
    rw [← hhash]
    exact hsized.selects hpos hn key

/-- Three shards are routed and wired. -/
theorem routing_iff_three :
    (∀ s : Slices ℕ ℕ, s.hash = UInt64.ofNat → s.Sized 3 → ∀ key, s.Selects key ((UInt64.ofNat key).toNat % 3)) ∧
      ∀ cfg, ∀ i < 3, (startServer cfg UInt64.ofNat (fun _ => .ok ()) 3 : Slices ℕ ℕ).Wired i fun _ => .ok () :=
  (routing_iff UInt64.ofNat (fun _ => .ok ()) (by decide)).mpr (by decide)

/-- With 128 shards the shard of a key with hash 200 is looked up out of range and no gate is wired; with 256
shards the lookups divide by zero. -/
theorem routing_overflow :
    let start : ℕ → Slices Unit Unit := startServer ⟨true, true, fun _ => true⟩ (fun _ => 200) fun _ => .ok ()
    (start 128).getShardForKey () = .error .indexOutOfRange ∧
      (start 128).getRaftNodeForKey () = .ok none ∧
      ¬ (start 128).Wired 0 (fun _ => .ok ()) ∧
      (start 256).getShardForKey () = .error .integerDivideByZero ∧
      (start 256).getRaftNodeForKey () = .error .integerDivideByZero := by
  refine ⟨by decide +kernel, by decide +kernel, fun hwired => ?_, by decide +kernel, by decide +kernel⟩
  have hgate := Slices.entryAt_wireSenders (E := Unit) ⟨true, true, fun _ => true⟩ (fun _ : Unit => 200)
    (fun _ => .ok ()) 128 0
  cases hwired (0, newGatedSender none) hgate

end SevenDB.ShardManager
