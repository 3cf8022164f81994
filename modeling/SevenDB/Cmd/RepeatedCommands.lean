import SevenDB.Cmd.Repeated

/-!
# Commands that are repeated later

A command that succeeded is executed again on the same store at a later time, by the server after a restart.
It succeeds again and leaves the same store, as long as the expiry times it sets are still ahead and no
duration is involved.
-/

namespace SevenDB.Cmd

open SevenDB.Common SevenDB.Types SevenDB.Store

variable {P : Int64 → Prop} {now later : Int64} {env envLater : Env}

variable {s : Store} {args : List GoString}

/-- Visits that leave and count alike on all slots of a kind do the same on a store of such slots. -/
theorem visitKeys_eq {leaves again : Slot → Slot} {counts countsAgain : Slot → Bool}
    (h : ∀ slot, ExpiriesIn P slot → again slot = leaves slot ∧ countsAgain slot = counts slot ∧ ExpiriesIn P (leaves slot))
    (hs : StoreExpiriesIn P s) (count : Int64) (keys : List GoString) :
    visitKeys again countsAgain s count keys = visitKeys leaves counts s count keys ∧
      StoreExpiriesIn P (visitKeys leaves counts s count keys).1 := by
  induction keys generalizing s count with
  | nil => exact ⟨rfl, hs⟩
  | cons key rest ih =>
    obtain ⟨hleaves, hcounts, hkind⟩ := h (s.slot key) (hs key)
    rw [visitKeys, visitKeys, hleaves, hcounts]
    exact ih (hs.setSlot hkind) _

/-- Two ways to execute a command that do the same as long as nothing expires. -/
inductive Shape.Alike : Shape → Shape → Prop
  | keyed {eval : Eval} (h : Steady eval) : Alike (.keyed eval) (.keyed eval)
  | stateless {run again : List GoString → Outcome} (h : ∀ args, (again args).succeeds = (run args).succeeds) :
    Alike (.stateless run) (.stateless again)
  | deleting : Alike .deleting .deleting
  | counting : Alike .counting .counting
  | listing : Alike .listing .listing
  | flushing : Alike .flushing .flushing

/-- All commands but EXPIRE, EXPIREAT, SET and GETEX do the same as long as nothing expires. -/
theorem Name.alike_shape (env envLater : Env) (name : Name)
    (hname : name ∉ [.expire, .expireat, .set, .getex]) : (name.shape env).Alike (name.shape envLater) := by
  cases name with
  | expire | expireat | set | getex => exact absurd hname (by decide)
  | decr | incr => exact .keyed (steady_evalIncrFixed _ _)
  | decrby | incrby => exact .keyed (steady_evalIncrArg _ _)
  | del => exact .deleting
  | «exists» => exact .counting
  | keys => exact .listing
  | flushdb => exact .flushing
  | echo | emitack | emitreconnect | handshake | hello | ping | unwatch => exact .stateless fun _ => rfl
  | expiretime | ttl | type => exact .keyed (steady_evalLookup _ _)
  | get => exact .keyed steady_evalGET
  | getWatch => exact .keyed (steady_evalGET.withArity _ _)
  | getdel => exact .keyed steady_evalGETDEL
  | getset => exact .keyed steady_evalGETSET
  | hget | hgetWatch => exact .keyed (steady_evalHGET.withArity _ _)
  | hgetall | hgetallWatch => exact .keyed (steady_evalHGETALL.withArity _ _)
  | hset => exact .keyed steady_evalHSET
  | zadd => exact .keyed steady_evalZADD
  | zcard => exact .keyed steady_evalZCARD
  | zcardWatch => exact .keyed (steady_evalZCARD.withArity _ _)
  | zcount => exact .keyed steady_evalZCOUNT
  | zcountWatch => exact .keyed (steady_evalZCOUNT.withArity _ _)
  | zpopmax | zpopmin => exact .keyed (steady_evalPop _ _ _)
  | zrange => exact .keyed steady_evalZRANGE
  | zrangeWatch => exact .keyed (steady_evalZRANGE.withArity _ _)
  | zrank | zrankWatch => exact .keyed (steady_evalZRANK.withArity _ _)
  | zrem => exact .keyed steady_evalZREM

/-- The parameters of a command that takes expiry options. -/
def WireCommand.expiryParams (c : WireCommand) : Option Params :=
  if c.cmd = "SET" then (parseParams (c.args.drop 2)).map Prod.fst
  else if c.cmd = "GETEX" then (readParams getexAccepts .none (c.args.drop 1)).map Prod.fst
  else none

/-- A command sets only expiry times of some kind, and gives them as points in time: not in seconds for SET
and GETEX, and never as a duration. -/
def SetsOnly (P : Int64 → Prop) (c : WireCommand) : Prop :=
  c.cmd ≠ "EXPIRE" ∧ (∀ ps ∈ c.expiryParams, AbsoluteOnly P ps) ∧
    (c.cmd = "EXPIREAT" → ∀ text ∈ c.args[1]?, ∀ sec ∈ parseInt text, P (sec * 1000))

theorem setsOnly_SET (P : Int64 → Prop) (key value : GoString) : SetsOnly P ⟨"SET", [key, value]⟩ := by
  refine ⟨?_, ?_, ?_⟩
  · exact (by decide : "SET" ≠ "EXPIRE")
  · rintro ps ⟨⟩
    exact ⟨rfl, rfl, rfl, fun hgiven => by cases hgiven⟩
  · exact fun hcmd => absurd hcmd (by decide : "SET" ≠ "EXPIREAT")

/-- A command that was executed is done again with success, to the same effect. -/
def Redone (P : Int64 → Prop) (first again : Outcome × Store) : Prop :=
  again.1.succeeds = true ∧ again.2 = first.2 ∧ StoreExpiriesIn P first.2

theorem Repeats.redone {eval again : Eval} (h : Repeats P now later eval again args) (hs : StoreExpiriesIn P s)
    (hsucceeds : ((Shape.keyed eval).run env now args s).1.succeeds = true) :
    Redone P ((Shape.keyed eval).run env now args s) ((Shape.keyed again).run envLater later args s) := by
  cases args with
  | nil => exact ⟨(h none expiriesIn_none hsucceeds).1, rfl, hs⟩
  | cons key rest =>
    obtain ⟨hagain, hslot, hkind⟩ := h (s.slot key) (hs key) hsucceeds
    exact ⟨hagain, congrArg (s.setSlot key) hslot, hs.setSlot hkind⟩

theorem redone_deleting (hs : StoreExpiriesIn P s)
    (hsucceeds : (Shape.deleting.run env now args s).1.succeeds = true) :
    Redone P (Shape.deleting.run env now args s) (Shape.deleting.run envLater later args s) := by
  simp only [Shape.run] at hsucceeds ⊢
  split at hsucceeds
  · cases hsucceeds
  · next hargs =>
    rw [if_neg hargs]
    exact ⟨rfl, rfl, (visitKeys_eq (fun _ _ => ⟨rfl, rfl, expiriesIn_none⟩) hs 0 args).2⟩

theorem redone_counting (hP : ∀ exp, P exp → now ≤ later ∧ later < exp) (hs : StoreExpiriesIn P s)
    (hsucceeds : (Shape.counting.run env now args s).1.succeeds = true) :
    Redone P (Shape.counting.run env now args s) (Shape.counting.run envLater later args s) := by
  simp only [Shape.run] at hsucceeds ⊢
  split at hsucceeds
  · cases hsucceeds
  · next hargs =>
    have hslots (slot : Slot) (hslot : ExpiriesIn P slot) : slot.get later = slot.get now ∧
        (slot.get later).isSome = (slot.get now).isSome ∧ ExpiriesIn P (slot.get now) := by
      obtain ⟨hnow, hlater⟩ := hslot.get_eq_both hP
      rw [hnow, hlater]
      exact ⟨rfl, rfl, hslot⟩
    have hvisits := visitKeys_eq hslots hs 0 args
    rw [if_neg hargs, if_neg hargs]
    exact ⟨rfl, congrArg Prod.fst hvisits.1, hvisits.2⟩

/-- A command that does the same as long as nothing expires is done again. -/
theorem Shape.Alike.redone {shape again : Shape} (h : shape.Alike again)
    (hP : ∀ exp, P exp → now ≤ later ∧ later < exp) (hmatch : envLater.pathMatch = env.pathMatch)
    (hs : StoreExpiriesIn P s) (hsucceeds : (shape.run env now args s).1.succeeds = true) :
    Redone P (shape.run env now args s) (again.run envLater later args s) := by
  cases h with
  | keyed hsteady => exact (hsteady.repeats hP args).redone hs hsucceeds
  | stateless hsame => exact ⟨(hsame args).trans hsucceeds, rfl, hs⟩
  | deleting => exact redone_deleting hs hsucceeds
  | counting => exact redone_counting hP hs hsucceeds
  | listing =>
    simp only [Shape.run, hmatch] at hsucceeds ⊢
    split at hsucceeds
    · split at hsucceeds
      · cases hsucceeds
      · next hmatched =>
        rw [if_neg hmatched]
        exact ⟨rfl, rfl, hs⟩
    · cases hsucceeds
  | flushing =>
    simp only [Shape.run] at hsucceeds ⊢
    split at hsucceeds
    · next hargs =>
      rw [if_pos hargs]
      exact ⟨rfl, rfl, storeExpiriesIn_empty⟩
    · cases hsucceeds

/-- A command that succeeded is done again later when it sets only expiry times that are still ahead, by a
server that accepts as late times and matches patterns in the same way. -/
theorem execute_redone (hP : ∀ exp, P exp → now ≤ later ∧ later < exp)
    (hmax : ∀ exp, P exp → env.maxAbsTimestamp ≤ envLater.maxAbsTimestamp)
    (hmatch : envLater.pathMatch = env.pathMatch) {c : WireCommand} (hc : SetsOnly P c) (hs : StoreExpiriesIn P s)
    (hsucceeds : (execute env now c s).1.succeeds = true) :
    Redone P (execute env now c s) (execute envLater later c s) := by
  obtain ⟨hexpire, hparams, hexpireat⟩ := hc
  unfold execute at hsucceeds ⊢
  cases hname : Name.ofText c.cmd with
  | none =>
    rw [hname] at hsucceeds
    cases hsucceeds
  | some name =>
    rw [hname] at hsucceeds
    have hregistered := Name.mem_registry hname
    by_cases hspecial : name ∈ [.expire, .expireat, .set, .getex]
    · simp only [List.mem_cons, List.not_mem_nil, or_false] at hspecial
      rcases hspecial with rfl | rfl | rfl | rfl
      · exact absurd (by simpa [registry] using hregistered) hexpire
      · exact (repeats_evalEXPIREAT hP hmax (hexpireat (by simpa [registry] using hregistered))).redone hs hsucceeds
      · have hcmd : c.cmd = "SET" := by simpa [registry] using hregistered
        refine (repeats_evalSET hP fun read hread => hparams read.1 ?_).redone hs hsucceeds
        rw [WireCommand.expiryParams, if_pos hcmd]
        exact Option.mem_map_of_mem Prod.fst hread
      · have hcmd : c.cmd = "GETEX" := by simpa [registry] using hregistered
        refine (repeats_evalGETEX hP fun read hread => hparams read.1 ?_).redone hs hsucceeds
        rw [WireCommand.expiryParams, if_neg (by rw [hcmd]; decide), if_pos hcmd]
        exact Option.mem_map_of_mem Prod.fst hread
    · exact (name.alike_shape env envLater hspecial).redone hP hmatch hs hsucceeds

end SevenDB.Cmd
