import SevenDB.Cmd.Execute

/-!
# Watched commands only read

A watched command leaves the slot of its key as it is, apart from an object that has expired and is deleted.
-/

namespace SevenDB.Cmd

open SevenDB.Common SevenDB.Types SevenDB.Store

/-- A command leaves a slot as it is, or as a lookup leaves it. -/
def Reads (eval : Eval) : Prop :=
  ∀ now args slot, (eval now args slot).2 = slot ∨ (eval now args slot).2 = slot.get now

theorem Reads.withArity {eval : Eval} (h : Reads eval) (command : String) (accepts : ℕ → Bool) :
    Reads (withArity command accepts eval) := by
  intro now args slot
  unfold Cmd.withArity
  split
  · exact h now args slot
  · exact .inl rfl

theorem reads_evalGET : Reads evalGET := by
  intro now args slot
  unfold evalGET
  split
  · exact .inr rfl
  · exact .inl rfl

theorem reads_evalHGET : Reads evalHGET := by
  intro now args slot
  unfold evalHGET
  split
  · right
    cases slot.get now with
    | none => rfl
    | some obj => rcases obj with ⟨_ | _ | _ | _ | _, _⟩ <;> rfl
  · exact .inl rfl

theorem reads_evalHGETALL : Reads evalHGETALL := by
  intro now args slot
  unfold evalHGETALL
  split
  · right
    cases slot.get now with
    | none => rfl
    | some obj => rcases obj with ⟨_ | _ | _ | _ | _, _⟩ <;> rfl
  · exact .inl rfl

/-- Work on a sorted set that does not change it leaves the slot as a lookup does. -/
theorem onSortedSet_of_unchanged (now : Int64) (slot : Slot) (missing : Response)
    {present : SortedSet → Outcome × SortedSet} (h : ∀ s, (present s).2 = s) :
    (onSortedSet now slot missing present).2 = slot.get now := by
  unfold onSortedSet
  cases slot.get now with
  | none => rfl
  | some obj =>
    rcases obj with ⟨_ | _ | _ | _ | members, expiry⟩
    · rfl
    · rfl
    · rfl
    · rfl
    · dsimp only
      rw [h]

theorem reads_evalZCARD : Reads evalZCARD := by
  intro now args slot
  unfold evalZCARD
  split
  · exact .inr (onSortedSet_of_unchanged now slot _ fun _ => rfl)
  · exact .inl rfl

theorem reads_evalZCOUNT : Reads evalZCOUNT := by
  intro now args slot
  unfold evalZCOUNT
  split
  · split
    · split
      · exact .inl rfl
      · exact .inr (onSortedSet_of_unchanged now slot _ fun _ => rfl)
    · exact .inl rfl
  · exact .inl rfl

theorem reads_evalZRANGE : Reads evalZRANGE := by
  intro now args slot
  have hrange (start stop : GoString) (byScore : Bool) :
      (evalZRANGE.range now slot start stop byScore).2 = slot ∨
        (evalZRANGE.range now slot start stop byScore).2 = slot.get now := by
    unfold evalZRANGE.range
    split
    · exact .inr (onSortedSet_of_unchanged now slot _ fun _ => rfl)
    · exact .inl rfl
  unfold evalZRANGE
  split
  · exact hrange _ _ _
  · exact hrange _ _ _
  · exact .inl rfl

theorem reads_evalZRANK : Reads evalZRANK := by
  intro now args slot
  unfold evalZRANK
  split
  · exact .inr (onSortedSet_of_unchanged now slot _ fun _ => rfl)
  · exact .inl rfl

/-- A command is watched by the ending of its name. -/
def isWatchCmd (cmd : String) : Bool := ".WATCH".toList.isSuffixOf cmd.toList

/-- The names with this ending are those of commands that only read. -/
theorem reads_of_isWatchCmd {cmd : String} {name : Name} (hname : Name.ofText cmd = some name)
    (hwatch : isWatchCmd cmd = true) (env : Env) : ∃ eval, name.shape env = .keyed eval ∧ Reads eval := by
  have hwatched : ∀ entry ∈ registry, isWatchCmd entry.1 = true →
      entry.2 ∈ [.getWatch, .hgetWatch, .hgetallWatch, .zcardWatch, .zcountWatch, .zrangeWatch, .zrankWatch] := by
    decide +kernel
  have hmem := hwatched (cmd, name) (Name.mem_registry hname) hwatch
  simp only [List.mem_cons, List.not_mem_nil, or_false] at hmem
  rcases hmem with rfl | rfl | rfl | rfl | rfl | rfl | rfl
  · exact ⟨_, rfl, reads_evalGET.withArity _ _⟩
  · exact ⟨_, rfl, reads_evalHGET.withArity _ _⟩
  · exact ⟨_, rfl, reads_evalHGETALL.withArity _ _⟩
  · exact ⟨_, rfl, reads_evalZCARD.withArity _ _⟩
  · exact ⟨_, rfl, reads_evalZCOUNT.withArity _ _⟩
  · exact ⟨_, rfl, reads_evalZRANGE.withArity _ _⟩
  · exact ⟨_, rfl, reads_evalZRANK.withArity _ _⟩

/-- A watched command, and UNWATCH, leave a store as it is in which nothing has expired. -/
theorem store_execute_watched (env : Env) {now : Int64} {c : WireCommand}
    (hwatch : isWatchCmd c.cmd = true ∨ c.cmd = "UNWATCH") {s : Store}
    (hlive : ∀ key, (s.slot key).get now = s.slot key) : (execute env now c s).2 = s := by
  unfold execute
  rcases hwatch with hwatch | hcmd
  · cases hname : Name.ofText c.cmd with
    | none => rfl
    | some name =>
      obtain ⟨eval, hshape, hreads⟩ := reads_of_isWatchCmd hname hwatch env
      dsimp only
      rw [hshape]
      cases c.args with
      | nil => rfl
      | cons key rest =>
        have hslot : (eval now (key :: rest) (s.slot key)).2 = s.slot key := by
          rcases hreads now (key :: rest) (s.slot key) with hsame | hlookup
          · exact hsame
          · exact hlookup.trans (hlive key)
        change s.setSlot key (eval now (key :: rest) (s.slot key)).2 = s
        rw [hslot, setSlot_self]
  · rw [hcmd]
    rfl

end SevenDB.Cmd
