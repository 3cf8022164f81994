import SevenDB.Cmd.Execute
import SevenDB.Common.Footprint

/-!
# The keys that a command touches

A command acts on the slots of the keys that it names: the first argument of most commands, all arguments of
DEL and EXISTS, the whole store for KEYS and FLUSHDB. Commands that touch no key in common can be exchanged.
-/

namespace SevenDB.Cmd

open SevenDB.Common SevenDB.Types SevenDB.Store

/-- The keys that a command of some shape touches. -/
def Shape.touched (args : List GoString) : Shape → Set GoString
  | keyed _ => {key | key ∈ args.head?}
  | stateless _ => ∅
  | deleting | counting => {key | key ∈ args}
  | listing | flushing => Set.univ

/-- The keys that a command touches. -/
def touched (env : Env) (c : WireCommand) : Set GoString :=
  match Name.ofText c.cmd with
  | none => ∅
  | some name => (name.shape env).touched c.args

section Visits

variable (leaves : Slot → Slot) (counts : Slot → Bool)

/-- A visit leaves the other keys alone. -/
theorem slot_visitKeys_of_notMem {key : GoString} {keys : List GoString} (hkey : key ∉ keys) (s : Store)
    (count : Int64) : (visitKeys leaves counts s count keys).1.slot key = s.slot key := by
  induction keys generalizing s count with
  | nil => rfl
  | cons visited rest ih =>
    rw [List.mem_cons, not_or] at hkey
    rw [visitKeys, ih hkey.2, slot_setSlot, if_neg hkey.1]

/-- A visit depends only on the keys that it goes through. -/
theorem visitKeys_congr {keys : List GoString} {places : Set GoString} (hkeys : ∀ key ∈ keys, key ∈ places)
    (s t : Store) (hagree : ∀ key ∈ places, s.slot key = t.slot key) (count : Int64) :
    (visitKeys leaves counts s count keys).2 = (visitKeys leaves counts t count keys).2 ∧
      ∀ key ∈ places,
        (visitKeys leaves counts s count keys).1.slot key = (visitKeys leaves counts t count keys).1.slot key := by
  induction keys generalizing s t count with
  | nil => exact ⟨rfl, hagree⟩
  | cons visited rest ih =>
    have hvisited := hagree visited (hkeys visited List.mem_cons_self)
    rw [visitKeys, visitKeys, hvisited]
    apply ih fun key hkey => hkeys key (List.mem_cons_of_mem visited hkey)
    intro key hkey
    rw [slot_setSlot, slot_setSlot, hagree key hkey]

/-- A visit acts on its keys. -/
theorem actsOn_visitKeys (keys : List GoString) (output : Int64 → Outcome) :
    ActsOn Store.slot {key | key ∈ keys} fun s =>
      (output (visitKeys leaves counts s 0 keys).2, (visitKeys leaves counts s 0 keys).1) where
  frame s _ hkey := slot_visitKeys_of_notMem leaves counts hkey s 0
  output s t hagree := congrArg output (visitKeys_congr leaves counts (fun _ hkey => hkey) s t hagree 0).1
  written s t hagree := (visitKeys_congr leaves counts (fun _ hkey => hkey) s t hagree 0).2

end Visits

/-- A command that leaves the store acts on any keys. -/
theorem actsOn_const (o : Outcome) (places : Set GoString) : ActsOn Store.slot places fun s => (o, s) where
  frame _ _ _ := rfl
  output _ _ _ := rfl
  written _ _ hagree := hagree

/-- Every command acts on all keys together. -/
theorem actsOn_univ (program : Store → Outcome × Store) : ActsOn Store.slot Set.univ program := by
  have hsame {s t : Store} (hagree : ∀ key ∈ Set.univ, s.slot key = t.slot key) : s = t :=
    ext_slot fun key => hagree key (Set.mem_univ key)
  constructor
  · exact fun s key hkey => absurd (Set.mem_univ key) hkey
  · exact fun s t hagree => by rw [hsame hagree]
  · exact fun s t hagree key _ => by rw [hsame hagree]

/-- A command on what is under one key acts on that key. -/
theorem actsOn_slot (key : GoString) (eval : Slot → Outcome × Slot) :
    ActsOn Store.slot {other | other ∈ some key} fun s =>
      ((eval (s.slot key)).1, s.setSlot key (eval (s.slot key)).2) := by
  constructor
  · intro s other hother
    rw [slot_setSlot, if_neg]
    rintro rfl
    exact hother rfl
  · intro s t hagree
    rw [hagree key rfl]
  · intro s t hagree other hother
    rw [slot_setSlot, slot_setSlot, hagree key rfl, hagree other hother]

/-- A command acts on the keys that its shape touches. -/
theorem Shape.actsOn_run (env : Env) (now : Int64) (args : List GoString) (shape : Shape) :
    ActsOn Store.slot (shape.touched args) fun s => shape.run env now args s := by
  cases shape with
  | keyed eval =>
    cases args with
    | nil => exact actsOn_const _ _
    | cons key rest => exact actsOn_slot key (eval now (key :: rest))
  | stateless run => exact actsOn_const _ _
  | deleting | counting =>
    simp only [Shape.run]
    split
    · exact actsOn_const _ _
    · exact actsOn_visitKeys _ _ args fun count => .returns (okResult (.number count))
  | listing | flushing => exact actsOn_univ _

/-- Every command acts on the keys that it touches. -/
theorem actsOn_execute (env : Env) (now : Int64) (c : WireCommand) :
    ActsOn Store.slot (touched env c) (execute env now c) := by
  unfold touched execute
  cases Name.ofText c.cmd with
  | none => exact actsOn_const _ _
  | some name => exact (name.shape env).actsOn_run env now c.args

end SevenDB.Cmd
