import Mathlib.Data.List.Nodup

/-!
# A bounded channel whose sender gives up

A sender offers one value at a time. The value enters the buffer when there is room, or the sender
gives it up when it has waited too long; both may be possible at once. A receiver takes the values of
the buffer in order, whenever it likes. The values offered, received and given up are kept as a
history, and the account between them holds however the two sides are interleaved. Where several
receivers share a channel, each value goes to one of them.
-/

namespace SevenDB.Common

variable {α : Type*}

/-- A channel with the value that is being offered, its buffer, and the history of both sides. -/
structure Channel (α : Type*) where
  capacity : ℕ
  offered : Option α
  buffer : List α
  offers : List α
  received : List α
  dropped : List α

def Channel.make (capacity : ℕ) : Channel α := ⟨capacity, none, [], [], [], []⟩

def Channel.offer (c : Channel α) (x : α) : Channel α :=
  { c with offered := some x, offers := c.offers ++ [x] }

def Channel.send (c : Channel α) : Option (Channel α) :=
  c.offered.bind fun x =>
    if c.buffer.length < c.capacity then some { c with offered := none, buffer := c.buffer ++ [x] } else none

def Channel.expire (c : Channel α) : Option (Channel α) :=
  c.offered.map fun x => { c with offered := none, dropped := c.dropped ++ [x] }

/-- The receiver takes the first value of the buffer. -/
def Channel.receive (c : Channel α) : Option (Channel α) :=
  c.buffer.head?.map fun x => { c with buffer := c.buffer.tail, received := c.received ++ [x] }

/-- A send moves the offered value to the end of a buffer that has room. -/
theorem Channel.send_eq_some {c next : Channel α} (h : c.send = some next) :
    ∃ x, c.offered = some x ∧ c.buffer.length < c.capacity ∧
      next = { c with offered := none, buffer := c.buffer ++ [x] } := by
  obtain ⟨x, hx, hbranch⟩ := Option.bind_eq_some_iff.mp h
  obtain ⟨hroom, rfl⟩ := Option.ite_some_none_eq_some.mp hbranch
  exact ⟨x, hx, hroom, rfl⟩

section Account

variable {K : Type*} [DecidableEq K] (key : α → K)

/-- The offers that were not given up, when values are told apart by a key. -/
def Channel.kept (c : Channel α) : List α :=
  c.offers.filter fun x => decide (key x ∉ c.dropped.map key)

/-- The account of a channel: the offers that were not given up are received, in the buffer or being
offered, in this order. -/
structure Channel.Accounted (c : Channel α) : Prop where
  kept_eq : c.kept key = c.received ++ c.buffer ++ c.offered.toList
  dropped_sub : ∀ x ∈ c.dropped, x ∈ c.offers

variable {key} {c next : Channel α}

theorem Channel.Accounted.make (capacity : ℕ) : (Channel.make capacity : Channel α).Accounted key :=
  ⟨rfl, fun _ hmem => hmem⟩

/-- Offering a new value keeps the account when nothing else is being offered. -/
theorem Channel.Accounted.offer {x : α} (h : c.Accounted key) (hidle : c.offered = none)
    (hfresh : key x ∉ c.offers.map key) : (c.offer x).Accounted key where
  kept_eq := by
    have hkept : key x ∉ c.dropped.map key := by
      intro hmem
      obtain ⟨y, hy, hkey⟩ := List.mem_map.mp hmem
      exact hfresh (List.mem_map.mpr ⟨y, h.dropped_sub y hy, hkey⟩)
    have hbefore := h.kept_eq
    rw [hidle, Option.toList_none, List.append_nil] at hbefore
    change (c.offers ++ [x]).filter (fun y => decide (key y ∉ c.dropped.map key)) = c.received ++ c.buffer ++ [x]
    rw [List.filter_append, ← hbefore, List.filter_cons, if_pos (decide_eq_true hkept)]
    rfl
  dropped_sub := fun y hy => List.mem_append_left _ (h.dropped_sub y hy)

section

variable (h : c.Accounted key)
include h

theorem Channel.Accounted.send (hsend : c.send = some next) : next.Accounted key := by
  obtain ⟨x, hx, _, rfl⟩ := Channel.send_eq_some hsend
  refine ⟨?_, h.dropped_sub⟩
  have hkept := h.kept_eq
  rw [hx, Option.toList_some, List.append_assoc] at hkept
  change c.kept key = c.received ++ (c.buffer ++ [x]) ++ []
  rw [hkept, List.append_nil]

theorem Channel.Accounted.receive (hreceive : c.receive = some next) :
    next.Accounted key := by
  obtain ⟨x, hx, rfl⟩ := Option.map_eq_some_iff.mp hreceive
  refine ⟨?_, h.dropped_sub⟩
  have hkept := h.kept_eq
  rw [List.eq_cons_of_mem_head? hx] at hkept
  change c.kept key = c.received ++ [x] ++ c.buffer.tail ++ c.offered.toList
  rw [hkept]
  simp only [List.append_assoc, List.cons_append, List.nil_append]

/-- Giving a value up keeps the account when offers have distinct keys. -/
theorem Channel.Accounted.expire (hdistinct : (c.offers.map key).Nodup)
    (hexpire : c.expire = some next) : next.Accounted key := by
  obtain ⟨x, hx, rfl⟩ := Option.map_eq_some_iff.mp hexpire
  have hkept := h.kept_eq
  rw [hx, Option.toList_some] at hkept
  have hnodup : ((c.received ++ c.buffer ++ [x]).map key).Nodup := by
    rw [← hkept]
    exact hdistinct.sublist (List.filter_sublist.map key)
  rw [List.map_append, List.nodup_append] at hnodup
  have hothers (y : α) (hy : y ∈ c.received ++ c.buffer) : key y ≠ key x :=
    hnodup.2.2 (key y) (List.mem_map_of_mem hy) (key x) (List.mem_map_of_mem (List.mem_singleton_self x))
  refine ⟨?_, fun y hy => ?_⟩
  · calc c.offers.filter (fun y => decide (key y ∉ (c.dropped ++ [x]).map key))
        = (c.kept key).filter (fun y => decide (key y ≠ key x)) := by
          rw [Channel.kept, List.filter_filter]
          refine List.filter_congr fun y _ => ?_
          rw [← Bool.decide_and, List.map_append, List.map_singleton]
          exact decide_eq_decide.mpr (by rw [List.mem_append, List.mem_singleton, not_or, and_comm])
      _ = c.received ++ c.buffer := by
          rw [hkept, List.filter_append, List.filter_cons_of_neg (by simp), List.filter_nil,
            List.append_nil]
          exact List.filter_eq_self.mpr fun y hy => decide_eq_true (hothers y hy)
      _ = c.received ++ c.buffer ++ [] := (List.append_nil _).symm
  · rcases List.mem_append.mp hy with hbefore | hlast
    · exact h.dropped_sub y hbefore
    · rw [List.mem_singleton.mp hlast]
      have hmem : x ∈ c.kept key := by
        rw [hkept]
        exact List.mem_append_right _ (List.mem_singleton_self x)
      exact (List.mem_filter.mp hmem).1

/-- What was received comes first among the offers that were not given up. -/
theorem Channel.Accounted.received_isPrefix : c.received <+: c.kept key := by
  rw [h.kept_eq, List.append_assoc]
  exact List.prefix_append _ _

/-- A channel with nothing in its buffer and no offer has delivered all that was not given up. -/
theorem Channel.Accounted.received_eq (hidle : c.offered = none)
    (hempty : c.buffer = []) : c.received = c.kept key := by
  rw [h.kept_eq, hidle, hempty, Option.toList_none, List.append_nil, List.append_nil]

/-- All offers of some kind were kept exactly when none of them was given up, when offers have distinct keys. -/
theorem Channel.Accounted.filter_kept_eq_iff (hdistinct : (c.offers.map key).Nodup)
    (p : α → Bool) : (c.kept key).filter p = c.offers.filter p ↔ ∀ x ∈ c.dropped, p x = false := by
  constructor
  · intro heq x hx
    by_contra hp
    have hmem : x ∈ (c.kept key).filter p := by
      rw [heq]
      exact List.mem_filter.mpr ⟨h.dropped_sub x hx, eq_true_of_ne_false hp⟩
    have hkept := (List.mem_filter.mp (List.mem_filter.mp hmem).1).2
    exact of_decide_eq_true hkept (List.mem_map_of_mem hx)
  · intro hnone
    rw [Channel.kept, List.filter_comm]
    refine List.filter_eq_self.mpr fun x hx => decide_eq_true fun hmem => ?_
    obtain ⟨hoffer, hp⟩ := List.mem_filter.mp hx
    obtain ⟨y, hy, hkey⟩ := List.mem_map.mp hmem
    have hsame : y = x := List.inj_on_of_nodup_map hdistinct (h.dropped_sub y hy) hoffer hkey
    rw [← hsame, hnone y hy] at hp
    cases hp

end

end Account

section Takes

variable {I : Type*} [DecidableEq I]

/-- What one of several receivers has taken. -/
def takenBy (takes : List (I × α)) (i : I) : List α := (takes.filter fun t => decide (t.1 = i)).map Prod.snd

theorem takenBy_append (takes : List (I × α)) (taker i : I) (x : α) :
    takenBy (takes ++ [(taker, x)]) i = takenBy takes i ++ if taker = i then [x] else [] := by
  unfold takenBy
  rw [List.filter_append, List.map_append]
  by_cases htaker : taker = i <;> simp [htaker]

/-- A receiver has taken all values of some kind exactly when no other one has taken any. -/
theorem filter_takenBy_eq_iff (takes : List (I × α)) (i : I) (p : α → Bool) :
    (takenBy takes i).filter p = (takes.map Prod.snd).filter p ↔ ∀ t ∈ takes, p t.2 = true → t.1 = i := by
  have hpairs : (takenBy takes i).filter p =
      ((takes.filter fun t => p t.2).filter fun t => decide (t.1 = i)).map Prod.snd := by
    rw [takenBy, List.filter_map, List.filter_comm]
    rfl
  rw [hpairs, List.filter_map]
  constructor
  · intro heq t ht hp
    have hlength := congrArg List.length heq
    rw [List.length_map, List.length_map] at hlength
    have hall := List.length_filter_eq_length_iff.mp hlength
    exact of_decide_eq_true (hall t (List.mem_filter.mpr ⟨ht, hp⟩))
  · intro hall
    rw [List.filter_eq_self.mpr fun t ht => ?_]
    · rfl
    · obtain ⟨htakes, hp⟩ := List.mem_filter.mp ht
      exact decide_eq_true (hall t htakes hp)

end Takes

end SevenDB.Common
