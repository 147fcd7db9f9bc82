import Mathlib.Data.List.DropRight

/-!
# Bounded channels

`Chan α cap` is a first-in first-out queue that carries its bound.  A sender that can wait uses
`send`, which is not possible while the channel is full; one that cannot uses `trySend`, which
drops its message then.  `Recent α cap` holds the last `cap` items that were pushed
(`Recent.push_last`).
-/

namespace Lib

structure Chan (α : Type*) (cap : Nat) where
  items : List α
  bounded : items.length ≤ cap

namespace Chan
variable {α : Type*} {cap : Nat}

def empty : Chan α cap := ⟨[], Nat.zero_le _⟩

/-- `none`: the sender waits for room -/
def send (c : Chan α cap) (a : α) : Option (Chan α cap) :=
  if h : c.items.length < cap then
    some ⟨c.items ++ [a], by rw [List.length_append]; exact h⟩
  else none

/-- a full channel gives the message up -/
def trySend (c : Chan α cap) (a : α) : Chan α cap := (c.send a).getD c

/-- `none`: the receiver waits for a message -/
def recv : Chan α cap → Option (α × Chan α cap)
  | ⟨[], _⟩ => none
  | ⟨a :: items, h⟩ => some (a, ⟨items, Nat.le_of_succ_le h⟩)

theorem send_isSome {c : Chan α cap} {a : α} :
    (c.send a).isSome = true ↔ c.items.length < cap := by
  unfold send
  split
  case isTrue h => exact ⟨fun _ => h, fun _ => rfl⟩
  case isFalse h => exact ⟨fun hs => (by cases hs), fun hl => absurd hl h⟩

theorem send_items {c d : Chan α cap} {a : α} (h : c.send a = some d) :
    d.items = c.items ++ [a] := by
  unfold send at h
  split at h
  · cases h
    rfl
  · cases h

theorem recv_items {c d : Chan α cap} {a : α} (h : c.recv = some (a, d)) :
    c.items = a :: d.items := by
  obtain ⟨items, hb⟩ := c
  cases items with
  | nil => cases h
  | cons b items =>
    cases h
    rfl

end Chan

/-- a buffer of the last `cap` items -/
structure Recent (α : Type*) (cap : Nat) where
  items : List α
  bounded : items.length ≤ cap
  room : 0 < cap

namespace Recent
variable {α : Type*} {cap : Nat}

def empty (room : 0 < cap) : Recent α cap := ⟨[], Nat.zero_le _, room⟩

/-- a full buffer gives its oldest item up -/
def push (r : Recent α cap) (a : α) : Recent α cap where
  items := (if r.items.length = cap then r.items.tail else r.items) ++ [a]
  bounded := by
    have hb := r.bounded
    have hr := r.room
    rw [List.length_append, List.length_singleton]
    split_ifs with h
    · rw [List.length_tail]
      omega
    · omega
  room := r.room

/-- **The buffer holds the last items** of all that were pushed. -/
theorem push_last {r : Recent α cap} {l : List α} (h : r.items = l.rtake cap) (a : α) :
    (r.push a).items = (l ++ [a]).rtake cap := by
  obtain ⟨n, rfl⟩ := Nat.exists_eq_succ_of_ne_zero (Nat.ne_of_gt r.room)
  rw [List.rtake_concat_succ]
  show (if r.items.length = n + 1 then r.items.tail else r.items) ++ [a] = l.rtake n ++ [a]
  congr 1
  rw [h]
  unfold List.rtake
  split_ifs with hl
  · rw [List.length_drop] at hl
    rw [List.tail_drop]
    congr 1
    omega
  · rw [List.length_drop] at hl
    congr 1
    omega

end Recent
end Lib
