import Mathlib.Data.List.Basic
import Mathlib.Data.List.TakeDrop

namespace RustKv.Broadcast

variable {α : Type}

/-- A bounded broadcast channel: how many values it was sent, and the last of them, the
oldest in front. -/
structure Hub (α : Type) where
  capacity : Nat
  tail : Nat
  queue : List α

inductive RecvResult (α : Type)
  | value (a : α)
  | lagged (skipped : Nat)
  | empty

def Hub.new (capacity : Nat) : Hub α := ⟨capacity, 0, []⟩

def Hub.send (h : Hub α) (a : α) : Hub α where
  capacity := h.capacity
  tail := h.tail + 1
  queue := (h.queue ++ [a]).drop (h.queue.length + 1 - h.capacity)

def Hub.oldest (h : Hub α) : Nat := h.tail - h.queue.length

/-- What a receiver gets that waits for the value at a position, and the position it
waits for next. -/
def Hub.recv (h : Hub α) (next : Nat) : RecvResult α × Nat :=
  if next < h.oldest then (.lagged (h.oldest - next), h.oldest)
  else match h.queue[next - h.oldest]? with
    | some a => (.value a, next + 1)
    | none => (.empty, next)

/-- The channel after these values were sent. -/
structure Hub.Holds (log : List α) (h : Hub α) : Prop where
  tail : h.tail = log.length
  queue : h.queue = log.drop (log.length - h.capacity)

variable {log : List α} {h : Hub α} {next : Nat}

theorem holds_new (capacity : Nat) : (Hub.new capacity : Hub α).Holds [] := ⟨rfl, by simp [Hub.new]⟩

theorem Hub.Holds.send (hh : h.Holds log) (a : α) : (h.send a).Holds (log ++ [a]) := by
  refine ⟨?_, ?_⟩
  · rw [Hub.send, List.length_append, List.length_singleton, hh.tail]
  · have hlength : h.queue.length = log.length - (log.length - h.capacity) := by
      rw [hh.queue, List.length_drop]
    have happend : h.queue ++ [a] = (log ++ [a]).drop (log.length - h.capacity) := by
      rw [hh.queue, List.drop_append_of_le_length (Nat.sub_le _ _)]
    change (h.queue ++ [a]).drop (h.queue.length + 1 - h.capacity) =
      (log ++ [a]).drop ((log ++ [a]).length - h.capacity)
    rw [happend, List.drop_drop, List.length_append, List.length_singleton]
    congr 1
    omega

theorem Hub.Holds.oldest_eq (hh : h.Holds log) : h.oldest = log.length - h.capacity := by
  rw [Hub.oldest, hh.tail, hh.queue, List.length_drop]
  omega

/-- A receiver gets the value at its position, is told how many it has missed, or has
had them all. -/
theorem Hub.Holds.recv_cases (hh : h.Holds log) (hnext : next ≤ log.length) :
    (∃ a, log[next]? = some a ∧ h.recv next = (.value a, next + 1)) ∨
    (∃ skipped, 0 < skipped ∧ next + skipped + h.capacity = log.length ∧
      h.recv next = (.lagged skipped, next + skipped)) ∨
    next = log.length ∧ h.recv next = (.empty, next) := by
  have holdest := hh.oldest_eq
  rw [Hub.recv]
  by_cases hlag : next < h.oldest
  · refine .inr (.inl ⟨h.oldest - next, by omega, by omega, ?_⟩)
    rw [if_pos hlag]
    congr 1
    omega
  · have hget : h.queue[next - h.oldest]? = log[next]? := by
      rw [hh.queue, List.getElem?_drop]
      congr 1
      omega
    rw [if_neg hlag, hget]
    cases hval : log[next]? with
    | some a => exact .inl ⟨a, rfl, rfl⟩
    | none => exact .inr (.inr ⟨Nat.le_antisymm hnext (List.getElem?_eq_none_iff.mp hval), rfl⟩)

def delivered : List (RecvResult α) → List α
  | [] => []
  | .value a :: rs => a :: delivered rs
  | .lagged _ :: rs => delivered rs
  | .empty :: rs => delivered rs

def skipped : List (RecvResult α) → Nat
  | [] => 0
  | .lagged n :: rs => n + skipped rs
  | .value _ :: rs => skipped rs
  | .empty :: rs => skipped rs

theorem delivered_append (rs rs' : List (RecvResult α)) :
    delivered (rs ++ rs') = delivered rs ++ delivered rs' := by
  induction rs with
  | nil => rfl
  | cons r rs ih => cases r <;> simp [delivered, ih]

theorem skipped_append (rs rs' : List (RecvResult α)) :
    skipped (rs ++ rs') = skipped rs + skipped rs' := by
  induction rs with
  | nil => simp [skipped]
  | cons r rs ih => cases r <;> simp [skipped, ih, Nat.add_assoc]

/-- The results of a receiver that subscribed at one position and has come to another. -/
structure Follows (log : List α) (since next : Nat) (rs : List (RecvResult α)) : Prop where
  count : since + (delivered rs).length + skipped rs = next
  bound : next ≤ log.length
  ordered : (delivered rs).Sublist ((log.drop since).take (next - since))

theorem follows_nil {since : Nat} (hle : since ≤ log.length) : Follows log since since [] :=
  ⟨rfl, hle, by simp [delivered]⟩

theorem Follows.extend {since : Nat} {rs : List (RecvResult α)} (hf : Follows log since next rs)
    (more : List α) : Follows (log ++ more) since next rs := by
  have hcount := hf.count
  have hbound := hf.bound
  refine ⟨hcount, by rw [List.length_append]; omega, ?_⟩
  rw [List.drop_append_of_le_length (by omega), List.take_append_of_le_length (by rw [List.length_drop]; omega)]
  exact hf.ordered

theorem Follows.value {since : Nat} {rs : List (RecvResult α)} (hf : Follows log since next rs) {a : α}
    (hget : log[next]? = some a) : Follows log since (next + 1) (rs ++ [.value a]) := by
  obtain ⟨hlt, hval⟩ := List.getElem?_eq_some_iff.mp hget
  have hcount := hf.count
  refine ⟨?_, hlt, ?_⟩
  · rw [delivered_append, skipped_append, List.length_append]
    simp only [delivered, skipped, List.length_singleton]
    omega
  · have htake : (log.drop since).take (next + 1 - since) =
        (log.drop since).take (next - since) ++ [a] := by
      rw [show next + 1 - since = next - since + 1 by omega, List.take_add_one, List.getElem?_drop,
        show since + (next - since) = next by omega, hget]
      rfl
    rw [delivered_append, htake]
    exact hf.ordered.append (List.Sublist.refl _)

theorem Follows.lagged {since : Nat} {rs : List (RecvResult α)} (hf : Follows log since next rs) {n : Nat}
    (hle : next + n ≤ log.length) : Follows log since (next + n) (rs ++ [.lagged n]) := by
  have hcount := hf.count
  refine ⟨?_, hle, ?_⟩
  · rw [delivered_append, skipped_append, List.length_append]
    simp only [delivered, skipped, List.length_nil]
    omega
  · rw [delivered_append, delivered, delivered, List.append_nil]
    exact hf.ordered.trans (List.take_sublist_take_left (by omega))

theorem Follows.recv {since : Nat} {rs : List (RecvResult α)} (hf : Follows log since next rs)
    (hh : h.Holds log) : Follows log since (h.recv next).2 (rs ++ [(h.recv next).1]) := by
  obtain ⟨a, hget, hrecv⟩ | ⟨n, -, hlag, hrecv⟩ | ⟨-, hrecv⟩ := hh.recv_cases hf.bound
  · rw [hrecv]
    exact hf.value hget
  · rw [hrecv]
    exact hf.lagged (by omega)
  · rw [hrecv]
    have hcount := hf.count
    refine ⟨?_, hf.bound, ?_⟩
    · rw [delivered_append, skipped_append, List.length_append]
      simpa [delivered, skipped] using hcount
    · rw [delivered_append, delivered, delivered, List.append_nil]
      exact hf.ordered

/-- Without a gap, it got all of them. -/
theorem Follows.delivered_eq {since : Nat} {rs : List (RecvResult α)} (hf : Follows log since next rs)
    (hskip : skipped rs = 0) : delivered rs = (log.drop since).take (next - since) := by
  have hcount := hf.count
  have hbound := hf.bound
  refine hf.ordered.eq_of_length ?_
  rw [List.length_take, List.length_drop]
  omega

end RustKv.Broadcast
