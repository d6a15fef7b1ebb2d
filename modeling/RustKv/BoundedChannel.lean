import Mathlib.Data.List.Perm.Basic
import Mathlib.Algebra.Order.Group.Multiset
import Mathlib.Tactic.Abel

namespace RustKv.BoundedChannel

variable {α : Type}

/-- A bounded queue behind a fair semaphore. A sender first takes a place and then puts its
message there; the receiver first takes the message and then gives the place back. -/
structure Channel (α : Type) where
  capacity : Nat
  waiters : List α
  granted : List α
  queue : List α
  returning : Nat

def Channel.new (depth : Nat) : Channel α := ⟨depth, [], [], [], 0⟩

/-- A sender with this message asks for a place. -/
def Channel.reserve (c : Channel α) (a : α) : Channel α :=
  if c.capacity = 0 then { c with waiters := c.waiters ++ [a] }
  else { c with capacity := c.capacity - 1, granted := c.granted ++ [a] }

/-- One of the senders that were given a place puts its message there. -/
def Channel.push (c : Channel α) (i : Nat) : Option (α × Channel α) :=
  match c.granted[i]? with
  | some a => some (a, { c with granted := c.granted.eraseIdx i, queue := c.queue ++ [a] })
  | none => none

def Channel.recv (c : Channel α) : Option (α × Channel α) :=
  match c.queue with
  | a :: rest => some (a, { c with queue := rest, returning := c.returning + 1 })
  | [] => none

/-- A place goes to the sender that has waited longest, and is free when none waits. -/
def Channel.release (c : Channel α) : Option (Channel α) :=
  match c.returning, c.waiters with
  | 0, _ => none
  | n + 1, a :: rest => some { c with waiters := rest, granted := c.granted ++ [a], returning := n }
  | n + 1, [] => some { c with capacity := c.capacity + 1, returning := n }

/-- The receiver goes away: who waits for a place is turned away, and the messages in the
queue are dropped and their places given back. -/
def Channel.close (c : Channel α) : Channel α :=
  { c with capacity := c.capacity + c.queue.length, waiters := [], queue := [] }

/-- One of the senders that were given a place is turned away at a closed channel. -/
def Channel.leave (c : Channel α) (i : Nat) : Option (α × Channel α) :=
  match c.granted[i]? with
  | some a => some (a, { c with granted := c.granted.eraseIdx i, capacity := c.capacity + 1 })
  | none => none

/-- No place is lost or made, and no sender waits while one is free. -/
structure Channel.Sound (depth : Nat) (c : Channel α) : Prop where
  places : c.capacity + c.granted.length + c.queue.length + c.returning = depth
  fair : c.waiters ≠ [] → c.capacity = 0

/-- The messages of the senders and those in the queue. -/
def Channel.held (c : Channel α) : Multiset α := ↑c.waiters + ↑c.granted + ↑c.queue

/-- How many steps the channel can still take, counting the step after each message. -/
def Channel.weight (c : Channel α) : Nat :=
  5 * c.waiters.length + 4 * c.granted.length + 3 * c.queue.length + c.returning

variable {depth : Nat} {c c' : Channel α} {a : α} {i : Nat}

theorem Channel.sound_new (depth : Nat) : (Channel.new depth : Channel α).Sound depth :=
  ⟨by simp [Channel.new], fun h => absurd rfl h⟩

@[simp]
theorem Channel.held_new (depth : Nat) : (Channel.new depth : Channel α).held = 0 := rfl

@[simp]
theorem reserve_queue (c : Channel α) (a : α) : (c.reserve a).queue = c.queue := by
  unfold Channel.reserve
  split <;> rfl

@[simp]
theorem reserve_returning (c : Channel α) (a : α) : (c.reserve a).returning = c.returning := by
  unfold Channel.reserve
  split <;> rfl

theorem push_cases (h : c.push i = some (a, c')) :
    c.granted[i]? = some a ∧ c' = { c with granted := c.granted.eraseIdx i, queue := c.queue ++ [a] } := by
  unfold Channel.push at h
  split at h
  next b hb =>
    cases h
    exact ⟨hb, rfl⟩
  next => cases h

theorem recv_cases (h : c.recv = some (a, c')) :
    ∃ rest, c.queue = a :: rest ∧ c' = { c with queue := rest, returning := c.returning + 1 } := by
  unfold Channel.recv at h
  split at h
  next b rest hb =>
    cases h
    exact ⟨rest, hb, rfl⟩
  next => cases h

theorem release_cases (h : c.release = some c') : ∃ n, c.returning = n + 1 ∧
    ((∃ b rest, c.waiters = b :: rest ∧
        c' = { c with waiters := rest, granted := c.granted ++ [b], returning := n }) ∨
      (c.waiters = [] ∧ c' = { c with capacity := c.capacity + 1, returning := n })) := by
  unfold Channel.release at h
  split at h
  next => cases h
  next n b rest hn hw =>
    cases h
    exact ⟨n, hn, .inl ⟨b, rest, hw, rfl⟩⟩
  next n hn hw =>
    cases h
    exact ⟨n, hn, .inr ⟨hw, rfl⟩⟩

theorem leave_cases (h : c.leave i = some (a, c')) : c.granted[i]? = some a ∧
    c' = { c with granted := c.granted.eraseIdx i, capacity := c.capacity + 1 } := by
  unfold Channel.leave at h
  split at h
  next b hb =>
    cases h
    exact ⟨hb, rfl⟩
  next => cases h

theorem Channel.Sound.reserve (h : c.Sound depth) (a : α) : (c.reserve a).Sound depth := by
  have hplaces := h.places
  unfold Channel.reserve
  split
  next hfull => exact ⟨hplaces, fun _ => hfull⟩
  next hfree =>
    refine ⟨?_, fun hw => absurd (h.fair hw) hfree⟩
    simp only [List.length_append, List.length_singleton]
    omega

theorem Channel.Sound.push (h : c.Sound depth) (hc : c.push i = some (a, c')) : c'.Sound depth := by
  obtain ⟨ha, rfl⟩ := push_cases hc
  have hlt : i < c.granted.length := (List.getElem?_eq_some_iff.mp ha).1
  have hplaces := h.places
  refine ⟨?_, h.fair⟩
  simp only [List.length_eraseIdx_of_lt hlt, List.length_append, List.length_singleton]
  omega

theorem Channel.Sound.recv (h : c.Sound depth) (hc : c.recv = some (a, c')) : c'.Sound depth := by
  obtain ⟨rest, hq, rfl⟩ := recv_cases hc
  have hplaces := h.places
  rw [hq, List.length_cons] at hplaces
  exact ⟨by simp only; omega, h.fair⟩

theorem Channel.Sound.release (h : c.Sound depth) (hc : c.release = some c') : c'.Sound depth := by
  have hplaces := h.places
  obtain ⟨n, hn, ⟨b, rest, hw, rfl⟩ | ⟨hw, rfl⟩⟩ := release_cases hc
  · have hfull : c.capacity = 0 := h.fair (by simp [hw])
    refine ⟨?_, fun _ => hfull⟩
    simp only [List.length_append, List.length_singleton]
    omega
  · exact ⟨by simp only; omega, fun hne => absurd hw hne⟩

theorem Channel.Sound.close (h : c.Sound depth) : c.close.Sound depth := by
  have hplaces := h.places
  refine ⟨?_, fun hne => absurd rfl hne⟩
  simp only [Channel.close, List.length_nil]
  omega

theorem Channel.Sound.leave (h : c.Sound depth) (hnone : c.waiters = [])
    (hc : c.leave i = some (a, c')) : c'.Sound depth := by
  obtain ⟨ha, rfl⟩ := leave_cases hc
  have hlt : i < c.granted.length := (List.getElem?_eq_some_iff.mp ha).1
  have hplaces := h.places
  refine ⟨?_, fun hne => absurd hnone hne⟩
  simp only [List.length_eraseIdx_of_lt hlt]
  omega

theorem Channel.Sound.length_le (h : c.Sound depth) : c.queue.length ≤ depth := by
  have hplaces := h.places
  omega

theorem held_reserve (c : Channel α) (a : α) : (c.reserve a).held = c.held + {a} := by
  unfold Channel.reserve
  split <;> simp only [Channel.held, ← Multiset.coe_add, Multiset.coe_singleton] <;> abel

theorem granted_eraseIdx (h : c.granted[i]? = some a) :
    (c.granted : Multiset α) = {a} + ↑(c.granted.eraseIdx i) := by
  obtain ⟨hlt, rfl⟩ := List.getElem?_eq_some_iff.mp h
  exact Multiset.coe_eq_coe.mpr (List.getElem_cons_eraseIdx_perm hlt).symm

theorem held_push (h : c.push i = some (a, c')) : c'.held = c.held := by
  obtain ⟨ha, rfl⟩ := push_cases h
  simp only [Channel.held, ← Multiset.coe_add, Multiset.coe_singleton, granted_eraseIdx ha]
  abel

theorem held_recv (h : c.recv = some (a, c')) : c.held = c'.held + {a} := by
  obtain ⟨rest, hq, rfl⟩ := recv_cases h
  simp only [Channel.held, hq, ← Multiset.cons_coe, ← Multiset.singleton_add]
  abel

theorem held_release (h : c.release = some c') : c'.held = c.held := by
  obtain ⟨n, hn, ⟨b, rest, hw, rfl⟩ | ⟨hw, rfl⟩⟩ := release_cases h
  · simp only [Channel.held, hw, ← Multiset.coe_add, ← Multiset.cons_coe, ← Multiset.singleton_add]
    abel
  · rfl

theorem held_close (c : Channel α) : c.held = c.close.held + (↑c.queue + ↑c.waiters) := by
  simp only [Channel.held, Channel.close, Multiset.coe_nil]
  abel

theorem held_leave (h : c.leave i = some (a, c')) : c.held = c'.held + {a} := by
  obtain ⟨ha, rfl⟩ := leave_cases h
  simp only [Channel.held, granted_eraseIdx ha]
  abel

end RustKv.BoundedChannel
