import Mathlib.Data.List.Induction
import RustKv.LruListSpec

namespace RustKv.Eviction

variable {K : Type}

/-- Frees the first node. As with a pointer that is not live, none is a subtraction that
goes below zero. -/
def LruList.popFront (l : LruList K) : Option (Option K × LruList K) :=
  match l.head with
  | none => some (none, l)
  | some p => do
      let l := { l with head := none }
      let l ← if l.len = 0 then none else some { l with len := l.len - 1 }
      let n ← l.read p
      let l ← match n.next with
        | some newHead => do
            let l ← l.write newHead (fun m => { m with prev := none })
            some { l with head := some newHead }
        | none => some { l with tail := none }
      some (some n.key, { l with cells := l.cells.set p none })

/-- The loop of drop, which ends with the first pop_front that finds nothing. -/
def LruList.drop : Nat → LruList K → Option (LruList K)
  | 0, _ => none
  | fuel + 1, l => do
      match ← l.popFront with
      | (some _, l) => l.drop fuel
      | (none, l) => some l

inductive Op (K : Type)
  | pushBack (key : K)
  | pushMidBack (p : Nat)
  | popFront
  | popNode (p : Nat)

inductive Answer (K : Type)
  | node (p : Nat)
  | key (k : Option K)
  | unit

/-- One call. The assertion of pop_node that the list has a node is checked. -/
def LruList.call (l : LruList K) : Op K → Option (Answer K × LruList K)
  | .pushBack key => do
      let (p, l) ← l.pushBack key
      some (.node p, l)
  | .pushMidBack p => do
      let l ← l.pushMidBack p
      some (.unit, l)
  | .popFront => do
      let (key, l) ← l.popFront
      some (.key key, l)
  | .popNode p => do
      let l ← if l.len = 0 then none else l.popNode p
      some (.unit, l)

def LruList.calls (l : LruList K) : List (Op K) → Option (List (Answer K) × LruList K)
  | [] => some ([], l)
  | op :: ops => do
      let (answer, l) ← l.call op
      let (answers, l) ← l.calls ops
      some (answer :: answers, l)

/-- The node that a call is given is a live one. -/
def Op.Live (l : LruList K) : Op K → Prop
  | .pushMidBack p | .popNode p => ∃ n, l.read p = some n
  | .pushBack _ | .popFront => True

def LiveCalls (l : LruList K) : List (Op K) → Prop
  | [] => True
  | op :: ops => op.Live l ∧ ∀ answer l', l.call op = some (answer, l') → LiveCalls l' ops

/-- What a call does to the sequence of the keys with their nodes. -/
inductive SeqCall : List (Nat × K) → Op K → Answer K → List (Nat × K) → Prop
  | pushBack (xs : List (Nat × K)) (p : Nat) (key : K) (hp : p ∉ xs.map Prod.fst) :
      SeqCall xs (.pushBack key) (.node p) (xs ++ [(p, key)])
  | pushMidBack (A B : List (Nat × K)) (p : Nat) (key : K) :
      SeqCall (A ++ (p, key) :: B) (.pushMidBack p) .unit (A ++ B ++ [(p, key)])
  | popFront (xs : List (Nat × K)) (p : Nat) (key : K) :
      SeqCall ((p, key) :: xs) .popFront (.key (some key)) xs
  | popEmpty : SeqCall [] .popFront (.key none) []
  | popNode (A B : List (Nat × K)) (p : Nat) (key : K) :
      SeqCall (A ++ (p, key) :: B) (.popNode p) .unit (A ++ B)

inductive SeqCalls : List (Nat × K) → List (Op K) → List (Answer K) → List (Nat × K) → Prop
  | nil (xs : List (Nat × K)) : SeqCalls xs [] [] xs
  | cons {xs ys zs : List (Nat × K)} {op : Op K} {ops : List (Op K)} {answer : Answer K}
      {answers : List (Answer K)} (first : SeqCall xs op answer ys) (rest : SeqCalls ys ops answers zs) :
      SeqCalls xs (op :: ops) (answer :: answers) zs

/-- The pointers met on the way from one node along the links, none when there is a freed
node among them or the way is longer than the fuel. -/
def LruList.follow (l : LruList K) (link : Node K → Option Nat) : Nat → Option Nat → Option (List Nat)
  | _, none => some []
  | 0, some _ => none
  | fuel + 1, some p => do
      let n ← l.read p
      let rest ← l.follow link fuel (link n)
      some (p :: rest)

/-- The list is the sequence: both ways through it meet its nodes, all live ones, once. -/
structure LruList.Represents (l : LruList K) (xs : List (Nat × K)) : Prop where
  forward : l.follow Node.next l.len l.head = some (xs.map Prod.fst)
  backward : l.follow Node.prev l.len l.tail = some (xs.map Prod.fst).reverse
  nodup : (xs.map Prod.fst).Nodup
  live : ∀ p, p ∈ xs.map Prod.fst ↔ ∃ n, l.read p = some n
  keys : ∀ p k, (p, k) ∈ xs → (l.read p).map Node.key = some k
  len : l.len = xs.length

section Traversal

variable {l : LruList K} {xs A B : List (Nat × K)} {p : Nat} {k : K}

theorem LruList.Lists.follow_next (h : l.Lists (A ++ B)) :
    l.follow Node.next B.length (first B) = some (B.map Prod.fst) := by
  induction B generalizing A with
  | nil => rfl
  | cons b B ih =>
      obtain ⟨p, k⟩ := b
      have hrest := ih (A := A ++ [(p, k)]) (by simpa using h)
      rw [List.length_cons, first_cons, follow, h.linked A p k B rfl]
      simp only [Option.bind_eq_bind, Option.bind_some, hrest, List.map_cons]

theorem LruList.Lists.follow_prev (h : l.Lists (A ++ B)) :
    l.follow Node.prev A.length (last A) = some (A.map Prod.fst).reverse := by
  induction A using List.reverseRecOn generalizing B with
  | nil => rfl
  | append_singleton A a ih =>
      obtain ⟨p, k⟩ := a
      have hrest := ih (B := (p, k) :: B) (by simpa using h)
      rw [List.length_append, List.length_singleton, last_append_singleton, follow, h.linked A p k B (by simp)]
      simp only [Option.bind_eq_bind, Option.bind_some, hrest, List.map_append, List.map_cons, List.map_nil,
        List.reverse_append, List.reverse_singleton, List.singleton_append]

theorem LruList.Lists.represents (h : l.Lists xs) : l.Represents xs where
  forward := by
    rw [h.len, h.head]
    exact h.follow_next (A := [])
  backward := by
    rw [h.len, h.tail]
    have h' : l.Lists (xs ++ []) := by simpa using h
    exact h'.follow_prev
  nodup := h.nodup
  live p := ⟨h.read, fun ⟨n, hn⟩ => h.live p n hn⟩
  keys p k hp := by
    obtain ⟨A, B, e⟩ := List.append_of_mem hp
    rw [h.linked A p k B e]
    rfl
  len := h.len

end Traversal

section Calls

variable {l : LruList K} {xs : List (Nat × K)}

theorem popFront_nil (h : l.Lists []) : l.popFront = some (none, l) := by
  have hhead : l.head = none := h.head
  simp [LruList.popFront, hhead]

/-- Popping the first node is popping it as any other node. -/
theorem popFront_eq {p : Nat} {n : Node K} (hhead : l.head = some p) (hp : l.read p = some n)
    (hprev : n.prev = none) (hlen : l.len ≠ 0) :
    l.popFront = (l.popNode p).map (fun l' => (some n.key, l')) := by
  have hread (head : Option Nat) (len : Nat) : LruList.read { l with head := head, len := len } p = some n := hp
  cases hnext : n.next with
  | none =>
      simp [LruList.popFront, LruList.popNode, LruList.unlink, LruList.linkNext, LruList.linkPrev, hhead, hlen, hread,
        hprev, hnext]
  | some newHead =>
      have hnew (head : Option Nat) (len : Nat) :
          LruList.read { l with head := head, len := len } newHead = l.read newHead := rfl
      cases hm : l.read newHead <;>
        simp [LruList.popFront, LruList.popNode, LruList.unlink, LruList.linkNext, LruList.linkPrev, LruList.write,
          hhead, hlen, hread, hprev, hnext, hnew, hm]

theorem popFront_cons {p : Nat} {k : K} (h : l.Lists ((p, k) :: xs)) :
    ∃ l', l.popFront = some (some k, l') ∧ l'.Lists xs := by
  have hlen : l.len ≠ 0 := by
    rw [h.len]
    exact Nat.succ_ne_zero _
  obtain ⟨l', hpop, hlists⟩ := popNode_spec (A := []) h
  refine ⟨l', ?_, hlists⟩
  rw [popFront_eq h.head (h.linked [] p k xs rfl) rfl hlen, hpop]
  rfl

theorem call_spec {op : Op K} (h : l.Lists xs) (hlive : op.Live l) :
    ∃ answer l' ys, l.call op = some (answer, l') ∧ SeqCall xs op answer ys ∧ l'.Lists ys := by
  have hsplit {p : Nat} (hp : ∃ n, l.read p = some n) : ∃ A k B, xs = A ++ (p, k) :: B := by
    obtain ⟨n, hn⟩ := hp
    obtain ⟨⟨q, k⟩, hq, rfl⟩ := List.mem_map.mp (h.live p n hn)
    obtain ⟨A, B, e⟩ := List.append_of_mem hq
    exact ⟨A, k, B, e⟩
  cases op with
  | pushBack key =>
      obtain ⟨p, l', hpush, hlists⟩ := pushBack_spec h key
      have hfresh : p ∉ xs.map Prod.fst := by
        have hnodup := hlists.nodup
        rw [List.map_append, List.nodup_append] at hnodup
        exact fun hp => hnodup.2.2 p hp p (by simp) rfl
      exact ⟨.node p, l', _, by simp [LruList.call, hpush], .pushBack xs p key hfresh, hlists⟩
  | pushMidBack p =>
      obtain ⟨A, k, B, rfl⟩ := hsplit hlive
      obtain ⟨l', hpush, hlists⟩ := pushMidBack_spec h
      exact ⟨.unit, l', _, by simp [LruList.call, hpush], .pushMidBack A B p k, hlists⟩
  | popFront =>
      cases xs with
      | nil => exact ⟨.key none, l, [], by simp [LruList.call, popFront_nil h], .popEmpty, h⟩
      | cons x xs =>
          obtain ⟨p, k⟩ := x
          obtain ⟨l', hpop, hlists⟩ := popFront_cons h
          exact ⟨.key (some k), l', xs, by simp [LruList.call, hpop], .popFront xs p k, hlists⟩
  | popNode p =>
      obtain ⟨A, k, B, rfl⟩ := hsplit hlive
      obtain ⟨l', hpop, hlists⟩ := popNode_spec h
      have hlen : l.len ≠ 0 := by
        rw [h.len]
        simp
      exact ⟨.unit, l', _, by simp [LruList.call, hpop, hlen], .popNode A B p k, hlists⟩

theorem calls_spec {ops : List (Op K)} (h : l.Lists xs) (hlive : LiveCalls l ops) :
    ∃ answers l' ys, l.calls ops = some (answers, l') ∧ SeqCalls xs ops answers ys ∧ l'.Lists ys := by
  induction ops generalizing l xs with
  | nil => exact ⟨[], l, xs, rfl, .nil xs, h⟩
  | cons op ops ih =>
      obtain ⟨answer, l₁, ys, hcall, hseq, hlists⟩ := call_spec h hlive.1
      obtain ⟨answers, l₂, zs, hcalls, hseqs, hlists'⟩ := ih hlists (hlive.2 answer l₁ hcall)
      exact ⟨answer :: answers, l₂, zs, by simp [LruList.calls, hcall, hcalls], .cons hseq hseqs, hlists'⟩

/-- Dropping the list frees every node. -/
theorem drop_frees (h : l.Lists xs) : ∃ l', l.drop (l.len + 1) = some l' ∧ ∀ p, l'.read p = none := by
  rw [h.len]
  induction xs generalizing l with
  | nil =>
      refine ⟨l, by simp [LruList.drop, popFront_nil h], ?_⟩
      intro p
      cases hp : l.read p with
      | none => rfl
      | some n => exact absurd (h.live p n hp) (by simp)
  | cons x xs ih =>
      obtain ⟨p, k⟩ := x
      obtain ⟨l₁, hpop, hlists⟩ := popFront_cons h
      obtain ⟨l', hdrop, hfree⟩ := ih hlists
      refine ⟨l', ?_, hfree⟩
      rw [List.length_cons, LruList.drop, hpop]
      exact hdrop

/-- Calls with live nodes never meet a freed one, and the list is at each time the sequence
that the calls describe. Dropping it then frees every node. -/
theorem list_refines_sequence {ops : List (Op K)} (hlive : LiveCalls .new ops) :
    ∃ answers l ys, LruList.new.calls ops = some (answers, l) ∧ SeqCalls [] ops answers ys ∧
      l.Represents ys ∧ ∃ l', l.drop (l.len + 1) = some l' ∧ ∀ p, l'.read p = none := by
  obtain ⟨answers, l, ys, hcalls, hseq, hlists⟩ := calls_spec lists_new hlive
  exact ⟨answers, l, ys, hcalls, hseq, hlists.represents, drop_frees hlists⟩

/-- Two keys, of which the first is used again and both are then removed. -/
def sampleCalls : List (Op Nat) := [.pushBack 7, .pushBack 8, .pushMidBack 0, .popFront, .popNode 0]

theorem sampleCalls_live : LiveCalls .new sampleCalls := by
  refine ⟨trivial, ?_⟩
  rintro answer l ⟨⟩
  refine ⟨trivial, ?_⟩
  rintro answer l ⟨⟩
  refine ⟨⟨_, rfl⟩, ?_⟩
  rintro answer l ⟨⟩
  refine ⟨trivial, ?_⟩
  rintro answer l ⟨⟩
  refine ⟨⟨_, rfl⟩, ?_⟩
  rintro answer l ⟨⟩
  trivial

theorem sampleCalls_refine : ∃ answers l ys, LruList.new.calls sampleCalls = some (answers, l) ∧
    SeqCalls [] sampleCalls answers ys ∧ l.Represents ys ∧
      ∃ l', l.drop (l.len + 1) = some l' ∧ ∀ p, l'.read p = none :=
  list_refines_sequence sampleCalls_live

end Calls

end RustKv.Eviction
