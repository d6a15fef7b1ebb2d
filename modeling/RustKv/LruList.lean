import Mathlib.Data.List.Basic

namespace RustKv.Eviction

variable {K : Type}

structure Node (K : Type) where
  key : K
  prev : Option Nat
  next : Option Nat

/-- The hand-written linked list, with the heap cells of its own nodes: a pointer
is the index of a cell, and a freed cell is none. -/
structure LruList (K : Type) where
  cells : List (Option (Node K))
  head : Option Nat
  tail : Option Nat
  len : Nat

def LruList.new : LruList K where
  cells := []
  head := none
  tail := none
  len := 0

def LruList.isEmpty (l : LruList K) : Bool := l.head.isNone

def LruList.read (l : LruList K) (p : Nat) : Option (Node K) := l.cells[p]?.join

/-- Writes through a pointer. As below, none is an access to memory that is not
a live node. -/
def LruList.write (l : LruList K) (p : Nat) (f : Node K → Node K) : Option (LruList K) := do
  let n ← l.read p
  some { l with cells := l.cells.set p (some (f n)) }

def LruList.linkNext (l : LruList K) (prev next : Option Nat) : Option (LruList K) :=
  match prev with
  | some p => l.write p (fun n => { n with next := next })
  | none => some { l with head := next }

def LruList.linkPrev (l : LruList K) (prev next : Option Nat) : Option (LruList K) :=
  match next with
  | some n => l.write n (fun m => { m with prev := prev })
  | none => some { l with tail := prev }

/-- Joins the neighbours of a node, as push_mid_back and pop_node do first. -/
def LruList.unlink (l : LruList K) (p : Nat) : Option (LruList K) := do
  let n ← l.read p
  let l ← l.linkNext n.prev n.next
  l.linkPrev n.prev n.next

def LruList.pushBack (l : LruList K) (key : K) : Option (Nat × LruList K) := do
  let ptr := l.cells.length
  let l : LruList K := { l with cells := l.cells ++ [some ⟨key, none, none⟩], len := l.len + 1 }
  if l.head.isNone then some (ptr, { l with head := some ptr, tail := some ptr })
  else
    let l ← match l.tail with
      | some tail => do
          let l ← l.write tail (fun n => { n with next := some ptr })
          l.write ptr (fun n => { n with prev := some tail })
      | none => some l
    some (ptr, { l with tail := some ptr })

def LruList.pushMidBack (l : LruList K) (p : Nat) : Option (LruList K) := do
  if some p = l.tail then some l
  else
    let l ← l.unlink p
    let l ← match l.tail with
      | some tail => do
          let l ← l.write tail (fun n => { n with next := some p })
          l.write p (fun n => { n with prev := some tail, next := none })
      | none => some l
    some { l with tail := some p }

def LruList.peekFront (l : LruList K) : Option (Option K) :=
  match l.head with
  | some head => do
      let n ← l.read head
      some (some n.key)
  | none => some none

def LruList.popNode (l : LruList K) (p : Nat) : Option (LruList K) := do
  let l ← LruList.unlink { l with len := l.len - 1 } p
  some { l with cells := l.cells.set p none }

def first (xs : List (Nat × K)) : Option Nat := xs.head?.map Prod.fst

def last (xs : List (Nat × K)) : Option Nat := xs.getLast?.map Prod.fst

/-- The list holds the keys `xs`, each at its pointer, from head to tail. -/
structure LruList.Lists (l : LruList K) (xs : List (Nat × K)) : Prop where
  linked : ∀ A p k B, xs = A ++ (p, k) :: B → l.read p = some ⟨k, last A, first B⟩
  nodup : (xs.map Prod.fst).Nodup
  live : ∀ p n, l.read p = some n → p ∈ xs.map Prod.fst
  head : l.head = first xs
  tail : l.tail = last xs
  len : l.len = xs.length

variable {l : LruList K} {xs A B : List (Nat × K)} {p : Nat} {k : K}

@[simp] theorem last_append_singleton : last (A ++ [(p, k)]) = some p := by simp [last]

@[simp] theorem first_cons : first ((p, k) :: A) = some p := rfl

theorem last_append (h : A ≠ []) : last (B ++ A) = last A := by
  simp [last, List.getLast?_append_of_ne_nil B h]

theorem first_append (h : A ≠ []) : first (A ++ B) = first A := by
  obtain ⟨a, A, rfl⟩ := List.exists_cons_of_ne_nil h
  rfl

theorem last_eq_some (h : last A = some p) : ∃ A' k, A = A' ++ [(p, k)] := by
  rcases List.eq_nil_or_concat A with rfl | ⟨A', ⟨q, k⟩, rfl⟩
  · cases h
  · rw [List.concat_eq_append, last_append_singleton] at h
    cases h
    exact ⟨A', k, by simp⟩

theorem first_eq_some (h : first A = some p) : ∃ k A', A = (p, k) :: A' := by
  cases A with
  | nil => cases h
  | cons a A =>
      obtain ⟨q, k⟩ := a
      cases h
      exact ⟨k, A, rfl⟩

theorem last_mem (h : last A = some p) : p ∈ A.map Prod.fst := by
  obtain ⟨A', k, rfl⟩ := last_eq_some h
  simp

theorem first_mem (h : first A = some p) : p ∈ A.map Prod.fst := by
  obtain ⟨k, A', rfl⟩ := first_eq_some h
  simp

theorem lists_new : (LruList.new : LruList K).Lists [] where
  linked A p k B e := by simp at e
  nodup := List.nodup_nil
  live p n h := by simp [LruList.read, LruList.new] at h
  head := rfl
  tail := rfl
  len := rfl

theorem LruList.Lists.read (h : l.Lists xs) (hp : p ∈ xs.map Prod.fst) :
    ∃ n, l.read p = some n := by
  obtain ⟨⟨q, k⟩, hq, rfl⟩ := List.mem_map.mp hp
  obtain ⟨A, B, e⟩ := List.append_of_mem hq
  exact ⟨_, h.linked A q k B e⟩

theorem LruList.read_lt {n : Node K} (h : l.read p = some n) : p < l.cells.length := by
  by_contra hc
  simp [LruList.read, List.getElem?_eq_none (Nat.not_lt.mp hc)] at h

/-- `l'` differs from `l` in the node at `p` only. -/
structure LruList.Wrote (l l' : LruList K) (p : Nat) (f : Node K → Node K) : Prop where
  read : ∀ q, l'.read q = if q = p then (l.read q).map f else l.read q
  cells : l'.cells.length = l.cells.length
  head : l'.head = l.head
  tail : l'.tail = l.tail
  len : l'.len = l.len

theorem write_spec {n : Node K} (f : Node K → Node K) (h : l.read p = some n) :
    ∃ l', l.write p f = some l' ∧ l.Wrote l' p f := by
  have hp := LruList.read_lt h
  refine ⟨{ l with cells := l.cells.set p (some (f n)) }, by simp [LruList.write, h],
    ?_, by simp, rfl, rfl, rfl⟩
  intro q
  by_cases hq : q = p
  · subst hq
    rw [if_pos rfl, h]
    simp [LruList.read, hp]
  · rw [if_neg hq]
    simp [LruList.read, Ne.symm hq]

theorem linkNext_spec (prev next : Option Nat) (h : ∀ p, prev = some p → ∃ n, l.read p = some n) :
    ∃ l', l.linkNext prev next = some l' ∧
      (∀ q, l'.read q =
        if prev = some q then (l.read q).map (fun n => { n with next := next }) else l.read q) ∧
      l'.cells.length = l.cells.length ∧ l'.head = (if prev = none then next else l.head) ∧
      l'.tail = l.tail ∧ l'.len = l.len := by
  cases prev with
  | none => exact ⟨{ l with head := next }, rfl, by simp [LruList.read], rfl, rfl, rfl, rfl⟩
  | some p =>
      obtain ⟨n, hn⟩ := h p rfl
      obtain ⟨l', hl', w⟩ := write_spec (fun n => { n with next := next }) hn
      refine ⟨l', hl', ?_, w.cells, w.head, w.tail, w.len⟩
      intro q
      rw [w.read]
      simp only [Option.some.injEq, eq_comm]

theorem linkPrev_spec (prev next : Option Nat) (h : ∀ p, next = some p → ∃ n, l.read p = some n) :
    ∃ l', l.linkPrev prev next = some l' ∧
      (∀ q, l'.read q =
        if next = some q then (l.read q).map (fun n => { n with prev := prev }) else l.read q) ∧
      l'.cells.length = l.cells.length ∧ l'.head = l.head ∧
      l'.tail = (if next = none then prev else l.tail) ∧ l'.len = l.len := by
  cases next with
  | none => exact ⟨{ l with tail := prev }, rfl, by simp [LruList.read], rfl, rfl, rfl, rfl⟩
  | some p =>
      obtain ⟨n, hn⟩ := h p rfl
      obtain ⟨l', hl', w⟩ := write_spec (fun n => { n with prev := prev }) hn
      refine ⟨l', hl', ?_, w.cells, w.head, w.tail, w.len⟩
      intro q
      rw [w.read]
      simp only [Option.some.injEq, eq_comm]

end RustKv.Eviction
