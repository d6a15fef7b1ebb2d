import RustKv.Decimal

namespace RustKv.JsonPointer

open Text

section Tree

variable {α κ : Type} {child : α → κ → Option α} {put : α → κ → α → α}
variable {d d' v : α} {ts us : List κ}

def walk (child : α → κ → Option α) : List κ → α → Option α
  | [], d => some d
  | t :: ts, d => (child d t).bind (walk child ts)

/-- The tree with `v` in place of the node that a path leads to. -/
def assign (child : α → κ → Option α) (put : α → κ → α → α) : List κ → α → α → Option α
  | [], _, v => some v
  | t :: ts, d, v => do
      let c ← child d t
      let c ← assign child put ts c v
      some (put d t c)

/-- Putting a child in place of another changes this one only. -/
structure Lawful (child : α → κ → Option α) (put : α → κ → α → α) : Prop where
  self : ∀ {d t c} (c' : α), child d t = some c → child (put d t c') t = some c'
  other : ∀ {d t u} (c' : α), t ≠ u → child (put d t c') u = child d u

theorem assign_eq_none (ts : List κ) (d v : α) :
    assign child put ts d v = none ↔ walk child ts d = none := by
  induction ts generalizing d with
  | nil => simp [assign, walk]
  | cons t ts ih =>
      rw [assign, walk]
      cases hc : child d t with
      | none => simp
      | some c =>
          simp only [Option.bind_eq_bind, Option.bind_some, ← ih c]
          cases assign child put ts c v with
          | none => simp
          | some c' => simp

theorem walk_assign (law : Lawful child put) (h : assign child put ts d v = some d') :
    walk child ts d' = some v := by
  induction ts generalizing d d' with
  | nil =>
      cases h
      rfl
  | cons t ts ih =>
      obtain ⟨c, hc, h⟩ := Option.bind_eq_some_iff.mp h
      obtain ⟨c', hc', h⟩ := Option.bind_eq_some_iff.mp h
      cases h
      rw [walk, law.self c' hc, Option.bind_some]
      exact ih hc'

/-- A path that does not lead through the node, and to which the node does not lead, is as before. -/
theorem walk_assign_other (law : Lawful child put) (h : assign child put ts d v = some d')
    (hts : ¬ ts <+: us) (hus : ¬ us <+: ts) : walk child us d' = walk child us d := by
  induction ts generalizing d d' us with
  | nil => exact absurd List.nil_prefix hts
  | cons t ts ih =>
      cases us with
      | nil => exact absurd List.nil_prefix hus
      | cons u us =>
          obtain ⟨c, hc, h⟩ := Option.bind_eq_some_iff.mp h
          obtain ⟨c', hc', h⟩ := Option.bind_eq_some_iff.mp h
          cases h
          rw [walk, walk]
          by_cases htu : t = u
          · subst htu
            rw [law.self c' hc, hc, Option.bind_some, Option.bind_some]
            refine ih hc' ?_ ?_
            · exact fun hp => hts (List.cons_prefix_cons.mpr ⟨rfl, hp⟩)
            · exact fun hp => hus (List.cons_prefix_cons.mpr ⟨rfl, hp⟩)
          · rw [law.other c' htu]

end Tree

inductive Json (N : Type)
  | null
  | bool (b : Bool)
  | number (n : N)
  | string (s : Bytes)
  | array (items : List (Json N))
  | object (members : List (Bytes × Json N))

section Members

variable {α : Type} {k k' : Bytes} {members : List (Bytes × α)}

def setMember (k : Bytes) (v : α) : List (Bytes × α) → List (Bytes × α)
  | [] => []
  | (k', v') :: members => if k' = k then (k', v) :: members else (k', v') :: setMember k v members

theorem lookup_setMember {w : α} (v : α) (h : members.lookup k = some w) :
    (setMember k v members).lookup k = some v := by
  induction members with
  | nil => cases h
  | cons m members ih =>
      obtain ⟨k', v'⟩ := m
      rw [setMember]
      by_cases hk : k' = k
      · subst hk
        rw [if_pos rfl, List.lookup_cons_self]
      · have hbeq : (k == k') = false := beq_false_of_ne (Ne.symm hk)
        rw [List.lookup_cons, hbeq] at h
        rw [if_neg hk, List.lookup_cons, hbeq]
        exact ih h

theorem lookup_setMember_ne (v : α) (h : k ≠ k') :
    (setMember k v members).lookup k' = members.lookup k' := by
  induction members with
  | nil => rfl
  | cons m members ih =>
      obtain ⟨k₀, v₀⟩ := m
      rw [setMember]
      by_cases hk : k₀ = k
      · subst hk
        have hbeq : (k' == k₀) = false := beq_false_of_ne (Ne.symm h)
        rw [if_pos rfl, List.lookup_cons, List.lookup_cons, hbeq]
      · rw [if_neg hk, List.lookup_cons, List.lookup_cons, ih]

end Members

/-- The item that a token stands for: its index in decimal, without leading zeros. -/
def index (t : Bytes) (length : Nat) : Option Nat :=
  (List.range length).find? (fun i => Decimal.decimal i == t)

theorem index_eq_some {t : Bytes} {length i : Nat} (h : index t length = some i) :
    Decimal.decimal i = t ∧ i < length := by
  have hfound := List.find?_some h
  have hmem := List.mem_of_find?_eq_some h
  exact ⟨by simpa using hfound, List.mem_range.mp hmem⟩

namespace Json

variable {N : Type}

/-- The value that a token refers to: a member by its name, or an item by its index. -/
def child : Json N → Bytes → Option (Json N)
  | .object members, t => members.lookup t
  | .array items, t => (index t items.length).bind (fun i => items[i]?)
  | _, _ => none

def put : Json N → Bytes → Json N → Json N
  | .object members, t, v => .object (setMember t v members)
  | .array items, t, v =>
      match index t items.length with
      | some i => .array (items.set i v)
      | none => .array items
  | d, _, _ => d

theorem lawful : Lawful (child (N := N)) put where
  self {d t c} c' h := by
    cases d with
    | object members => exact lookup_setMember c' h
    | array items =>
        obtain ⟨i, hi, -⟩ := Option.bind_eq_some_iff.mp h
        obtain ⟨-, hlt⟩ := index_eq_some hi
        simp only [put, hi, child, List.length_set, Option.bind_some]
        rw [List.getElem?_set_self hlt]
    | null | bool | number | string => cases h
  other {d t u} c' h := by
    cases d with
    | object members => exact lookup_setMember_ne c' h
    | array items =>
        cases hi : index t items.length with
        | none => simp only [put, hi]
        | some i =>
            simp only [put, hi, child, List.length_set]
            cases hj : index u items.length with
            | none => rfl
            | some j =>
                have hij : i ≠ j := by
                  rintro rfl
                  exact h ((index_eq_some hi).1.symm.trans (index_eq_some hj).1)
                simp only [Option.bind_some]
                rw [List.getElem?_set_ne hij]
    | null | bool | number | string => rfl

end Json

/-- A reference token without its escapes: ~0 is ~ and ~1 is /, and no other ~ may occur. -/
def unescape : Bytes → Option Bytes
  | [] => some []
  | b :: bs =>
      if b = 126 then
        match bs with
        | [] => none
        | c :: cs =>
            if c = 48 then (unescape cs).map (fun t => 126 :: t)
            else if c = 49 then (unescape cs).map (fun t => 47 :: t)
            else none
      else (unescape bs).map (fun t => b :: t)

/-- The reference tokens of a pointer: each one follows a /. -/
def tokens : Bytes → Option (List Bytes)
  | [] => some []
  | b :: bs => if b = 47 then (bs.splitOn 47).mapM unescape else none

end RustKv.JsonPointer
