import RustKv.Cells

namespace RustKv.Executor

open Text Protocol Domain CacheStore Zset RustKv.Types

variable {S J : Type}

/-- What a value is to its readers, without capacities, sizes and levels. -/
inductive Logical (S J : Type)
  | simple (element : Element)
  | list (elements : List Element)
  | hash (fields : HashMap)
  | zset (scores : Finmap (fun _ : Bytes => S))
  | json (root : J)

def logical : Value S J → Logical S J
  | .simple el => .simple el
  | .list deque _ _ => .list deque
  | .hash map _ _ => .hash map
  | .zset zset _ => .zset zset.dict
  | .json root _ => .json root

def logicalOf (entry : Option (ValueEntry (Value S J))) : Option (Logical S J) :=
  entry.map (fun e => logical e.data)

/-- Two entries of one logical value, constructor by constructor. -/
inductive SameValue : Option (ValueEntry (Value S J)) → Option (ValueEntry (Value S J)) → Prop
  | none : SameValue none none
  | simple (el : Element) (x x' : Option Nat) (n n' : UInt64) :
      SameValue (some ⟨.simple el, x, n⟩) (some ⟨.simple el, x', n'⟩)
  | list (deque : List Element) (a b a' b' : UInt64) (x x' : Option Nat) (n n' : UInt64) :
      SameValue (some ⟨.list deque a b, x, n⟩) (some ⟨.list deque a' b', x', n'⟩)
  | hash (map : HashMap) (a b a' b' : UInt64) (x x' : Option Nat) (n n' : UInt64) :
      SameValue (some ⟨.hash map a b, x, n⟩) (some ⟨.hash map a' b', x', n'⟩)
  | zset (z z' : ZSet S) (h : z.dict = z'.dict) (a a' : UInt64) (x x' : Option Nat) (n n' : UInt64) :
      SameValue (some ⟨.zset z a, x, n⟩) (some ⟨.zset z' a', x', n'⟩)
  | json (root : J) (a a' : UInt64) (x x' : Option Nat) (n n' : UInt64) :
      SameValue (some ⟨.json root a, x, n⟩) (some ⟨.json root a', x', n'⟩)

theorem sameValue {e e' : Option (ValueEntry (Value S J))} (h : logicalOf e = logicalOf e') :
    SameValue e e' := by
  rcases e with _ | ⟨v, x, n⟩ <;> rcases e' with _ | ⟨v', x', n'⟩
  · exact .none
  · cases h
  · cases h
  · have hv : logical v = logical v' := Option.some.inj h
    cases v with
    | simple el =>
        cases v' with
        | simple el' =>
            cases hv
            exact .simple el x x' n n'
        | list | hash | zset | json => cases hv
    | list deque a b =>
        cases v' with
        | list deque' a' b' =>
            cases hv
            exact .list deque a b a' b' x x' n n'
        | simple | hash | zset | json => cases hv
    | hash map a b =>
        cases v' with
        | hash map' a' b' =>
            cases hv
            exact .hash map a b a' b' x x' n n'
        | simple | list | zset | json => cases hv
    | zset z a =>
        cases v' with
        | zset z' a' => exact .zset z z' (Logical.zset.inj hv) a a' x x' n n'
        | simple | list | hash | json => cases hv
    | json root a =>
        cases v' with
        | json root' a' =>
            cases hv
            exact .json root a a' x x' n n'
        | simple | list | hash | zset => cases hv

/-- No list is kept without elements. -/
def Filled (entry : Option (ValueEntry (Value S J))) : Prop := logicalOf entry ≠ some (.list [])

/-- The outcome for an entry depends on its logical value only. -/
def Respects (f g : Option (ValueEntry (Value S J)) → Done S × PutBack (Value S J)) : Prop :=
  ∀ e e', logicalOf e = logicalOf e' → (f e).1 = (g e').1 ∧
    logicalOf ((f e).2.result none) = logicalOf ((g e').2.result none)

/-- How a command that takes its entry keeps the log true: it hands `d` to
send_aof only with a reply that is no error, it changes no logical value in
silence but that of an empty list, and it leaves the expiration alone. -/
structure Faithful (d : Command S)
    (f : Option (ValueEntry (Value S J)) → Done S × PutBack (Value S J)) : Prop where
  logged : ∀ e d', (f e).1.aof = some d' → d' = d ∧ ∃ r, (f e).1.reply = .ok r
  silent : ∀ e, (f e).1.aof = none → logicalOf ((f e).2.result none) = logicalOf e ∨
    ((f e).1.reply = .ok .null ∧ ¬ Filled e)
  expires : ∀ e e', (f e).2.result none = some e' → e'.expiresAt = e.bind ValueEntry.expiresAt
  filled : ∀ e, Filled e → Filled ((f e).2.result none)

variable {d : Command S} {f : Option (ValueEntry (Value S J)) → Done S × PutBack (Value S J)}

theorem Faithful.unlogged (h : Faithful d f) {e : Option (ValueEntry (Value S J))} (he : Filled e)
    (ha : (f e).1.aof = none) : logicalOf ((f e).2.result none) = logicalOf e := by
  rcases h.silent e ha with h | ⟨-, hn⟩
  · exact h
  · exact absurd he hn

theorem Faithful.failed (h : Faithful d f) {e : Option (ValueEntry (Value S J))} {x : KvError}
    (hx : (f e).1.reply = .error x) : logicalOf ((f e).2.result none) = logicalOf e := by
  have ha : (f e).1.aof = none := by
    cases ha : (f e).1.aof with
    | none => rfl
    | some d' =>
        obtain ⟨-, r, hr⟩ := h.logged e d' ha
        rw [hr] at hx
        cases hx
  rcases h.silent e ha with h | ⟨hr, -⟩
  · exact h
  · rw [hr] at hx
    cases hx

section Lists

theorem pushAll_list (items : List Bytes) (list : List Element) (n n' : UInt64) :
    (pushAll list n items).1 = (pushAll list n' items).1 := by
  induction items generalizing list n n' with
  | nil => rfl
  | cons item items ih => exact ih _ _ _

theorem pushAll_ne_nil {items : List Bytes} (h : items ≠ []) (list : List Element) (n : UInt64) :
    (pushAll list n items).1 ≠ [] := by
  have hlength : ∀ (items : List Bytes) (list : List Element) (n : UInt64),
      (pushAll list n items).1.length = list.length + items.length := by
    intro items
    induction items with
    | nil => intro list n; rfl
    | cons item items ih =>
        intro list n
        refine (ih _ _).trans ?_
        simp only [List.length_cons]
        omega
  have hpos := List.length_pos_iff.mpr h
  refine List.length_pos_iff.mp ?_
  rw [hlength]
  omega

variable [Host]

theorem lpush_respects (rt rt' : Runtime) (c : LPushCommand) (values : List Bytes) :
    Respects (S := S) (J := J) (lpushTaken rt c values) (lpushTaken rt' c values) := by
  intro e e' h
  cases sameValue h with
  | none => exact ⟨rfl, rfl⟩
  | list deque a b a' b' x x' n n' =>
      have hl := pushAll_list values deque b b'
      simp [lpushTaken, lpushOnto, PutBack.result, logicalOf, logical, hl]
  | simple | hash | json => exact ⟨rfl, rfl⟩
  | zset z z' hz => exact ⟨rfl, h⟩

theorem lpush_faithful (rt : Runtime) (c : LPushCommand) {values : List Bytes} (hne : values ≠ []) :
    Faithful (S := S) (J := J) (.lpush c) (lpushTaken rt c values) where
  logged e d' h := by
    rcases e with _ | ⟨v, x, n⟩
    · cases h; exact ⟨rfl, _, rfl⟩
    · cases v with
      | list => cases h; exact ⟨rfl, _, rfl⟩
      | simple | hash | zset | json => cases h
  silent e h := by
    rcases e with _ | ⟨v, x, n⟩
    · cases h
    · cases v with
      | list => cases h
      | simple | hash | zset | json => exact .inl rfl
  expires e e' h := by
    rcases e with _ | ⟨v, x, n⟩
    · cases h; rfl
    · cases v with
      | list => cases h; rfl
      | simple | hash | zset | json => cases h; rfl
  filled e hf := by
    have hpush (list : List Element) (n : UInt64) : (pushAll list n values).1 ≠ [] :=
      pushAll_ne_nil hne list n
    rcases e with _ | ⟨v, x, n⟩
    · simpa [lpushTaken, lpushOnto, Filled, logicalOf, logical, PutBack.result] using hpush [] 0
    · cases v with
      | list deque a b =>
          simpa [lpushTaken, lpushOnto, Filled, logicalOf, logical, PutBack.result] using hpush deque b
      | simple | hash | zset | json => exact hf

theorem popRest_result (list : List Element) (a b : UInt64) (x : Option Nat) :
    logicalOf ((popRest (S := S) (J := J) list a b x).result none) =
      if list = [] then none else some (.list list) := by
  unfold popRest
  split <;> rfl

theorem popRest_expires {list : List Element} {a b : UInt64} {x : Option Nat}
    {e : ValueEntry (Value S J)} (h : (popRest list a b x).result none = some e) :
    e.expiresAt = x := by
  unfold popRest at h
  split at h <;> cases h
  rfl

theorem popRest_filled (list : List Element) (a b : UInt64) (x : Option Nat) :
    Filled ((popRest (S := S) (J := J) list a b x).result none) := by
  rw [Filled, popRest_result]
  split
  · simp
  · next hne => simpa using hne

theorem lpop_respects (c : LPopCommand) :
    Respects (S := S) (J := J) (lpopTaken c) (lpopTaken c) := by
  intro e e' h
  cases sameValue h with
  | none => exact ⟨rfl, rfl⟩
  | list deque a b a' b' x x' n n' =>
      cases deque with
      | nil => exact ⟨rfl, rfl⟩
      | cons item list =>
          refine ⟨rfl, ?_⟩
          simp only [lpopTaken, popRest_result]
  | simple | hash | json => exact ⟨rfl, rfl⟩
  | zset z z' hz => exact ⟨rfl, h⟩

theorem lpop_faithful (c : LPopCommand) :
    Faithful (S := S) (J := J) (.lpop c) (lpopTaken c) where
  logged e d' h := by
    rcases e with _ | ⟨v, x, n⟩
    · cases h
    · cases v with
      | list deque =>
          cases deque with
          | nil => cases h
          | cons => cases h; exact ⟨rfl, _, rfl⟩
      | simple | hash | zset | json => cases h
  silent e h := by
    rcases e with _ | ⟨v, x, n⟩
    · exact .inl rfl
    · cases v with
      | list deque =>
          cases deque with
          | nil => exact .inr ⟨rfl, fun hf => hf rfl⟩
          | cons => cases h
      | simple | hash | zset | json => exact .inl rfl
  expires e e' h := by
    rcases e with _ | ⟨v, x, n⟩
    · cases h
    · cases v with
      | list deque =>
          cases deque with
          | nil => cases h
          | cons => exact popRest_expires h
      | simple | hash | zset | json => cases h; rfl
  filled e hf := by
    rcases e with _ | ⟨v, x, n⟩
    · exact hf
    · cases v with
      | list deque =>
          cases deque with
          | nil => simp [lpopTaken, PutBack.result, Filled, logicalOf]
          | cons item list => exact popRest_filled list _ _ _
      | simple | hash | zset | json => exact hf

/-- Where BLPOP takes an element it does what LPOP does. -/
theorem blpop_lpop (c : BLPopCommand) {e : Option (ValueEntry (Value S J))} {d : Command S}
    (h : (blpopTaken c e).1.aof = some d) :
    (lpopTaken ⟨c.key⟩ e).1.aof = some d ∧ (blpopTaken c e).2 = (lpopTaken ⟨c.key⟩ e).2 := by
  rcases e with _ | ⟨v, x, n⟩
  · cases h
  · cases v with
    | list deque =>
        cases deque with
        | nil => cases h
        | cons => exact ⟨h, rfl⟩
    | simple | hash | zset | json => cases h

theorem blpop_silent (c : BLPopCommand) {e : Option (ValueEntry (Value S J))}
    (h : (blpopTaken (S := S) c e).1.aof = none) :
    logicalOf ((blpopTaken (S := S) c e).2.result none) = logicalOf e := by
  rcases e with _ | ⟨v, x, n⟩
  · rfl
  · cases v with
    | list deque =>
        cases deque with
        | nil => rfl
        | cons => cases h
    | simple | hash | zset | json => rfl

theorem blpop_waits {c : BLPopCommand} {now : Nat} {e : Option (ValueEntry (Value S J))}
    (h : ((Access.take (blpopTaken c) : Access S _).onCell now e).1.waits = true) :
    e = none ∧ ((Access.take (blpopTaken c) : Access S _).onCell now e).2 = none := by
  rcases e with _ | ⟨v, x, n⟩
  · exact ⟨rfl, rfl⟩
  · cases v with
    | list deque => cases deque <;> cases h
    | simple | hash | zset | json => cases h

theorem blpop_faithful (c : BLPopCommand) :
    Faithful (S := S) (J := J) (.lpop ⟨c.key⟩) (blpopTaken c) where
  logged e d' h := by
    rcases e with _ | ⟨v, x, n⟩
    · cases h
    · cases v with
      | list deque =>
          cases deque with
          | nil => cases h
          | cons => cases h; exact ⟨rfl, _, rfl⟩
      | simple | hash | zset | json => cases h
  silent e h := .inl (blpop_silent c h)
  expires e e' h := by
    rcases e with _ | ⟨v, x, n⟩
    · cases h
    · cases v with
      | list deque =>
          cases deque with
          | nil => cases h; rfl
          | cons => exact popRest_expires h
      | simple | hash | zset | json => cases h; rfl
  filled e hf := by
    rcases e with _ | ⟨v, x, n⟩
    · exact hf
    · cases v with
      | list deque =>
          cases deque with
          | nil => exact absurd rfl hf
          | cons item list => exact popRest_filled list _ _ _
      | simple | hash | zset | json => exact hf

end Lists

end RustKv.Executor
