import RustKv.LruList

namespace RustKv.Eviction

variable {K : Type} {l : LruList K} {xs A B : List (Nat × K)} {p : Nat} {k : K}

theorem append_eq_split {α : Type} {A B A₁ B₁ : List α} {x : α} (e : A ++ B = A₁ ++ x :: B₁) :
    (∃ M, A₁ = A ++ M ∧ B = M ++ x :: B₁) ∨ ∃ M, A = A₁ ++ x :: M ∧ B₁ = M ++ B := by
  rcases List.append_eq_append_iff.mp e with ⟨M, hA, hB⟩ | ⟨M, hA, hB⟩
  · exact .inl ⟨M, hA, hB⟩
  · cases M with
    | nil => exact .inl ⟨[], by simpa using hA.symm, hB.symm⟩
    | cons m M =>
        cases hB
        exact .inr ⟨M, hA, rfl⟩

theorem nodup_split (h : ((A ++ (p, k) :: B).map Prod.fst).Nodup) :
    ((A ++ B).map Prod.fst).Nodup ∧ p ∉ A.map Prod.fst ∧ p ∉ B.map Prod.fst ∧
      ∀ q ∈ A.map Prod.fst, q ∉ B.map Prod.fst := by
  rw [List.map_append, List.map_cons, List.nodup_append, List.nodup_cons] at h
  obtain ⟨hA, ⟨hpB, hB⟩, hAB⟩ := h
  refine ⟨?_, fun hp => hAB p hp p (by simp) rfl, hpB,
    fun q hq hqB => hAB q hq q (List.mem_cons_of_mem _ hqB) rfl⟩
  rw [List.map_append, List.nodup_append]
  exact ⟨hA, hB, fun a ha b hb => hAB a ha b (List.mem_cons_of_mem _ hb)⟩

/-- The links among the nodes of `xs` are in order, whatever else the cells hold. -/
def LruList.Linked (l : LruList K) (xs : List (Nat × K)) : Prop :=
  ∀ A p k B, xs = A ++ (p, k) :: B → l.read p = some ⟨k, last A, first B⟩

theorem notMem_split (h : ((A ++ (p, k) :: B).map Prod.fst).Nodup) : p ∉ (A ++ B).map Prod.fst := by
  obtain ⟨-, hpA, hpB, -⟩ := nodup_split h
  rw [List.map_append, List.mem_append, not_or]
  exact ⟨hpA, hpB⟩

theorem nodup_concat (h : (xs.map Prod.fst).Nodup) (hp : p ∉ xs.map Prod.fst) :
    ((xs ++ [(p, k)]).map Prod.fst).Nodup := by
  rw [List.map_append, List.nodup_append]
  refine ⟨h, by simp, ?_⟩
  rintro a ha b hb rfl
  rw [List.mem_singleton.mp hb] at ha
  exact hp ha

theorem first_without (A B : List (Nat × K)) (p : Nat) (k : K) :
    (if last A = none then first B else first (A ++ (p, k) :: B)) = first (A ++ B) := by
  cases A with
  | nil => simp [last]
  | cons a A =>
      rw [if_neg (by simp [last])]
      rfl

theorem last_without (A B : List (Nat × K)) (p : Nat) (k : K) :
    (if first B = none then last A else last (A ++ (p, k) :: B)) = last (A ++ B) := by
  rcases List.eq_nil_or_concat B with rfl | ⟨B', b, rfl⟩
  · simp [first]
  · rw [List.concat_eq_append]
    have hne : B' ++ [b] ≠ [] := by simp
    have hl : last (A ++ (p, k) :: (B' ++ [b])) = last (B' ++ [b]) := by
      rw [List.append_cons, last_append hne]
    rw [if_neg, hl, last_append hne]
    simp [first]

/-- Joining the neighbours of `p` leaves the list without it; `p` itself keeps
what it pointed to. -/
theorem unlink_spec (h : l.Linked (A ++ (p, k) :: B)) (nodup : ((A ++ (p, k) :: B).map Prod.fst).Nodup)
    (hhead : l.head = first (A ++ (p, k) :: B)) (htail : l.tail = last (A ++ (p, k) :: B)) :
    ∃ l', l.unlink p = some l' ∧ l'.Linked (A ++ B) ∧ l'.head = first (A ++ B) ∧
      l'.tail = last (A ++ B) ∧ l'.len = l.len ∧ l'.cells.length = l.cells.length ∧
      l'.read p = some ⟨k, last A, first B⟩ ∧
      ∀ q, q ∉ (A ++ B).map Prod.fst → l'.read q = l.read q := by
  have hAB := (nodup_split nodup).2.2.2
  have hp := h A p k B rfl
  have hlast : ∀ q, last A = some q → ∃ n, l.read q = some n := by
    intro q hq
    obtain ⟨A', kq, rfl⟩ := last_eq_some hq
    exact ⟨_, h A' q kq ((p, k) :: B) (by simp)⟩
  obtain ⟨l₁, hl₁, read₁, cells₁, head₁, tail₁, len₁⟩ := linkNext_spec (last A) (first B) hlast
  have hfirst : ∀ q, first B = some q → ∃ n, l₁.read q = some n := by
    intro q hq
    obtain ⟨kq, B', rfl⟩ := first_eq_some hq
    have := h (A ++ [(p, k)]) q kq B' (by simp)
    rw [read₁]
    split <;> simp [this]
  obtain ⟨l₂, hl₂, read₂, cells₂, head₂, tail₂, len₂⟩ := linkPrev_spec (last A) (first B) hfirst
  have hother : ∀ q, q ∉ (A ++ B).map Prod.fst → l₂.read q = l.read q := by
    intro q hq
    rw [List.map_append, List.mem_append, not_or] at hq
    rw [read₂, if_neg (fun hc => hq.2 (first_mem hc)), read₁, if_neg (fun hc => hq.1 (last_mem hc))]
  refine ⟨l₂, ?_, ?_, ?_, ?_, len₂.trans len₁, cells₂.trans cells₁, ?_, hother⟩
  · simp only [LruList.unlink, hp, hl₁, hl₂, Option.bind_eq_bind, Option.bind_some]
  · intro A₁ q kq B₁ e
    rcases append_eq_split e with ⟨M, rfl, rfl⟩ | ⟨M, rfl, rfl⟩
    · have hq := h (A ++ (p, k) :: M) q kq B₁ (by simp)
      have hqA : last A ≠ some q := fun hc => hAB q (last_mem hc) (by simp)
      rw [read₂, read₁, if_neg hqA, hq]
      cases M with
      | nil => simp
      | cons m M =>
          have hne : first (m :: M ++ (q, kq) :: B₁) ≠ some q := by
            rintro hc
            cases hc
            have := (nodup_split (k := kq) (A := A ++ (p, k) :: m :: M) (by simpa using nodup)).2.1
            simp at this
          have hl : last (A ++ (p, k) :: m :: M) = last (m :: M) := by
            rw [List.append_cons, last_append (by simp)]
          rw [if_neg hne, hl, last_append (by simp)]
    · have hq := h A₁ q kq (M ++ (p, k) :: B) (by simp)
      have hqB : first B ≠ some q := fun hc => hAB q (by simp) (first_mem hc)
      rw [read₂, if_neg hqB, read₁, hq]
      cases M with
      | nil => simp
      | cons m M =>
          have hne : last (A₁ ++ (q, kq) :: m :: M) ≠ some q := by
            intro hc
            rw [List.append_cons, last_append (by simp)] at hc
            have := (nodup_split (k := kq) (A := A₁) (B := m :: M ++ (p, k) :: B) (by simpa using nodup)).2.2.1
            refine this ?_
            rw [List.map_append]
            exact List.mem_append_left _ (last_mem hc)
          rw [if_neg hne]
          simp [first]
  · rw [head₂, head₁, hhead]
    exact first_without A B p k
  · rw [tail₂, tail₁, htail]
    exact last_without A B p k
  · rw [hother p (notMem_split nodup), hp]

theorem popNode_spec (h : l.Lists (A ++ (p, k) :: B)) :
    ∃ l', l.popNode p = some l' ∧ l'.Lists (A ++ B) := by
  have nodup := (nodup_split h.nodup).1
  have hpAB := notMem_split h.nodup
  obtain ⟨l', hl', linked, head, tail, len, cells, hp, other⟩ :=
    unlink_spec (l := { l with len := l.len - 1 }) h.linked h.nodup h.head h.tail
  have hread (q : Nat) : LruList.read { l' with cells := l'.cells.set p none } q =
      if q = p then none else l'.read q := by
    by_cases hq : q = p
    · subst hq
      by_cases hb : q < l'.cells.length <;> simp [LruList.read, hb]
    · simp [LruList.read, hq, Ne.symm hq]
  refine ⟨{ l' with cells := l'.cells.set p none }, by simp [LruList.popNode, hl'],
    ?_, nodup, ?_, head, tail, ?_⟩
  · intro A₁ q kq B₁ e
    rw [hread, if_neg]
    · exact linked A₁ q kq B₁ e
    · rintro rfl
      exact hpAB (by simp [e])
  · intro q n hq
    rw [hread] at hq
    split at hq
    · cases hq
    · next hqp =>
      by_contra hc
      rw [other q hc] at hq
      have := h.live q n hq
      rw [List.map_append, List.map_cons, List.mem_append, List.mem_cons] at this
      rw [List.map_append, List.mem_append] at hc
      tauto
  · change l'.len = _
    rw [len]
    change l.len - 1 = _
    rw [h.len]
    simp

/-- Linking a node that stands alone behind the last node of the list. -/
theorem appendNode_spec {n : Node K} {f : Nat → Node K → Node K} (h : l.Linked xs)
    (hp : l.read p = some n) (hf : ∀ t, f t n = ⟨k, some t, none⟩) (fresh : p ∉ xs.map Prod.fst)
    (nodup : (xs.map Prod.fst).Nodup) (tail : l.tail = last xs) (hne : xs ≠ []) :
    ∃ t l₁ l₂, l.tail = some t ∧ l.write t (fun n => { n with next := some p }) = some l₁ ∧
      l₁.write p (f t) = some l₂ ∧ l₂.Linked (xs ++ [(p, k)]) ∧ l₂.head = l.head ∧
      l₂.len = l.len ∧ ∀ q, q ∉ (xs ++ [(p, k)]).map Prod.fst → l₂.read q = l.read q := by
  rcases List.eq_nil_or_concat xs with rfl | ⟨A, ⟨t, kt⟩, rfl⟩
  · exact absurd rfl hne
  · rw [List.concat_eq_append] at h fresh nodup tail ⊢
    rw [last_append_singleton] at tail
    have htp : t ≠ p := by
      rintro rfl
      exact fresh (by simp)
    obtain ⟨l₁, hl₁, w₁⟩ := write_spec (fun n => { n with next := some p }) (h A t kt [] rfl)
    have hp₁ : l₁.read p = some n := by rw [w₁.read, if_neg (Ne.symm htp), hp]
    obtain ⟨l₂, hl₂, w₂⟩ := write_spec (f t) hp₁
    have hread (q : Nat) : l₂.read q = if q = p then some ⟨k, some t, none⟩
        else if q = t then some ⟨kt, last A, some p⟩ else l.read q := by
      rw [w₂.read, w₁.read]
      split
      · next hq => rw [hq, if_neg (Ne.symm htp), hp, Option.map_some, hf]
      · split
        · next hq => rw [hq, h A t kt [] rfl]; rfl
        · rfl
    refine ⟨t, l₁, l₂, tail, hl₁, hl₂, ?_, w₂.head.trans w₁.head, w₂.len.trans w₁.len, ?_⟩
    · intro A₁ q kq B₁ e
      rcases append_eq_split e with ⟨M, rfl, hM⟩ | ⟨M, hM, rfl⟩
      · obtain ⟨rfl, hM⟩ : M = [] ∧ [(p, k)] = (q, kq) :: B₁ := by
          cases M with
          | nil => exact ⟨rfl, hM⟩
          | cons m M => simp at hM
        cases hM
        rw [hread, if_pos rfl]
        simp [first]
      · have hq := h A₁ q kq M hM
        have hqp : q ≠ p := by
          rintro rfl
          exact fresh (by simp [hM])
        rw [hread, if_neg hqp]
        rcases append_eq_split hM with ⟨M', rfl, hM'⟩ | ⟨M', rfl, rfl⟩
        · obtain ⟨rfl, hM'⟩ : M' = [] ∧ [(t, kt)] = (q, kq) :: M := by
            cases M' with
            | nil => exact ⟨rfl, hM'⟩
            | cons m M' => simp at hM'
          cases hM'
          simp
        · have hqt : q ≠ t := by
            rintro rfl
            have := (nodup_split (k := kq) (A := A₁) (B := M' ++ [(q, kt)]) (by simpa using nodup)).2.2.1
            simp at this
          rw [if_neg hqt, hq, first_append (A := M' ++ [(t, kt)]) (by simp)]
    · intro q hq
      rw [hread, if_neg, if_neg]
      · rintro rfl
        exact hq (by simp)
      · rintro rfl
        exact hq (by simp)

/-- A new cell stands alone at first. -/
theorem read_push (l : LruList K) (k : K) (head tail : Option Nat) (len q : Nat) :
    LruList.read ⟨l.cells ++ [some ⟨k, none, none⟩], head, tail, len⟩ q =
      if q = l.cells.length then some ⟨k, none, none⟩ else l.read q := by
  unfold LruList.read
  rw [List.getElem?_append]
  by_cases hq : q < l.cells.length
  · rw [if_pos hq, if_neg (Nat.ne_of_lt hq)]
  · rw [if_neg hq]
    by_cases hq' : q = l.cells.length
    · simp [hq']
    · rw [if_neg hq', List.getElem?_eq_none (by simp; omega), List.getElem?_eq_none (by omega)]

theorem pushBack_spec (h : l.Lists xs) (k : K) :
    ∃ p l', l.pushBack k = some (p, l') ∧ l'.Lists (xs ++ [(p, k)]) := by
  have fresh : l.cells.length ∉ xs.map Prod.fst := by
    intro hc
    obtain ⟨n, hn⟩ := h.read hc
    exact Nat.lt_irrefl _ (LruList.read_lt hn)
  have nodup := nodup_concat (k := k) h.nodup fresh
  cases xs with
  | nil =>
      have hhead : l.head = none := h.head
      refine ⟨l.cells.length, _, by simp [LruList.pushBack, hhead]; rfl, ?_, nodup, ?_, rfl, rfl, ?_⟩
      · intro A q kq B e
        rw [read_push]
        cases A with
        | nil =>
            cases e
            simp [last, first]
        | cons a A => simp at e
      · intro q n hq
        rw [read_push] at hq
        split at hq
        · next hq' => simp [hq']
        · exact absurd (h.live q n hq) (by simp)
      · change l.len + 1 = 1
        rw [h.len]
        rfl
  | cons x xs =>
      have hhead : l.head ≠ none := by rw [h.head]; simp [first]
      have hlinked : LruList.Linked
          ⟨l.cells ++ [some ⟨k, none, none⟩], l.head, l.tail, l.len + 1⟩ (x :: xs) := by
        intro A q kq B e
        rw [read_push, if_neg]
        · exact h.linked A q kq B e
        · rintro rfl
          exact fresh (by simp [e])
      obtain ⟨t, l₁, l₂, ht, hl₁, hl₂, linked, head, len, other⟩ := appendNode_spec
        (f := fun t n => { n with prev := some t }) (k := k) (p := l.cells.length)
        (n := ⟨k, none, none⟩) hlinked (by rw [read_push, if_pos rfl]) (fun _ => rfl) fresh h.nodup h.tail (by simp)
      change l.tail = some t at ht
      refine ⟨l.cells.length, { l₂ with tail := some l.cells.length }, ?_, linked, nodup, ?_, ?_, ?_, ?_⟩
      · simp only [LruList.pushBack, Option.isNone_iff_eq_none, hhead, if_false, ht]
        rw [ht] at hl₁
        simp [hl₁, hl₂]
      · intro q n hq
        change l₂.read q = some n at hq
        by_contra hc
        rw [other q hc, read_push] at hq
        split at hq
        · next hq' => exact hc (by simp [hq'])
        · exact hc (by
            rw [List.map_append]
            exact List.mem_append_left _ (h.live q n hq))
      · exact head.trans h.head
      · exact last_append_singleton.symm
      · change l₂.len = _
        rw [len]
        change l.len + 1 = _
        rw [h.len]
        simp

theorem pushMidBack_spec (h : l.Lists (A ++ (p, k) :: B)) :
    ∃ l', l.pushMidBack p = some l' ∧ l'.Lists (A ++ B ++ [(p, k)]) := by
  obtain ⟨nodup, -, hpB, -⟩ := nodup_split h.nodup
  have hpAB := notMem_split h.nodup
  cases B with
  | nil =>
      have htail : l.tail = some p := by rw [h.tail, last_append_singleton]
      exact ⟨l, by simp [LruList.pushMidBack, htail], by simpa using h⟩
  | cons b B =>
      have htail : some p ≠ l.tail := by
        rw [h.tail, List.append_cons, last_append (by simp)]
        intro hc
        exact hpB (last_mem hc.symm)
      obtain ⟨l₁, hl₁, linked, head, tail, len, -, hp, other⟩ :=
        unlink_spec h.linked h.nodup h.head h.tail
      obtain ⟨t, l₂, l₃, ht, hl₂, hl₃, linked', head', len', other'⟩ := appendNode_spec
        (f := fun t n => { n with prev := some t, next := none }) (k := k) linked hp
        (fun _ => rfl) hpAB nodup tail (by simp)
      refine ⟨{ l₃ with tail := some p }, ?_, linked', nodup_concat nodup hpAB, ?_, ?_, ?_, ?_⟩
      · simp [LruList.pushMidBack, htail, hl₁, ht, hl₂, hl₃]
      · intro q n hq
        change l₃.read q = some n at hq
        by_contra hc
        rw [other' q hc] at hq
        rw [List.map_append, List.mem_append, not_or] at hc
        rw [other q hc.1] at hq
        have := h.live q n hq
        rw [List.map_append, List.map_cons, List.mem_append, List.mem_cons] at this
        rw [List.map_append, List.mem_append] at hc
        simp only [List.map_cons, List.map_nil, List.mem_singleton] at hc
        tauto
      · change l₃.head = _
        rw [head', head, first_append (A := A ++ b :: B) (by simp)]
      · exact last_append_singleton.symm
      · change l₃.len = _
        rw [len', len, h.len]
        simp

theorem peekFront_spec (h : l.Lists xs) : l.peekFront = some (xs.head?.map Prod.snd) := by
  cases xs with
  | nil =>
      have hhead : l.head = none := h.head
      simp [LruList.peekFront, hhead]
  | cons x xs =>
      have hhead : l.head = some x.1 := h.head
      simp [LruList.peekFront, hhead, h.linked [] x.1 x.2 xs rfl]

theorem isEmpty_iff (h : l.Lists xs) : l.isEmpty = true ↔ xs = [] := by
  rw [LruList.isEmpty, h.head]
  cases xs <;> simp [first]

end RustKv.Eviction
