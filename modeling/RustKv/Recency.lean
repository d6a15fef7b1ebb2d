import Mathlib.Data.List.Nodup

namespace RustKv.Recency

variable {K : Type} [DecidableEq K] {order : List K} {k x : K}

/-- The order without `k`. An order lists keys from the one used longest ago to
the one used last. -/
def forget (k : K) (order : List K) : List K := order.filter (fun x => decide (x ≠ k))

/-- The order after a use of `k`. -/
def touch (k : K) (order : List K) : List K := forget k order ++ [k]

@[simp] theorem mem_forget : x ∈ forget k order ↔ x ≠ k ∧ x ∈ order := by
  simp [forget, and_comm]

@[simp] theorem mem_touch : x ∈ touch k order ↔ x = k ∨ x ∈ order := by
  by_cases hx : x = k
  · simp [touch, hx]
  · simp [touch, hx]

theorem forget_of_notMem (h : k ∉ order) : forget k order = order := by
  refine List.filter_eq_self.mpr ?_
  intro x hx
  refine decide_eq_true ?_
  rintro rfl
  exact h hx

@[simp] theorem forget_forget : forget k (forget k order) = forget k order := by
  exact forget_of_notMem (by simp)

@[simp] theorem touch_forget : touch k (forget k order) = touch k order := by
  rw [touch, forget_forget, touch]

theorem forget_cons (x : K) (xs : List K) :
    forget k (x :: xs) = if x = k then forget k xs else x :: forget k xs := by
  by_cases hx : x = k
  · simp [forget, hx]
  · simp [forget, hx]

theorem forget_append (xs ys : List K) : forget k (xs ++ ys) = forget k xs ++ forget k ys := by
  rw [forget, List.filter_append]
  rfl

theorem filter_forget {p q : K → Bool} (h : ∀ x, x ≠ k → q x = p x) :
    (forget k order).filter q = forget k (order.filter p) := by
  rw [forget, forget, List.filter_filter, List.filter_filter]
  refine List.filter_congr ?_
  intro x _
  by_cases hx : x = k
  · simp [hx]
  · simp [hx, h x hx]

/-- The keys with the largest age come first. -/
def Oldest (age : K → Nat) (order : List K) : Prop := order.Pairwise (fun a b => age b < age a)

variable {age age' : K → Nat}

omit [DecidableEq K] in
theorem Oldest.later (h : Oldest age order) (hage : ∀ x ∈ order, age' x = age x + 1) : Oldest age' order := by
  refine List.Pairwise.imp_of_mem ?_ h
  intro a b ha hb hab
  rw [hage a ha, hage b hb]
  omega

theorem Oldest.forget (h : Oldest age order) (hage : ∀ x, x ≠ k → age' x = age x + 1) :
    Oldest age' (forget k order) :=
  Oldest.later (List.Pairwise.filter _ h) (fun x hx => hage x (mem_forget.mp hx).1)

theorem Oldest.touch (h : Oldest age order) (hage : ∀ x, x ≠ k → age' x = age x + 1) (hk : age' k = 0) :
    Oldest age' (touch k order) := by
  refine List.pairwise_append.mpr ⟨h.forget hage, List.pairwise_singleton _ k, ?_⟩
  intro a ha b hb
  rw [List.mem_singleton.mp hb, hk, hage a (mem_forget.mp ha).1]
  exact Nat.succ_pos _

section Rank

variable {rank rank' : K → Nat} {top : Nat}

/-- The keys by their rank, up to `top`, and those of one rank in their order. -/
def byRank (rank : K → Nat) (top : Nat) (order : List K) : List K :=
  (List.range (top + 1)).flatMap (fun f => order.filter (fun k => decide (rank k = f)))

omit [DecidableEq K] in
theorem mem_byRank (h : ∀ x, rank x ≤ top) : x ∈ byRank rank top order ↔ x ∈ order := by
  rw [byRank, List.mem_flatMap]
  constructor
  · rintro ⟨f, -, hx⟩
    exact List.mem_of_mem_filter hx
  · intro hx
    refine ⟨rank x, List.mem_range.mpr (Nat.lt_succ_of_le (h x)), ?_⟩
    exact List.mem_filter.mpr ⟨hx, by simp⟩

omit [DecidableEq K] in
theorem nodup_byRank (h : order.Nodup) : (byRank rank top order).Nodup := by
  refine List.nodup_flatMap.mpr ⟨fun f _ => h.filter _, ?_⟩
  refine List.Pairwise.imp ?_ List.nodup_range
  intro f g hfg x hf hg
  have hf' := (List.mem_filter.mp hf).2
  have hg' := (List.mem_filter.mp hg).2
  exact hfg ((of_decide_eq_true hf').symm.trans (of_decide_eq_true hg'))

omit [DecidableEq K] in
/-- Where all keys have the highest rank, ranks play no part. -/
theorem byRank_top (h : ∀ x ∈ order, rank x = top) : byRank rank top order = order := by
  have hlow : (List.range top).flatMap (fun f => order.filter (fun k => decide (rank k = f))) = [] := by
    refine List.flatMap_eq_nil_iff.mpr ?_
    intro f hf
    refine List.filter_eq_nil_iff.mpr ?_
    intro x hx
    have hne : rank x ≠ f := by
      rw [h x hx]
      exact Nat.ne_of_gt (List.mem_range.mp hf)
    simpa using hne
  have hall : order.filter (fun k => decide (rank k = top)) = order :=
    List.filter_eq_self.mpr (fun x hx => decide_eq_true (h x hx))
  rw [byRank, List.range_succ, List.flatMap_append, hlow, List.flatMap_singleton, hall,
    List.nil_append]

omit [DecidableEq K] in
/-- The first key is the first one of the lowest rank that occurs. -/
theorem byRank_head {m : Nat} (hm : m ≤ top) (low : ∀ x ∈ order, m ≤ rank x)
    (empty : order.filter (fun k => decide (rank k = m)) = [] → order = []) :
    (byRank rank top order).head? = (order.filter (fun k => decide (rank k = m))).head? := by
  obtain ⟨n, rfl⟩ := Nat.exists_eq_add_of_le hm
  have hlow : (List.range m).flatMap (fun f => order.filter (fun k => decide (rank k = f))) = [] := by
    refine List.flatMap_eq_nil_iff.mpr ?_
    intro f hf
    refine List.filter_eq_nil_iff.mpr ?_
    intro x hx
    have hle := low x hx
    have hlt := List.mem_range.mp hf
    simp only [decide_eq_true_eq]
    omega
  rw [byRank, Nat.add_assoc, List.range_add, List.flatMap_append, hlow, List.nil_append,
    List.range_succ_eq_map, List.map_cons, List.flatMap_cons, Nat.add_zero, List.head?_append]
  cases hbucket : order.filter (fun k => decide (rank k = m)) with
  | nil =>
      have hnil := empty hbucket
      subst hnil
      simp
  | cons k ks => rfl

theorem byRank_forget (h : ∀ x, x ≠ k → rank' x = rank x) :
    byRank rank' top (forget k order) = forget k (byRank rank top order) := by
  rw [byRank, byRank, forget, forget, List.filter_flatMap]
  refine List.flatMap_congr ?_
  intro f _
  exact filter_forget (fun x hx => by rw [h x hx])

/-- A use of a key with the highest rank makes it the last one of all. -/
theorem byRank_touch (h : ∀ x, x ≠ k → rank' x = rank x) (hk : rank' k = top) :
    byRank rank' top (touch k order) = touch k (byRank rank top order) := by
  have hlow : (List.range top).flatMap
      (fun f => (touch k order).filter (fun x => decide (rank' x = f))) =
      (List.range top).flatMap (fun f => (forget k order).filter (fun x => decide (rank' x = f))) := by
    refine List.flatMap_congr ?_
    intro f hf
    have hne : ¬ rank' k = f := by
      rw [hk]
      exact Nat.ne_of_gt (List.mem_range.mp hf)
    rw [touch, List.filter_append, List.filter_cons_of_neg (by simpa using hne), List.filter_nil,
      List.append_nil]
  have hlast : (touch k order).filter (fun x => decide (rank' x = top)) =
      (forget k order).filter (fun x => decide (rank' x = top)) ++ [k] := by
    rw [touch, List.filter_append, List.filter_cons_of_pos (by simpa using hk), List.filter_nil]
  have hforget : byRank rank' top (forget k order) = forget k (byRank rank top order) := byRank_forget h
  rw [byRank, List.range_succ, List.flatMap_append, List.flatMap_singleton] at hforget
  rw [byRank, List.range_succ, List.flatMap_append, List.flatMap_singleton, hlow, hlast, touch,
    ← hforget, List.append_assoc]

end Rank

end RustKv.Recency
