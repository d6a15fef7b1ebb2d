import RustKv.SkipUpdate

namespace RustKv.Zset

open Text Domain Towers

variable {S : Type} {s t : SkipList S} {chain A B : List Nat} {level : Nat}

theorem climb_bounds (coins : List Bool) (n : Nat) (h1 : 1 ≤ n) (h2 : n ≤ zskiplistMaxlevel) :
    1 ≤ climb n coins ∧ climb n coins ≤ zskiplistMaxlevel := by
  induction coins generalizing n with
  | nil => exact ⟨h1, h2⟩
  | cons coin coins ih =>
      unfold climb
      split
      · next h =>
        simp only [Bool.and_eq_true, decide_eq_true_eq] at h
        exact ih (n + 1) (by omega) (by omega)
      · exact ⟨h1, h2⟩

theorem randomLevel_bounds (coins : List Bool) :
    1 ≤ randomLevel coins ∧ randomLevel coins ≤ zskiplistMaxlevel :=
  climb_bounds coins 1 (by decide) (by decide)

/-- Stops for every level of the list, between `A` and what follows it. -/
def SkipList.Stops (s : SkipList S) (A : List Nat) (stops : List (Nat × UInt64)) : Prop :=
  ∀ i < s.maxLevel, ∃ u r, stops[i]? = some (u, UInt64.ofNat r) ∧ LastTall s.height i A u r

theorem SkipList.Reached.stops_length {pass : Node S → UInt64 → Bool} {p : Path} {Q R : List Nat}
    (h : s.Reached chain pass 0 p Q R) : p.stops.length = s.maxLevel := h.levels

theorem SkipList.Reached.stops {pass : Node S → UInt64 → Bool} {p : Path} {Q R : List Nat}
    (h : s.Reached chain pass 0 p Q R) : s.Stops (Q ++ [p.current]) p.stops := by
  intro i hi
  obtain ⟨u, r, hu, st⟩ := h.settled i (by rwa [h.stops_length])
  rw [Nat.zero_add] at st
  exact ⟨u, r, hu, st.1⟩

theorem SkipList.Stops.raise {stops : List (Nat × UInt64)} (C : s.Chain chain)
    (raised : s.Raised t level) (hlen : stops.length = s.maxLevel)
    (e : s.head :: chain = s.head :: A ++ B) (h : s.Stops (s.head :: A) stops) :
    t.Stops (s.head :: A) (stops ++ List.replicate (level - s.maxLevel) (s.head, 0)) := by
  have hA : ∀ x ∈ A, x ∈ chain := by
    intro x hx
    cases e
    simp [hx]
  have hne : ∀ x ∈ A, x ≠ s.head := by
    rintro x hx rfl
    exact (List.nodup_cons.mp C.nodup).1 (hA _ hx)
  have hhead : t.height s.head = t.maxLevel := by rw [← raised.head, t.height_head]
  intro i hi
  by_cases hs : i < s.maxLevel
  · obtain ⟨u, r, hu, lt⟩ := h i hs
    refine ⟨u, r, by rw [List.getElem?_append_left (by omega), hu], lt.congr ?_⟩
    intro x hx
    rcases List.mem_cons.mp hx with rfl | hx
    · rw [hhead, s.height_head]
      exact ⟨fun _ => hs, fun _ => hi⟩
    · rw [raised.height x (hne x hx)]
  · refine ⟨s.head, 0, ?_, [], A, rfl, by rwa [hhead], ?_, rfl⟩
    · rw [raised.maxLevel] at hi
      rw [List.getElem?_append_right (by omega), List.getElem?_replicate, if_pos (by omega)]
      rfl
    · intro x hx
      rw [raised.height x (hne x hx)]
      exact Nat.le_trans (C.height_le x (hA x hx)) (Nat.not_lt.mp hs)

/-- `t` is `s` with a new node `z`, not yet linked. -/
structure SkipList.Allocated (s t : SkipList S) (z : Nat) (chain : List Nat) (level : Nat) : Prop where
  fresh : z ∉ s.head :: chain
  bound : z < t.nodes.length
  unfree : z ∉ t.freeList
  levelCount : t.levelCount z = level
  link : ∀ i < level, t.link z i = some ⟨none, 0⟩
  head : t.head = s.head
  maxLevel : t.maxLevel = s.maxLevel
  height : ∀ x ∈ s.head :: chain, t.height x = s.height x
  entry : ∀ x ∈ s.head :: chain, t.entry x = s.entry x

theorem allocated_of_nodes (score : S) (member : Bytes) {z : Nat} (fresh : z ∉ s.head :: chain)
    (hz : t.nodes[z]? = some (emptyNode score member level)) (unfree : z ∉ t.freeList)
    (hhead : t.head = s.head) (hmax : t.maxLevel = s.maxLevel)
    (hnodes : ∀ x ∈ s.head :: chain, t.nodes[x]? = s.nodes[x]?) :
    s.Allocated t z chain level where
  fresh := fresh
  bound := (List.getElem?_eq_some_iff.mp hz).1
  unfree := unfree
  levelCount := by simp [SkipList.levelCount, hz, emptyNode]
  link i hi := by simp [SkipList.link, hz, emptyNode, hi]
  head := hhead
  maxLevel := hmax
  height x hx := by simp only [SkipList.height, SkipList.levelCount, hhead, hmax, hnodes x hx]
  entry x hx := by simp only [SkipList.entry, hnodes x hx]

theorem allocateNode_spec (C : s.Chain chain) (score : S) (member : Bytes) (level : Nat) :
    ∃ z t, s.allocateNode score member level = (z, t) ∧ t.Chain chain ∧
      s.Allocated t z chain level ∧ t.entry z = some (score, member) := by
  unfold SkipList.allocateNode
  cases hfree : s.freeList with
  | nil =>
      have fresh : s.nodes.length ∉ s.head :: chain :=
        fun h => Nat.lt_irrefl _ (C.bound _ h)
      have hnodes : ∀ x ∈ s.head :: chain,
          (s.nodes ++ [emptyNode score member level])[x]? = s.nodes[x]? :=
        fun x hx => List.getElem?_append_left (C.bound x hx)
      refine ⟨_, _, rfl, C.of_agree rfl rfl rfl hnodes ?_ ?_ ?_,
        allocated_of_nodes score member fresh (by simp) (by simp) rfl rfl hnodes,
        by simp [SkipList.entry, emptyNode]⟩ <;> simp
  | cons z rest =>
      have hmem : z ∈ s.freeList := by simp [hfree]
      have hz := C.free_bound z hmem
      have fresh := C.free_fresh z hmem
      have hnodup := C.free_nodup
      rw [hfree] at hnodup
      have hnodes : ∀ x ∈ s.head :: chain,
          (s.nodes.set z (emptyNode score member level))[x]? = s.nodes[x]? := by
        intro x hx
        refine List.getElem?_set_ne ?_
        rintro rfl
        exact fresh hx
      refine ⟨_, _, rfl, C.of_agree rfl rfl rfl hnodes (List.nodup_cons.mp hnodup).2 ?_ ?_,
        allocated_of_nodes score member fresh (by simp [hz]) (List.nodup_cons.mp hnodup).1
          rfl rfl hnodes, by simp [SkipList.entry, emptyNode, hz]⟩
      · intro x hx
        simpa using C.free_bound x (by simp [hfree, show x ∈ rest from hx])
      · intro x hx
        exact C.free_fresh x (by simp [hfree, show x ∈ rest from hx])

theorem ofNat_succ (n : Nat) : UInt64.ofNat n + 1 = UInt64.ofNat (n + 1) := by
  rw [UInt64.ofNat_add]
  rfl

theorem ofNat_narrow {d n r : Nat} (hr : r ≤ n) :
    UInt64.ofNat (d + (n - r)) - (UInt64.ofNat n - UInt64.ofNat r) = UInt64.ofNat d := by
  rw [← UInt64.ofNat_sub hr, ← UInt64.ofNat_sub (Nat.le_add_left _ _), Nat.add_sub_cancel]

theorem ofNat_step {n r : Nat} (hr : r ≤ n) :
    UInt64.ofNat n - UInt64.ofNat r + 1 = UInt64.ofNat (1 + (n - r)) := by
  rw [← UInt64.ofNat_sub hr, ofNat_succ, Nat.add_comm]

variable {stops : List (Nat × UInt64)} {z : Nat}

/-- The loop over the new node's levels puts it between `A` and `B` there. -/
theorem linkNode_loop (hl : Linked s.Holds s.height A B) (hz : z ∉ A)
    (hlink : ∀ j < level, ∃ l, s.link z j = some l) (hstops : s.Stops A stops)
    (hle : level ≤ s.maxLevel) :
    ∃ t, forLevels 0 level
        (fun t i => t.linkNode stops (UInt64.ofNat (A.length - 1)) z i) s = some t ∧
      s.SameShape t ∧ (∀ y j, level ≤ j → t.link y j = s.link y j) ∧
      (∀ y j, y ≠ z → (∀ u r, LastTall s.height j A u r → y ≠ u) → t.link y j = s.link y j) ∧
      (∀ u r j, j < level → LastTall s.height j A u r →
        t.Holds u j (some z, 1 + (A.length - 1 - r))) ∧
      ∀ j < level, t.Holds z j (hop s.height j B) := by
  refine forLevels_inv (fun k t => s.SameShape t ∧
    (∀ y j, k ≤ j → t.link y j = s.link y j) ∧
    (∀ y j, y ≠ z → (∀ u r, LastTall s.height j A u r → y ≠ u) → t.link y j = s.link y j) ∧
    (∀ u r j, j < k → LastTall s.height j A u r → t.Holds u j (some z, 1 + (A.length - 1 - r))) ∧
    ∀ j < k, t.Holds z j (hop s.height j B)) 0 level (Nat.zero_le level)
    ⟨.refl s, fun _ _ _ => rfl, fun _ _ _ _ => rfl, by simp, by simp⟩ ?_
  rintro k t - hk ⟨sh, above, others, lasts, news⟩
  obtain ⟨u, r, hu, lt⟩ := hstops k (by omega)
  obtain ⟨lz, hlz⟩ := hlink k hk
  have huz : u ≠ z := by
    rintro rfl
    exact hz lt.mem
  have hr : r ≤ A.length - 1 := by
    have := lt.lt_length
    omega
  have hlu : t.link u k = some ⟨(hop s.height k B).1,
      UInt64.ofNat ((hop s.height k B).2 + (A.length - 1 - r))⟩ :=
    (above u k (Nat.le_refl k)).trans (lt.link hl)
  obtain ⟨t₁, ht₁, sh₁, link₁⟩ := modifyLink_spec (fun _ => ⟨(hop s.height k B).1,
    UInt64.ofNat ((hop s.height k B).2 + (A.length - 1 - r)) -
      (UInt64.ofNat (A.length - 1) - UInt64.ofNat r)⟩) ((above z k (Nat.le_refl k)).trans hlz)
  have hlu₁ : t₁.link u k = t.link u k := by
    rw [link₁, if_neg (fun h => huz h.1)]
  obtain ⟨t₂, ht₂, sh₂, link₂⟩ := modifyLink_spec
    (fun _ => ⟨some z, UInt64.ofNat (A.length - 1) - UInt64.ofNat r + 1⟩) (hlu₁.trans hlu)
  have hlink₂ : ∀ y j, t₂.link y j =
      if y = u ∧ j = k then some ⟨some z, UInt64.ofNat (1 + (A.length - 1 - r))⟩
      else if y = z ∧ j = k then some ⟨(hop s.height k B).1, UInt64.ofNat (hop s.height k B).2⟩
      else t.link y j := by
    intro y j
    rw [link₂, link₁, ofNat_step hr, ofNat_narrow hr]
  have hlow : ∀ y j, j ≠ k → t₂.link y j = t.link y j := by
    intro y j hj
    rw [hlink₂, if_neg (fun h => hj h.2), if_neg (fun h => hj h.2)]
  refine ⟨t₂, ?_, sh.trans (sh₁.trans sh₂), ?_, ?_, ?_, ?_⟩
  · simp only [SkipList.linkNode, hu, hlu, ht₁, ht₂, Option.bind_eq_bind, Option.bind_some]
  · intro y j hj
    rw [hlow y j (by omega), above y j (by omega)]
  · intro y j hyz hy
    by_cases hj : j = k
    · subst hj
      rw [hlink₂, if_neg (fun h => hy u r lt h.1), if_neg (fun h => hyz h.1), others y j hyz hy]
    · rw [hlow y j hj, others y j hyz hy]
  · intro u' r' j hj lt'
    by_cases hjk : j = k
    · subst hjk
      obtain ⟨P, Q, e, hu', hQ, rfl⟩ := lt'
      obtain ⟨rfl, rfl⟩ := lt.unique e hu' hQ
      unfold SkipList.Holds
      rw [hlink₂, if_pos ⟨rfl, rfl⟩]
    · exact SkipList.Holds.of_link (hlow u' j hjk) (lasts u' r' j (by omega) lt')
  · intro j hj
    by_cases hjk : j = k
    · subst hjk
      unfold SkipList.Holds
      rw [hlink₂, if_neg (fun h => huz h.1.symm), if_pos ⟨rfl, rfl⟩]
    · exact SkipList.Holds.of_link (hlow z j hjk) (news j (by omega))

/-- The loop over the levels above the new node's height makes room for it. -/
theorem widen_loop (hl : ∀ u r j, level ≤ j → LastTall s.height j A u r →
      s.Holds u j ((hop s.height j B).1, (hop s.height j B).2 + (A.length - 1 - r)))
    (hstops : s.Stops A stops) (hle : level ≤ s.maxLevel) :
    ∃ t, forLevels level s.maxLevel (fun t i => t.widen stops i) s = some t ∧
      s.SameShape t ∧
      (∀ y j, j < level ∨ s.maxLevel ≤ j ∨ (∀ u r, LastTall s.height j A u r → y ≠ u) →
        t.link y j = s.link y j) ∧
      ∀ u r j, level ≤ j → j < s.maxLevel → LastTall s.height j A u r →
        t.Holds u j ((hop s.height j B).1, (hop s.height j B).2 + 1 + (A.length - 1 - r)) := by
  refine forLevels_inv (fun k t => s.SameShape t ∧
    (∀ y j, j < level ∨ k ≤ j ∨ (∀ u r, LastTall s.height j A u r → y ≠ u) →
      t.link y j = s.link y j) ∧
    ∀ u r j, level ≤ j → j < k → LastTall s.height j A u r →
      t.Holds u j ((hop s.height j B).1, (hop s.height j B).2 + 1 + (A.length - 1 - r)))
    level s.maxLevel hle ⟨.refl s, fun _ _ _ => rfl, fun _ _ _ h1 h2 => by omega⟩ ?_
  rintro k t hlk hk ⟨sh, same, lasts⟩
  obtain ⟨u, r, hu, lt⟩ := hstops k hk
  have hlu : t.link u k = _ := (same u k (.inr (.inl (Nat.le_refl k)))).trans (hl u r k hlk lt)
  obtain ⟨t', ht', sh', link'⟩ := modifyLink_spec (fun l => { l with span := l.span + 1 }) hlu
  refine ⟨t', ?_, sh.trans sh', ?_, ?_⟩
  · simp only [SkipList.widen, hu, ht', Option.bind_eq_bind, Option.bind_some]
  · intro y j hj
    rw [link', if_neg, same y j]
    · rcases hj with hj | hj | hj
      · exact .inl hj
      · exact .inr (.inl (by omega))
      · exact .inr (.inr hj)
    · rintro ⟨rfl, rfl⟩
      rcases hj with hj | hj | hj
      · omega
      · omega
      · exact hj y r lt rfl
  · intro u' r' j hlj hj lt'
    by_cases hjk : j = k
    · subst hjk
      obtain ⟨P, Q, e, hu', hQ, rfl⟩ := lt'
      obtain ⟨rfl, rfl⟩ := lt.unique e hu' hQ
      unfold SkipList.Holds
      rw [link', if_pos ⟨rfl, rfl⟩]
      rw [ofNat_succ, Nat.add_right_comm]
    · refine SkipList.Holds.of_link ?_ (lasts u' r' j hlj (by omega) lt')
      rw [link', if_neg (fun h => hjk h.2)]

theorem linkBackward_spec {l : SkipListLevel} (prev : Nat) (hz : z < s.nodes.length)
    (hl : s.link z 0 = some l) (hf : ∀ y, l.forward = some y → y < s.nodes.length) :
    ∃ t, s.linkBackward prev z = some t ∧ s.SameShape t ∧ ∀ y j, t.link y j = s.link y j := by
  obtain ⟨t, ht, sh, hlink⟩ :=
    setBackward_spec (s := s) (if prev = s.head then none else some prev) hz
  simp only [SkipList.linkBackward, ht, hlink, hl, Option.bind_eq_bind, Option.bind_some]
  cases hn : l.forward with
  | none =>
      refine ⟨{ t with tail := some z }, rfl, sh.trans ?_, hlink⟩
      exact ⟨rfl, fun _ => rfl, fun _ => rfl, rfl, rfl, rfl, rfl⟩
  | some y =>
      obtain ⟨t', ht', sh', hlink'⟩ :=
        setBackward_spec (s := t) (some z) (by rw [sh.nodes]; exact hf y hn)
      exact ⟨t', ht', sh.trans sh', fun x j => (hlink' x j).trans (hlink x j)⟩

/-- The links `t` has once `z` is in place between `A` and `B` on all its levels. -/
structure SkipList.Spliced (s t : SkipList S) (A B : List Nat) (z : Nat) : Prop where
  shape : s.SameShape t
  others : ∀ y j, y ≠ z → (∀ u r, LastTall s.height j A u r → y ≠ u) → t.link y j = s.link y j
  lasts : ∀ u r j, LastTall s.height j A u r →
    t.Holds u j ((hop s.height j (z :: B)).1, (hop s.height j (z :: B)).2 + (A.length - 1 - r))
  new : ∀ j < s.height z, t.Holds z j (hop s.height j B)

theorem SkipList.Spliced.linked (sp : s.Spliced t (s.head :: A) B z) (C : s.Chain (A ++ B))
    (fresh : z ∉ s.head :: (A ++ B)) : Linked t.Holds s.height (s.head :: (A ++ z :: B)) [] := by
  have nodup : ((s.head :: A) ++ B).Nodup := C.nodup
  have hdisj := (List.nodup_append.mp nodup).2.2
  have hl : Linked s.Holds s.height ((s.head :: A) ++ B) [] := C.linked
  obtain ⟨hlA, hlB⟩ := linked_append.mp hl
  rw [List.append_nil] at hlA
  refine linked_append (A := s.head :: A).mpr ⟨?_, linked_cons.mpr ⟨?_, ?_⟩⟩
  · rw [List.append_nil]
    refine hlA.splice (List.nodup_append.mp nodup).1 (fun _ _ => rfl)
      (fun j u r lt => sp.lasts u r j lt) ?_
    intro j x hx _ hne l
    refine SkipList.Holds.of_link (sp.others x j ?_ hne)
    rintro rfl
    exact fresh (List.mem_append_left B hx)
  · intro j hj
    rw [List.append_nil]
    exact sp.new j hj
  · refine hlB.mono (fun _ _ => rfl) ?_
    intro j x hx _ l
    refine SkipList.Holds.of_link (sp.others x j ?_ ?_)
    · rintro rfl
      exact fresh (List.mem_append_right (s.head :: A) hx)
    · rintro u r lt rfl
      exact hdisj x lt.mem x hx rfl

theorem chain_insert (C : s.Chain (A ++ B)) (fresh : z ∉ s.head :: (A ++ B)) (hz : s.Usable z)
    (sp : s.Spliced t (s.head :: A) B z) :
    SkipList.Chain { t with length := t.length + 1 } (A ++ z :: B) := by
  have hperm : ((s.head :: A) ++ z :: B).Perm (z :: ((s.head :: A) ++ B)) := List.perm_middle
  refine C.relink sp.shape (sp.linked C fresh)
    (hperm.nodup_iff.mpr (List.nodup_cons.mpr ⟨fresh, C.nodup⟩)) ?_ ?_ ?_
  · intro x hx
    rcases List.mem_cons.mp (List.perm_middle.mem_iff.mp hx) with rfl | hx
    · exact hz
    · exact C.usable hx
  · rw [sp.shape.length, C.length, ofNat_succ]
    simp [Nat.add_assoc]
  · intro j hj
    refine sp.others s.head j ?_ ?_
    · rintro rfl
      exact fresh List.mem_cons_self
    · -- no node in use reaches the level
      intro u r lt
      have hle := C.height_le_of_mem (x := u) (List.mem_append_left B lt.mem)
      have htall := lt.tall
      omega

theorem SkipList.Stops.of_agree (h : s.Stops A stops) (hmax : t.maxLevel = s.maxLevel)
    (hheight : ∀ x ∈ A, t.height x = s.height x) : t.Stops A stops := by
  intro i hi
  rw [hmax] at hi
  obtain ⟨u, r, hu, lt⟩ := h i hi
  exact ⟨u, r, hu, lt.congr (fun x hx => by rw [hheight x hx])⟩

/-- The two loops of an insertion and the repair of the backward pointers. -/
theorem splice_spec (hl : Linked s.Holds s.height A B) (hB : ∀ x ∈ B, x < s.nodes.length)
    (hz : z ∉ A) (bound : z < s.nodes.length) (hlink : ∀ j < level, ∃ l, s.link z j = some l)
    (hheight : s.height z = level) (pos : 0 < level) (hle : level ≤ s.maxLevel)
    (hA : ∀ x ∈ A, s.height x ≤ s.maxLevel) (hstops : s.Stops A stops) (prev : Nat) :
    ∃ t₁ t₂ t, forLevels 0 level
        (fun t i => t.linkNode stops (UInt64.ofNat (A.length - 1)) z i) s = some t₁ ∧
      forLevels level t₁.maxLevel (fun t i => t.widen stops i) t₁ = some t₂ ∧
      t₂.linkBackward prev z = some t ∧ s.Spliced t A B z := by
  obtain ⟨t₁, ht₁, sh₁, above₁, others₁, lasts₁, news₁⟩ := linkNode_loop hl hz hlink hstops hle
  have heq : t₁.height = s.height := funext sh₁.height
  have hl₁ : ∀ u r j, level ≤ j → LastTall t₁.height j A u r → t₁.Holds u j
      ((hop t₁.height j B).1, (hop t₁.height j B).2 + (A.length - 1 - r)) := by
    intro u r j hj lt
    rw [heq] at lt ⊢
    exact SkipList.Holds.of_link (above₁ u j hj) (lt.link hl)
  have hstops₁ : t₁.Stops A stops := hstops.of_agree sh₁.maxLevel (fun x _ => sh₁.height x)
  obtain ⟨t₂, ht₂, sh₂, same₂, lasts₂⟩ := widen_loop hl₁ hstops₁ (by rw [sh₁.maxLevel]; exact hle)
  rw [heq] at same₂ lasts₂
  rw [sh₁.maxLevel] at same₂ lasts₂
  have sh₁₂ := sh₁.trans sh₂
  have hz₂ : ∀ j < level, t₂.Holds z j (hop s.height j B) :=
    fun j hj => SkipList.Holds.of_link (same₂ z j (.inl hj)) (news₁ j hj)
  obtain ⟨t, ht, sh, hlinkt⟩ := linkBackward_spec prev (by rw [sh₁₂.nodes]; exact bound)
    (hz₂ 0 pos) (by
      intro y hy
      obtain ⟨M, Q, hM, -⟩ := hop_some hy
      rw [sh₁₂.nodes]
      exact hB y (by simp [hM]))
  refine ⟨t₁, t₂, t, ht₁, ht₂, ht, sh₁₂.trans sh, ?_, ?_, ?_⟩
  · intro y j hyz hy
    rw [hlinkt, same₂ y j (.inr (.inr hy)), others₁ y j hyz hy]
  · intro u r j lt
    refine SkipList.Holds.of_link (hlinkt u j) ?_
    by_cases hj : j < level
    · rw [hop_tall (by rwa [hheight])]
      exact SkipList.Holds.of_link (same₂ u j (.inl hj)) (lasts₁ u r j hj lt)
    · have hjm : j < s.maxLevel := Nat.lt_of_lt_of_le lt.tall (hA u lt.mem)
      rw [hop, if_neg (by rwa [hheight])]
      exact lasts₂ u r j (Nat.not_lt.mp hj) hjm lt
  · intro j hj
    rw [hheight] at hj
    exact SkipList.Holds.of_link (hlinkt z j) (hz₂ j hj)

theorem SkipList.Reached.split_head {pass : Node S → UInt64 → Bool} {p : Path} {Q R : List Nat}
    (h : s.Reached chain pass 0 p Q R) :
    ∃ A, Q ++ [p.current] = s.head :: A ∧ chain = A ++ R := by
  have e := h.split
  cases Q with
  | nil =>
      obtain ⟨h1, h2⟩ := List.cons.inj e
      exact ⟨[], by simp [h1], h2⟩
  | cons q Q =>
      obtain ⟨h1, h2⟩ := List.cons.inj e
      exact ⟨Q ++ [p.current], by simp [h1], by simpa using h2⟩

/-- An insertion between `A` and `R` whose node `z` is allocated and not yet linked. -/
structure SkipList.Prepared [Score S] (s : SkipList S) (score : S) (member : Bytes) (coins : List Bool)
    (A R : List Nat) (p : Path) (s₁ s₂ : SkipList S) (z up : Nat) : Prop where
  search : s.search (fun n _ => before score member n) s.maxLevel ⟨s.head, 0, []⟩ = some p
  raise : s.raise (randomLevel coins) = some s₁
  allocate : s₁.allocateNode score member (randomLevel coins) = (z, s₂)
  first : (p.stops ++ List.replicate (randomLevel coins - s.maxLevel) (s.head, 0))[0]? =
    some (up, UInt64.ofNat A.length)
  chain : s₂.Chain (A ++ R)
  stops : s₂.Stops (s.head :: A)
    (p.stops ++ List.replicate (randomLevel coins - s.maxLevel) (s.head, 0))
  head : s₂.head = s.head
  fresh : z ∉ s.head :: (A ++ R)
  unfree : z ∉ s₂.freeList
  bound : z < s₂.nodes.length
  link : ∀ j < randomLevel coins, ∃ l, s₂.link z j = some l
  height : s₂.height z = randomLevel coins
  le : randomLevel coins ≤ s₂.maxLevel
  entry : s₂.entry z = some (score, member)
  entries : ∀ x ∈ A ++ R, s₂.entry x = s.entry x

theorem insert_prepared [Score S] (C : s.Chain chain) (score : S) (member : Bytes) (coins : List Bool) :
    ∃ p Q R A s₁ s₂ z up, s.Prepared score member coins A R p s₁ s₂ z up ∧
      s.Reached chain (fun n _ => before score member n) 0 p Q R ∧
      Q ++ [p.current] = s.head :: A ∧ chain = A ++ R := by
  obtain ⟨p, Q, R, hp, reached⟩ :=
    search_spec C (fun n _ => before score member n) s.maxLevel _ (reached_start chain _)
  obtain ⟨A, hA, rfl⟩ := reached.split_head
  obtain ⟨hpos, hle⟩ := randomLevel_bounds coins
  obtain ⟨s₁, hs₁, C₁, raised⟩ := raise_spec C hle
  obtain ⟨z, s₂, hs₂, C₂, al, hentry⟩ := allocateNode_spec C₁ score member (randomLevel coins)
  have hhead : s₂.head = s.head := al.head.trans raised.head
  have hstops := reached.stops
  rw [hA] at hstops
  have hstops₂ := (hstops.raise C raised reached.stops_length rfl).of_agree al.maxLevel
    (fun x hx => al.height x (by
      rw [raised.head]
      exact List.mem_append_left R hx))
  have fresh : z ∉ s.head :: (A ++ R) := by
    rw [← raised.head]
    exact al.fresh
  have hheight : s₂.height z = randomLevel coins := by
    rw [SkipList.height, if_neg, al.levelCount]
    rintro rfl
    exact fresh (by simp [hhead])
  have hmax : randomLevel coins ≤ s₂.maxLevel := by
    rw [al.maxLevel, raised.maxLevel]
    exact Nat.le_max_right _ _
  obtain ⟨up, r, hup, lt⟩ := hstops₂ 0 (Nat.lt_of_lt_of_le hpos hmax)
  have hr : r = A.length := by
    have h0 := C₂.height_pos_of_mem (x := p.current) (by
      rw [hhead]
      exact List.mem_append_left R (hA ▸ List.mem_append_right Q (List.mem_singleton_self _)))
    obtain ⟨-, rfl⟩ := lt.unique (P := Q) (x := p.current) (R := []) hA.symm h0 (by simp)
    have := congrArg List.length hA
    simpa using this
  refine ⟨p, Q, R, A, s₁, s₂, z, up, ⟨hp, hs₁, hs₂, by rw [hup, hr], C₂, hstops₂, hhead, fresh,
    al.unfree, al.bound, fun j hj => ⟨_, al.link j hj⟩, hheight, hmax, hentry, ?_⟩, reached, hA, rfl⟩
  intro x hx
  refine (al.entry x ?_).trans (raised.entry x)
  rw [raised.head]
  exact List.mem_cons_of_mem _ hx

section Prepared

variable [Score S] {score : S} {member : Bytes} {coins : List Bool} {R : List Nat} {p : Path}
variable {s₁ s₂ : SkipList S} {up : Nat}

theorem SkipList.Prepared.linked (pr : s.Prepared score member coins A R p s₁ s₂ z up) :
    Linked s₂.Holds s₂.height (s.head :: A) R := by
  have hl : Linked s₂.Holds s₂.height ((s.head :: A) ++ R) [] := by
    rw [← pr.head]
    exact pr.chain.linked
  have := (linked_append.mp hl).1
  rwa [List.append_nil] at this

theorem SkipList.Prepared.new_notMem (pr : s.Prepared score member coins A R p s₁ s₂ z up) :
    z ∉ s.head :: A := fun h => pr.fresh (List.mem_append_left R h)

theorem SkipList.Prepared.splice (pr : s.Prepared score member coins A R p s₁ s₂ z up) :
    ∃ t₁ t₂ t, forLevels 0 (randomLevel coins) (fun t i => t.linkNode
        (p.stops ++ List.replicate (randomLevel coins - s.maxLevel) (s.head, 0))
        (UInt64.ofNat A.length) z i) s₂ = some t₁ ∧
      forLevels (randomLevel coins) t₁.maxLevel (fun t i => t.widen
        (p.stops ++ List.replicate (randomLevel coins - s.maxLevel) (s.head, 0)) i) t₁ = some t₂ ∧
      t₂.linkBackward up z = some t ∧ s₂.Spliced t (s.head :: A) R z := by
  refine splice_spec pr.linked ?_ pr.new_notMem pr.bound pr.link pr.height (randomLevel_bounds coins).1
    pr.le ?_ pr.stops up
  · intro x hx
    exact pr.chain.bound x (List.mem_cons_of_mem _ (List.mem_append_right A hx))
  · intro x hx
    refine pr.chain.height_le_of_mem ?_
    rw [pr.head]
    exact List.mem_append_left R hx

theorem SkipList.Prepared.insert_eq {t₁ t₂ t : SkipList S}
    (pr : s.Prepared score member coins A R p s₁ s₂ z up)
    (ht₁ : forLevels 0 (randomLevel coins) (fun t i => t.linkNode
      (p.stops ++ List.replicate (randomLevel coins - s.maxLevel) (s.head, 0))
      (UInt64.ofNat A.length) z i) s₂ = some t₁)
    (ht₂ : forLevels (randomLevel coins) t₁.maxLevel (fun t i => t.widen
      (p.stops ++ List.replicate (randomLevel coins - s.maxLevel) (s.head, 0)) i) t₁ = some t₂)
    (ht : t₂.linkBackward up z = some t) :
    s.insert score member coins = some (z, { t with length := t.length + 1 }) := by
  simp only [SkipList.insert, pr.search, pr.raise, pr.allocate, pr.first, ht₁, ht₂, ht,
    Option.bind_eq_bind, Option.bind_some]

theorem SkipList.Prepared.chained {t : SkipList S} (pr : s.Prepared score member coins A R p s₁ s₂ z up)
    (sp : s₂.Spliced t (s.head :: A) R z) :
    SkipList.Chain { t with length := t.length + 1 } (A ++ z :: R) := by
  rw [← pr.head] at sp
  refine chain_insert pr.chain (by rw [pr.head]; exact pr.fresh) ⟨pr.bound, ?_, ?_, pr.unfree⟩ sp
  · rw [pr.height]
    exact (randomLevel_bounds coins).1
  · rw [pr.height]
    exact pr.le

end Prepared

/-- An insertion puts one node into the chain, where the search for it ended. -/
theorem insert_spec [Score S] (C : s.Chain chain) (score : S) (member : Bytes) (coins : List Bool) :
    ∃ z t p Q R A, s.insert score member coins = some (z, t) ∧
      s.Reached chain (fun n _ => before score member n) 0 p Q R ∧
      Q ++ [p.current] = s.head :: A ∧ chain = A ++ R ∧ z ∉ s.head :: chain ∧
      t.Chain (A ++ z :: R) ∧ t.entry z = some (score, member) ∧
      ∀ x ∈ chain, t.entry x = s.entry x := by
  obtain ⟨p, Q, R, A, s₁, s₂, z, up, pr, reached, hA, rfl⟩ := insert_prepared C score member coins
  obtain ⟨t₁, t₂, t, ht₁, ht₂, ht, sp⟩ := pr.splice
  refine ⟨z, { t with length := t.length + 1 }, p, Q, R, A, pr.insert_eq ht₁ ht₂ ht, reached, hA,
    rfl, pr.fresh, pr.chained sp, ?_, ?_⟩
  · exact (sp.shape.entry z).trans pr.entry
  · intro x hx
    exact (sp.shape.entry x).trans (pr.entries x hx)

end RustKv.Zset
