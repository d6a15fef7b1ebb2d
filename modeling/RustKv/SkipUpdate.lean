import RustKv.SkipSearch

namespace RustKv.Zset

open Text Domain Towers

variable {S : Type} {s t : SkipList S} {chain : List Nat} {x i level : Nat}

theorem forLevels_inv {σ : Type} {f : σ → Nat → Option σ} {a : σ} (Inv : Nat → σ → Prop)
    (lo hi : Nat) (hle : lo ≤ hi) (start : Inv lo a)
    (step : ∀ i b, lo ≤ i → i < hi → Inv i b → ∃ b', f b i = some b' ∧ Inv (i + 1) b') :
    ∃ a', forLevels lo hi f a = some a' ∧ Inv hi a' := by
  obtain ⟨n, rfl⟩ := Nat.exists_eq_add_of_le hle
  unfold forLevels
  rw [Nat.add_sub_cancel_left]
  clear hle
  induction n generalizing lo a with
  | zero => exact ⟨a, rfl, start⟩
  | succ n ih =>
      obtain ⟨b, hb, inv⟩ := step lo a (Nat.le_refl lo) (by omega) start
      rw [show lo + (n + 1) = lo + 1 + n by omega] at step ⊢
      rw [List.range'_succ, List.foldlM_cons, hb]
      exact ih (lo + 1) inv (fun i b hlo => step i b (by omega))

def SkipList.entry (s : SkipList S) (x : Nat) : Option (S × Bytes) :=
  s.nodes[x]?.map (fun n => (n.score, n.member))

/-- What writing to links leaves as it is. -/
structure SkipList.SameShape (s t : SkipList S) : Prop where
  nodes : t.nodes.length = s.nodes.length
  entry : ∀ x, t.entry x = s.entry x
  levelCount : ∀ x, t.levelCount x = s.levelCount x
  freeList : t.freeList = s.freeList
  head : t.head = s.head
  maxLevel : t.maxLevel = s.maxLevel
  length : t.length = s.length

namespace SkipList.SameShape

theorem refl (s : SkipList S) : s.SameShape s :=
  ⟨rfl, fun _ => rfl, fun _ => rfl, rfl, rfl, rfl, rfl⟩

theorem trans {u : SkipList S} (h₁ : s.SameShape t) (h₂ : t.SameShape u) : s.SameShape u where
  nodes := h₂.nodes.trans h₁.nodes
  entry x := (h₂.entry x).trans (h₁.entry x)
  levelCount x := (h₂.levelCount x).trans (h₁.levelCount x)
  freeList := h₂.freeList.trans h₁.freeList
  head := h₂.head.trans h₁.head
  maxLevel := h₂.maxLevel.trans h₁.maxLevel
  length := h₂.length.trans h₁.length

theorem height (h : s.SameShape t) (x : Nat) : t.height x = s.height x := by
  simp only [SkipList.height, h.head, h.maxLevel, h.levelCount]

end SkipList.SameShape

theorem sameShape_set {n : Node S} (hx : x < s.nodes.length) (hs : n.score = s.nodes[x].score)
    (hm : n.member = s.nodes[x].member) (hl : n.level.length = s.nodes[x].level.length) :
    s.SameShape { s with nodes := s.nodes.set x n } := by
  refine ⟨by simp, ?_, ?_, rfl, rfl, rfl, rfl⟩
  · intro y
    by_cases hy : x = y
    · subst hy
      simp [SkipList.entry, hx, hs, hm]
    · simp [SkipList.entry, hy]
  · intro y
    by_cases hy : x = y
    · subst hy
      simp [SkipList.levelCount, hx, hl]
    · simp [SkipList.levelCount, hy]

theorem modifyLink_spec {l : SkipListLevel} (f : SkipListLevel → SkipListLevel)
    (hl : s.link x i = some l) :
    ∃ t, s.modifyLink x i f = some t ∧ s.SameShape t ∧
      ∀ y j, t.link y j = if y = x ∧ j = i then some (f l) else s.link y j := by
  obtain ⟨n, hn, hi⟩ := Option.bind_eq_some_iff.mp hl
  obtain ⟨hx, rfl⟩ := List.getElem?_eq_some_iff.mp hn
  obtain ⟨hil, rfl⟩ := List.getElem?_eq_some_iff.mp hi
  refine ⟨{ s with nodes := s.nodes.set x { s.nodes[x] with
    level := s.nodes[x].level.set i (f s.nodes[x].level[i]) } }, by simp [SkipList.modifyLink, hx, hil],
    sameShape_set hx rfl rfl (by simp), ?_⟩
  intro y j
  by_cases hy : y = x
  · subst hy
    by_cases hj : j = i
    · subst hj
      simp [SkipList.link, hx, hil]
    · simp [SkipList.link, hx, hj, Ne.symm hj]
  · simp [SkipList.link, hy, Ne.symm hy]

theorem setBackward_spec (b : Option Nat) (hx : x < s.nodes.length) :
    ∃ t, s.setBackward x b = some t ∧ s.SameShape t ∧ ∀ y j, t.link y j = s.link y j := by
  refine ⟨{ s with nodes := s.nodes.set x { s.nodes[x] with backward := b } },
    by simp [SkipList.setBackward, hx], sameShape_set hx rfl rfl rfl, ?_⟩
  intro y j
  by_cases hy : x = y
  · subst hy
    simp [SkipList.link, hx]
  · simp [SkipList.link, hy]

theorem SkipList.Holds.of_link {l : Option Nat × Nat} (hl : t.link x i = s.link x i)
    (h : s.Holds x i l) : t.Holds x i l := by
  unfold SkipList.Holds at h ⊢
  rw [hl, h]

/-- A node that may stand in a chain. -/
structure SkipList.Usable (s : SkipList S) (x : Nat) : Prop where
  bound : x < s.nodes.length
  height_pos : 0 < s.height x
  height_le : s.height x ≤ s.maxLevel
  unfree : x ∉ s.freeList

theorem SkipList.Chain.usable (C : s.Chain chain) (hx : x ∈ chain) : s.Usable x where
  bound := C.bound x (List.mem_cons_of_mem s.head hx)
  height_pos := C.height_pos x hx
  height_le := C.height_le x hx
  unfree h := C.free_fresh x h (List.mem_cons_of_mem s.head hx)

/-- The same nodes, linked to another chain. The levels above the maximum stay unused. -/
theorem SkipList.Chain.relink {chain' : List Nat} {count : UInt64} (C : s.Chain chain) (sh : s.SameShape t)
    (linked : Linked t.Holds s.height (s.head :: chain') []) (nodup : (s.head :: chain').Nodup)
    (usable : ∀ x ∈ chain', s.Usable x) (hcount : count = UInt64.ofNat chain'.length)
    (top : ∀ j, s.maxLevel ≤ j → t.link s.head j = s.link s.head j) :
    SkipList.Chain { t with length := count } chain' := by
  have hheight (x : Nat) : SkipList.height { t with length := count } x = s.height x := sh.height x
  refine ⟨?_, ?_, ?_, hcount, ?_, ?_, ?_, ?_, ?_, ?_, ?_, ?_⟩
  · change Linked t.Holds _ (t.head :: chain') []
    rw [funext hheight, sh.head]
    exact linked
  · change (t.head :: chain').Nodup
    rw [sh.head]
    exact nodup
  · change ∀ x ∈ t.head :: chain', x < t.nodes.length
    rw [sh.head, sh.nodes]
    intro x hx
    rcases List.mem_cons.mp hx with rfl | hx
    · exact C.bound _ List.mem_cons_self
    · exact (usable x hx).bound
  · intro x hx
    rw [hheight]
    exact (usable x hx).height_pos
  · intro x hx
    rw [hheight]
    change _ ≤ t.maxLevel
    rw [sh.maxLevel]
    exact (usable x hx).height_le
  · change 0 < t.maxLevel
    rw [sh.maxLevel]
    exact C.maxLevel_pos
  · change t.maxLevel ≤ _
    rw [sh.maxLevel]
    exact C.maxLevel_le
  · intro j h1 h2
    change t.maxLevel ≤ j at h1
    rw [sh.maxLevel] at h1
    change ∃ d, t.link t.head j = _
    rw [sh.head, top j h1]
    exact C.unused j h1 h2
  · change t.freeList.Nodup
    rw [sh.freeList]
    exact C.free_nodup
  · change ∀ x ∈ t.freeList, x < t.nodes.length
    rw [sh.freeList, sh.nodes]
    exact C.free_bound
  · change ∀ x ∈ t.freeList, x ∉ t.head :: chain'
    rw [sh.freeList, sh.head]
    intro x hx hxm
    rcases List.mem_cons.mp hxm with rfl | hxm
    · exact C.free_fresh _ hx List.mem_cons_self
    · exact (usable x hxm).unfree hx

theorem SkipList.Chain.of_agree (C : s.Chain chain) (hhead : t.head = s.head)
    (hmax : t.maxLevel = s.maxLevel) (hlen : t.length = s.length)
    (hnodes : ∀ x ∈ s.head :: chain, t.nodes[x]? = s.nodes[x]?) (free_nodup : t.freeList.Nodup)
    (free_bound : ∀ x ∈ t.freeList, x < t.nodes.length)
    (free_fresh : ∀ x ∈ t.freeList, x ∉ s.head :: chain) : t.Chain chain := by
  have hheight : ∀ x ∈ s.head :: chain, t.height x = s.height x := by
    intro x hx
    simp only [SkipList.height, SkipList.levelCount, hhead, hmax, hnodes x hx]
  have hlink : ∀ x ∈ s.head :: chain, ∀ i, t.link x i = s.link x i := by
    intro x hx i
    simp only [SkipList.link, hnodes x hx]
  refine ⟨?_, by rw [hhead]; exact C.nodup, ?_, hlen.trans C.length, ?_, ?_, ?_, ?_, ?_,
    free_nodup, free_bound, by rw [hhead]; exact free_fresh⟩
  · rw [hhead]
    exact C.linked.mono (by simpa using hheight)
      (fun i x hx _ l => SkipList.Holds.of_link (hlink x hx i))
  · rw [hhead]
    intro x hx
    obtain ⟨n, hn⟩ := C.node_eq hx
    rw [← hnodes x hx] at hn
    exact (List.getElem?_eq_some_iff.mp hn).1
  · intro x hx
    rw [hheight x (by simp [hx])]
    exact C.height_pos x hx
  · intro x hx
    rw [hheight x (by simp [hx]), hmax]
    exact C.height_le x hx
  · rw [hmax]
    exact C.maxLevel_pos
  · rw [hmax]
    exact C.maxLevel_le
  · intro i
    rw [hmax, hhead, hlink s.head (by simp)]
    exact C.unused i

theorem hop_above (C : s.Chain chain) {i : Nat} (hi : s.maxLevel ≤ i) :
    hop s.height i chain = (none, chain.length) := by
  have short : ∀ x ∈ chain, s.height x ≤ i := fun x hx => Nat.le_trans (C.height_le x hx) hi
  have := hop_append_short short []
  simpa [hop] using this

theorem raise_loop (C : s.Chain chain) (hlt : s.maxLevel < level)
    (hle : level ≤ zskiplistMaxlevel) :
    ∃ t, forLevels s.maxLevel level
        (fun t i => t.modifyLink t.head i (fun l => { l with span := t.length })) s = some t ∧
      s.SameShape t ∧
      (∀ y j, (y ≠ s.head ∨ j < s.maxLevel ∨ level ≤ j) → t.link y j = s.link y j) ∧
      ∀ j, s.maxLevel ≤ j → j < level → t.link s.head j = some ⟨none, s.length⟩ := by
  refine forLevels_inv (fun k t => s.SameShape t ∧
    (∀ y j, (y ≠ s.head ∨ j < s.maxLevel ∨ k ≤ j) → t.link y j = s.link y j) ∧
    ∀ j, s.maxLevel ≤ j → j < k → t.link s.head j = some ⟨none, s.length⟩)
    s.maxLevel level (Nat.le_of_lt hlt) ⟨.refl s, fun _ _ _ => rfl, fun j h1 h2 => by omega⟩ ?_
  rintro k t hk hkl ⟨sh, same, new⟩
  obtain ⟨d, hd⟩ := C.unused k hk (by omega)
  have hl : t.link t.head k = some ⟨none, d⟩ := by
    rw [sh.head, same _ _ (.inr (.inr (Nat.le_refl k))), hd]
  obtain ⟨t', ht', sh', link'⟩ := modifyLink_spec (fun l => { l with span := t.length }) hl
  refine ⟨t', ht', sh.trans sh', ?_, ?_⟩
  · intro y j hyj
    rw [link', if_neg, same y j]
    · rcases hyj with h | h | h
      · exact .inl h
      · exact .inr (.inl h)
      · exact .inr (.inr (by omega))
    · rintro ⟨rfl, rfl⟩
      rw [sh.head] at hyj
      rcases hyj with h | h | h
      · exact h rfl
      · omega
      · omega
  · intro j h1 h2
    by_cases hj : j = k
    · rw [link', if_pos ⟨sh.head.symm, hj⟩, sh.length]
    · rw [link', if_neg (fun h => hj h.2)]
      exact new j h1 (by omega)

/-- Raising the list to `level` keeps its chain and everything in it. -/
structure SkipList.Raised (s t : SkipList S) (level : Nat) : Prop where
  maxLevel : t.maxLevel = max s.maxLevel level
  head : t.head = s.head
  nodes : t.nodes.length = s.nodes.length
  freeList : t.freeList = s.freeList
  entry : ∀ x, t.entry x = s.entry x
  height : ∀ x, x ≠ s.head → t.height x = s.height x

theorem raise_spec (C : s.Chain chain) (hle : level ≤ zskiplistMaxlevel) :
    ∃ t, s.raise level = some t ∧ t.Chain chain ∧ s.Raised t level := by
  by_cases hlt : s.maxLevel < level
  · obtain ⟨t, ht, sh, same, new⟩ := raise_loop C hlt hle
    have hheight : ∀ x, x ≠ s.head →
        SkipList.height { t with maxLevel := level } x = s.height x := by
      intro x hx
      simp only [SkipList.height, sh.head, if_neg hx]
      exact sh.levelCount x
    have hne : ∀ x ∈ chain, x ≠ s.head := by
      rintro x hx rfl
      exact (List.nodup_cons.mp C.nodup).1 hx
    have hchain : ∀ x ∈ chain, SkipList.height { t with maxLevel := level } x = s.height x :=
      fun x hx => hheight x (hne x hx)
    have hlinked := linked_cons.mp C.linked
    refine ⟨{ t with maxLevel := level }, ?_, ?_, ?_⟩
    · simp [SkipList.raise, hlt, ht]
    · refine ⟨?_, ?_, ?_, ?_, ?_, ?_, ?_, ?_, ?_, ?_, ?_, ?_⟩
      · refine linked_cons.mpr ⟨?_, hlinked.2.mono (by simpa using hchain) ?_⟩
        · intro i hi
          change t.link t.head i = _
          rw [List.append_nil, hop_congr hchain, sh.head]
          by_cases hs : i < s.maxLevel
          · rw [same _ _ (.inr (.inl hs))]
            have := hlinked.1 i (by rwa [s.height_head])
            rwa [List.append_nil] at this
          · have hi' : i < level := by rwa [SkipList.height_head] at hi
            rw [new i (Nat.not_lt.mp hs) hi', hop_above C (Nat.not_lt.mp hs), C.length]
        · intro i x hx _ l
          exact SkipList.Holds.of_link (same x i (.inl (hne x hx)))
      · change (t.head :: chain).Nodup
        rw [sh.head]
        exact C.nodup
      · change ∀ x ∈ t.head :: chain, x < t.nodes.length
        rw [sh.head, sh.nodes]
        exact C.bound
      · exact sh.length.trans C.length
      · intro x hx
        rw [hchain x hx]
        exact C.height_pos x hx
      · intro x hx
        rw [hchain x hx]
        exact Nat.le_trans (C.height_le x hx) (Nat.le_of_lt hlt)
      · exact Nat.zero_lt_of_lt hlt
      · exact hle
      · intro i h1 h2
        obtain ⟨d, hd⟩ := C.unused i (Nat.le_trans (Nat.le_of_lt hlt) h1) h2
        refine ⟨d, ?_⟩
        change t.link t.head i = _
        rw [sh.head, same _ _ (.inr (.inr h1)), hd]
      · change t.freeList.Nodup
        rw [sh.freeList]
        exact C.free_nodup
      · change ∀ x ∈ t.freeList, x < t.nodes.length
        rw [sh.freeList, sh.nodes]
        exact C.free_bound
      · change ∀ x ∈ t.freeList, x ∉ t.head :: chain
        rw [sh.freeList, sh.head]
        exact C.free_fresh
    · exact ⟨(Nat.max_eq_right (Nat.le_of_lt hlt)).symm, sh.head, sh.nodes, sh.freeList, sh.entry, hheight⟩
  · refine ⟨s, by simp [SkipList.raise, hlt], C, ?_, rfl, rfl, rfl, fun _ => rfl, fun _ _ => rfl⟩
    exact (Nat.max_eq_left (Nat.not_lt.mp hlt)).symm

end RustKv.Zset
