import RustKv.SkipChecked

namespace RustKv.Zset

open Text Domain Towers

variable {S : Type} {s t : SkipList S} {chain A B R : List Nat} {x z i level : Nat}

def SkipList.backward (s : SkipList S) (x : Nat) : Option Nat :=
  s.nodes[x]?.bind Node.backward

/-- The nodes of level `i` after `x`, as its links give them. -/
def SkipList.follow (s : SkipList S) (i : Nat) : Nat → Nat → List Nat
  | 0, _ => []
  | fuel + 1, x =>
      match (s.link x i).bind SkipListLevel.forward with
      | none => []
      | some y => y :: s.follow i fuel y

def SkipList.levelChain (s : SkipList S) (i : Nat) : List Nat :=
  s.follow i s.nodes.length s.head

/-- What the chain leaves open: the backward pointers and the tail, the slots
that are free, and the height of the list. -/
structure SkipList.Intact (s : SkipList S) (chain : List Nat) : Prop where
  chained : s.Chain chain
  mirrored : Mirrored s.backward none chain s.tail
  free : ∀ x < s.nodes.length, x ∉ s.head :: chain → x ∈ s.freeList
  tallest : s.maxLevel = 1 ∨ ∃ x ∈ chain, s.height x = s.maxLevel

theorem new_intact [Score S] : (SkipList.new : SkipList S).Intact [] where
  chained := new_chain
  mirrored := rfl
  free x hx h := by
    have h0 : x = 0 := Nat.lt_one_iff.mp hx
    exact absurd h0 (by simpa [SkipList.new] using h)
  tallest := .inl rfl

section Levels

variable {P : List Nat}

theorem follow_eq (C : s.Chain chain) (fuel : Nat) (e : s.head :: chain = P ++ x :: R)
    (hi : i < s.height x) (hf : R.length < fuel) :
    s.follow i fuel x = R.filter (fun y => decide (i < s.height y)) := by
  induction fuel generalizing P x R with
  | zero => omega
  | succ fuel ih =>
      rw [SkipList.follow, C.link_eq e hi, Option.bind_some]
      cases hn : (hop s.height i R).1 with
      | none =>
          obtain ⟨short, -⟩ := hop_none hn
          rw [List.filter_eq_nil_iff.mpr (fun y hy => by simpa using short y hy)]
      | some y =>
          obtain ⟨M, Q, rfl, hy, short, -⟩ := hop_some hn
          have e' : s.head :: chain = (P ++ x :: M) ++ y :: Q := by simp [e]
          have hQ : Q.length < fuel := by
            simp only [List.length_append, List.length_cons] at hf
            omega
          have hM : M.filter (fun y => decide (i < s.height y)) = [] :=
            List.filter_eq_nil_iff.mpr (fun z hz => by simpa using short z hz)
          have hyQ : (y :: Q).filter (fun y => decide (i < s.height y)) =
              y :: Q.filter (fun y => decide (i < s.height y)) :=
            List.filter_cons_of_pos (by simpa using hy)
          rw [List.filter_append, hM, hyQ, List.nil_append, ← ih e' hy hQ]

/-- Below the height of the list, level `i` has just the nodes of the chain that reach it. -/
theorem SkipList.Chain.level_eq (C : s.Chain chain) (hi : i < s.maxLevel) :
    s.levelChain i = chain.filter (fun x => decide (i < s.height x)) :=
  follow_eq C s.nodes.length (P := []) rfl (by rwa [s.height_head]) C.length_lt

theorem SkipList.Chain.level_zero (C : s.Chain chain) : s.levelChain 0 = chain := by
  rw [C.level_eq C.maxLevel_pos]
  exact List.filter_eq_self.mpr (fun x hx => by simpa using C.height_pos x hx)

theorem SkipList.Chain.unique {chain' : List Nat} (C : s.Chain chain) (C' : s.Chain chain') :
    chain' = chain := C'.level_zero.symm.trans C.level_zero

end Levels

section Backward

structure SkipList.SameBack (s t : SkipList S) : Prop where
  backward : t.backward = s.backward
  tail : t.tail = s.tail

theorem SkipList.SameBack.trans {u : SkipList S} (h₁ : s.SameBack t) (h₂ : t.SameBack u) :
    s.SameBack u :=
  ⟨h₂.backward.trans h₁.backward, h₂.tail.trans h₁.tail⟩

theorem forLevels_back {f : SkipList S → Nat → Option (SkipList S)} {lo hi : Nat}
    (step : ∀ i a b, f a i = some b → a.SameBack b) (h : forLevels lo hi f s = some t) :
    s.SameBack t := by
  rw [forLevels] at h
  generalize List.range' lo (hi - lo) = is at h
  induction is generalizing s with
  | nil =>
      cases h
      exact ⟨rfl, rfl⟩
  | cons i is ih =>
      rw [List.foldlM_cons] at h
      obtain ⟨a, ha, h⟩ := Option.bind_eq_some_iff.mp h
      exact (step i s a ha).trans (ih h)

theorem modifyLink_back {f : SkipListLevel → SkipListLevel} (h : s.modifyLink x i f = some t) :
    s.SameBack t := by
  obtain ⟨n, hn, h⟩ := Option.bind_eq_some_iff.mp h
  obtain ⟨l, hl, h⟩ := Option.bind_eq_some_iff.mp h
  cases h
  refine ⟨?_, rfl⟩
  funext y
  obtain ⟨hx, rfl⟩ := List.getElem?_eq_some_iff.mp hn
  by_cases hy : x = y
  · subst hy
    simp [SkipList.backward, hx]
  · simp [SkipList.backward, hy]

theorem linkNode_back {stops : List (Nat × UInt64)} {rank : UInt64}
    (h : s.linkNode stops rank z i = some t) : s.SameBack t := by
  obtain ⟨⟨up, r⟩, -, h⟩ := Option.bind_eq_some_iff.mp h
  obtain ⟨l, -, h⟩ := Option.bind_eq_some_iff.mp h
  obtain ⟨a, ha, h⟩ := Option.bind_eq_some_iff.mp h
  exact (modifyLink_back ha).trans (modifyLink_back h)

theorem widen_back {stops : List (Nat × UInt64)} (h : s.widen stops i = some t) : s.SameBack t := by
  obtain ⟨⟨up, r⟩, -, h⟩ := Option.bind_eq_some_iff.mp h
  exact modifyLink_back h

theorem unlink_back {stops : List (Nat × UInt64)} (h : s.unlink stops z i = some t) :
    s.SameBack t := by
  obtain ⟨⟨up, r⟩, -, h⟩ := Option.bind_eq_some_iff.mp h
  obtain ⟨l, -, h⟩ := Option.bind_eq_some_iff.mp h
  by_cases hz : l.forward = some z
  · rw [if_pos hz] at h
    obtain ⟨l', -, h⟩ := Option.bind_eq_some_iff.mp h
    exact modifyLink_back h
  · rw [if_neg hz] at h
    exact modifyLink_back h

theorem raise_back (h : s.raise level = some t) : s.SameBack t := by
  rw [SkipList.raise] at h
  by_cases hlt : s.maxLevel < level
  · rw [if_pos hlt] at h
    obtain ⟨a, ha, h⟩ := Option.bind_eq_some_iff.mp h
    cases h
    have hback := forLevels_back (fun i a b hb => modifyLink_back hb) ha
    exact ⟨hback.backward, hback.tail⟩
  · rw [if_neg hlt] at h
    cases h
    exact ⟨rfl, rfl⟩

theorem setBackward_back {b : Option Nat} (h : s.setBackward x b = some t) :
    t.backward = Function.update s.backward x b ∧ t.tail = s.tail ∧ t.head = s.head ∧
      ∀ y j, t.link y j = s.link y j := by
  obtain ⟨n, hn, ht⟩ := Option.bind_eq_some_iff.mp h
  obtain ⟨hx, rfl⟩ := List.getElem?_eq_some_iff.mp hn
  obtain ⟨t', ht', -, hlink⟩ := setBackward_spec b hx
  rw [h] at ht'
  cases ht'
  cases ht
  refine ⟨?_, rfl, rfl, hlink⟩
  funext y
  by_cases hy : y = x
  · subst hy
    simp [SkipList.backward, hx]
  · simp [SkipList.backward, hy, Ne.symm hy]

theorem linkBackward_back {up : Nat} (h : s.linkBackward up z = some t) :
    ∃ l, t.link z 0 = some l ∧
      (l.forward = none → t.tail = some z ∧
        t.backward = Function.update s.backward z (if up = t.head then none else some up)) ∧
      ∀ y, l.forward = some y → t.tail = s.tail ∧ t.backward =
        Function.update (Function.update s.backward z (if up = t.head then none else some up))
          y (some z) := by
  obtain ⟨a, ha, h⟩ := Option.bind_eq_some_iff.mp h
  obtain ⟨⟨f, d⟩, hl, h⟩ := Option.bind_eq_some_iff.mp h
  obtain ⟨hback, htail, hhead, -⟩ := setBackward_back ha
  rw [← hhead] at hback
  cases f with
  | none =>
      cases h
      refine ⟨⟨none, d⟩, hl, fun _ => ⟨rfl, hback⟩, ?_⟩
      intro y hy
      cases hy
  | some y =>
      obtain ⟨hback', htail', hhead', hlink⟩ := setBackward_back h
      rw [← hhead'] at hback
      refine ⟨⟨some y, d⟩, (hlink z 0).trans hl, ?_, ?_⟩
      · intro hy
        cases hy
      · intro y' hy
        cases hy
        rw [hback', hback]
        exact ⟨htail'.trans htail, rfl⟩

theorem unlinkBackward_back (h : s.unlinkBackward z = some t) :
    ∃ l, s.link z 0 = some l ∧
      (l.forward = none → t.tail = s.backward z ∧ t.backward = s.backward) ∧
      ∀ y, l.forward = some y → t.tail = s.tail ∧
        t.backward = Function.update s.backward y (s.backward z) := by
  obtain ⟨n, hn, h⟩ := Option.bind_eq_some_iff.mp h
  obtain ⟨⟨f, d⟩, hl, h⟩ := Option.bind_eq_some_iff.mp h
  have hz : s.backward z = n.backward := by rw [SkipList.backward, hn, Option.bind_some]
  cases f with
  | none =>
      cases h
      refine ⟨⟨none, d⟩, hl, fun _ => ⟨hz.symm, rfl⟩, ?_⟩
      intro y hy
      cases hy
  | some y =>
      obtain ⟨hback, htail, -, -⟩ := setBackward_back h
      refine ⟨⟨some y, d⟩, hl, ?_, ?_⟩
      · intro hy
        cases hy
      · intro y' hy
        cases hy
        rw [hz]
        exact ⟨htail, hback⟩

end Backward

theorem hop_zero (hpos : ∀ x ∈ R, 0 < s.height x) : (hop s.height 0 R).1 = R.head? := by
  cases R with
  | nil => rfl
  | cons y R => rw [hop_tall (hpos y (by simp)), List.head?_cons]

theorem SkipList.Chain.forward_zero {P : List Nat} (C : s.Chain chain)
    (e : s.head :: chain = P ++ x :: R) {l : SkipListLevel} (hl : s.link x 0 = some l) :
    l.forward = R.head? := by
  have hx : x ∈ s.head :: chain := by simp [e]
  rw [C.link_eq e (C.height_pos_of_mem hx)] at hl
  cases hl
  refine hop_zero (fun y hy => C.height_pos_of_mem ?_)
  simp [e, hy]

section Insert

variable [Score S] {score : S} {member : Bytes} {coins : List Bool} {p : Path}
variable {s₁ s₂ : SkipList S} {up : Nat}

omit [Score S] in
/-- The slot of a new node was free or is new. -/
theorem allocateNode_slot (h : s.allocateNode score member level = (z, t)) :
    (s.freeList = z :: t.freeList ∧ t.nodes.length = s.nodes.length ∨
      s.freeList = [] ∧ t.freeList = [] ∧ z = s.nodes.length ∧
        t.nodes.length = s.nodes.length + 1) ∧
    t.maxLevel = s.maxLevel ∧ t.tail = s.tail ∧ ∀ x, x ≠ z → t.backward x = s.backward x := by
  rw [SkipList.allocateNode] at h
  cases hfree : s.freeList with
  | nil =>
      rw [hfree] at h
      cases h
      refine ⟨.inr ⟨rfl, rfl, rfl, by simp⟩, rfl, rfl, ?_⟩
      intro x hx
      simp only [SkipList.backward, List.getElem?_append, List.getElem?_singleton]
      by_cases hlt : x < s.nodes.length
      · rw [if_pos hlt]
      · rw [if_neg hlt, if_neg (by omega), List.getElem?_eq_none (by omega)]
  | cons idx rest =>
      rw [hfree] at h
      cases h
      refine ⟨.inl ⟨rfl, by simp⟩, rfl, rfl, ?_⟩
      intro x hx
      simp only [SkipList.backward, List.getElem?_set_ne (Ne.symm hx)]

/-- The node the new one is linked behind is the last of `head :: A`. -/
theorem SkipList.Prepared.up_eq (pr : s.Prepared score member coins A R p s₁ s₂ z up) :
    ∃ P, s.head :: A = P ++ [up] := by
  obtain ⟨u, r, hu, P, Q, e, htall, short, rfl⟩ := pr.stops 0 pr.chain.maxLevel_pos
  obtain rfl : up = u := congrArg Prod.fst (Option.some_inj.mp (pr.first.symm.trans hu))
  have hQ : Q = [] := by
    cases Q with
    | nil => rfl
    | cons y Q =>
        have hy : y ∈ s₂.head :: (A ++ R) := by
          rw [pr.head]
          exact List.mem_append_left R (show y ∈ s.head :: A by simp [e])
        exact absurd (pr.chain.height_pos_of_mem hy) (Nat.not_lt.mpr (short y (by simp)))
  exact ⟨P, by rw [e, hQ]⟩

/-- The backward pointers once the new node is linked behind `up`. -/
theorem SkipList.Prepared.mirrored {t₂ t : SkipList S}
    (pr : s.Prepared score member coins A R p s₁ s₂ z up)
    (h : Mirrored s.backward none (A ++ R) s.tail) (hback : s₂.SameBack t₂)
    (ht : t₂.linkBackward up z = some t) (hhead : t.head = s.head)
    (hforward : ∀ l, t.link z 0 = some l → l.forward = R.head?) :
    Mirrored t.backward none (A ++ z :: R) t.tail := by
  have nodup : (A ++ z :: R).Nodup := by
    refine List.perm_middle.nodup_iff.mpr (List.nodup_cons.mpr ⟨?_, ?_⟩)
    · exact fun hz => pr.fresh (List.mem_cons_of_mem _ hz)
    · exact (List.nodup_cons.mp pr.chain.nodup).2
  obtain ⟨-, -, htail, hsame⟩ := allocateNode_slot pr.allocate
  have hraise := raise_back pr.raise
  have h₂ : Mirrored t₂.backward none (A ++ R) t₂.tail := by
    rw [hback.tail, htail, hraise.tail, hback.backward]
    apply h.congr
    intro x hx
    rw [hsame x, hraise.backward]
    rintro rfl
    exact pr.fresh (List.mem_cons_of_mem _ hx)
  obtain ⟨q, hA, hR⟩ := mirrored_append.mp h₂
  have hq : (if up = t.head then none else some up) = q := by
    rw [hhead]
    obtain ⟨P, e⟩ := pr.up_eq
    cases P with
    | nil =>
        obtain ⟨rfl, rfl⟩ := List.cons.inj e
        rw [if_pos rfl]
        exact hA.symm
    | cons y P =>
        obtain ⟨rfl, rfl⟩ := List.cons.inj e
        have hne : up ≠ s.head := by
          rintro rfl
          have := pr.chain.nodup
          simp [pr.head] at this
        rw [if_neg hne]
        exact hA.eq_last.symm
  obtain ⟨l, hl, hnone, hsome⟩ := linkBackward_back ht
  have hf := hforward l hl
  rw [hq] at hnone hsome
  have hz : z ∉ A := fun hz => (List.nodup_append.mp nodup).2.2 z hz z (by simp) rfl
  cases R with
  | nil =>
      obtain ⟨htail', hback'⟩ := hnone hf
      rw [htail', hback']
      exact hA.concat hz
  | cons y R =>
      obtain ⟨htail', hback'⟩ := hsome y hf
      rw [htail', hback']
      exact hA.insert hR nodup

theorem insert_intact (I : s.Intact chain) (score : S) (member : Bytes) (coins : List Bool) :
    ∃ z t chain', s.insert score member coins = some (z, t) ∧ t.Intact chain' := by
  obtain ⟨p, Q, R, A, s₁, s₂, z, up, pr, -, -, rfl⟩ :=
    insert_prepared I.chained score member coins
  obtain ⟨t₁, t₂, t, ht₁, ht₂, ht, sp⟩ := pr.splice
  obtain ⟨s₁', hraise, C₁, raised⟩ := raise_spec I.chained (randomLevel_bounds coins).2
  obtain rfl : s₁ = s₁' := Option.some_inj.mp (pr.raise.symm.trans hraise)
  obtain ⟨z', s₂', hallocate, -, al, -⟩ := allocateNode_spec C₁ score member (randomLevel coins)
  rw [pr.allocate] at hallocate
  cases hallocate
  obtain ⟨hslot, hmax, -, -⟩ := allocateNode_slot pr.allocate
  rw [raised.freeList, raised.nodes] at hslot
  rw [raised.maxLevel] at hmax
  have C := pr.chained sp
  have hback : s₂.SameBack t₂ := (forLevels_back (fun _ _ _ h => linkNode_back h) ht₁).trans
    (forLevels_back (fun _ _ _ h => widen_back h) ht₂)
  have hmirror : Mirrored t.backward none (A ++ z :: R) t.tail := by
    refine pr.mirrored I.mirrored hback ht (sp.shape.head.trans pr.head) ?_
    intro l hl
    exact C.forward_zero (P := t.head :: A) (by simp) hl
  refine ⟨z, { t with length := t.length + 1 }, A ++ z :: R, pr.insert_eq ht₁ ht₂ ht, C, hmirror,
    ?_, ?_⟩
  · intro x hx hout
    change x < t.nodes.length at hx
    change x ∈ t.freeList
    rw [sp.shape.nodes] at hx
    rw [sp.shape.freeList]
    have hxz : x ≠ z := by
      rintro rfl
      exact hout (by simp)
    have hx' : x ∉ s.head :: (A ++ R) := by
      change x ∉ t.head :: (A ++ z :: R) at hout
      rw [sp.shape.head, pr.head] at hout
      intro h
      apply hout
      rcases List.mem_append.mp (show x ∈ (s.head :: A) ++ R from h) with h | h
      · exact List.mem_append_left (z :: R) h
      · exact List.mem_append_right (s.head :: A) (List.mem_cons_of_mem z h)
    rcases hslot with ⟨hfree, hlen⟩ | ⟨hfree, -, hz, hlen⟩
    · have hmem := I.free x (by omega) hx'
      rw [hfree] at hmem
      exact (List.mem_cons.mp hmem).resolve_left hxz
    · have hmem := I.free x (by omega) hx'
      rw [hfree] at hmem
      exact absurd hmem (by simp)
  · have hheight (x : Nat) : SkipList.height { t with length := t.length + 1 } x = s₂.height x :=
      sp.shape.height x
    have hmax' : t.maxLevel = max s.maxLevel (randomLevel coins) := sp.shape.maxLevel.trans hmax
    change t.maxLevel = 1 ∨ ∃ x ∈ A ++ z :: R, _ = t.maxLevel
    refine .inr ?_
    simp only [hheight]
    by_cases hle : s.maxLevel ≤ randomLevel coins
    · refine ⟨z, by simp, ?_⟩
      rw [pr.height, hmax', Nat.max_eq_right hle]
    · obtain ⟨hpos, -⟩ := randomLevel_bounds coins
      rcases I.tallest with hone | ⟨x, hx, htall⟩
      · omega
      · have hne : x ≠ s.head := by
          rintro rfl
          exact (List.nodup_cons.mp I.chained.nodup).1 hx
        refine ⟨x, ?_, ?_⟩
        · rcases List.mem_append.mp hx with h | h <;> simp [h]
        · rw [al.height x (List.mem_cons_of_mem _ hx), raised.height x hne, htall, hmax',
            Nat.max_eq_left (by omega)]

end Insert

section Delete

/-- Where the head's levels are given up, one is left that is used, or only the lowest. -/
theorem trimmed_used {n m : Nat} (h : s.trimmed n = some m) :
    m ≤ 1 ∨ ∃ l y, s.link s.head (m - 1) = some l ∧ l.forward = some y := by
  induction n with
  | zero =>
      cases h
      exact .inl (Nat.zero_le 1)
  | succ n ih =>
      cases n with
      | zero =>
          cases h
          exact .inl (Nat.le_refl 1)
      | succ n =>
          obtain ⟨⟨f, d⟩, hl, h⟩ := Option.bind_eq_some_iff.mp h
          cases f with
          | none => exact ih h
          | some y =>
              cases h
              exact .inr ⟨⟨some y, d⟩, y, hl, rfl⟩

variable [Score S] {stops : List (Nat × UInt64)}

theorem deleteNode_steps (h : s.deleteNode z stops = some t) :
    ∃ t₁ t₂ m n, forLevels 0 s.maxLevel (fun t i => t.unlink stops z i) s = some t₁ ∧
      t₁.unlinkBackward z = some t₂ ∧ t₂.trimmed t₂.maxLevel = some m ∧
      t₂.nodes[z]? = some n ∧
      t = { t₂ with
        maxLevel := m
        length := t₂.length - 1
        nodes := t₂.nodes.set z { n with score := Score.zero, member := [] }
        freeList := z :: t₂.freeList } := by
  obtain ⟨t₁, h₁, h⟩ := Option.bind_eq_some_iff.mp h
  obtain ⟨t₂, h₂, h⟩ := Option.bind_eq_some_iff.mp h
  obtain ⟨m, hm, h⟩ := Option.bind_eq_some_iff.mp h
  obtain ⟨n, hn, h⟩ := Option.bind_eq_some_iff.mp h
  exact ⟨t₁, t₂, m, n, h₁, h₂, hm, hn, (Option.some_inj.mp h).symm⟩

omit [Score S] in
theorem SkipList.Chain.tallest_of_used (C : s.Chain chain)
    (h : s.maxLevel ≤ 1 ∨ ∃ l y, s.link s.head (s.maxLevel - 1) = some l ∧ l.forward = some y) :
    s.maxLevel = 1 ∨ ∃ x ∈ chain, s.height x = s.maxLevel := by
  have hpos := C.maxLevel_pos
  rcases h with hle | ⟨l, y, hl, hy⟩
  · exact .inl (by omega)
  · rw [C.link_eq (P := []) rfl (by rw [s.height_head]; omega)] at hl
    cases hl
    obtain ⟨M, Q, rfl, htall, -⟩ := hop_some hy
    have hle := C.height_le y (by simp)
    exact .inr ⟨y, by simp, by omega⟩

omit [Score S] in
theorem unlinkBackward_mirrored {t₁ t₂ : SkipList S} (C : s.Chain (A ++ z :: B))
    (h : Mirrored s.backward none (A ++ z :: B) s.tail) (hback : s.SameBack t₁)
    (hlink : t₁.link z 0 = s.link z 0) (ht₂ : t₁.unlinkBackward z = some t₂) :
    Mirrored t₂.backward none (A ++ B) t₂.tail := by
  obtain ⟨l, hl, hnone, hsome⟩ := unlinkBackward_back ht₂
  have hf := C.forward_zero (P := s.head :: A) (x := z) (R := B) (by simp) (hlink.symm.trans hl)
  rw [hback.backward, hback.tail] at hsome
  rw [hback.backward] at hnone
  cases B with
  | nil =>
      obtain ⟨htail, hback'⟩ := hnone hf
      obtain ⟨q, hA, rfl, -⟩ := mirrored_append.mp h
      rw [htail, hback', List.append_nil]
      exact hA
  | cons y B =>
      obtain ⟨htail, hback'⟩ := hsome y hf
      rw [htail, hback']
      exact h.erase (List.nodup_cons.mp C.nodup).2

theorem deleteNode_intact (I : s.Intact (A ++ z :: B)) (hstops : s.Stops (s.head :: A) stops)
    (h : s.deleteNode z stops = some t) (C : t.Chain (A ++ B)) : t.Intact (A ++ B) := by
  obtain ⟨t₁, t₂, m, n, ht₁, ht₂, hm, hn, rfl⟩ := deleteNode_steps h
  obtain ⟨t₁', t₂', ht₁', ht₂', sh, hlink, -⟩ := unlink_spec I.chained hstops
  obtain rfl : t₁ = t₁' := Option.some_inj.mp (ht₁.symm.trans ht₁')
  obtain rfl : t₂ = t₂' := Option.some_inj.mp (ht₂.symm.trans ht₂')
  obtain ⟨hz, rfl⟩ := List.getElem?_eq_some_iff.mp hn
  have hmirror := unlinkBackward_mirrored I.chained I.mirrored
    (forLevels_back (fun _ _ _ h => unlink_back h) ht₁) hlink ht₂
  refine ⟨C, ?_, ?_, C.tallest_of_used ?_⟩
  · apply hmirror.congr
    intro x _
    by_cases hx : z = x
    · subst hx
      simp [SkipList.backward, hz]
    · simp [SkipList.backward, hx]
  · intro x hx hout
    change x < (t₂.nodes.set z _).length at hx
    change x ∉ t₂.head :: (A ++ B) at hout
    change x ∈ z :: t₂.freeList
    rw [List.length_set, sh.nodes] at hx
    rw [sh.head] at hout
    rw [sh.freeList]
    by_cases hxz : x = z
    · rw [hxz]
      exact List.mem_cons_self
    · refine List.mem_cons_of_mem z (I.free x hx ?_)
      intro hmem
      have hperm : ((s.head :: A) ++ z :: B).Perm (z :: ((s.head :: A) ++ B)) := List.perm_middle
      rcases List.mem_cons.mp (hperm.mem_iff.mp hmem) with h | h
      · exact hxz h
      · exact hout h
  · rcases trimmed_used hm with hle | ⟨l, y, hl, hy⟩
    · exact .inl hle
    · refine .inr ⟨l, y, ?_, hy⟩
      rw [← hl]
      change ((t₂.nodes.set z _)[t₂.head]?).bind _ = _
      by_cases hx : z = t₂.head
      · simp [SkipList.link, ← hx, hz]
      · simp [SkipList.link, hx]

theorem delete_intact (I : s.Intact chain) (score : S) (member : Bytes) :
    ∃ b t chain', s.delete score member = some (b, t) ∧ t.Intact chain' := by
  obtain ⟨p, Q, R, A, reached, hA, rfl, hcases⟩ := delete_spec I.chained score member
  rcases hcases with ⟨z, B, t, sc, rfl, -, -, hnode, hdel, C, -⟩ | ⟨-, hdel⟩
  · have hstops := reached.stops
    rw [hA] at hstops
    exact ⟨true, t, A ++ B, hdel, deleteNode_intact I hstops hnode C⟩
  · exact ⟨false, s, A ++ R, hdel, I⟩

end Delete

section Sound

variable [TotalScore S] {D : Finset (S × Bytes)} {E : List (S × Bytes)}

/-- Only pairs that are not in the list are inserted. -/
def SkipOp.Fresh (D : Finset (S × Bytes)) : SkipOp S → Prop
  | .insert score member _ => (score, member) ∉ D
  | .delete _ _ => True

instance (D : Finset (S × Bytes)) (op : SkipOp S) : Decidable (op.Fresh D) :=
  match op with
  | .insert score member _ => inferInstanceAs (Decidable ((score, member) ∉ D))
  | .delete _ _ => .isTrue trivial

/-- The representation of the entries `E` by the nodes of `chain`. -/
structure SkipList.Sound (s : SkipList S) (chain : List Nat) (E : List (S × Bytes)) : Prop where
  lowest : s.levelChain 0 = chain
  levels : ∀ i < s.maxLevel, s.levelChain i = chain.filter (fun x => decide (i < s.levelCount x))
  lists : s.Lists chain E
  sorted : E.Pairwise (fun a b => toLex a < toLex b)
  spans : ∀ P x R, s.head :: chain = P ++ x :: R → ∀ i < s.height x,
    s.link x i = some ⟨(hop s.levelCount i R).1, UInt64.ofNat (hop s.levelCount i R).2⟩
  mirrored : Mirrored s.backward none chain s.tail
  length : s.length = UInt64.ofNat chain.length
  free : ∀ x, x ∈ s.freeList ↔ x < s.nodes.length ∧ x ≠ s.head ∧ x ∉ chain
  free_nodup : s.freeList.Nodup
  heights : ∀ x ∈ chain, 0 < s.levelCount x ∧ s.levelCount x ≤ s.maxLevel
  tallest : s.maxLevel = 1 ∨ ∃ x ∈ chain, s.levelCount x = s.maxLevel

/-- What the operations answer on the entries `E`. The nodes are in a Vec, whose
length is a usize. -/
structure SkipList.Answers (s : SkipList S) (E : List (S × Bytes)) : Prop where
  delete : ∀ score member, ∃ t chain',
    s.delete score member = some (decide ((score, member) ∈ E), t) ∧
      t.Sound chain' (E.erase (score, member))
  element : s.nodes.length < 2 ^ 64 → ∀ r,
    s.getElementByRank r = some E[r.toNat]? ∧ (E[r.toNat]? = none ↔ s.length ≤ r)
  rank : ∀ (i : Nat) score member, E[i]? = some (score, member) →
    s.getRank score member = some (some (UInt64.ofNat i))

omit [TotalScore S] in
theorem SkipList.Chain.levelCount_eq (C : s.Chain chain) (hx : x ∈ chain) :
    s.levelCount x = s.height x := by
  rw [SkipList.height, if_neg]
  rintro rfl
  exact (List.nodup_cons.mp C.nodup).1 hx

theorem SkipList.Intact.sound (I : s.Intact chain) (h : s.Stores D chain E) : s.Sound chain E := by
  have C := I.chained
  refine ⟨C.level_zero, ?_, h.lists, h.sorted, ?_, I.mirrored, C.length, ?_, C.free_nodup, ?_, ?_⟩
  · intro i hi
    rw [C.level_eq hi]
    apply List.filter_congr
    intro x hx
    rw [C.levelCount_eq hx]
  · intro P x R e i hi
    have hR : ∀ y ∈ R, s.levelCount y = s.height y := by
      intro y hy
      apply C.levelCount_eq
      cases P with
      | nil =>
          obtain ⟨-, rfl⟩ := List.cons.inj e
          exact hy
      | cons q P =>
          obtain ⟨-, rfl⟩ := List.cons.inj e
          simp [hy]
    rw [hop_congr hR]
    exact C.link_eq e hi
  · intro x
    constructor
    · intro hx
      have hout := C.free_fresh x hx
      rw [List.mem_cons, not_or] at hout
      exact ⟨C.free_bound x hx, hout⟩
    · rintro ⟨hx, hne, hout⟩
      apply I.free x hx
      rw [List.mem_cons, not_or]
      exact ⟨hne, hout⟩
  · intro x hx
    rw [C.levelCount_eq hx]
    exact ⟨C.height_pos x hx, C.height_le x hx⟩
  · rcases I.tallest with hone | ⟨x, hx, htall⟩
    · exact .inl hone
    · exact .inr ⟨x, hx, (C.levelCount_eq hx).trans htall⟩

omit [TotalScore S] in
theorem getElementByRank_eq (C : s.Chain chain) (hE : s.Lists chain E)
    (hsize : s.nodes.length < 2 ^ 64) (r : UInt64) :
    s.getElementByRank r = some E[r.toNat]? ∧ (E[r.toNat]? = none ↔ s.length ≤ r) := by
  have hlen : E.length < 2 ^ 64 := by
    rw [← hE.length]
    exact lt_trans C.length_lt hsize
  have hle : s.length ≤ r ↔ E.length ≤ r.toNat := by
    rw [C.length, hE.length, UInt64.le_iff_toNat_le, toNat_ofNat_lt hlen]
  rw [List.getElem?_eq_none_iff, hle]
  refine ⟨?_, Iff.rfl⟩
  by_cases hr : r.toNat < E.length
  · have h := getElementByRank_spec C hE r.toNat hr hlen
    rwa [UInt64.ofNat_toNat] at h
  · rw [SkipList.getElementByRank, if_pos (hle.mpr (Nat.not_lt.mp hr)),
      List.getElem?_eq_none (Nat.not_lt.mp hr)]

theorem delete_whole (h : s.Stores D chain E) (I : s.Intact chain) (score : S) (member : Bytes) :
    ∃ t chain', s.delete score member = some (decide ((score, member) ∈ E), t) ∧
      t.Stores (D.erase (score, member)) chain' (E.erase (score, member)) ∧ t.Intact chain' := by
  obtain ⟨t, chain', hdel, ht⟩ :=
    delete_stores compares_total h (fun _ _ => trivial) score trivial member
  obtain ⟨b, t', chain'', hdel', I'⟩ := delete_intact I score member
  rw [hdel] at hdel'
  cases hdel'
  obtain rfl := ht.chained.unique I'.chained
  exact ⟨t, chain'', hdel, ht, I'⟩

theorem SkipList.Intact.answers (I : s.Intact chain) (h : s.Stores D chain E) : s.Answers E where
  delete score member := by
    obtain ⟨t, chain', hdel, ht, I'⟩ := delete_whole h I score member
    exact ⟨t, chain', hdel, I'.sound ht⟩
  element hsize r := getElementByRank_eq h.chained h.lists hsize r
  rank i score member hi := by
    obtain ⟨hlt, he⟩ := List.getElem?_eq_some_iff.mp hi
    have hsplit : E = E.take i ++ (score, member) :: E.drop (i + 1) := by
      rw [← he, List.cons_getElem_drop_succ, List.take_append_drop]
    have hE := h.lists
    have sorted := h.sorted
    rw [hsplit] at hE sorted
    rw [getRank_spec compares_total h.chained hE (fun _ _ => trivial) sorted, List.length_take,
      Nat.min_eq_left (Nat.le_of_lt hlt)]

theorem step_whole (h : s.Stores D chain E) (I : s.Intact chain) (op : SkipOp S)
    (fresh : op.Fresh D) :
    ∃ t chain' E', s.step op = some t ∧ t.Stores (op.stored D) chain' E' ∧ t.Intact chain' := by
  cases op with
  | insert score member coins =>
      obtain ⟨z, t, chain', E', hins, ht⟩ := insert_stores compares_total h (fun _ _ => trivial)
        trivial member fresh coins
      obtain ⟨z', t', chain'', hins', I'⟩ := insert_intact I score member coins
      rw [hins] at hins'
      cases hins'
      obtain rfl := ht.chained.unique I'.chained
      exact ⟨t, chain'', E', by simp only [SkipList.step, hins, Option.map_some], ht, I'⟩
  | delete score member =>
      obtain ⟨t, chain', hdel, ht, I'⟩ := delete_whole h I score member
      exact ⟨t, chain', _, by simp only [SkipList.step, hdel, Option.map_some], ht, I'⟩

theorem run_whole (ops : List (SkipOp S)) (h : s.Stores D chain E) (I : s.Intact chain)
    (fresh : SkipOp.Along SkipOp.Fresh D ops) :
    ∃ t chain' E', s.run ops = some t ∧ t.Stores (ops.foldl SkipOp.stored D) chain' E' ∧
      t.Intact chain' := by
  induction ops generalizing s D chain E with
  | nil => exact ⟨s, chain, E, rfl, h, I⟩
  | cons op ops ih =>
      obtain ⟨t, chain', E', hstep, ht, I'⟩ := step_whole h I op fresh.1
      obtain ⟨u, chain'', E'', hrun, hu, I''⟩ := ih ht I' fresh.2
      refine ⟨u, chain'', E'', ?_, hu, I''⟩
      rw [SkipList.run, List.foldlM_cons, hstep]
      exact hrun

/-- Every run of insertions and deletions leaves a sound list of the entries
inserted and not deleted, and its operations answer from them. -/
theorem run_sound (ops : List (SkipOp S)) (fresh : SkipOp.Along SkipOp.Fresh ∅ ops) :
    ∃ s chain E, (SkipList.new : SkipList S).run ops = some s ∧ s.Sound chain E ∧
      (∀ e, e ∈ E ↔ e ∈ ops.foldl SkipOp.stored ∅) ∧ s.Answers E := by
  have hnew : (SkipList.new : SkipList S).Stores ∅ [] [] :=
    ⟨new_chain, rfl, List.Pairwise.nil, by simp⟩
  obtain ⟨s, chain, E, hrun, h, I⟩ := run_whole ops hnew new_intact fresh
  exact ⟨s, chain, E, hrun, I.sound h, h.mem_iff, I.answers h⟩

end Sound

section Sample

attribute [local instance] wholeTotal

/-- A pair that was removed comes back, in the slot it left, beside another
member with its score. -/
def returned : List (SkipOp Nat) :=
  [.insert 7 (ascii ['a']) [true], .insert 7 (ascii ['b']) [], .delete 7 (ascii ['a']),
    .insert 7 (ascii ['a']) []]

theorem returned_sound :
    ∃ s chain E, (SkipList.new : SkipList Nat).run returned = some s ∧ s.Sound chain E ∧
      (∀ e, e ∈ E ↔ e ∈ returned.foldl SkipOp.stored ∅) ∧ s.Answers E :=
  run_sound returned ⟨by decide, by decide, trivial, by decide, trivial⟩

end Sample

end RustKv.Zset
