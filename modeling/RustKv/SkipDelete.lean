import RustKv.SkipInsert

namespace RustKv.Zset

open Text Domain Towers

variable {S : Type} {s t : SkipList S} {chain A B : List Nat} {stops : List (Nat × UInt64)} {z : Nat}

theorem ofNat_join {d n : Nat} :
    UInt64.ofNat (1 + n) + (UInt64.ofNat d - 1) = UInt64.ofNat (d + n) := by
  have h1 : UInt64.ofNat (1 + n) = UInt64.ofNat n + 1 := by rw [ofNat_succ, Nat.add_comm]
  rw [h1, UInt64.ofNat_add]
  generalize UInt64.ofNat n = a
  generalize UInt64.ofNat d = b
  rw [UInt64.add_assoc, UInt64.add_comm 1, UInt64.sub_add_cancel, UInt64.add_comm]

theorem ofNat_pred (n : Nat) : UInt64.ofNat (n + 1) - 1 = UInt64.ofNat n := by
  rw [← ofNat_succ, UInt64.add_sub_cancel]

/-- The loop over all levels takes `z` out from between `A` and `B`. -/
theorem unlink_loop (hl : Linked s.Holds s.height A (z :: B)) (hz : z ∉ A) (hzB : z ∉ B)
    (hlz : ∀ j < s.height z, s.Holds z j (hop s.height j B)) (hstops : s.Stops A stops) :
    ∃ t, forLevels 0 s.maxLevel (fun t i => t.unlink stops z i) s = some t ∧
      s.SameShape t ∧
      (∀ y j, s.maxLevel ≤ j ∨ (∀ u r, LastTall s.height j A u r → y ≠ u) →
        t.link y j = s.link y j) ∧
      ∀ u r j, j < s.maxLevel → LastTall s.height j A u r →
        t.Holds u j ((hop s.height j B).1, (hop s.height j B).2 + (A.length - 1 - r)) := by
  refine forLevels_inv (fun k t => s.SameShape t ∧
    (∀ y j, k ≤ j ∨ (∀ u r, LastTall s.height j A u r → y ≠ u) → t.link y j = s.link y j) ∧
    ∀ u r j, j < k → LastTall s.height j A u r →
      t.Holds u j ((hop s.height j B).1, (hop s.height j B).2 + (A.length - 1 - r)))
    0 s.maxLevel (Nat.zero_le _) ⟨.refl s, fun _ _ _ => rfl, by simp⟩ ?_
  rintro k t - hk ⟨sh, same, lasts⟩
  obtain ⟨u, r, hu, lt⟩ := hstops k hk
  have hlu : t.link u k = s.link u k := same u k (.inl (Nat.le_refl k))
  have hhu := lt.link hl
  have hstep : ∃ t', t.unlink stops z k = some t' ∧ t.SameShape t' ∧ ∀ y j, t'.link y j =
      if y = u ∧ j = k then some ⟨(hop s.height k B).1,
        UInt64.ofNat ((hop s.height k B).2 + (A.length - 1 - r))⟩ else t.link y j := by
    by_cases htall : k < s.height z
    · rw [hop_tall htall] at hhu
      have hlz' : t.link z k = s.link z k := by
        refine same z k (.inr ?_)
        rintro u' r' lt' rfl
        exact hz lt'.mem
      obtain ⟨t', ht', sh', link'⟩ := modifyLink_spec
        (fun l => ⟨(hop s.height k B).1, l.span + (UInt64.ofNat (hop s.height k B).2 - 1)⟩)
        (hlu.trans hhu)
      refine ⟨t', ?_, sh', ?_⟩
      · simp only [SkipList.unlink, hu, hlu.trans hhu, hlz'.trans (hlz k htall), ht',
          Option.bind_eq_bind, Option.bind_some, if_true]
      · intro y j
        rw [link', ofNat_join]
    · rw [hop, if_neg htall] at hhu
      have hne : (hop s.height k B).1 ≠ some z := by
        intro hc
        obtain ⟨M, Q, hB, -⟩ := hop_some hc
        exact hzB (by simp [hB])
      obtain ⟨t', ht', sh', link'⟩ :=
        modifyLink_spec (fun l => { l with span := l.span - 1 }) (hlu.trans hhu)
      refine ⟨t', ?_, sh', ?_⟩
      · simp only [SkipList.unlink, hu, hlu.trans hhu, ht', Option.bind_eq_bind, Option.bind_some,
          if_neg hne]
      · intro y j
        rw [link', Nat.add_right_comm, ofNat_pred]
  obtain ⟨t', ht', sh', link'⟩ := hstep
  refine ⟨t', ht', sh.trans sh', ?_, ?_⟩
  · intro y j hj
    rw [link', if_neg, same y j]
    · rcases hj with hj | hj
      · exact .inl (by omega)
      · exact .inr hj
    · rintro ⟨rfl, rfl⟩
      rcases hj with hj | hj
      · omega
      · exact hj y r lt rfl
  · intro u' r' j hj lt'
    by_cases hjk : j = k
    · subst hjk
      obtain ⟨P, Q, e, hu', hQ, rfl⟩ := lt'
      obtain ⟨rfl, rfl⟩ := lt.unique e hu' hQ
      unfold SkipList.Holds
      rw [link', if_pos ⟨rfl, rfl⟩]
    · refine SkipList.Holds.of_link ?_ (lasts u' r' j (by omega) lt')
      rw [link', if_neg (fun h => hjk h.2)]

theorem unlinkBackward_spec {l : SkipListLevel} (hz : z < s.nodes.length)
    (hl : s.link z 0 = some l) (hf : ∀ y, l.forward = some y → y < s.nodes.length) :
    ∃ t, s.unlinkBackward z = some t ∧ s.SameShape t ∧ ∀ y j, t.link y j = s.link y j := by
  simp only [SkipList.unlinkBackward, List.getElem?_eq_getElem hz, hl, Option.bind_eq_bind,
    Option.bind_some]
  cases hn : l.forward with
  | none =>
      refine ⟨{ s with tail := s.nodes[z].backward }, rfl, ?_, fun _ _ => rfl⟩
      exact ⟨rfl, fun _ => rfl, fun _ => rfl, rfl, rfl, rfl, rfl⟩
  | some y => exact setBackward_spec s.nodes[z].backward (hf y hn)

theorem trimmed_spec (n : Nat) (hpos : 0 < n) (hlink : ∀ j < n, ∃ l, s.link s.head j = some l) :
    ∃ m, s.trimmed n = some m ∧ 0 < m ∧ m ≤ n ∧
      ∀ j, m ≤ j → j < n → ∃ d, s.link s.head j = some ⟨none, d⟩ := by
  induction n with
  | zero => omega
  | succ n ih =>
      cases n with
      | zero => exact ⟨1, rfl, by omega, by omega, fun j h1 h2 => by omega⟩
      | succ n =>
          obtain ⟨⟨f, d⟩, hl⟩ := hlink (n + 1) (by omega)
          simp only [SkipList.trimmed, hl, Option.bind_eq_bind, Option.bind_some]
          by_cases hf : f = none
          · subst hf
            obtain ⟨m, hm, hm0, hmn, hnone⟩ := ih (by omega) (fun j hj => hlink j (by omega))
            refine ⟨m, by simpa using hm, hm0, by omega, ?_⟩
            intro j h1 h2
            by_cases hj : j = n + 1
            · exact ⟨d, by rw [hj, hl]⟩
            · exact hnone j h1 (by omega)
          · refine ⟨n + 2, by simp [hf], by omega, by omega, fun j h1 h2 => by omega⟩

theorem chain_trim {m : Nat} (C : s.Chain chain) (hpos : 0 < m) (hle : m ≤ s.maxLevel)
    (hnone : ∀ j, m ≤ j → j < s.maxLevel → ∃ d, s.link s.head j = some ⟨none, d⟩) :
    SkipList.Chain { s with maxLevel := m } chain := by
  have hne : ∀ x ∈ chain, x ≠ s.head := by
    rintro x hx rfl
    exact (List.nodup_cons.mp C.nodup).1 hx
  have hheight : ∀ x ∈ chain, SkipList.height { s with maxLevel := m } x = s.height x := by
    intro x hx
    simp only [SkipList.height, if_neg (hne x hx)]
    rfl
  obtain ⟨hhead, hlinked⟩ := linked_cons.mp C.linked
  rw [List.append_nil] at hhead
  have hle' : ∀ x ∈ chain, s.height x ≤ m := by
    by_cases hm : m = s.maxLevel
    · rw [hm]
      exact C.height_le
    · obtain ⟨d, hd⟩ := hnone m (Nat.le_refl m) (by omega)
      have hh := hhead m (by rw [s.height_head]; omega)
      rw [SkipList.Holds, hd] at hh
      exact (hop_none (congrArg SkipListLevel.forward (Option.some.inj hh)).symm).1
  refine ⟨linked_cons.mpr ⟨?_, ?_⟩, C.nodup, C.bound, C.length, ?_, ?_, hpos,
    Nat.le_trans hle C.maxLevel_le, ?_, C.free_nodup, C.free_bound, C.free_fresh⟩
  · intro i hi
    rw [List.append_nil, hop_congr hheight]
    rw [SkipList.height_head] at hi
    exact hhead i (by rw [s.height_head]; exact Nat.lt_of_lt_of_le hi hle)
  · exact hlinked.mono (by simpa using hheight) (fun _ _ _ _ _ h => h)
  · intro x hx
    rw [hheight x hx]
    exact C.height_pos x hx
  · intro x hx
    rw [hheight x hx]
    exact hle' x hx
  · intro j h1 h2
    by_cases hj : j < s.maxLevel
    · exact hnone j h1 hj
    · exact C.unused j (Nat.not_lt.mp hj) h2

theorem chain_delete (C : s.Chain (A ++ z :: B)) (sh : s.SameShape t)
    (others : ∀ y j, s.maxLevel ≤ j ∨ (∀ u r, LastTall s.height j (s.head :: A) u r → y ≠ u) →
      t.link y j = s.link y j)
    (lasts : ∀ u r j, j < s.maxLevel → LastTall s.height j (s.head :: A) u r →
      t.Holds u j ((hop s.height j B).1, (hop s.height j B).2 + ((s.head :: A).length - 1 - r))) :
    SkipList.Chain { t with length := t.length - 1 } (A ++ B) := by
  have nodup : ((s.head :: A) ++ z :: B).Nodup := C.nodup
  have hdisj := (List.nodup_append.mp nodup).2.2
  have hl : Linked s.Holds s.height ((s.head :: A) ++ z :: B) [] := C.linked
  obtain ⟨hlA, hlzB⟩ := linked_append.mp hl
  obtain ⟨-, hlB⟩ := linked_cons.mp hlzB
  have hsub : (A ++ B).Sublist (A ++ z :: B) := List.Sublist.append_left (List.sublist_cons_self z B) A
  have hlinked : Linked t.Holds s.height (s.head :: (A ++ B)) [] := by
    refine linked_append (A := s.head :: A).mpr ⟨?_, ?_⟩
    · rw [List.append_nil]
      refine hlA.splice (List.nodup_append.mp nodup).1 (fun _ _ => rfl) ?_ ?_
      · intro j u r lt
        refine lasts u r j (Nat.lt_of_lt_of_le lt.tall ?_) lt
        exact C.height_le_of_mem (List.mem_append_left (z :: B) lt.mem)
      · intro j x _ _ hne l
        exact SkipList.Holds.of_link (others x j (.inr hne))
    · refine hlB.mono (fun _ _ => rfl) ?_
      intro j x hx _ l
      refine SkipList.Holds.of_link (others x j (.inr ?_))
      rintro u r lt rfl
      exact hdisj x lt.mem x (List.mem_cons_of_mem z hx) rfl
  refine C.relink sh hlinked (C.nodup.sublist (hsub.cons_cons s.head))
    (fun x hx => C.usable (hsub.subset hx)) ?_ (fun j hj => others s.head j (.inl hj))
  rw [sh.length, C.length]
  simp only [List.length_append, List.length_cons, ← Nat.add_assoc, ofNat_pred]

/-- The links and backward pointers once `z` is taken out. Its own links stay. -/
theorem unlink_spec (C : s.Chain (A ++ z :: B)) (hstops : s.Stops (s.head :: A) stops) :
    ∃ t₁ t₂, forLevels 0 s.maxLevel (fun t i => t.unlink stops z i) s = some t₁ ∧
      t₁.unlinkBackward z = some t₂ ∧ s.SameShape t₂ ∧ t₁.link z 0 = s.link z 0 ∧
      SkipList.Chain { t₂ with length := t₂.length - 1 } (A ++ B) := by
  have nodup : ((s.head :: A) ++ z :: B).Nodup := C.nodup
  obtain ⟨-, hzB, hdisj⟩ := List.nodup_append.mp nodup
  have hzA : z ∉ s.head :: A := fun h => hdisj z h z (by simp) rfl
  have hzmem : z ∈ s.head :: (A ++ z :: B) := by simp
  have hl : Linked s.Holds s.height ((s.head :: A) ++ z :: B) [] := C.linked
  obtain ⟨hlA, hlzB⟩ := linked_append.mp hl
  rw [List.append_nil] at hlA
  have hlz := (linked_cons.mp hlzB).1
  rw [List.append_nil] at hlz
  obtain ⟨t₁, ht₁, sh₁, others, lasts⟩ :=
    unlink_loop hlA hzA (List.nodup_cons.mp hzB).1 hlz hstops
  have hlz₁ : t₁.link z 0 = s.link z 0 := by
    refine others z 0 (.inr ?_)
    rintro u r lt rfl
    exact hzA lt.mem
  obtain ⟨t₂, ht₂, sh₂, hlink₂⟩ := unlinkBackward_spec
    (by rw [sh₁.nodes]; exact C.bound z hzmem)
    (hlz₁.trans (hlz 0 (C.height_pos_of_mem hzmem))) (by
      intro y hy
      obtain ⟨M, Q, rfl, -⟩ := hop_some hy
      rw [sh₁.nodes]
      exact C.bound y (by simp))
  refine ⟨t₁, t₂, ht₁, ht₂, sh₁.trans sh₂, hlz₁, chain_delete C (sh₁.trans sh₂) ?_ ?_⟩
  · intro y j h
    exact (hlink₂ y j).trans (others y j h)
  · intro u r j hj lt
    exact SkipList.Holds.of_link (hlink₂ u j) (lasts u r j hj lt)

theorem deleteNode_spec [Score S] (C : s.Chain (A ++ z :: B)) (hstops : s.Stops (s.head :: A) stops) :
    ∃ t, s.deleteNode z stops = some t ∧ t.Chain (A ++ B) ∧
      ∀ x ∈ A ++ B, t.entry x = s.entry x := by
  have hzmem : z ∈ s.head :: (A ++ z :: B) := by simp
  have hzne (x : Nat) (hx : x ∈ s.head :: (A ++ B)) : x ≠ z := by
    have hperm : ((s.head :: A) ++ z :: B).Perm (z :: ((s.head :: A) ++ B)) := List.perm_middle
    rintro rfl
    exact (List.nodup_cons.mp (hperm.nodup_iff.mp C.nodup)).1 hx
  obtain ⟨t₁, t₂, ht₁, ht₂, sh, -, C₂⟩ := unlink_spec C hstops
  obtain ⟨m, hm, hm0, hmle, hnone⟩ := trimmed_spec (s := t₂) t₂.maxLevel C₂.maxLevel_pos (by
    intro j hj
    refine ⟨_, (linked_cons.mp C₂.linked).1 j ?_⟩
    rwa [SkipList.height_head])
  have C₃ := chain_trim C₂ hm0 hmle hnone
  have hz₂ : z < t₂.nodes.length := by
    rw [sh.nodes]
    exact C.bound z hzmem
  refine ⟨{ t₂ with
    maxLevel := m
    length := t₂.length - 1
    nodes := t₂.nodes.set z { t₂.nodes[z] with score := Score.zero, member := [] }
    freeList := z :: t₂.freeList }, ?_, ?_, ?_⟩
  · simp only [SkipList.deleteNode, ht₁, ht₂, hm, List.getElem?_eq_getElem hz₂, Option.bind_eq_bind,
      Option.bind_some]
  · refine C₃.of_agree rfl rfl rfl ?_ ?_ ?_ ?_
    · intro x hx
      change x ∈ t₂.head :: _ at hx
      rw [sh.head] at hx
      exact List.getElem?_set_ne (Ne.symm (hzne x hx))
    · refine List.nodup_cons.mpr ⟨?_, C₃.free_nodup⟩
      rw [sh.freeList]
      exact fun h => C.free_fresh z h hzmem
    · intro x hx
      rw [List.length_set]
      rcases List.mem_cons.mp hx with rfl | hx
      · exact hz₂
      · exact C₃.free_bound x hx
    · intro x hx
      rcases List.mem_cons.mp hx with rfl | hx
      · intro h
        change x ∈ t₂.head :: _ at h
        rw [sh.head] at h
        exact hzne x h rfl
      · exact C₃.free_fresh x hx
  · intro x hx
    rw [← sh.entry x]
    simp only [SkipList.entry]
    rw [List.getElem?_set_ne (Ne.symm (hzne x (List.mem_cons_of_mem _ hx)))]

/-- A deletion takes the node after the search's end out of the chain when it
has the score and the member, and otherwise changes nothing. -/
theorem delete_spec [Score S] (C : s.Chain chain) (score : S) (member : Bytes) :
    ∃ p Q R A, s.Reached chain (fun n _ => before score member n) 0 p Q R ∧
      Q ++ [p.current] = s.head :: A ∧ chain = A ++ R ∧
      ((∃ z B t sc, R = z :: B ∧ s.entry z = some (sc, member) ∧ Score.equal sc score = true ∧
        s.deleteNode z p.stops = some t ∧ s.delete score member = some (true, t) ∧
        t.Chain (A ++ B) ∧ ∀ x ∈ A ++ B, t.entry x = s.entry x) ∨
      ((∀ z B sc, R = z :: B → s.entry z = some (sc, member) → Score.equal sc score = false) ∧
        s.delete score member = some (false, s))) := by
  obtain ⟨p, Q, R, hp, reached⟩ :=
    search_spec C (fun n _ => before score member n) s.maxLevel _ (reached_start chain _)
  obtain ⟨A, hA, rfl⟩ := reached.split_head
  have hcur : p.current ∈ s.head :: (A ++ R) := by
    rw [reached.split]
    simp
  have hl := C.link_eq reached.split (C.height_pos_of_mem hcur)
  refine ⟨p, Q, R, A, reached, hA, rfl, ?_⟩
  simp only [SkipList.delete, hp, hl, Option.bind_eq_bind, Option.bind_some]
  cases R with
  | nil => exact .inr ⟨by simp, rfl⟩
  | cons z B =>
      rw [hop_tall (C.height_pos z (by simp))]
      have hz : z < s.nodes.length := C.bound z (by simp)
      have hentry : s.entry z = some (s.nodes[z].score, s.nodes[z].member) := by
        simp [SkipList.entry, hz]
      simp only [List.getElem?_eq_getElem hz, Option.bind_some]
      have hstops := reached.stops
      rw [hA] at hstops
      by_cases hm : Score.equal s.nodes[z].score score = true ∧ s.nodes[z].member = member
      · obtain ⟨t, ht, Ct, hent⟩ := deleteNode_spec C hstops
        refine .inl ⟨z, B, t, s.nodes[z].score, rfl, by rw [hentry, hm.2], hm.1, ht, ?_, Ct, hent⟩
        simp [hm.1, hm.2, ht]
      · refine .inr ⟨?_, ?_⟩
        · rintro z' B' sc e he
          cases e
          rw [hentry] at he
          cases he
          simpa using hm
        · rw [if_neg]
          simpa using hm

end RustKv.Zset
