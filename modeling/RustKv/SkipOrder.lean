import Mathlib.Data.Prod.Lex
import RustKv.SkipDelete

namespace RustKv.Zset

open Text Domain Towers

/-- Scores without NaN: the comparisons are those of a linear order. -/
class TotalScore (S : Type) extends LinearOrder S, Score S where
  less_iff : ∀ a b : S, Score.less a b = true ↔ a < b
  equal_iff : ∀ a b : S, Score.equal a b = true ↔ a = b

/-- Whole numbers as scores. -/
@[reducible] def wholeTotal : TotalScore Nat where
  less a b := decide (a < b)
  equal a b := decide (a = b)
  zero := 0
  less_iff := by simp
  equal_iff := by simp

/-- Among the scores of `P` the comparisons are those of the order. -/
structure Compares {S : Type} [LinearOrder S] [Score S] (P : S → Prop) : Prop where
  less_iff : ∀ a b, P a → P b → (Score.less a b = true ↔ a < b)
  equal_iff : ∀ a b, P a → P b → (Score.equal a b = true ↔ a = b)

theorem compares_total {S : Type} [TotalScore S] : Compares (fun _ : S => True) where
  less_iff a b _ _ := TotalScore.less_iff a b
  equal_iff a b _ _ := TotalScore.equal_iff a b

variable {S : Type} {s : SkipList S} {chain A R Q : List Nat} {E : List (S × Bytes)}

/-- The node ids of `chain` hold the entries `E`, one for one. -/
def SkipList.Lists (s : SkipList S) (chain : List Nat) (E : List (S × Bytes)) : Prop :=
  chain.map s.entry = E.map some

theorem SkipList.Lists.length (h : s.Lists chain E) : chain.length = E.length := by
  have := congrArg List.length h
  simpa using this

theorem SkipList.Lists.append {B : List Nat} {F : List (S × Bytes)} (h : s.Lists A E)
    (h' : s.Lists B F) : s.Lists (A ++ B) (E ++ F) := by
  unfold SkipList.Lists at h h' ⊢
  rw [List.map_append, List.map_append, h, h']

theorem SkipList.Lists.split (h : s.Lists (A ++ R) E) :
    ∃ F G, E = F ++ G ∧ s.Lists A F ∧ s.Lists R G := by
  unfold SkipList.Lists at h
  rw [List.map_append] at h
  obtain ⟨F, G, rfl, hF, hG⟩ := List.append_eq_map_iff.mp h
  exact ⟨F, G, rfl, hF.symm, hG.symm⟩

theorem SkipList.Lists.cons {x : Nat} {e : S × Bytes} (hx : s.entry x = some e)
    (h : s.Lists chain E) : s.Lists (x :: chain) (e :: E) := by
  unfold SkipList.Lists at h ⊢
  rw [List.map_cons, List.map_cons, hx, h]

theorem SkipList.Lists.uncons {x : Nat} (h : s.Lists (x :: chain) E) :
    ∃ e F, E = e :: F ∧ s.entry x = some e ∧ s.Lists chain F := by
  unfold SkipList.Lists at h
  cases E with
  | nil => simp at h
  | cons e F =>
      obtain ⟨hx, hF⟩ := List.cons.inj h
      exact ⟨e, F, rfl, hx, hF⟩

theorem SkipList.Lists.of_entry {t : SkipList S} (h : s.Lists chain E)
    (he : ∀ x ∈ chain, t.entry x = s.entry x) : t.Lists chain E := by
  unfold SkipList.Lists at h ⊢
  rw [← h]
  exact List.map_congr_left he

theorem SkipList.Lists.mem {x : Nat} {e : S × Bytes} (h : s.Lists chain E) (hx : x ∈ chain)
    (he : s.entry x = some e) : e ∈ E := by
  have hmem : s.entry x ∈ E.map some := by
    rw [← h]
    exact List.mem_map_of_mem hx
  rw [he] at hmem
  simpa using hmem

theorem entry_eq_node {x : Nat} {n : Node S} (h : s.nodes[x]? = some n) :
    s.entry x = some (n.score, n.member) := by
  simp [SkipList.entry, h]

/-- A search by a test on the entries that holds of an initial part of the list:
it ends between the entries that pass and those that do not. -/
theorem reached_split [LinearOrder S] (test : S × Bytes → Bool) {p : Path} (C : s.Chain chain)
    (hE : s.Lists chain E) (sorted : E.Pairwise (fun a b => toLex a < toLex b))
    (down : ∀ a b, toLex a < toLex b → test b = true → test a = true)
    {pass : Node S → UInt64 → Bool}
    (hpass : ∀ n, (n.score, n.member) ∈ E → ∀ r, pass n r = test (n.score, n.member))
    (h : s.Reached chain pass 0 p Q R)
    (hA : Q ++ [p.current] = s.head :: A) (hchain : chain = A ++ R) :
    ∃ F G, E = F ++ G ∧ s.Lists A F ∧ s.Lists R G ∧
      (∀ e ∈ F, test e = true) ∧ ∀ e ∈ G, test e = false := by
  subst hchain
  have htest {x : Nat} {n : Node S} (hx : x ∈ A ++ R) (hn : s.nodes[x]? = some n) (r : UInt64) :
      pass n r = test (n.score, n.member) := hpass n (hE.mem hx (entry_eq_node hn)) r
  obtain ⟨F, G, rfl, hF, hG⟩ := hE.split
  obtain ⟨sF, sG, -⟩ := List.pairwise_append.mp sorted
  refine ⟨F, G, rfl, hF, hG, ?_, ?_⟩
  · rcases List.eq_nil_or_concat A with rfl | ⟨A', x, rfl⟩
    · cases F with
      | nil => simp
      | cons e F => simp [SkipList.Lists] at hF
    · have hcur : p.current = x := by
        rw [List.concat_eq_append, ← List.cons_append] at hA
        exact (List.append_inj' hA rfl).2 |> List.cons.inj |>.1
      rw [List.concat_eq_append] at hF
      obtain ⟨F', L, rfl, -, hL⟩ := hF.split
      obtain ⟨e, L', rfl, hx, hL'⟩ := hL.uncons
      have hnil : L' = [] := by simpa [SkipList.Lists] using hL'.symm
      subst hnil
      have he : test e = true := by
        rcases h.origin with ho | ⟨n, P, R', hn, -, ht⟩
        · rw [hcur] at ho
          have := C.nodup
          simp [ho] at this
        · rw [hcur] at hn
          rw [htest (by simp) hn, Option.some_inj.mp ((entry_eq_node hn).symm.trans hx)] at ht
          exact ht
      intro a ha
      rcases List.mem_append.mp ha with ha | ha
      · exact down a e ((List.pairwise_append.mp sF).2.2 a ha e (by simp)) he
      · rw [List.mem_singleton.mp ha]
        exact he
  · cases R with
    | nil =>
        have : G = [] := by simpa [SkipList.Lists] using hG.symm
        simp [this]
    | cons y R =>
        obtain ⟨e, G, rfl, hy, -⟩ := hG.uncons
        obtain ⟨u, r, -, st⟩ := h.settled 0 (by
          rw [h.stops_length]
          exact C.maxLevel_pos)
        have he : ¬ test e = true := by
          intro ht
          refine st.2 y (by rw [hop_tall (C.height_pos y (by simp))]) ?_
          obtain ⟨n, hn⟩ := C.node_eq (x := y) (by simp)
          refine ⟨n, s.head :: A, R, hn, by simp, ?_⟩
          rw [htest (by simp) hn, Option.some_inj.mp ((entry_eq_node hn).symm.trans hy)]
          exact ht
        intro a ha
        rw [← Bool.not_eq_true]
        rcases List.mem_cons.mp ha with rfl | ha
        · exact he
        · exact fun ht => he (down e a ((List.pairwise_cons.mp sG).1 a ha) ht)

section Ordered

variable [LinearOrder S] [Score S] {P : S → Prop}

theorem Compares.before_iff (cmp : Compares P) {score : S} (hs : P score) (member : Bytes) {n : Node S}
    (hn : P n.score) :
    before score member n = decide (toLex (n.score, n.member) < toLex (score, member)) := by
  rw [Bool.eq_iff_iff]
  simp [before, cmp.less_iff _ _ hn hs, cmp.equal_iff _ _ hn hs, Prod.Lex.toLex_lt_toLex]

theorem Compares.upTo_iff (cmp : Compares P) {score : S} (hs : P score) (member : Bytes) {n : Node S}
    (hn : P n.score) :
    upTo score member n = decide (toLex (n.score, n.member) ≤ toLex (score, member)) := by
  rw [Bool.eq_iff_iff]
  simp [upTo, cmp.less_iff _ _ hn hs, cmp.equal_iff _ _ hn hs, Prod.Lex.toLex_le_toLex]

/-- An insertion puts its entry where the order wants it. -/
theorem insert_sorted (cmp : Compares P) (C : s.Chain chain) (hE : s.Lists chain E)
    (hP : ∀ e ∈ E, P e.1) (sorted : E.Pairwise (fun a b => toLex a < toLex b)) {score : S}
    (hs : P score) (member : Bytes) (hnew : (score, member) ∉ E) (coins : List Bool) :
    ∃ z t chain' F G, s.insert score member coins = some (z, t) ∧ t.Chain chain' ∧
      E = F ++ G ∧ t.Lists chain' (F ++ (score, member) :: G) ∧
      (F ++ (score, member) :: G).Pairwise (fun a b => toLex a < toLex b) := by
  obtain ⟨z, t, p, Q, R, A, hins, reached, hA, rfl, hz, Ct, hentry, hother⟩ :=
    insert_spec C score member coins
  obtain ⟨F, G, rfl, hF, hG, hlt, hge⟩ := reached_split
    (fun e => decide (toLex e < toLex (score, member))) C hE sorted
    (fun a b hab hb => by simpa using lt_trans hab (by simpa using hb))
    (fun n hn _ => cmp.before_iff hs member (hP _ hn)) reached hA rfl
  have hlt' : ∀ e ∈ F, toLex e < toLex (score, member) := fun e he => by simpa using hlt e he
  have hgt : ∀ e ∈ G, toLex (score, member) < toLex e := by
    intro e he
    have hle : toLex (score, member) ≤ toLex e := by simpa using hge e he
    refine lt_of_le_of_ne hle ?_
    intro heq
    refine hnew (List.mem_append_right F ?_)
    rw [toLex_inj.mp heq]
    exact he
  obtain ⟨sF, sG, sFG⟩ := List.pairwise_append.mp sorted
  refine ⟨z, t, A ++ z :: R, F, G, hins, Ct, rfl, ?_, ?_⟩
  · refine (hF.of_entry ?_).append (SkipList.Lists.cons hentry (hG.of_entry ?_))
    · exact fun x hx => hother x (List.mem_append_left R hx)
    · exact fun x hx => hother x (List.mem_append_right A hx)
  · refine List.pairwise_append.mpr ⟨sF, List.pairwise_cons.mpr ⟨hgt, sG⟩, ?_⟩
    intro a ha b hb
    rcases List.mem_cons.mp hb with rfl | hb
    · exact hlt' a ha
    · exact sFG a ha b hb

/-- Deleting an entry of the list takes out just that entry. -/
theorem delete_sorted (cmp : Compares P) (C : s.Chain chain) (hE : s.Lists chain E)
    (hP : ∀ e ∈ E, P e.1) (sorted : E.Pairwise (fun a b => toLex a < toLex b)) {score : S}
    {member : Bytes} (hmem : (score, member) ∈ E) :
    ∃ t chain' F G, s.delete score member = some (true, t) ∧ t.Chain chain' ∧
      E = F ++ (score, member) :: G ∧ t.Lists chain' (F ++ G) := by
  have hs : P score := hP _ hmem
  obtain ⟨p, Q, R, A, reached, hA, rfl, hcases⟩ := delete_spec C score member
  obtain ⟨F, G, rfl, hF, hG, hlt, hge⟩ := reached_split
    (fun e => decide (toLex e < toLex (score, member))) C hE sorted
    (fun a b hab hb => by simpa using lt_trans hab (by simpa using hb))
    (fun n hn _ => cmp.before_iff hs member (hP _ hn)) reached hA rfl
  have hG' : ∃ G', G = (score, member) :: G' := by
    have hmemG : (score, member) ∈ G := by
      rcases List.mem_append.mp hmem with h | h
      · simpa using hlt _ h
      · exact h
    obtain ⟨-, sG, -⟩ := List.pairwise_append.mp sorted
    cases G with
    | nil => simp at hmemG
    | cons e G =>
        rcases List.mem_cons.mp hmemG with rfl | h
        · exact ⟨G, rfl⟩
        · have hlt := (List.pairwise_cons.mp sG).1 _ h
          have hle : toLex (score, member) ≤ toLex e := by simpa using hge e (by simp)
          exact absurd hlt (not_lt_of_ge hle)
  obtain ⟨G, rfl⟩ := hG'
  rcases hcases with ⟨z, B, t, sc, rfl, -, -, -, hdel, Ct, hother⟩ | ⟨hne, -⟩
  · obtain ⟨e, G', he, hz, hB⟩ := hG.uncons
    cases he
    refine ⟨t, A ++ B, F, G, hdel, Ct, rfl, ?_⟩
    exact (hF.of_entry (fun x hx => hother x (List.mem_append_left B hx))).append
      (hB.of_entry (fun x hx => hother x (List.mem_append_right A hx)))
  · cases R with
    | nil => simp [SkipList.Lists] at hG
    | cons z B =>
        obtain ⟨e, G', he, hz, -⟩ := hG.uncons
        cases he
        have hf := hne z B score rfl hz
        rw [(cmp.equal_iff score score hs hs).mpr rfl] at hf
        cases hf

omit [LinearOrder S] [Score S] in
theorem split_unique {α : Type} {test : α → Bool} {F F' G G' : List α} (e : F ++ G = F' ++ G')
    (hF : ∀ a ∈ F, test a = true) (hF' : ∀ a ∈ F', test a = true)
    (hG : ∀ a ∈ G, test a = false) (hG' : ∀ a ∈ G', test a = false) : F = F' := by
  rcases List.append_eq_append_iff.mp e with ⟨M, rfl, rfl⟩ | ⟨M, rfl, rfl⟩
  · cases M with
    | nil => simp
    | cons m M =>
        have h1 := hG m (by simp)
        have h2 := hF' m (by simp)
        rw [h1] at h2
        cases h2
  · cases M with
    | nil => simp
    | cons m M =>
        have h1 := hG' m (by simp)
        have h2 := hF m (by simp)
        rw [h1] at h2
        cases h2

theorem getRank_spec {F G : List (S × Bytes)} {score : S} {member : Bytes} (cmp : Compares P)
    (C : s.Chain chain) (hE : s.Lists chain (F ++ (score, member) :: G))
    (hP : ∀ e ∈ F ++ (score, member) :: G, P e.1)
    (sorted : (F ++ (score, member) :: G).Pairwise (fun a b => toLex a < toLex b)) :
    s.getRank score member = some (some (UInt64.ofNat F.length)) := by
  obtain ⟨p, Q, R, hp, reached⟩ :=
    search_spec C (fun n _ => upTo score member n) s.maxLevel _ (reached_start chain _)
  obtain ⟨A, hA, rfl⟩ := reached.split_head
  have hs : P score := hP (score, member) (by simp)
  obtain ⟨F', G', e, hF', -, hle, hgt⟩ := reached_split
    (fun e => decide (toLex e ≤ toLex (score, member))) C hE sorted
    (fun a b hab hb => by simpa using le_of_lt (lt_of_lt_of_le hab (by simpa using hb)))
    (fun n hn _ => cmp.upTo_iff hs member (hP _ hn)) reached hA rfl
  obtain ⟨-, sG, sFG⟩ := List.pairwise_append.mp sorted
  have heq : F ++ [(score, member)] = F' := by
    refine split_unique (by simpa using e) ?_ hle ?_ hgt
    · intro a ha
      rcases List.mem_append.mp ha with ha | ha
      · simpa using le_of_lt (sFG a ha (score, member) (by simp))
      · simp [List.mem_singleton.mp ha]
    · intro a ha
      simpa using (List.pairwise_cons.mp sG).1 a ha
  subst heq
  obtain ⟨A', L, rfl, hA', hL⟩ : ∃ A' L, A = A' ++ L ∧ s.Lists A' F ∧ s.Lists L [(score, member)] := by
    unfold SkipList.Lists at hF'
    rw [List.map_append] at hF'
    obtain ⟨A', L, rfl, h1, h2⟩ := List.map_eq_append_iff.mp hF'
    exact ⟨A', L, rfl, h1, h2⟩
  obtain ⟨x, rfl⟩ : ∃ x, L = [x] := List.length_eq_one_iff.mp hL.length
  have hcur := List.append_inj' (hA.trans (List.cons_append (a := s.head)).symm) rfl
  obtain ⟨rfl, hcur⟩ := hcur
  obtain rfl : p.current = x := (List.cons.inj hcur).1
  have hne : p.current ≠ s.head := by
    intro hc
    have := C.nodup
    simp [hc] at this
  obtain ⟨n, hn⟩ := C.node_eq (x := p.current) (by simp)
  obtain ⟨e', L', he', hx, -⟩ := hL.uncons
  cases he'
  rw [entry_eq_node hn] at hx
  simp only [Option.some.injEq, Prod.mk.injEq] at hx
  simp only [SkipList.getRank, hp, hn, Option.bind_eq_bind, Option.bind_some]
  rw [if_pos ⟨hne, hx.2⟩, reached.rank, List.length_cons, ofNat_pred, hA'.length]

end Ordered

theorem toNat_ofNat_lt {n : Nat} (h : n < 2 ^ 64) : (UInt64.ofNat n).toNat = n :=
  UInt64.toNat_ofNat_of_lt' h

theorem elementAt_spec (C : s.Chain chain) (hE : s.Lists chain E) {n T cur : Nat}
    (split : s.head :: chain = Q ++ cur :: R) (hn : 0 < n) (tall : n ≤ s.height cur)
    (hQ : Q.length ≤ T) (hT : 0 < T) (hTE : T ≤ E.length) (hsize : E.length < 2 ^ 64) :
    s.elementAt (UInt64.ofNat T) n cur (UInt64.ofNat Q.length) = some E[T - 1]? := by
  induction n generalizing cur Q R with
  | zero => omega
  | succ n ih =>
      have hlen := congrArg List.length split
      have hchain := hE.length
      have hnodes := C.length_lt
      simp only [List.length_cons, List.length_append] at hlen
      have hf : R.length < s.nodes.length + 1 := by omega
      obtain ⟨Q', y, R', hw, e', hy, hyx, st, -⟩ :=
        walk_spec C (fun _ t => decide (t ≤ UInt64.ofNat T)) (s.nodes.length + 1) split tall hf
      have hlen' := congrArg List.length e'
      simp only [List.length_cons, List.length_append] at hlen'
      have hle (m : Nat) (hm : m ≤ E.length) :
          (UInt64.ofNat m ≤ UInt64.ofNat T) ↔ m ≤ T := by
        rw [UInt64.le_iff_toNat_le, toNat_ofNat_lt (by omega),
          toNat_ofNat_lt (by omega)]
      have hQ' : Q'.length ≤ T := by
        rcases hyx with rfl | ⟨nd, P, R'', -, hP, hpass⟩
        · obtain ⟨rfl, -⟩ := C.position_unique split e'
          exact hQ
        · obtain ⟨rfl, -⟩ := C.position_unique e' hP
          exact (hle _ (by omega)).mp (by simpa using hpass)
      have heq : UInt64.ofNat Q'.length = UInt64.ofNat T ↔ Q'.length = T := by
        rw [← UInt64.toNat_inj, toNat_ofNat_lt (by omega),
          toNat_ofNat_lt (by omega)]
      simp only [SkipList.elementAt, hw, Option.bind_eq_bind, Option.bind_some]
      by_cases ht : Q'.length = T
      · obtain ⟨nd, hnd⟩ := C.node_eq (x := y) (by simp [e'])
        rw [if_pos (heq.mpr ht), hnd, Option.bind_some, ← entry_eq_node hnd]
        obtain ⟨q, Q', rfl⟩ := List.exists_cons_of_length_pos (ht ▸ hT)
        obtain ⟨rfl, rfl⟩ := List.cons.inj e'
        obtain ⟨F, G, rfl, hF, hG⟩ := hE.split
        obtain ⟨e, G, rfl, hye, -⟩ := hG.uncons
        have : T - 1 = F.length := by
          rw [← ht, List.length_cons, Nat.add_sub_cancel, hF.length]
        rw [hye, this]
        simp
      · rw [if_neg (fun h => ht (heq.mp h))]
        cases n with
        | zero =>
            exfalso
            cases R' with
            | nil => simp at hlen'; omega
            | cons z R' =>
                have hz : z ∈ s.head :: chain := by simp [e']
                obtain ⟨nd, hnd⟩ := C.node_eq hz
                refine st.2 z (by rw [hop_tall (C.height_pos_of_mem hz)])
                  ⟨nd, Q' ++ [y], R', hnd, by simp [e'], ?_⟩
                simp only [List.length_cons] at hlen'
                have : (Q' ++ [y]).length ≤ T := by
                  simp only [List.length_append, List.length_singleton]
                  omega
                simpa using (hle _ (by omega)).mpr this
        | succ n => exact ih e' (by omega) (by omega) hQ'

theorem getElementByRank_spec (C : s.Chain chain) (hE : s.Lists chain E) (i : Nat)
    (hi : i < E.length) (hsize : E.length < 2 ^ 64) :
    s.getElementByRank (UInt64.ofNat i) = some E[i]? := by
  have hlen : s.length = UInt64.ofNat E.length := by rw [C.length, hE.length]
  have hnot : ¬ s.length ≤ UInt64.ofNat i := by
    rw [hlen, UInt64.le_iff_toNat_le, toNat_ofNat_lt hsize,
      toNat_ofNat_lt (by omega)]
    omega
  have h := elementAt_spec C hE (T := i + 1) (Q := []) rfl C.maxLevel_pos
    (Nat.le_of_eq s.height_head.symm) (by simp) (by omega) (by omega) hsize
  rw [SkipList.getElementByRank, if_neg hnot, ofNat_succ]
  exact h

/-- A node that is found by its rank is one of the list: the head has rank zero, which is
not looked for. -/
theorem elementAt_mem (C : s.Chain chain) {target : UInt64} (ht : target ≠ 0) {n cur : Nat}
    (split : s.head :: chain = Q ++ cur :: R) (tall : n ≤ s.height cur) {e : S × Bytes}
    (h : s.elementAt target n cur (UInt64.ofNat Q.length) = some (some e)) :
    ∃ x ∈ chain, s.entry x = some e := by
  induction n generalizing cur Q R with
  | zero => cases h
  | succ n ih =>
      have hlen := congrArg List.length split
      have hnodes := C.length_lt
      simp only [List.length_cons, List.length_append] at hlen
      obtain ⟨Q', y, R', hw, split', hy, -, -, -⟩ :=
        walk_spec C (fun _ t => decide (t ≤ target)) (s.nodes.length + 1) split tall
          (show R.length < s.nodes.length + 1 by omega)
      simp only [SkipList.elementAt, hw, Option.bind_eq_bind, Option.bind_some] at h
      by_cases hrank : UInt64.ofNat Q'.length = target
      · obtain ⟨nd, hnd⟩ := C.node_eq (x := y) (by simp [split'])
        rw [if_pos hrank, hnd, Option.bind_some, ← entry_eq_node hnd] at h
        cases Q' with
        | nil => exact absurd hrank.symm ht
        | cons q Q' =>
            obtain ⟨-, hchain⟩ := List.cons.inj split'
            exact ⟨y, by simp [hchain], Option.some_inj.mp h⟩
      · rw [if_neg hrank] at h
        exact ih split' (Nat.le_of_lt hy) h

theorem getElementByRank_mem (C : s.Chain chain) (hE : s.Lists chain E) {rank : UInt64} {e : S × Bytes}
    (h : s.getElementByRank rank = some (some e)) : e ∈ E := by
  rw [SkipList.getElementByRank] at h
  split at h
  · cases h
  · next hlt =>
    have ht : rank + 1 ≠ 0 := by
      intro hzero
      apply hlt
      have hlast := congrArg UInt64.toNat hzero
      rw [UInt64.toNat_add] at hlast
      change (rank.toNat + 1) % 2 ^ 64 = 0 at hlast
      have hlength := s.length.toNat_lt
      rw [UInt64.le_iff_toNat_le]
      omega
    obtain ⟨x, hx, he⟩ := elementAt_mem (Q := []) C ht rfl (Nat.le_of_eq s.height_head.symm) h
    exact hE.mem hx he

end RustKv.Zset
