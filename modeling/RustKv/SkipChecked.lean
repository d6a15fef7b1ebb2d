import Mathlib.Data.Finset.Card
import RustKv.SkipOrder

namespace RustKv.Zset

open Text Domain Towers

variable {S : Type} {s t : SkipList S} {chain A B P Q R : List Nat} {x z i : Nat}
variable {stops : List (Nat × UInt64)}

/-- Addition and subtraction of usize in a build with overflow checks: none is a panic. -/
def checkedAdd (a b : UInt64) : Option UInt64 :=
  if a.toNat + b.toNat < 2 ^ 64 then some (a + b) else none

def checkedSub (a b : UInt64) : Option UInt64 := if b ≤ a then some (a - b) else none

/-! The operations of the skip list in such a build. They differ from those of a
release build in the arithmetic on spans, ranks and the length only. -/

def SkipList.walkChecked (s : SkipList S) (pass : Node S → Bool) (i : Nat) :
    Nat → Nat → UInt64 → Option (Nat × UInt64)
  | 0, _, _ => none
  | fuel + 1, current, rank => do
      let l ← s.link current i
      match l.forward with
      | none => some (current, rank)
      | some next =>
          let n ← s.nodes[next]?
          if pass n then
            let rank ← checkedAdd rank l.span
            s.walkChecked pass i fuel next rank
          else some (current, rank)

def SkipList.searchChecked (s : SkipList S) (pass : Node S → Bool) : Nat → Path → Option Path
  | 0, p => some p
  | i + 1, p => do
      let (c, r) ← s.walkChecked pass i (s.nodes.length + 1) p.current p.rank
      s.searchChecked pass i ⟨c, r, (c, r) :: p.stops⟩

def SkipList.linkNodeChecked (s : SkipList S) (stops : List (Nat × UInt64)) (rank0 : UInt64)
    (new i : Nat) : Option (SkipList S) := do
  let (up, rank) ← stops[i]?
  let l ← s.link up i
  let spanDiff ← checkedSub rank0 rank
  let span ← checkedSub l.span spanDiff
  let s ← s.modifyLink new i (fun _ => ⟨l.forward, span⟩)
  let span ← checkedAdd spanDiff 1
  s.modifyLink up i (fun _ => ⟨some new, span⟩)

def SkipList.widenChecked (s : SkipList S) (stops : List (Nat × UInt64)) (i : Nat) :
    Option (SkipList S) := do
  let (up, _) ← stops[i]?
  let l ← s.link up i
  let span ← checkedAdd l.span 1
  s.modifyLink up i (fun l => { l with span := span })

def SkipList.insertChecked [Score S] (s : SkipList S) (score : S) (member : Bytes)
    (coins : List Bool) : Option (Nat × SkipList S) := do
  let p ← s.searchChecked (before score member) s.maxLevel ⟨s.head, 0, []⟩
  let level := randomLevel coins
  let stops := p.stops ++ List.replicate (level - s.maxLevel) (s.head, 0)
  let s ← s.raise level
  let (new, s) := s.allocateNode score member level
  let (up0, rank0) ← stops[0]?
  let s ← forLevels 0 level (fun s i => s.linkNodeChecked stops rank0 new i) s
  let s ← forLevels level s.maxLevel (fun s i => s.widenChecked stops i) s
  let s ← s.linkBackward up0 new
  let length ← checkedAdd s.length 1
  some (new, { s with length := length })

def SkipList.unlinkChecked (s : SkipList S) (stops : List (Nat × UInt64)) (target i : Nat) :
    Option (SkipList S) := do
  let (up, _) ← stops[i]?
  let l ← s.link up i
  if l.forward = some target then
    let t ← s.link target i
    let rest ← checkedSub t.span 1
    let span ← checkedAdd l.span rest
    s.modifyLink up i (fun _ => ⟨t.forward, span⟩)
  else
    let span ← checkedSub l.span 1
    s.modifyLink up i (fun l => { l with span := span })

def SkipList.deleteNodeChecked [Score S] (s : SkipList S) (target : Nat)
    (stops : List (Nat × UInt64)) : Option (SkipList S) := do
  let s ← forLevels 0 s.maxLevel (fun s i => s.unlinkChecked stops target i) s
  let s ← s.unlinkBackward target
  let maxLevel ← s.trimmed s.maxLevel
  let length ← checkedSub s.length 1
  let n ← s.nodes[target]?
  some { s with
    maxLevel := maxLevel
    length := length
    nodes := s.nodes.set target { n with score := Score.zero, member := [] }
    freeList := target :: s.freeList }

/-- The search of a deletion keeps no ranks. -/
def SkipList.deleteChecked [Score S] (s : SkipList S) (score : S) (member : Bytes) :
    Option (Bool × SkipList S) := do
  let p ← s.search (fun n _ => before score member n) s.maxLevel ⟨s.head, 0, []⟩
  let l ← s.link p.current 0
  match l.forward with
  | none => some (false, s)
  | some target =>
      let n ← s.nodes[target]?
      if Score.equal n.score score && n.member == member then
        let s ← s.deleteNodeChecked target p.stops
        some (true, s)
      else some (false, s)

def SkipList.getRankChecked [Score S] (s : SkipList S) (score : S) (member : Bytes) :
    Option (Option UInt64) := do
  let p ← s.searchChecked (upTo score member) s.maxLevel ⟨s.head, 0, []⟩
  let n ← s.nodes[p.current]?
  if p.current ≠ s.head ∧ n.member = member then
    let rank ← checkedSub p.rank 1
    some (some rank)
  else some none

theorem checkedAdd_ofNat {m n : Nat} (h : m + n < 2 ^ 64) :
    checkedAdd (UInt64.ofNat m) (UInt64.ofNat n) = some (UInt64.ofNat m + UInt64.ofNat n) := by
  rw [checkedAdd, toNat_ofNat_lt (by omega), toNat_ofNat_lt (by omega), if_pos h]

theorem checkedSub_ofNat {m n : Nat} (h : n ≤ m) (hm : m < 2 ^ 64) :
    checkedSub (UInt64.ofNat m) (UInt64.ofNat n) = some (UInt64.ofNat m - UInt64.ofNat n) := by
  rw [checkedSub, if_pos]
  rw [UInt64.le_iff_toNat_le, toNat_ofNat_lt hm, toNat_ofNat_lt (by omega)]
  exact h

/-- Two loops over the levels that do the same at every level they come to. -/
theorem forLevels_congr {σ : Type} {f g : σ → Nat → Option σ} {a : σ} (Inv : Nat → σ → Prop)
    (lo hi : Nat) (start : Inv lo a)
    (step : ∀ i b, lo ≤ i → i < hi → Inv i b →
      g b i = f b i ∧ ∀ b', f b i = some b' → Inv (i + 1) b') :
    forLevels lo hi g a = forLevels lo hi f a := by
  unfold forLevels
  obtain ⟨n, hn⟩ : ∃ n, hi - lo = n := ⟨_, rfl⟩
  rw [hn]
  induction n generalizing lo a with
  | zero => rfl
  | succ n ih =>
      obtain ⟨heq, hnext⟩ := step lo a (Nat.le_refl lo) (by omega) start
      rw [List.range'_succ, List.foldlM_cons, List.foldlM_cons, heq]
      cases hb : f a lo with
      | none => rfl
      | some b =>
          exact ih (lo + 1) (hnext b hb) (fun i b hlo => step i b (by omega)) (by omega)

theorem modifyLink_other {f : SkipListLevel → SkipListLevel} (h : s.modifyLink x i f = some t) {j : Nat}
    (hj : j ≠ i) (y : Nat) : t.link y j = s.link y j := by
  obtain ⟨l, hl⟩ : ∃ l, s.link x i = some l := by
    simp only [SkipList.modifyLink, Option.bind_eq_bind, Option.bind_eq_some_iff] at h
    obtain ⟨n, hn, l, hl, -⟩ := h
    exact ⟨l, by simp [SkipList.link, hn, hl]⟩
  obtain ⟨t', ht', -, hlink⟩ := modifyLink_spec f hl
  rw [h] at ht'
  cases ht'
  rw [hlink, if_neg (fun h => hj h.2)]

theorem walkChecked_eq (C : s.Chain chain) (hsize : chain.length < 2 ^ 63) (pass : Node S → Bool)
    (fuel : Nat) (e : s.head :: chain = P ++ x :: R) (hi : i < s.height x) :
    s.walkChecked pass i fuel x (UInt64.ofNat P.length) =
      s.walk (fun n _ => pass n) i fuel x (UInt64.ofNat P.length) := by
  induction fuel generalizing P x R with
  | zero => rfl
  | succ fuel ih =>
      simp only [SkipList.walkChecked, SkipList.walk, C.link_eq e hi, Option.bind_eq_bind,
        Option.bind_some]
      cases hn : (hop s.height i R).1 with
      | none => rfl
      | some z =>
          obtain ⟨M, R', rfl, hz, -, hd⟩ := hop_some hn
          have e' : s.head :: chain = (P ++ x :: M) ++ z :: R' := by simp [e]
          have hlen := congrArg List.length e'
          simp only [List.length_cons, List.length_append] at hlen
          have hrank : UInt64.ofNat P.length + UInt64.ofNat (M.length + 1) =
              UInt64.ofNat (P ++ x :: M).length := by
            rw [← UInt64.ofNat_add]
            simp
          obtain ⟨n, hnode⟩ := C.node_eq (x := z) (by simp [e'])
          simp only [hnode, Option.bind_some, hd]
          rw [checkedAdd_ofNat (by omega), Option.bind_some, hrank, ih e' hz]

theorem searchChecked_eq (C : s.Chain chain) (hsize : chain.length < 2 ^ 63) (pass : Node S → Bool)
    (n : Nat) (p : Path) (e : s.head :: chain = Q ++ p.current :: R)
    (hrank : p.rank = UInt64.ofNat Q.length) (tall : n ≤ s.height p.current) :
    s.searchChecked pass n p = s.search (fun n _ => pass n) n p := by
  induction n generalizing p Q R with
  | zero => rfl
  | succ n ih =>
      have hlen := congrArg List.length e
      simp only [List.length_cons, List.length_append] at hlen
      have hnodes := C.length_lt
      obtain ⟨Q', y, R', hw, e', hy, -⟩ := walk_spec C (fun n _ => pass n) (s.nodes.length + 1) e tall
        (by omega)
      rw [SkipList.searchChecked, SkipList.search, hrank, walkChecked_eq C hsize pass _ e tall, hw]
      exact ih _ e' rfl (Nat.le_of_lt hy)

/-- The arithmetic of one level of an insertion: the ranks and the span are of the
list, so nothing in it leaves usize. -/
theorem linkNodeChecked_eq (hl : Linked s.Holds s.height A B) (hsize : A.length + B.length < 2 ^ 63)
    (hstops : s.Stops A stops) {k : Nat} (hk : k < s.maxLevel)
    (same : ∀ y, t.link y k = s.link y k) :
    t.linkNodeChecked stops (UInt64.ofNat (A.length - 1)) z k =
      t.linkNode stops (UInt64.ofNat (A.length - 1)) z k := by
  obtain ⟨u, r, hu, lt⟩ := hstops k hk
  have hr := lt.lt_length
  have hhop : (hop s.height k B).2 ≤ B.length := hop_le
  have hlu : t.link u k = _ := (same u).trans (lt.link hl)
  have hdiff : UInt64.ofNat (A.length - 1) - UInt64.ofNat r = UInt64.ofNat (A.length - 1 - r) :=
    (UInt64.ofNat_sub (by omega)).symm
  have hone : checkedAdd (UInt64.ofNat (A.length - 1 - r)) 1 = _ :=
    checkedAdd_ofNat (n := 1) (by omega)
  simp only [SkipList.linkNodeChecked, SkipList.linkNode, hu, hlu, Option.bind_eq_bind,
    Option.bind_some]
  rw [checkedSub_ofNat (by omega) (by omega), Option.bind_some, hdiff,
    checkedSub_ofNat (by omega) (by omega), Option.bind_some, hone]
  rfl

theorem linkNode_other {k j : Nat} {rank0 : UInt64} (h : s.linkNode stops rank0 z k = some t)
    (hj : j ≠ k) (y : Nat) : t.link y j = s.link y j := by
  simp only [SkipList.linkNode, Option.bind_eq_bind, Option.bind_eq_some_iff] at h
  obtain ⟨⟨up, rank⟩, -, l, -, s₁, h₁, h₂⟩ := h
  rw [modifyLink_other h₂ hj, modifyLink_other h₁ hj]

theorem modifyLink_congr {l : SkipListLevel} {f g : SkipListLevel → SkipListLevel}
    (hl : s.link x i = some l) (h : f l = g l) : s.modifyLink x i f = s.modifyLink x i g := by
  obtain ⟨n, hn, hi⟩ := Option.bind_eq_some_iff.mp hl
  simp only [SkipList.modifyLink, hn, hi, Option.bind_eq_bind, Option.bind_some, h]

theorem widenChecked_eq {k : Nat} (hl : ∀ u r, LastTall s.height k A u r →
      t.Holds u k ((hop s.height k B).1, (hop s.height k B).2 + (A.length - 1 - r)))
    (hsize : A.length + B.length < 2 ^ 63) (hstops : s.Stops A stops) (hk : k < s.maxLevel) :
    t.widenChecked stops k = t.widen stops k := by
  obtain ⟨u, r, hu, lt⟩ := hstops k hk
  have hhop : (hop s.height k B).2 ≤ B.length := hop_le
  have hlu : t.link u k = some ⟨_, _⟩ := hl u r lt
  have hone : checkedAdd (UInt64.ofNat ((hop s.height k B).2 + (A.length - 1 - r))) 1 = _ :=
    checkedAdd_ofNat (n := 1) (by omega)
  simp only [SkipList.widenChecked, SkipList.widen, hu, hlu, hone, Option.bind_eq_bind,
    Option.bind_some]
  exact modifyLink_congr hlu rfl

theorem widen_other {k j : Nat} (h : s.widen stops k = some t) (hj : j ≠ k) (y : Nat) :
    t.link y j = s.link y j := by
  simp only [SkipList.widen, Option.bind_eq_bind, Option.bind_eq_some_iff] at h
  obtain ⟨⟨up, rank⟩, -, h⟩ := h
  exact modifyLink_other h hj y

/-- The levels a loop has not come to are those it started with, so each level's
arithmetic is that of the list before the insertion. -/
theorem linkNodeChecked_loop (hl : Linked s.Holds s.height A B) (hsize : A.length + B.length < 2 ^ 63)
    (hstops : s.Stops A stops) {level : Nat} (hle : level ≤ s.maxLevel) :
    forLevels 0 level (fun t i => t.linkNodeChecked stops (UInt64.ofNat (A.length - 1)) z i) s =
      forLevels 0 level (fun t i => t.linkNode stops (UInt64.ofNat (A.length - 1)) z i) s := by
  apply forLevels_congr (fun k t => ∀ j, k ≤ j → ∀ y, t.link y j = s.link y j)
  · exact fun _ _ _ => rfl
  · intro k b _ hk same
    refine ⟨linkNodeChecked_eq hl hsize hstops (by omega) (same k (Nat.le_refl k)), ?_⟩
    intro b' hb' j hj y
    rw [linkNode_other hb' (by omega), same j (by omega)]

theorem widenChecked_loop (hl : Linked s.Holds s.height A B) (hsize : A.length + B.length < 2 ^ 63)
    (hstops : s.Stops A stops) {level : Nat} (hmax : t.maxLevel = s.maxLevel)
    (above : ∀ y j, level ≤ j → t.link y j = s.link y j) :
    forLevels level t.maxLevel (fun t i => t.widenChecked stops i) t =
      forLevels level t.maxLevel (fun t i => t.widen stops i) t := by
  apply forLevels_congr (fun k t => ∀ j, k ≤ j → ∀ y, t.link y j = s.link y j)
  · exact fun j hj y => above y j hj
  · intro k b _ hk same
    have hlast : ∀ u r, LastTall s.height k A u r →
        b.Holds u k ((hop s.height k B).1, (hop s.height k B).2 + (A.length - 1 - r)) :=
      fun u r lt => SkipList.Holds.of_link (same k (Nat.le_refl k) u) (lt.link hl)
    refine ⟨widenChecked_eq hlast hsize hstops (by omega), ?_⟩
    intro b' hb' j hj y
    rw [widen_other hb' (by omega), same j (by omega)]

/-- An insertion in a build with overflow checks does what it does in a release build. -/
theorem insertChecked_eq [Score S] (C : s.Chain chain) (hsize : chain.length + 1 < 2 ^ 63) (score : S)
    (member : Bytes) (coins : List Bool) :
    s.insertChecked score member coins = s.insert score member coins := by
  obtain ⟨p, Q, R, A, s₁, s₂, z, up, pr, -, -, rfl⟩ := insert_prepared C score member coins
  obtain ⟨t₁, t₂, t, ht₁, ht₂, ht, sp⟩ := pr.splice
  obtain ⟨t₁', ht₁', sh₁, above₁, -⟩ := linkNode_loop pr.linked pr.new_notMem pr.link pr.stops pr.le
  obtain rfl : t₁' = t₁ := Option.some_inj.mp (ht₁'.symm.trans ht₁)
  rw [List.length_append] at hsize
  have hsize' : (s.head :: A).length + R.length < 2 ^ 63 := by
    rw [List.length_cons]
    omega
  have hsearch := searchChecked_eq C (by rw [List.length_append]; omega) (before score member) s.maxLevel
    ⟨s.head, 0, []⟩ (Q := []) rfl rfl (Nat.le_of_eq s.height_head.symm)
  have hlink : forLevels 0 (randomLevel coins) (fun t i => t.linkNodeChecked
      (p.stops ++ List.replicate (randomLevel coins - s.maxLevel) (s.head, 0))
      (UInt64.ofNat A.length) z i) s₂ = some t₁' :=
    (linkNodeChecked_loop pr.linked hsize' pr.stops pr.le).trans ht₁
  have hwiden := (widenChecked_loop pr.linked hsize' pr.stops sh₁.maxLevel above₁).trans ht₂
  have hlength : checkedAdd t.length 1 = some (t.length + 1) := by
    rw [sp.shape.length, pr.chain.length]
    exact checkedAdd_ofNat (n := 1) (by rw [List.length_append]; omega)
  simp only [SkipList.insertChecked, SkipList.insert, hsearch, pr.search, pr.raise, pr.allocate,
    pr.first, hlink, ht₁, hwiden, ht₂, ht, hlength, Option.bind_eq_bind, Option.bind_some]

section Unlink

variable (hl : Linked s.Holds s.height A (z :: B))
variable (hlz : ∀ j < s.height z, s.Holds z j (hop s.height j B)) (hstops : s.Stops A stops)
include hl hlz hstops

/-- On the levels of the node, its own span is at least 1 when a node follows it;
on the levels above, the span that goes over it is. -/
theorem unlinkChecked_eq (hzB : z ∉ B) (hsize : A.length + B.length < 2 ^ 63) (hB : B ≠ []) {k : Nat}
    (hk : k < s.maxLevel) (same : ∀ y, t.link y k = s.link y k) :
    t.unlinkChecked stops z k = t.unlink stops z k := by
  obtain ⟨u, r, hu, lt⟩ := hstops k hk
  have hhop : (hop s.height k B).2 ≤ B.length := hop_le
  by_cases htall : k < s.height z
  · have hlu : t.link u k = some ⟨some z, UInt64.ofNat (1 + (A.length - 1 - r))⟩ := by
      rw [same u, lt.link hl, hop_tall htall]
    have hlt : t.link z k = some ⟨_, _⟩ := (same z).trans (hlz k htall)
    have hpos : 0 < (hop s.height k B).2 := by
      obtain ⟨y, B', rfl⟩ := List.exists_cons_of_ne_nil hB
      exact hop_pos y B'
    have hrest : checkedSub (UInt64.ofNat (hop s.height k B).2) 1 = _ :=
      checkedSub_ofNat (n := 1) hpos (by omega)
    have hpred : UInt64.ofNat (hop s.height k B).2 - UInt64.ofNat 1 =
        UInt64.ofNat ((hop s.height k B).2 - 1) := (UInt64.ofNat_sub hpos).symm
    rw [hpred] at hrest
    have hspan := checkedAdd_ofNat (m := 1 + (A.length - 1 - r)) (n := (hop s.height k B).2 - 1) (by omega)
    simp only [SkipList.unlinkChecked, SkipList.unlink, hu, hlu, hlt, hrest, hspan, if_true,
      Option.bind_eq_bind, Option.bind_some]
    refine modifyLink_congr hlu ?_
    rw [← hpred]
    rfl
  · have hlu : t.link u k = some ⟨(hop s.height k B).1,
        UInt64.ofNat ((hop s.height k B).2 + 1 + (A.length - 1 - r))⟩ := by
      have hh := lt.link hl
      rw [hop, if_neg htall] at hh
      exact (same u).trans hh
    have hne : (hop s.height k B).1 ≠ some z := by
      intro hc
      obtain ⟨M, Q, rfl, -⟩ := hop_some hc
      exact hzB (by simp)
    have hspan : checkedSub (UInt64.ofNat ((hop s.height k B).2 + 1 + (A.length - 1 - r))) 1 = _ :=
      checkedSub_ofNat (n := 1) (by omega) (by have := lt.lt_length; omega)
    simp only [SkipList.unlinkChecked, SkipList.unlink, hu, hlu, if_neg hne, hspan,
      Option.bind_eq_bind, Option.bind_some]
    exact modifyLink_congr hlu rfl

/-- The last node of the list has span 0, from which 1 is taken. -/
theorem unlinkChecked_last (hB : B = []) (hpos : 0 < s.height z) (hmax : 0 < s.maxLevel) :
    s.unlinkChecked stops z 0 = none := by
  subst hB
  obtain ⟨u, r, hu, lt⟩ := hstops 0 hmax
  have hlu : s.link u 0 = some ⟨some z, UInt64.ofNat (1 + (A.length - 1 - r))⟩ := by
    rw [lt.link hl, hop_tall hpos]
  have hlt : s.link z 0 = some ⟨none, 0⟩ := hlz 0 hpos
  have hrest : checkedSub 0 1 = none := rfl
  simp only [SkipList.unlinkChecked, hu, hlu, hlt, hrest, if_true, Option.bind_eq_bind,
    Option.bind_some, Option.bind_none]

end Unlink

theorem unlink_other {k j : Nat} (h : s.unlink stops z k = some t) (hj : j ≠ k) (y : Nat) :
    t.link y j = s.link y j := by
  simp only [SkipList.unlink, Option.bind_eq_bind, Option.bind_eq_some_iff] at h
  obtain ⟨⟨up, rank⟩, -, l, -, h⟩ := h
  split at h
  · obtain ⟨t', -, h⟩ := Option.bind_eq_some_iff.mp h
    exact modifyLink_other h hj y
  · exact modifyLink_other h hj y

theorem unlinkBackward_length (h : s.unlinkBackward z = some t) : t.length = s.length := by
  simp only [SkipList.unlinkBackward, Option.bind_eq_bind, Option.bind_eq_some_iff] at h
  obtain ⟨n, -, l, -, h⟩ := h
  split at h
  · simp only [SkipList.setBackward, Option.bind_eq_bind, Option.bind_eq_some_iff] at h
    obtain ⟨n', -, h⟩ := h
    cases h
    rfl
  · cases h
    rfl

/-- Taking a node out in a build with overflow checks: as in a release build if a
node follows it, and a panic if it is the last. -/
theorem deleteNodeChecked_eq [Score S] (C : s.Chain (A ++ z :: B)) (hsize : (A ++ z :: B).length < 2 ^ 63)
    (hstops : s.Stops (s.head :: A) stops) :
    s.deleteNodeChecked z stops = if B = [] then none else s.deleteNode z stops := by
  have nodup : ((s.head :: A) ++ z :: B).Nodup := C.nodup
  obtain ⟨-, hzB, hdisj⟩ := List.nodup_append.mp nodup
  have hzA : z ∉ s.head :: A := fun h => hdisj z h z (by simp) rfl
  replace hzB := (List.nodup_cons.mp hzB).1
  have hl : Linked s.Holds s.height ((s.head :: A) ++ z :: B) [] := C.linked
  obtain ⟨hlA, hlzB⟩ := linked_append.mp hl
  rw [List.append_nil] at hlA
  have hlz := (linked_cons.mp hlzB).1
  rw [List.append_nil] at hlz
  rw [List.length_append, List.length_cons] at hsize
  split
  · next hB =>
    have hfirst := unlinkChecked_last hlA hlz hstops hB (C.height_pos z (by simp)) C.maxLevel_pos
    have hloop : forLevels 0 s.maxLevel (fun t i => t.unlinkChecked stops z i) s = none := by
      obtain ⟨n, hn⟩ := Nat.exists_eq_succ_of_ne_zero (Nat.ne_of_gt C.maxLevel_pos)
      rw [forLevels, hn, Nat.sub_zero, Nat.succ_eq_add_one, List.range'_succ, List.foldlM_cons, hfirst]
      rfl
    simp only [SkipList.deleteNodeChecked, hloop, Option.bind_eq_bind, Option.bind_none]
  · next hB =>
    have hloop : forLevels 0 s.maxLevel (fun t i => t.unlinkChecked stops z i) s =
        forLevels 0 s.maxLevel (fun t i => t.unlink stops z i) s := by
      apply forLevels_congr (fun k t => ∀ j, k ≤ j → ∀ y, t.link y j = s.link y j)
      · exact fun _ _ _ => rfl
      · intro k b _ hk same
        refine ⟨unlinkChecked_eq hlA hlz hstops hzB (by rw [List.length_cons]; omega) hB hk
          (same k (Nat.le_refl k)), ?_⟩
        intro b' hb' j hj y
        rw [unlink_other hb' (by omega), same j (by omega)]
    obtain ⟨t₁, ht₁, sh₁, -⟩ := unlink_loop hlA hzA hzB hlz hstops
    simp only [SkipList.deleteNodeChecked, SkipList.deleteNode, hloop, ht₁, Option.bind_eq_bind,
      Option.bind_some]
    cases ht₂ : t₁.unlinkBackward z with
    | none => rfl
    | some t₂ =>
        have hlength : checkedSub t₂.length 1 = some (t₂.length - 1) := by
          rw [unlinkBackward_length ht₂, sh₁.length, C.length]
          rw [List.length_append, List.length_cons]
          exact checkedSub_ofNat (n := 1) (by omega) (by omega)
        simp only [hlength, Option.bind_some]

/-- A deletion in a build with overflow checks: a panic where the node it finds is
the last of the list, and otherwise what it is in a release build. -/
theorem deleteChecked_spec [Score S] (C : s.Chain chain) (hsize : chain.length < 2 ^ 63) (score : S)
    (member : Bytes) :
    ∃ p Q R A, s.Reached chain (fun n _ => before score member n) 0 p Q R ∧
      Q ++ [p.current] = s.head :: A ∧ chain = A ++ R ∧
      ((∃ z sc, R = [z] ∧ s.entry z = some (sc, member) ∧ Score.equal sc score = true ∧
        s.deleteChecked score member = none) ∨
      ((∀ z sc, R = [z] → s.entry z = some (sc, member) → Score.equal sc score = false) ∧
        s.deleteChecked score member = s.delete score member)) := by
  obtain ⟨p, Q, R, hp, reached⟩ :=
    search_spec C (fun n _ => before score member n) s.maxLevel _ (reached_start chain _)
  obtain ⟨A, hA, rfl⟩ := reached.split_head
  have hcur : p.current ∈ s.head :: (A ++ R) := by
    rw [reached.split]
    simp
  have hl := C.link_eq reached.split (C.height_pos_of_mem hcur)
  refine ⟨p, Q, R, A, reached, hA, rfl, ?_⟩
  simp only [SkipList.deleteChecked, SkipList.delete, hp, hl, Option.bind_eq_bind, Option.bind_some]
  cases R with
  | nil => exact .inr ⟨by simp, rfl⟩
  | cons z B =>
      rw [hop_tall (C.height_pos z (by simp))]
      have hz : z < s.nodes.length := C.bound z (by simp)
      have hentry : s.entry z = some (s.nodes[z].score, s.nodes[z].member) := by
        simp [SkipList.entry, hz]
      have hstops := reached.stops
      rw [hA] at hstops
      simp only [List.getElem?_eq_getElem hz, Option.bind_some, deleteNodeChecked_eq C hsize hstops]
      by_cases hm : Score.equal s.nodes[z].score score = true ∧ s.nodes[z].member = member
      · by_cases hB : B = []
        · refine .inl ⟨z, s.nodes[z].score, by rw [hB], by rw [hentry, hm.2], hm.1, ?_⟩
          simp [hm.1, hm.2, hB]
        · refine .inr ⟨?_, by rw [if_neg hB]⟩
          intro z' sc e
          exact absurd (List.cons.inj e).2 hB
      · have hno : ¬ (Score.equal s.nodes[z].score score && s.nodes[z].member == member) = true := by
          simpa using hm
        refine .inr ⟨?_, by rw [if_neg hno, if_neg hno]⟩
        intro z' sc e he
        cases e
        rw [hentry] at he
        cases he
        simpa using hm

theorem getRankChecked_spec [Score S] (C : s.Chain chain) (hsize : chain.length < 2 ^ 63) (score : S)
    (member : Bytes) :
    ∃ r, s.getRankChecked score member = some r ∧ s.getRank score member = some r := by
  obtain ⟨p, Q, R, hp, reached⟩ :=
    search_spec C (fun n _ => upTo score member n) s.maxLevel _ (reached_start chain _)
  have hsearch := searchChecked_eq C hsize (upTo score member) s.maxLevel ⟨s.head, 0, []⟩ (Q := []) rfl
    rfl (Nat.le_of_eq s.height_head.symm)
  obtain ⟨n, hn⟩ := C.node_eq (x := p.current) (by rw [reached.split]; simp)
  simp only [SkipList.getRankChecked, SkipList.getRank, hsearch, hp, hn, Option.bind_eq_bind,
    Option.bind_some]
  by_cases hfound : p.current ≠ s.head ∧ n.member = member
  · -- only the head has rank 0
    have hlen := congrArg List.length reached.split
    simp only [List.length_cons, List.length_append] at hlen
    have hpos : 0 < Q.length := by
      refine List.length_pos_of_ne_nil ?_
      rintro rfl
      exact hfound.1 (List.cons.inj reached.split).1.symm
    have hrank : checkedSub p.rank 1 = some (p.rank - 1) := by
      rw [reached.rank]
      exact checkedSub_ofNat (n := 1) hpos (by omega)
    rw [if_pos hfound, if_pos hfound, hrank]
    exact ⟨_, rfl, rfl⟩
  · rw [if_neg hfound, if_neg hfound]
    exact ⟨_, rfl, rfl⟩

inductive SkipOp (S : Type)
  | insert (score : S) (member : Bytes) (coins : List Bool)
  | delete (score : S) (member : Bytes)

def SkipList.step [Score S] (s : SkipList S) : SkipOp S → Option (SkipList S)
  | .insert score member coins => (s.insert score member coins).map Prod.snd
  | .delete score member => (s.delete score member).map Prod.snd

def SkipList.stepChecked [Score S] (s : SkipList S) : SkipOp S → Option (SkipList S)
  | .insert score member coins => (s.insertChecked score member coins).map Prod.snd
  | .delete score member => (s.deleteChecked score member).map Prod.snd

def SkipList.run [Score S] (s : SkipList S) (ops : List (SkipOp S)) : Option (SkipList S) :=
  ops.foldlM SkipList.step s

def SkipList.runChecked [Score S] (s : SkipList S) (ops : List (SkipOp S)) : Option (SkipList S) :=
  ops.foldlM SkipList.stepChecked s

section Ordered

variable [LinearOrder S]

def SkipOp.stored (D : Finset (S × Bytes)) : SkipOp S → Finset (S × Bytes)
  | .insert score member _ => Insert.insert (score, member) D
  | .delete score member => D.erase (score, member)

/-- The members stay distinct, and the nodes of the list fit in a Vec. -/
def SkipOp.Distinct (D : Finset (S × Bytes)) : SkipOp S → Prop
  | .insert _ member _ => (∀ sc, (sc, member) ∉ D) ∧ D.card + 1 < 2 ^ 63
  | .delete _ _ => True

/-- The call does not delete the greatest entry that is stored. -/
def SkipOp.KeepsGreatest (D : Finset (S × Bytes)) : SkipOp S → Prop
  | .insert _ _ _ => True
  | .delete score member => (score, member) ∈ D → ∃ e ∈ D, toLex (score, member) < toLex e

/-- Every call of a run has the property, where it is made. -/
def SkipOp.Along (holds : Finset (S × Bytes) → SkipOp S → Prop) (D : Finset (S × Bytes)) :
    List (SkipOp S) → Prop
  | [] => True
  | op :: ops => holds D op ∧ SkipOp.Along holds (op.stored D) ops

/-- The list holds the entries of `D`, in order. -/
structure SkipList.Stores (s : SkipList S) (D : Finset (S × Bytes)) (chain : List Nat)
    (E : List (S × Bytes)) : Prop where
  chained : s.Chain chain
  lists : s.Lists chain E
  sorted : E.Pairwise (fun a b => toLex a < toLex b)
  mem_iff : ∀ e, e ∈ E ↔ e ∈ D

variable {D : Finset (S × Bytes)} {E : List (S × Bytes)}

theorem SkipList.Stores.nodup (h : s.Stores D chain E) : E.Nodup :=
  h.sorted.imp (fun hab => by
    rintro rfl
    exact lt_irrefl _ hab)

theorem SkipList.Stores.length (h : s.Stores D chain E) : chain.length = D.card := by
  have hD : E.toFinset = D := by
    ext e
    rw [List.mem_toFinset, h.mem_iff]
  rw [h.lists.length, ← hD, List.toFinset_card_of_nodup h.nodup]

theorem getLast_eq_some_iff {e : S × Bytes}
    (sorted : E.Pairwise (fun a b => toLex a < toLex b)) :
    E.getLast? = some e ↔ e ∈ E ∧ ∀ e' ∈ E, ¬ toLex e < toLex e' := by
  rcases List.eq_nil_or_concat E with rfl | ⟨F, g, rfl⟩
  · simp
  · rw [List.concat_eq_append] at sorted ⊢
    obtain ⟨-, -, hlt⟩ := List.pairwise_append.mp sorted
    rw [List.getLast?_append, List.getLast?_singleton, Option.some_or, Option.some_inj]
    constructor
    · rintro rfl
      refine ⟨by simp, ?_⟩
      intro e' he'
      rcases List.mem_append.mp he' with he' | he'
      · exact lt_asymm (hlt e' he' g (by simp))
      · rw [List.mem_singleton.mp he']
        exact lt_irrefl _
    · rintro ⟨he, hmax⟩
      rcases List.mem_append.mp he with he | he
      · exact absurd (hlt e he g (by simp)) (hmax g (by simp))
      · exact (List.mem_singleton.mp he).symm

theorem SkipOp.keepsGreatest_delete_iff (h : s.Stores D chain E) (score : S) (member : Bytes) :
    (SkipOp.delete score member).KeepsGreatest D ↔ E.getLast? ≠ some (score, member) := by
  rw [ne_eq, getLast_eq_some_iff h.sorted, SkipOp.KeepsGreatest]
  simp only [h.mem_iff]
  push Not
  rfl

variable [Score S] {P : S → Prop}

/-- In order, the node a deletion finds is the last of the list exactly if its
entry is the last of the entries. -/
theorem deleteChecked_sorted (cmp : Compares P) (h : s.Stores D chain E) (hsize : chain.length < 2 ^ 63)
    (hP : ∀ e ∈ E, P e.1) (score : S) (hs : P score) (member : Bytes) :
    s.deleteChecked score member =
      if E.getLast? = some (score, member) then none else s.delete score member := by
  obtain ⟨p, Q, R, A, reached, hA, rfl, hcases⟩ := deleteChecked_spec h.chained hsize score member
  obtain ⟨F, G, rfl, hF, hG, hlt, hge⟩ := reached_split
    (fun e => decide (toLex e < toLex (score, member))) h.chained h.lists h.sorted
    (fun a b hab hb => by simpa using lt_trans hab (by simpa using hb))
    (fun n hn _ => cmp.before_iff hs member (hP _ hn)) reached hA rfl
  rcases hcases with ⟨z, sc, rfl, hz, heq, hnone⟩ | ⟨hne, hsame⟩
  · obtain ⟨e, G', rfl, hz', hG'⟩ := hG.uncons
    obtain rfl : G' = [] := by simpa [SkipList.Lists] using hG'.symm
    obtain rfl : (sc, member) = e := Option.some_inj.mp (hz.symm.trans hz')
    obtain rfl := (cmp.equal_iff sc score (hP (sc, member) (by simp)) hs).mp heq
    rw [hnone, if_pos (by simp)]
  · rw [hsame, if_neg]
    intro hlast
    obtain ⟨hmem, hmax⟩ := (getLast_eq_some_iff h.sorted).mp hlast
    have hmemG : (score, member) ∈ G := by
      rcases List.mem_append.mp hmem with hc | hc
      · simpa using hlt _ hc
      · exact hc
    obtain ⟨-, sG, -⟩ := List.pairwise_append.mp h.sorted
    obtain rfl : G = [(score, member)] := by
      cases G with
      | nil => simp at hmemG
      | cons g G =>
          have hg : g = (score, member) := by
            rcases List.mem_cons.mp hmemG with hc | hc
            · exact hc.symm
            · have hle : toLex (score, member) ≤ toLex g := by simpa using hge g (by simp)
              exact absurd ((List.pairwise_cons.mp sG).1 _ hc) (not_lt_of_ge hle)
          subst hg
          cases G with
          | nil => rfl
          | cons g' G =>
              exact absurd ((List.pairwise_cons.mp sG).1 g' (by simp)) (hmax g' (by simp))
    obtain ⟨z, rfl⟩ : ∃ z, R = [z] := List.length_eq_one_iff.mp hG.length
    obtain ⟨e, G', he, hz, -⟩ := hG.uncons
    cases he
    have hf := hne z score rfl hz
    rw [(cmp.equal_iff score score hs hs).mpr rfl] at hf
    cases hf

theorem insert_stores (cmp : Compares P) (h : s.Stores D chain E) (hP : ∀ e ∈ E, P e.1) {score : S}
    (hs : P score) (member : Bytes) (hnew : (score, member) ∉ D) (coins : List Bool) :
    ∃ z t chain' E', s.insert score member coins = some (z, t) ∧
      t.Stores (Insert.insert (score, member) D) chain' E' := by
  obtain ⟨z, t, chain', F, G, hins, Ct, rfl, hE', sorted⟩ := insert_sorted cmp h.chained h.lists hP
    h.sorted hs member (fun hc => hnew ((h.mem_iff _).mp hc)) coins
  refine ⟨z, t, chain', F ++ (score, member) :: G, hins, Ct, hE', sorted, ?_⟩
  intro e
  rw [Finset.mem_insert, ← h.mem_iff]
  simp only [List.mem_append, List.mem_cons]
  tauto

theorem delete_stores (cmp : Compares P) (h : s.Stores D chain E) (hP : ∀ e ∈ E, P e.1) (score : S)
    (hs : P score) (member : Bytes) :
    ∃ t chain', s.delete score member = some (decide ((score, member) ∈ E), t) ∧
      t.Stores (D.erase (score, member)) chain' (E.erase (score, member)) := by
  have hmem_iff (e : S × Bytes) : e ∈ E.erase (score, member) ↔ e ∈ D.erase (score, member) := by
    rw [Finset.mem_erase, ← h.mem_iff]
    exact List.Nodup.mem_erase_iff h.nodup
  by_cases hmem : (score, member) ∈ E
  · obtain ⟨t, chain', F, G, hdel, Ct, rfl, hE'⟩ := delete_sorted cmp h.chained h.lists hP h.sorted hmem
    have hF : (score, member) ∉ F := by
      intro hc
      exact lt_irrefl _ ((List.pairwise_append.mp h.sorted).2.2 _ hc (score, member) (by simp))
    have herase : (F ++ (score, member) :: G).erase (score, member) = F ++ G := by
      rw [List.erase_append_right _ hF, List.erase_cons_head]
    refine ⟨t, chain', by rw [decide_eq_true hmem]; exact hdel, Ct, by rw [herase]; exact hE',
      h.sorted.sublist List.erase_sublist, hmem_iff⟩
  · have hE : E.erase (score, member) = E := List.erase_of_not_mem hmem
    obtain ⟨p, Q, R, A, reached, hA, rfl, ⟨z, B, t, sc, rfl, hz, heq, -⟩ | ⟨-, hdel⟩⟩ :=
      delete_spec h.chained score member
    · have hin := h.lists.mem (x := z) (by simp) hz
      obtain rfl := (cmp.equal_iff sc score (hP _ hin) hs).mp heq
      exact absurd hin hmem
    · rw [decide_eq_false hmem]
      exact ⟨s, A ++ R, hdel, h.chained, by rw [hE]; exact h.lists, by rw [hE]; exact h.sorted, hmem_iff⟩

end Ordered

section Total

variable [TotalScore S] {D : Finset (S × Bytes)} {E : List (S × Bytes)}

/-- One call: in a release build it is always done, and in a build with overflow
checks unless it deletes the greatest entry. -/
theorem stepChecked_spec (h : s.Stores D chain E) (hsize : D.card < 2 ^ 63) (op : SkipOp S)
    (hop : op.Distinct D) :
    ∃ t chain' E', s.step op = some t ∧ t.Stores (op.stored D) chain' E' ∧
      (op.stored D).card < 2 ^ 63 ∧ (op.KeepsGreatest D → s.stepChecked op = some t) ∧
      (¬ op.KeepsGreatest D → s.stepChecked op = none) := by
  cases op with
  | insert score member coins =>
      obtain ⟨hnew, hroom⟩ := hop
      obtain ⟨z, t, chain', E', hins, ht⟩ := insert_stores compares_total h (fun _ _ => trivial)
        trivial member (hnew score) coins
      have hcheck := insertChecked_eq h.chained (by rw [h.length]; exact hroom) score member coins
      refine ⟨t, chain', E', by simp only [SkipList.step, hins, Option.map_some], ht, ?_, ?_,
        fun hno => absurd trivial hno⟩
      · exact lt_of_le_of_lt (Finset.card_insert_le _ _) hroom
      · intro _
        simp only [SkipList.stepChecked, hcheck, hins, Option.map_some]
  | delete score member =>
      have hcheck := deleteChecked_sorted compares_total h (by rw [h.length]; exact hsize)
        (fun _ _ => trivial) score trivial member
      obtain ⟨t, chain', hdel, ht⟩ :=
        delete_stores compares_total h (fun _ _ => trivial) score trivial member
      refine ⟨t, chain', E.erase (score, member), by simp only [SkipList.step, hdel, Option.map_some], ht,
        lt_of_le_of_lt Finset.card_erase_le hsize, ?_, ?_⟩
      · intro hkeep
        rw [SkipOp.keepsGreatest_delete_iff h] at hkeep
        simp only [SkipList.stepChecked, hcheck, if_neg hkeep, hdel, Option.map_some]
      · intro hno
        rw [SkipOp.keepsGreatest_delete_iff h, not_not] at hno
        simp only [SkipList.stepChecked, hcheck, if_pos hno, Option.map_none]

theorem runChecked_spec (ops : List (SkipOp S)) (h : s.Stores D chain E) (hsize : D.card < 2 ^ 63)
    (hops : SkipOp.Along SkipOp.Distinct D ops) :
    ∃ t chain', s.run ops = some t ∧ t.Chain chain' ∧ chain'.length < 2 ^ 63 ∧
      (s.runChecked ops = some t ↔ SkipOp.Along SkipOp.KeepsGreatest D ops) := by
  induction ops generalizing s D chain E with
  | nil => exact ⟨s, chain, rfl, h.chained, by rw [h.length]; exact hsize, fun _ => trivial, fun _ => rfl⟩
  | cons op ops ih =>
      obtain ⟨t, chain', E', hstep, ht, hcard, hyes, hno⟩ := stepChecked_spec h hsize op hops.1
      obtain ⟨u, chain'', hrun, Cu, hu, hiff⟩ := ih ht hcard hops.2
      refine ⟨u, chain'', ?_, Cu, hu, ?_⟩
      · rw [SkipList.run, List.foldlM_cons, hstep]
        exact hrun
      · rw [SkipList.runChecked, List.foldlM_cons, SkipOp.Along]
        by_cases hk : op.KeepsGreatest D
        · rw [hyes hk]
          simp only [hk, true_and]
          exact hiff
        · rw [hno hk]
          simp only [hk, false_and, iff_false]
          exact fun hc => nomatch hc

/-- The calls run to their end with overflow checks, with the result they have
without, and so does get_rank afterwards. -/
def ChecksPass (ops : List (SkipOp S)) : Prop :=
  ∃ s, (SkipList.new : SkipList S).runChecked ops = some s ∧
    (SkipList.new : SkipList S).run ops = some s ∧
    ∀ score member, ∃ r, s.getRankChecked score member = some r ∧ s.getRank score member = some r

/-- The arithmetic on spans, ranks and the length stays in usize in exactly the
runs that never delete the greatest entry: the last node has span 0 on all its
levels, and delete_node takes 1 from it. -/
theorem checks_pass_iff (ops : List (SkipOp S)) (hops : SkipOp.Along SkipOp.Distinct ∅ ops) :
    ChecksPass ops ↔ SkipOp.Along SkipOp.KeepsGreatest ∅ ops := by
  have hnew : (SkipList.new : SkipList S).Stores ∅ [] [] :=
    ⟨new_chain, rfl, List.Pairwise.nil, by simp⟩
  obtain ⟨t, chain, hrun, C, hlen, hiff⟩ := runChecked_spec ops hnew (by simp) hops
  rw [← hiff]
  constructor
  · rintro ⟨s, hchecked, hs, -⟩
    rw [hchecked, ← hs, hrun]
  · intro hchecked
    exact ⟨t, hchecked, hrun, getRankChecked_spec C hlen⟩

end Total

section Sample

attribute [local instance] wholeTotal

/-- One member is added and removed again. -/
def addRemove : List (SkipOp Nat) :=
  [.insert 7 (ascii ['a']) [], .delete 7 (ascii ['a'])]

theorem remove_only_member_panics :
    SkipOp.Along SkipOp.Distinct ∅ addRemove ∧ ¬ ChecksPass addRemove := by
  refine ⟨⟨⟨by simp, by decide⟩, trivial, trivial⟩, ?_⟩
  rintro ⟨s, h, -⟩
  have hnone : (SkipList.new : SkipList Nat).runChecked addRemove = none := by decide +kernel
  rw [hnone] at h
  cases h

/-- Of two members the smaller one is removed. -/
def removeSmaller : List (SkipOp Nat) :=
  [.insert 7 (ascii ['a']) [], .insert 8 (ascii ['b']) [true], .delete 7 (ascii ['a'])]

theorem remove_smaller_passes : ChecksPass removeSmaller := by
  refine (checks_pass_iff removeSmaller ⟨⟨by simp, by decide⟩, ⟨?_, by decide⟩, trivial, trivial⟩).mpr
    ⟨trivial, trivial, fun _ => ⟨(8, ascii ['b']), by decide, by decide⟩, trivial⟩
  intro sc h
  simp only [SkipOp.stored, Finset.mem_insert, Prod.mk.injEq, Finset.notMem_empty, or_false] at h
  exact absurd h.2 (by decide)

end Sample

end RustKv.Zset
