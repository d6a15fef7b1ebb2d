import Mathlib.Data.List.Perm.Subperm
import RustKv.SkipList
import RustKv.Towers

namespace RustKv.Zset

open Text Domain Towers

variable {S : Type} {s : SkipList S} {chain P Q R : List Nat} {x y i : Nat}

def SkipList.levelCount (s : SkipList S) (x : Nat) : Nat :=
  (s.nodes[x]?.map (fun n => n.level.length)).getD 0

/-- How many levels of a node are in use: for the head, as many as the list has. -/
def SkipList.height (s : SkipList S) (x : Nat) : Nat :=
  if x = s.head then s.maxLevel else s.levelCount x

def SkipList.Holds (s : SkipList S) (x i : Nat) (l : Option Nat × Nat) : Prop :=
  s.link x i = some ⟨l.1, UInt64.ofNat l.2⟩

/-- The nodes of the list in order are `chain`. The ordering of the scores plays
no part in this. -/
structure SkipList.Chain (s : SkipList S) (chain : List Nat) : Prop where
  linked : Linked s.Holds s.height (s.head :: chain) []
  nodup : (s.head :: chain).Nodup
  bound : ∀ x ∈ s.head :: chain, x < s.nodes.length
  length : s.length = UInt64.ofNat chain.length
  height_pos : ∀ x ∈ chain, 0 < s.height x
  height_le : ∀ x ∈ chain, s.height x ≤ s.maxLevel
  maxLevel_pos : 0 < s.maxLevel
  maxLevel_le : s.maxLevel ≤ zskiplistMaxlevel
  unused : ∀ i, s.maxLevel ≤ i → i < zskiplistMaxlevel → ∃ d, s.link s.head i = some ⟨none, d⟩
  free_nodup : s.freeList.Nodup
  free_bound : ∀ x ∈ s.freeList, x < s.nodes.length
  free_fresh : ∀ x ∈ s.freeList, x ∉ s.head :: chain

theorem SkipList.height_head (s : SkipList S) : s.height s.head = s.maxLevel := by
  simp [SkipList.height]

namespace SkipList.Chain

theorem height_pos_of_mem (C : s.Chain chain) (hx : x ∈ s.head :: chain) : 0 < s.height x := by
  rcases List.mem_cons.mp hx with rfl | hx
  · rw [s.height_head]
    exact C.maxLevel_pos
  · exact C.height_pos x hx

theorem height_le_of_mem (C : s.Chain chain) (hx : x ∈ s.head :: chain) :
    s.height x ≤ s.maxLevel := by
  rcases List.mem_cons.mp hx with rfl | hx
  · exact Nat.le_of_eq s.height_head
  · exact C.height_le x hx

theorem length_lt (C : s.Chain chain) : chain.length < s.nodes.length := by
  have hsub : s.head :: chain ⊆ List.range s.nodes.length :=
    fun x hx => List.mem_range.mpr (C.bound x hx)
  have hle := (List.subperm_of_subset C.nodup hsub).length_le
  rwa [List.length_cons, List.length_range] at hle

theorem link_eq (C : s.Chain chain) (e : s.head :: chain = P ++ x :: R) (hi : i < s.height x) :
    s.link x i = some ⟨(hop s.height i R).1, UInt64.ofNat (hop s.height i R).2⟩ := by
  have hh := C.linked P x R e i hi
  rwa [List.append_nil] at hh

theorem node_eq (C : s.Chain chain) (hx : x ∈ s.head :: chain) : ∃ n, s.nodes[x]? = some n :=
  ⟨_, List.getElem?_eq_getElem (C.bound x hx)⟩

theorem position_unique (C : s.Chain chain) (e : s.head :: chain = P ++ x :: R)
    {P' R' : List Nat} (e' : s.head :: chain = P' ++ x :: R') : P = P' ∧ R = R' := by
  have nodup := C.nodup
  rw [e] at nodup
  have hP : x ∉ P := fun hx => (List.nodup_append.mp nodup).2.2 x hx x (by simp) rfl
  have hR : x ∉ R := (List.nodup_cons.mp (List.nodup_append.mp nodup).2.1).1
  obtain ⟨hP, -, hR⟩ := (List.append_cons_inj_of_notMem hP hR).mp (e.symm.trans e')
  exact ⟨hP, hR⟩

end SkipList.Chain

theorem new_chain [Score S] : (SkipList.new : SkipList S).Chain [] where
  linked := by
    refine linked_cons.mpr ⟨?_, linked_nil⟩
    intro i hi
    have h0 : i = 0 := Nat.lt_one_iff.mp hi
    subst h0
    rfl
  nodup := by simp
  bound := by simp [SkipList.new]
  length := rfl
  height_pos := by simp
  height_le := by simp
  maxLevel_pos := Nat.one_pos
  maxLevel_le := show 1 ≤ 32 by decide
  unused i _ h2 := ⟨0, by simp [SkipList.link, SkipList.new, emptyNode, h2]⟩
  free_nodup := List.nodup_nil
  free_bound := by simp [SkipList.new]
  free_fresh := by simp [SkipList.new]

/-- A search with the test `pass` goes on to node `y`. -/
def SkipList.Passes (s : SkipList S) (chain : List Nat) (pass : Node S → UInt64 → Bool)
    (y : Nat) : Prop :=
  ∃ n P R, s.nodes[y]? = some n ∧ s.head :: chain = P ++ y :: R ∧
    pass n (UInt64.ofNat P.length) = true

/-- One level of a search, from node `x` to node `y`. Levels above that were
settled before stay settled. -/
theorem walk_spec (C : s.Chain chain) (pass : Node S → UInt64 → Bool) (fuel : Nat)
    (e : s.head :: chain = P ++ x :: R) (hi : i < s.height x) (hf : R.length < fuel) :
    ∃ Q y R', s.walk pass i fuel x (UInt64.ofNat P.length) = some (y, UInt64.ofNat Q.length) ∧
      s.head :: chain = Q ++ y :: R' ∧ i < s.height y ∧ (y = x ∨ s.Passes chain pass y) ∧
      Settled s.height (s.Passes chain pass) i (Q ++ [y]) R' y Q.length ∧
      ∀ j u r, i ≤ j → Settled s.height (s.Passes chain pass) j (P ++ [x]) R u r →
        Settled s.height (s.Passes chain pass) j (Q ++ [y]) R' u r := by
  induction fuel generalizing P x R with
  | zero => exact absurd hf (Nat.not_lt_zero _)
  | succ fuel ih =>
      have hstop (hR : ∀ y, (hop s.height i R).1 = some y → ¬ s.Passes chain pass y) :=
        Settled.stop (P := P) hi hR
      rw [SkipList.walk, C.link_eq e hi]
      simp only [Option.bind_eq_bind, Option.bind_some]
      cases hn : (hop s.height i R).1 with
      | none =>
          exact ⟨P, x, R, rfl, e, hi, .inl rfl, hstop (by simp [hn]), fun _ _ _ _ st => st⟩
      | some z =>
          obtain ⟨M, R', hR, hz, short, hd⟩ := hop_some hn
          have hzmem : z ∈ s.head :: chain := by simp [e, hR]
          obtain ⟨n, hnode⟩ := C.node_eq hzmem
          have e' : s.head :: chain = (P ++ x :: M) ++ z :: R' := by simp [e, hR]
          have hrank : UInt64.ofNat P.length + UInt64.ofNat (hop s.height i R).2 =
              UInt64.ofNat (P ++ x :: M).length := by
            rw [hd, ← UInt64.ofNat_add]
            simp
          simp only [hnode, Option.bind_some, hrank]
          by_cases hp : pass n (UInt64.ofNat (P ++ x :: M).length) = true
          · have hpass : s.Passes chain pass z := ⟨n, _, _, hnode, e', hp⟩
            have hf' : R'.length < fuel := by
              rw [hR] at hf
              simp only [List.length_append, List.length_cons] at hf
              omega
            rw [if_pos hp]
            obtain ⟨Q, y, R'', hw, eq, hy, hyx, st, keep⟩ := ih e' hz hf'
            refine ⟨Q, y, R'', hw, eq, hy, ?_, st, ?_⟩
            · rcases hyx with rfl | hyx
              · exact .inr hpass
              · exact .inr hyx
            · intro j u r hij st'
              rw [hR] at st'
              have := st'.advance hij short hpass
              exact keep j u r hij (by simpa using this)
          · rw [if_neg hp]
            refine ⟨P, x, R, rfl, e, hi, .inl rfl, hstop ?_, fun _ _ _ _ st => st⟩
            rintro y hy ⟨n', P', R'', hnode', hP', hpass⟩
            rw [hn] at hy
            cases hy
            obtain ⟨rfl, -⟩ := C.position_unique e' hP'
            rw [hnode] at hnode'
            cases hnode'
            exact hp hpass

/-- Where a search stands when the levels from `n` up are done. -/
structure SkipList.Reached (s : SkipList S) (chain : List Nat) (pass : Node S → UInt64 → Bool)
    (n : Nat) (p : Path) (Q R : List Nat) : Prop where
  split : s.head :: chain = Q ++ p.current :: R
  rank : p.rank = UInt64.ofNat Q.length
  tall : n ≤ s.height p.current
  origin : p.current = s.head ∨ s.Passes chain pass p.current
  levels : p.stops.length + n = s.maxLevel
  settled : ∀ k, k < p.stops.length → ∃ u r, p.stops[k]? = some (u, UInt64.ofNat r) ∧
    Settled s.height (s.Passes chain pass) (n + k) (Q ++ [p.current]) R u r

theorem search_spec (C : s.Chain chain) (pass : Node S → UInt64 → Bool) (n : Nat) (p : Path)
    (h : s.Reached chain pass n p Q R) :
    ∃ p' Q' R', s.search pass n p = some p' ∧ s.Reached chain pass 0 p' Q' R' := by
  induction n generalizing p Q R with
  | zero => exact ⟨p, Q, R, rfl, h⟩
  | succ n ih =>
      have hlen : R.length < s.nodes.length + 1 := by
        have := C.length_lt
        have := congrArg List.length h.split
        simp only [List.length_cons, List.length_append] at this
        omega
      obtain ⟨Q', y, R', hw, eq, hy, hyx, st, keep⟩ :=
        walk_spec C pass (s.nodes.length + 1) h.split h.tall hlen
      rw [SkipList.search, h.rank, hw]
      simp only [Option.bind_eq_bind, Option.bind_some]
      refine ih (Q := Q') (R := R') _ ⟨eq, rfl, Nat.le_of_lt hy, ?_, ?_, ?_⟩
      · rcases hyx with rfl | hyx
        · exact h.origin
        · exact .inr hyx
      · have := h.levels
        simp only [List.length_cons]
        omega
      · intro k hk
        cases k with
        | zero => exact ⟨y, Q'.length, rfl, st⟩
        | succ k =>
            obtain ⟨u, r, hu, st'⟩ := h.settled k (Nat.lt_of_succ_lt_succ hk)
            refine ⟨u, r, hu, ?_⟩
            have := keep (n + 1 + k) u r (by omega) st'
            rwa [Nat.add_assoc, Nat.add_comm 1 k] at this

theorem reached_start (chain : List Nat) (pass : Node S → UInt64 → Bool) :
    s.Reached chain pass s.maxLevel ⟨s.head, 0, []⟩ [] chain where
  split := rfl
  rank := rfl
  tall := Nat.le_of_eq s.height_head.symm
  origin := .inl rfl
  levels := by simp
  settled := by simp

end RustKv.Zset
