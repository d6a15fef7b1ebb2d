import Mathlib.Data.List.Basic
import Mathlib.Logic.Function.Basic

namespace RustKv.Towers

variable {ι : Type} {h h' : ι → Nat} {holds holds' : ι → Nat → Option ι × Nat → Prop}
variable {i j r : Nat} {u x y : ι} {A B C P Q R : List ι}

/-- The first node of a chain that reaches level `i` and how many steps away it
is; without one, the number of nodes up to the end of the chain. -/
def hop (h : ι → Nat) (i : Nat) : List ι → Option ι × Nat
  | [] => (none, 0)
  | y :: ys => if i < h y then (some y, 1) else ((hop h i ys).1, (hop h i ys).2 + 1)

theorem hop_tall (hy : i < h y) : hop h i (y :: R) = (some y, 1) := by
  simp [hop, hy]

theorem hop_append_short (short : ∀ x ∈ A, h x ≤ i) (C : List ι) :
    hop h i (A ++ C) = ((hop h i C).1, (hop h i C).2 + A.length) := by
  induction A with
  | nil => rfl
  | cons x xs ih =>
      have hx : ¬ i < h x := Nat.not_lt.mpr (short x (by simp))
      have hxs := ih (fun y hy => short y (List.mem_cons_of_mem x hy))
      simp only [List.cons_append, hop, if_neg hx, hxs, List.length_cons]
      rw [Nat.add_assoc]

theorem hop_append_tall (tall : ∃ x ∈ A, i < h x) (C : List ι) :
    hop h i (A ++ C) = hop h i A := by
  induction A with
  | nil => simp at tall
  | cons x xs ih =>
      by_cases hx : i < h x
      · simp [hop, hx]
      · have hxs : ∃ y ∈ xs, i < h y := by
          obtain ⟨y, hy, hiy⟩ := tall
          rcases List.mem_cons.mp hy with rfl | hy
          · exact absurd hiy hx
          · exact ⟨y, hy, hiy⟩
        simp only [List.cons_append, hop, if_neg hx, ih hxs]

theorem hop_congr (agree : ∀ x ∈ A, h' x = h x) : hop h' i A = hop h i A := by
  induction A with
  | nil => rfl
  | cons x xs ih =>
      rw [hop, hop, agree x (by simp), ih (fun y hy => agree y (List.mem_cons_of_mem x hy))]

theorem hop_some (e : (hop h i R).1 = some y) :
    ∃ M Q, R = M ++ y :: Q ∧ i < h y ∧ (∀ x ∈ M, h x ≤ i) ∧ (hop h i R).2 = M.length + 1 := by
  induction R with
  | nil => cases e
  | cons x xs ih =>
      by_cases hx : i < h x
      · rw [hop_tall hx] at e ⊢
        cases e
        exact ⟨[], xs, rfl, hx, by simp, rfl⟩
      · simp only [hop, if_neg hx] at e ⊢
        obtain ⟨M, Q, rfl, hy, short, hd⟩ := ih e
        refine ⟨x :: M, Q, rfl, hy, ?_, by rw [hd]; rfl⟩
        intro z hz
        rcases List.mem_cons.mp hz with rfl | hz
        · exact Nat.not_lt.mp hx
        · exact short z hz

theorem hop_none (e : (hop h i R).1 = none) :
    (∀ x ∈ R, h x ≤ i) ∧ (hop h i R).2 = R.length := by
  induction R with
  | nil => exact ⟨by simp, rfl⟩
  | cons x xs ih =>
      by_cases hx : i < h x
      · rw [hop_tall hx] at e
        cases e
      · simp only [hop, if_neg hx] at e ⊢
        obtain ⟨short, hd⟩ := ih e
        refine ⟨?_, by rw [hd]; rfl⟩
        intro z hz
        rcases List.mem_cons.mp hz with rfl | hz
        · exact Nat.not_lt.mp hx
        · exact short z hz

theorem hop_le : (hop h i R).2 ≤ R.length := by
  induction R with
  | nil => exact Nat.le_refl 0
  | cons x xs ih =>
      simp only [hop, List.length_cons]
      split
      · omega
      · exact Nat.succ_le_succ ih

theorem hop_pos (y : ι) (R : List ι) : 0 < (hop h i (y :: R)).2 := by
  simp only [hop]
  split
  · exact Nat.one_pos
  · exact Nat.succ_pos _

/-- Every node of `A` holds, at each of its levels, the hop over what follows
it in the chain `A ++ C`. -/
def Linked (holds : ι → Nat → Option ι × Nat → Prop) (h : ι → Nat) (A C : List ι) : Prop :=
  ∀ P x R, A = P ++ x :: R → ∀ i < h x, holds x i (hop h i (R ++ C))

theorem linked_nil : Linked holds h [] C := by
  intro P x R e
  simp at e

theorem linked_cons :
    Linked holds h (x :: A) C ↔
      (∀ i < h x, holds x i (hop h i (A ++ C))) ∧ Linked holds h A C := by
  constructor
  · intro hl
    refine ⟨hl [] x A rfl, ?_⟩
    rintro P y R rfl
    exact hl (x :: P) y R rfl
  · rintro ⟨hx, hl⟩ P y R e
    cases P with
    | nil => cases e; exact hx
    | cons p P => cases e; exact hl P y R rfl

theorem linked_append :
    Linked holds h (A ++ B) C ↔ Linked holds h A (B ++ C) ∧ Linked holds h B C := by
  induction A with
  | nil => exact ⟨fun hl => ⟨linked_nil, hl⟩, And.right⟩
  | cons x A ih => rw [List.cons_append, linked_cons, linked_cons, ih, List.append_assoc, and_assoc]

/-- `u`, `r` places from the start, is the last node of `A` that reaches level `i`. -/
def LastTall (h : ι → Nat) (i : Nat) (A : List ι) (u : ι) (r : Nat) : Prop :=
  ∃ P Q, A = P ++ u :: Q ∧ i < h u ∧ (∀ x ∈ Q, h x ≤ i) ∧ P.length = r

theorem LastTall.end (hx : i < h x) : LastTall h i (P ++ [x]) x P.length :=
  ⟨P, [], rfl, hx, by simp, rfl⟩

theorem LastTall.append (lt : LastTall h i A u r) (short : ∀ x ∈ B, h x ≤ i) :
    LastTall h i (A ++ B) u r := by
  obtain ⟨P, Q, rfl, hu, hQ, hr⟩ := lt
  refine ⟨P, Q ++ B, by simp, hu, ?_, hr⟩
  intro x hx
  rcases List.mem_append.mp hx with hx | hx
  · exact hQ x hx
  · exact short x hx

theorem LastTall.congr (lt : LastTall h i A u r) (agree : ∀ x ∈ A, i < h' x ↔ i < h x) :
    LastTall h' i A u r := by
  obtain ⟨P, Q, rfl, hu, hQ, hr⟩ := lt
  refine ⟨P, Q, rfl, (agree u (by simp)).mpr hu, ?_, hr⟩
  intro x hx
  have hxi := mt (agree x (by simp [hx])).mp (Nat.not_lt.mpr (hQ x hx))
  exact Nat.not_lt.mp hxi

theorem LastTall.mem (lt : LastTall h i A u r) : u ∈ A := by
  obtain ⟨P, Q, rfl, -⟩ := lt
  simp

theorem LastTall.tall (lt : LastTall h i A u r) : i < h u := by
  obtain ⟨P, Q, -, hu, -⟩ := lt
  exact hu

theorem LastTall.lt_length (lt : LastTall h i A u r) : r < A.length := by
  obtain ⟨P, Q, rfl, -, -, rfl⟩ := lt
  simp

theorem LastTall.unique (lt : LastTall h i A u r) (e : A = P ++ x :: R) (hx : i < h x)
    (short : ∀ y ∈ R, h y ≤ i) : x = u ∧ P.length = r := by
  obtain ⟨P', Q, e', hu, hQ, hr⟩ := lt
  rw [e, List.append_eq_append_iff] at e'
  rcases e' with ⟨M, hP, hM⟩ | ⟨M, hP, hM⟩
  · cases M with
    | nil => cases hM; exact ⟨rfl, by simpa [hP] using hr⟩
    | cons m M =>
        cases hM
        exact absurd hu (Nat.not_lt.mpr (short u (by simp)))
  · cases M with
    | nil => cases hM; exact ⟨rfl, by simpa [hP] using hr⟩
    | cons m M =>
        cases hM
        exact absurd hx (Nat.not_lt.mpr (hQ x (by simp)))

theorem LastTall.not_inner (lt : LastTall h i A u r) (nodup : A.Nodup) (e : A = P ++ x :: R)
    (tall : ∃ y ∈ R, i < h y) : x ≠ u := by
  rintro rfl
  obtain ⟨P', Q, e', hu, hQ, hr⟩ := lt
  obtain ⟨y, hy, hiy⟩ := tall
  rw [e] at nodup
  have hP : x ∉ P := fun hx => (List.nodup_append.mp nodup).2.2 x hx x (by simp) rfl
  have hR : x ∉ R := (List.nodup_cons.mp (List.nodup_append.mp nodup).2.1).1
  obtain ⟨-, -, rfl⟩ := (List.append_cons_inj_of_notMem hP hR).mp (e.symm.trans e')
  exact absurd hiy (Nat.not_lt.mpr (hQ y hy))

/-- What the last tall node of `A` holds: the hop over `C`, from further back. -/
theorem LastTall.link (lt : LastTall h i A u r) (hl : Linked holds h A C) :
    holds u i ((hop h i C).1, (hop h i C).2 + (A.length - 1 - r)) := by
  obtain ⟨P, Q, rfl, hu, hQ, rfl⟩ := lt
  have hh := hl P u Q rfl i hu
  rw [hop_append_short hQ] at hh
  have hlen : (P ++ u :: Q).length - 1 - P.length = Q.length := by
    simp only [List.length_append, List.length_cons]
    omega
  rwa [hlen]

/-- The chain after `A` is exchanged: nodes that are last at one of their levels
get the hop over the new chain there, and no other link changes. -/
theorem Linked.splice (hl : Linked holds h A C) (nodup : A.Nodup)
    (agree : ∀ x ∈ A, h' x = h x)
    (last : ∀ i u r, LastTall h i A u r →
      holds' u i ((hop h' i B).1, (hop h' i B).2 + (A.length - 1 - r)))
    (inner : ∀ i x, x ∈ A → i < h x → (∀ u r, LastTall h i A u r → x ≠ u) →
      ∀ l, holds x i l → holds' x i l) :
    Linked holds' h' A B := by
  intro P x R e i hi
  have hxA : x ∈ A := by simp [e]
  have hR : ∀ y ∈ R, h' y = h y := fun y hy => agree y (by simp [e, hy])
  rw [agree x hxA] at hi
  by_cases tall : ∃ y ∈ R, i < h y
  · have tall' : ∃ y ∈ R, i < h' y := by
      obtain ⟨y, hy, hiy⟩ := tall
      exact ⟨y, hy, by rwa [hR y hy]⟩
    rw [hop_append_tall tall', hop_congr hR, ← hop_append_tall tall C]
    exact inner i x hxA hi (fun u r lt => lt.not_inner nodup e tall) _ (hl P x R e i hi)
  · have short : ∀ y ∈ R, h y ≤ i := fun y hy => Nat.not_lt.mp (fun hy' => tall ⟨y, hy, hy'⟩)
    have short' : ∀ y ∈ R, h' y ≤ i := fun y hy => by rw [hR y hy]; exact short y hy
    have hh := last i x P.length ⟨P, R, e, hi, short, rfl⟩
    have hlen : A.length - 1 - P.length = R.length := by
      simp only [e, List.length_append, List.length_cons]
      omega
    rw [hop_append_short short']
    rwa [hlen] at hh

theorem Linked.mono (hl : Linked holds h A C) (agree : ∀ x ∈ A ++ C, h' x = h x)
    (keep : ∀ i x, x ∈ A → i < h x → ∀ l, holds x i l → holds' x i l) :
    Linked holds' h' A C := by
  intro P x R e i hi
  have hxA : x ∈ A := by simp [e]
  rw [agree x (by simp [hxA])] at hi
  have hR : ∀ y ∈ R ++ C, h' y = h y := by
    intro y hy
    refine agree y ?_
    rw [e]
    rcases List.mem_append.mp hy with hy | hy <;> simp [hy]
  rw [hop_congr hR]
  exact keep i x hxA hi _ (hl P x R e i hi)

/-- A search has settled level `i` between `A` and `R`: `u` is the last node of
`A` on that level, and the next one on it is not one to pass. -/
def Settled (h : ι → Nat) (pass : ι → Prop) (i : Nat) (A R : List ι) (u : ι) (r : Nat) : Prop :=
  LastTall h i A u r ∧ ∀ y, (hop h i R).1 = some y → ¬ pass y

theorem Settled.advance {pass : ι → Prop} {M : List ι}
    (st : Settled h pass j A (M ++ y :: R) u r) (hij : i ≤ j)
    (short : ∀ x ∈ M, h x ≤ i) (hy : pass y) : Settled h pass j (A ++ (M ++ [y])) R u r := by
  have short' : ∀ x ∈ M, h x ≤ j := fun x hx => Nat.le_trans (short x hx) hij
  have hyj : h y ≤ j := by
    by_contra hc
    have hop_y := hop_append_short short' (y :: R)
    rw [hop_tall (Nat.not_le.mp hc)] at hop_y
    exact st.2 y (by rw [hop_y]) hy
  refine ⟨st.1.append ?_, ?_⟩
  · intro x hx
    rcases List.mem_append.mp hx with hx | hx
    · exact short' x hx
    · rw [List.mem_singleton.mp hx]
      exact hyj
  · intro z hz
    refine st.2 z ?_
    rw [hop_append_short short']
    simpa [hop, Nat.not_lt.mpr hyj] using hz

theorem Settled.stop {pass : ι → Prop} (hx : i < h x)
    (hR : ∀ y, (hop h i R).1 = some y → ¬ pass y) :
    Settled h pass i (P ++ [x]) R x P.length :=
  ⟨LastTall.end hx, hR⟩

/-- Every node of the chain points back to the one before it, the first one to
`p`, and `last` is the node at its end. -/
def Mirrored (back : ι → Option ι) (p : Option ι) : List ι → Option ι → Prop
  | [], last => last = p
  | x :: xs, last => back x = p ∧ Mirrored back (some x) xs last

section Mirrored

variable {back back' : ι → Option ι} {p q last : Option ι}

theorem mirrored_append :
    Mirrored back p (A ++ B) last ↔ ∃ q, Mirrored back p A q ∧ Mirrored back q B last := by
  induction A generalizing p with
  | nil =>
      constructor
      · intro h
        exact ⟨p, rfl, h⟩
      · rintro ⟨q, rfl, h⟩
        exact h
  | cons x A ih =>
      simp only [List.cons_append, Mirrored, ih]
      constructor
      · rintro ⟨hx, q, hA, hB⟩
        exact ⟨q, ⟨hx, hA⟩, hB⟩
      · rintro ⟨q, ⟨hx, hA⟩, hB⟩
        exact ⟨hx, q, hA, hB⟩

theorem Mirrored.congr (h : Mirrored back p A last) (agree : ∀ x ∈ A, back' x = back x) :
    Mirrored back' p A last := by
  induction A generalizing p with
  | nil => exact h
  | cons x A ih =>
      refine ⟨(agree x (by simp)).trans h.1, ?_⟩
      exact ih h.2 (fun y hy => agree y (List.mem_cons_of_mem x hy))

theorem Mirrored.eq_last (h : Mirrored back p (A ++ [x]) last) : last = some x := by
  obtain ⟨q, -, -, hlast⟩ := mirrored_append.mp h
  exact hlast

variable [DecidableEq ι]

theorem Mirrored.update (h : Mirrored back p A last) (hx : x ∉ A) (q : Option ι) :
    Mirrored (Function.update back x q) p A last := by
  refine h.congr ?_
  intro y hy
  have hne : y ≠ x := by
    rintro rfl
    exact hx hy
  exact Function.update_of_ne hne q back

/-- A new node comes in at the end of the chain. -/
theorem Mirrored.concat (h : Mirrored back p A q) (hx : x ∉ A) :
    Mirrored (Function.update back x q) p (A ++ [x]) (some x) :=
  mirrored_append.mpr ⟨q, h.update hx q, Function.update_self x q back, rfl⟩

/-- A new node `x` comes in before `y`. -/
theorem Mirrored.insert (hA : Mirrored back p A q) (hB : Mirrored back q (y :: B) last)
    (nodup : (A ++ x :: y :: B).Nodup) :
    Mirrored (Function.update (Function.update back x q) y (some x)) p (A ++ x :: y :: B) last := by
  obtain ⟨-, hxB, hdisj⟩ := List.nodup_append.mp nodup
  obtain ⟨hxy, hyB⟩ := List.nodup_cons.mp hxB
  have hxA : x ∉ A := fun h => hdisj x h x (by simp) rfl
  have hyA : y ∉ A := fun h => hdisj y h y (by simp) rfl
  have hne : x ≠ y := fun h => hxy (by simp [h])
  refine mirrored_append.mpr ⟨q, (hA.update hxA q).update hyA _, ?_, ?_, ?_⟩
  · rw [Function.update_of_ne hne, Function.update_self]
  · rw [Function.update_self]
  · exact (hB.2.update (fun h => hxy (by simp [h])) q).update (List.nodup_cons.mp hyB).1 _

/-- The node `x` before `y` goes, and `y` points back to where it pointed. -/
theorem Mirrored.erase (h : Mirrored back p (A ++ x :: y :: B) last)
    (nodup : (A ++ x :: y :: B).Nodup) :
    Mirrored (Function.update back y (back x)) p (A ++ y :: B) last := by
  obtain ⟨-, hxB, hdisj⟩ := List.nodup_append.mp nodup
  obtain ⟨-, hyB⟩ := List.nodup_cons.mp hxB
  have hyA : y ∉ A := fun h => hdisj y h y (by simp) rfl
  obtain ⟨q, hA, rfl, -, hB⟩ := mirrored_append.mp h
  refine mirrored_append.mpr ⟨back x, hA.update hyA _, ?_, ?_⟩
  · rw [Function.update_self]
  · exact hB.update (List.nodup_cons.mp hyB).1 _

end Mirrored

end RustKv.Towers
