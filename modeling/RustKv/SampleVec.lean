import Mathlib.Data.Finmap

namespace RustKv.SampleVec

variable {α K V : Type} [DecidableEq K] {keys ys : List K} {idx idx' : K → Option Nat} {k : K} {i : Nat}

/-- Vec::swap_remove: the last element takes the place of the one removed. None
when there is no element at `i`, where the program panics. -/
def swapRemove (xs : List α) (i : Nat) : Option (List α) :=
  match xs.getLast? with
  | some last => if i < xs.length then some (xs.set i last).dropLast else none
  | none => none

omit [DecidableEq K] in
theorem swapRemove_get (hi : i < keys.length) :
    ∃ ys, swapRemove keys i = some ys ∧ ∀ j, ys[j]? =
      if j + 1 < keys.length then (if j = i then keys[keys.length - 1]? else keys[j]?) else none := by
  have hne : keys ≠ [] := by
    rintro rfl
    simp at hi
  have hlast : keys.getLast? = some keys[keys.length - 1] := by
    rw [List.getLast?_eq_getElem?, List.getElem?_eq_getElem]
  refine ⟨_, by rw [swapRemove, hlast]; exact if_pos hi, ?_⟩
  intro j
  rw [List.getElem?_dropLast, List.length_set]
  by_cases hj : j < keys.length - 1
  · rw [if_pos hj, if_pos (by omega), List.getElem?_set]
    by_cases hji : j = i
    · rw [if_pos hji.symm, if_pos hji, if_pos (by omega), List.getElem?_eq_getElem]
    · rw [if_neg (Ne.symm hji), if_neg hji]
  · rw [if_neg hj, if_neg (by omega)]

/-- `idx` gives the one place where each key stands in `keys`. -/
def Sampled (keys : List K) (idx : K → Option Nat) : Prop :=
  ∀ k i, idx k = some i ↔ keys[i]? = some k

omit [DecidableEq K] in
theorem Sampled.nodup (h : Sampled keys idx) : keys.Nodup := by
  rw [List.nodup_iff_getElem?_ne_getElem?]
  intro i j hij hj hc
  have hj' := (List.getElem?_eq_getElem hj)
  have h1 := (h _ j).mpr hj'
  have h2 := (h _ i).mpr (hc.trans hj')
  rw [h1] at h2
  cases h2
  exact Nat.lt_irrefl _ hij

omit [DecidableEq K] in
theorem Sampled.mem_iff (h : Sampled keys idx) : k ∈ keys ↔ ∃ i, idx k = some i := by
  rw [List.mem_iff_getElem?]
  exact exists_congr (fun i => (h k i).symm)

theorem Sampled.push (h : Sampled keys idx) (hk : idx k = none) :
    Sampled (keys ++ [k]) (fun k' => if k' = k then some keys.length else idx k') := by
  intro k' i
  beta_reduce
  by_cases he : k' = k
  · subst he
    rw [if_pos rfl]
    by_cases hi : i < keys.length
    · rw [List.getElem?_append_left hi, ← h k' i, hk]
      simp
      omega
    · rw [List.getElem?_append_right (by omega), List.getElem?_singleton]
      simp
      omega
  · rw [if_neg he, h k' i]
    by_cases hi : i < keys.length
    · rw [List.getElem?_append_left hi]
    · rw [List.getElem?_append_right (by omega), List.getElem?_eq_none (by omega),
        List.getElem?_singleton]
      split
      · simp [Ne.symm he]
      · rfl

omit [DecidableEq K] in
theorem Sampled.place_unique {j : Nat} (h : Sampled keys idx) (hi : keys[i]? = some k)
    (hj : keys[j]? = some k) : i = j := by
  have h1 := (h k i).mpr hi
  rw [(h k j).mpr hj] at h1
  exact (Option.some.inj h1).symm

omit [DecidableEq K] in
/-- A key that is neither removed nor moved stays in its place. -/
theorem swapRemove_stays {k' : K} {j : Nat} (hget : ∀ j, ys[j]? =
      if j + 1 < keys.length then (if j = i then keys[keys.length - 1]? else keys[j]?) else none)
    (hki : keys[i]? = some k) (he : k' ≠ k) (hm : ys[i]? ≠ some k') :
    keys[j]? = some k' ↔ ys[j]? = some k' := by
  rw [hget] at hm ⊢
  constructor
  · intro hj
    obtain ⟨hjl, -⟩ := List.getElem?_eq_some_iff.mp hj
    have hji : j ≠ i := by
      rintro rfl
      rw [hki] at hj
      exact he (Option.some.inj hj).symm
    by_cases hjn : j + 1 < keys.length
    · rw [if_pos hjn, if_neg hji, hj]
    · exfalso
      apply hm
      have hj' : keys.length - 1 = j := by omega
      have hi := (List.getElem?_eq_some_iff.mp hki).1
      rw [if_pos (by omega), if_pos rfl, hj', hj]
  · intro hj
    split at hj
    · split at hj
      · next hjn hji =>
        subst hji
        rw [if_pos hjn, if_pos rfl] at hm
        exact absurd hj hm
      · exact hj
    · cases hj

/-- What swap_remove and the repair of the moved key's index make of the places. -/
theorem Sampled.swapRemove (h : Sampled keys idx) (hk : idx k = some i) :
    ∃ ys, swapRemove keys i = some ys ∧ (∀ k', ys[i]? = some k' → ∃ j, idx k' = some j) ∧
      Sampled ys (fun k' => if k' = k then none else if ys[i]? = some k' then some i else idx k') := by
  have hki := (h k i).mp hk
  obtain ⟨hi, -⟩ := List.getElem?_eq_some_iff.mp hki
  obtain ⟨ys, hys, hget⟩ := swapRemove_get hi
  have hlast : ∀ k', ys[i]? = some k' → keys[keys.length - 1]? = some k' := by
    intro k' hk'
    rw [hget] at hk'
    split at hk'
    · rw [if_pos rfl] at hk'
      exact hk'
    · cases hk'
  refine ⟨ys, hys, fun k' hk' => ⟨_, (h k' _).mpr (hlast k' hk')⟩, ?_⟩
  intro k' j
  by_cases he : k' = k
  · subst he
    simp only [if_true, reduceCtorEq, false_iff]
    intro hc
    rw [hget] at hc
    split at hc
    · split at hc
      · have := h.place_unique hki hc
        omega
      · next hji => exact hji (h.place_unique hc hki)
    · cases hc
  · simp only [if_neg he]
    by_cases hm : ys[i]? = some k'
    · rw [if_pos hm]
      constructor
      · rintro ⟨⟩
        exact hm
      · intro hj
        rw [hget] at hj
        split at hj
        · split at hj
          · next hji => rw [hji]
          · have := h.place_unique hj (hlast k' hm)
            omega
        · cases hj
    · rw [if_neg hm, h k' j]
      exact swapRemove_stays hget hki he hm

theorem lookup_insert_ite (m : Finmap (fun _ : K => V)) (k : K) (v : V) (k' : K) :
    (m.insert k v).lookup k' = if k' = k then some v else m.lookup k' := by
  split
  · next he => rw [he, Finmap.lookup_insert]
  · next he => rw [Finmap.lookup_insert_of_ne _ he]

theorem lookup_erase_ite (m : Finmap (fun _ : K => V)) (k k' : K) :
    (m.erase k).lookup k' = if k' = k then none else m.lookup k' := by
  split
  · next he => rw [he, Finmap.lookup_erase]
  · next he => rw [Finmap.lookup_erase_ne he]

/-- Changes the value of a key that is there, as through get_mut. -/
def adjust (m : Finmap (fun _ : K => V)) (k : K) (f : V → V) : Finmap (fun _ : K => V) :=
  match m.lookup k with
  | some v => m.insert k (f v)
  | none => m

theorem lookup_adjust (m : Finmap (fun _ : K => V)) (k k' : K) (f : V → V) :
    (adjust m k f).lookup k' = if k' = k then (m.lookup k').map f else m.lookup k' := by
  unfold adjust
  by_cases he : k' = k
  · subst he
    cases hl : m.lookup k' with
    | none => simp [hl]
    | some v => simp
  · cases hl : m.lookup k with
    | none => simp [he]
    | some v => simp [he]

end RustKv.SampleVec
