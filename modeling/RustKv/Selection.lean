import Mathlib.Data.List.Sort

namespace RustKv.Selection

variable {α : Type} [LinearOrder α] {k : Nat} {items kept : List α}

/-- A queue of at most k items, the least in front. An item goes to its place, and the
least one leaves when there are too many. -/
def offer (k : Nat) (heap : List α) (a : α) : List α :=
  let heap := heap.orderedInsert (· ≤ ·) a
  if k < heap.length then heap.tail else heap

/-- What is kept is k of the items, or all of them, and nothing greater is left out. -/
structure Greatest (k : Nat) (items kept : List α) : Prop where
  length : kept.length = min k items.length
  above : ∃ dropped, (kept ++ dropped).Perm items ∧ ∀ d ∈ dropped, ∀ a ∈ kept, d ≤ a

theorem Greatest.nil (k : Nat) : Greatest k ([] : List α) [] :=
  ⟨by simp, [], by simp, by simp⟩

theorem Greatest.mem (h : Greatest k items kept) {a : α} (ha : a ∈ kept) : a ∈ items := by
  obtain ⟨dropped, hperm, -⟩ := h.above
  exact hperm.subset (List.mem_append_left dropped ha)

theorem Greatest.nodup (h : Greatest k items kept) (hitems : items.Nodup) : kept.Nodup := by
  obtain ⟨dropped, hperm, -⟩ := h.above
  exact (hperm.nodup_iff.mpr hitems).of_append_left

theorem Greatest.le_of_not_mem (h : Greatest k items kept) {a b : α} (ha : a ∈ items)
    (hnot : a ∉ kept) (hb : b ∈ kept) : a ≤ b := by
  obtain ⟨dropped, hperm, hle⟩ := h.above
  have hmem : a ∈ kept ++ dropped := hperm.symm.subset ha
  exact hle a ((List.mem_append.mp hmem).resolve_left hnot) b hb

theorem offer_sorted (k : Nat) (a : α) (h : kept.Pairwise (· ≤ ·)) :
    (offer k kept a).Pairwise (· ≤ ·) := by
  have hsorted := h.orderedInsert a
  rw [offer]
  split
  · exact hsorted.tail
  · exact hsorted

theorem offer_greatest (h : Greatest k items kept) (hsorted : kept.Pairwise (· ≤ ·)) (a : α) :
    Greatest k (items ++ [a]) (offer k kept a) := by
  obtain ⟨dropped, hperm, hle⟩ := h.above
  have hlength := h.length
  have hinsert : (kept.orderedInsert (· ≤ ·) a).Perm (a :: kept) := List.perm_orderedInsert _ _ _
  have hall : (a :: kept ++ dropped).Perm (items ++ [a]) :=
    (hperm.cons a).trans (List.perm_append_singleton a items).symm
  have hsize : (kept.orderedInsert (· ≤ ·) a).length = kept.length + 1 := List.orderedInsert_length _ _ _
  rw [offer]
  split
  next hfull =>
    rw [hsize] at hfull
    cases hheap : kept.orderedInsert (· ≤ ·) a with
    | nil => simp [hheap] at hsize
    | cons least rest =>
        have horder := hsorted.orderedInsert a
        rw [hheap] at horder hinsert hsize
        have hleast := (List.pairwise_cons.mp horder).1
        refine ⟨?_, least :: dropped, ?_, ?_⟩
        · simp only [List.length_cons, List.tail_cons, List.length_append] at hsize ⊢
          omega
        · refine List.Perm.trans ?_ hall
          refine List.perm_middle.trans ?_
          exact hinsert.append_right dropped
        · -- with a queue that was full, what left earlier is below all that was in it
          intro d hd b hb
          rcases List.mem_cons.mp hd with rfl | hd
          · exact hleast b hb
          · rcases List.mem_cons.mp (hinsert.subset (List.mem_cons_of_mem least hb)) with rfl | hkept
            · rcases List.mem_cons.mp (hinsert.subset List.mem_cons_self) with rfl | hl
              · exact hle d hd least (hinsert.cons_inv.subset hb)
              · exact (hle d hd least hl).trans (hleast b hb)
            · exact hle d hd b hkept
  next hroom =>
    rw [hsize] at hroom
    have hnone : dropped = [] := by
      have hcount := hperm.length_eq
      rw [List.length_append] at hcount
      exact List.length_eq_zero_iff.mp (by omega)
    subst hnone
    refine ⟨?_, [], ?_, by simp⟩
    · rw [hsize, List.length_append, List.length_singleton]
      omega
    · exact (hinsert.append_right []).trans hall

theorem foldl_greatest (h : Greatest k items kept) (hsorted : kept.Pairwise (· ≤ ·)) (more : List α) :
    Greatest k (items ++ more) (more.foldl (offer k) kept) := by
  induction more generalizing items kept with
  | nil => simpa using h
  | cons a more ih =>
      have hrest := ih (offer_greatest h hsorted a) (offer_sorted k a hsorted)
      rwa [List.append_assoc] at hrest

/-- A queue of k items through which all items go keeps the greatest. -/
theorem greatest_foldl (k : Nat) (items : List α) : Greatest k items (items.foldl (offer k) []) := by
  simpa using foldl_greatest (Greatest.nil k) List.Pairwise.nil items

end RustKv.Selection
