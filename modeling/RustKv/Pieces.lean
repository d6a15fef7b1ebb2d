import Mathlib.Data.List.Infix

namespace RustKv.Pieces

variable {α β : Type} {f : α → List β} {xs done rest : List α} {p t : List β}

/-- `done` are the pieces of a concatenation that lie entirely within `p`. -/
def Contained (f : α → List β) (xs done : List α) (p : List β) : Prop :=
  ∃ rest, xs = done ++ rest ∧ done.flatMap f <+: p ∧
    ∀ x rest', rest = x :: rest' → ¬ (done ++ [x]).flatMap f <+: p

/-- What `p` has of the pieces that are left is a strict prefix of the first. -/
def Cut (f : α → List β) (rest : List α) (t : List β) : Prop :=
  (rest = [] ∧ t = []) ∨ ∃ x rest', rest = x :: rest' ∧ t <+: f x ∧ t ≠ f x

/-- Where a concatenation of pieces can be cut. -/
theorem prefix_flatMap (hne : ∀ x ∈ xs, f x ≠ []) (hp : p <+: xs.flatMap f) :
    ∃ done rest t, xs = done ++ rest ∧ p = done.flatMap f ++ t ∧ Cut f rest t := by
  induction xs generalizing p with
  | nil => exact ⟨[], [], p, rfl, rfl, .inl ⟨rfl, List.prefix_nil.mp hp⟩⟩
  | cons x xs ih =>
      rw [List.flatMap_cons] at hp
      rcases List.prefix_or_prefix_of_prefix hp (List.prefix_append (f x) _) with h | ⟨q, rfl⟩
      · by_cases he : p = f x
        · obtain ⟨done, rest, t, rfl, hq, ht⟩ := ih (p := [])
            (fun y hy => hne y (List.mem_cons_of_mem x hy)) List.nil_prefix
          exact ⟨x :: done, rest, t, rfl, by rw [List.flatMap_cons, List.append_assoc, ← hq, he,
            List.append_nil], ht⟩
        · exact ⟨[], x :: xs, p, rfl, rfl, .inr ⟨x, xs, rfl, h, he⟩⟩
      · obtain ⟨done, rest, t, rfl, rfl, ht⟩ := ih (fun y hy => hne y (List.mem_cons_of_mem x hy))
          ((List.prefix_append_right_inj _).mp hp)
        exact ⟨x :: done, rest, t, rfl, by rw [List.flatMap_cons, List.append_assoc], ht⟩

theorem contained_of_cut (ht : Cut f rest t) :
    Contained f (done ++ rest) done (done.flatMap f ++ t) := by
  refine ⟨rest, rfl, List.prefix_append _ _, fun x rest' hrest hpre => ?_⟩
  rcases ht with ⟨rfl, -⟩ | ⟨y, rest'', rfl, hpre', hstrict⟩
  · cases hrest
  · cases hrest
    rw [List.flatMap_append, List.prefix_append_right_inj, List.flatMap_singleton] at hpre
    exact hstrict (hpre'.eq_of_length_le hpre.length_le)

theorem prefix_of_contained {early : List α} (h : Contained f xs done p) (hearly : early <+: xs)
    (hp : early.flatMap f <+: p) : early <+: done := by
  obtain ⟨rest, rfl, -, hstop⟩ := h
  rcases List.prefix_or_prefix_of_prefix (List.prefix_append done rest) hearly with ⟨more, rfl⟩ | hle
  · cases more with
    | nil => rw [List.append_nil]
    | cons x more =>
        obtain ⟨rest', hxs⟩ := hearly
        rw [List.append_assoc, List.append_cancel_left_eq] at hxs
        refine absurd ?_ (hstop x _ hxs.symm)
        refine List.IsPrefix.trans ?_ hp
        exact ⟨more.flatMap f, by simp⟩
  · exact hle

theorem contained_unique {done done' : List α} (h : Contained f xs done p)
    (h' : Contained f xs done' p) : done = done' := by
  have hle : ∀ {d d' : List α}, Contained f xs d p → Contained f xs d' p → d' <+: d := by
    rintro d d' hd ⟨rest', hxs, hpre', -⟩
    exact prefix_of_contained hd (hxs ▸ List.prefix_append d' rest') hpre'
  exact (hle h' h).eq_of_length_le (hle h h').length_le

end RustKv.Pieces
