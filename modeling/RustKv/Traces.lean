import Mathlib.Algebra.BigOperators.Group.List.Basic
import Mathlib.Algebra.GroupWithZero.Nat
import Mathlib.Logic.Relation

namespace RustKv.Traces

variable {σ τ ε : Type} {step : σ → ε → σ → Prop} {step' : τ → ε → τ → Prop}

inductive Trace (step : σ → ε → σ → Prop) : σ → List ε → σ → Prop
  | nil (s : σ) : Trace step s [] s
  | cons {s s' s'' : σ} {e : ε} {es : List ε} (h : step s e s') (hrest : Trace step s' es s'') :
      Trace step s (e :: es) s''

/-- Two systems of which the second can follow each step of the first that is in `P`, as
long as the steps so far weigh less than `bound` together. -/
structure Follows (R : Nat → σ → τ → Prop) (weight : ε → Nat) (bound : Nat) (P : ε → Prop)
    (step : σ → ε → σ → Prop) (step' : τ → ε → τ → Prop) : Prop where
  step : ∀ {n s s' t e}, R n s t → P e → n + weight e < bound → step s e s' →
    ∃ t', step' t e t' ∧ R (n + weight e) s' t'

/-- What is seen of a run of the first system is seen of a run of the second. -/
theorem Follows.trace {R : Nat → σ → τ → Prop} {weight : ε → Nat} {bound : Nat} {P : ε → Prop}
    (h : Follows R weight bound P step step') {s s' : σ} {es : List ε} (hrun : Trace step s es s') {n : Nat}
    {t : τ} (hR : R n s t) (hP : ∀ e ∈ es, P e) (hn : n + (es.map weight).sum < bound) :
    ∃ t', Trace step' t es t' ∧ R (n + (es.map weight).sum) s' t' := by
  induction hrun generalizing n t with
  | nil s => exact ⟨t, .nil t, hR⟩
  | @cons s s₁ s₂ e es hs _ ih =>
      rw [List.map_cons, List.sum_cons, ← Nat.add_assoc] at hn ⊢
      obtain ⟨t₁, hs', hR₁⟩ := h.step hR (hP e (by simp)) (by omega) hs
      obtain ⟨t₂, hrest, hR₂⟩ := ih hR₁ (fun e he => hP e (List.mem_cons_of_mem _ he)) hn
      exact ⟨t₂, .cons hs' hrest, hR₂⟩

/-- A step with what is seen of it, between steps of which nothing is seen. -/
def Weak (inner : τ → τ → Prop) (outer : τ → ε → τ → Prop) (t : τ) (e : ε) (t' : τ) : Prop :=
  ∃ t₁ t₂, Relation.ReflTransGen inner t t₁ ∧ outer t₁ e t₂ ∧ Relation.ReflTransGen inner t₂ t'

variable {inner : τ → τ → Prop} {outer : τ → ε → τ → Prop} {t t₁ t' : τ} {e : ε}

theorem Weak.single (h : outer t e t') : Weak inner outer t e t' := ⟨t, t', .refl, h, .refl⟩

theorem Weak.snoc (h : outer t e t₁) (h' : inner t₁ t') : Weak inner outer t e t' :=
  ⟨t, t₁, .refl, h, .single h'⟩

end RustKv.Traces
