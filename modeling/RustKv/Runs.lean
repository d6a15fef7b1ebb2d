import Mathlib.Data.Set.Basic
import Mathlib.Logic.Relation

namespace RustKv.Runs

variable {σ ε : Type} {step : σ → ε → σ} {P Q : σ → ε → Prop}

/-- Every event of a run happens in a state that allows it. -/
def Along (step : σ → ε → σ) (P : σ → ε → Prop) : σ → List ε → Prop
  | _, [] => True
  | s, e :: es => P s e ∧ Along step P (step s e) es

theorem Along.invariant {I : σ → Prop} (hstep : ∀ s e, I s → P s e → I (step s e)) (es : List ε)
    {s : σ} (h : Along step P s es) (hs : I s) : I (es.foldl step s) := by
  induction es generalizing s with
  | nil => exact hs
  | cons e es ih => exact ih h.2 (hstep s e hs h.1)

/-- The states that allowed steps of a relation lead to. -/
def Reaches (step : σ → ε → σ → Prop) (P : σ → ε → Prop) : σ → σ → Prop :=
  Relation.ReflTransGen (fun s s' => ∃ e, P s e ∧ step s e s')

theorem Reaches.next {step : σ → ε → σ → Prop} {s s' s'' : σ} (h : Reaches step P s s') {e : ε}
    (he : P s' e) (hs : step s' e s'') : Reaches step P s s'' :=
  h.tail ⟨e, he, hs⟩

theorem Reaches.invariant {step : σ → ε → σ → Prop} {s s' : σ} (h : Reaches step P s s') {I : σ → Prop}
    (hstep : ∀ s e s', I s → P s e → step s e s' → I s') (hs : I s) : I s' := by
  induction h with
  | refl => exact hs
  | tail _ hlast ih =>
      obtain ⟨e, he, hnext⟩ := hlast
      exact hstep _ e _ ih he hnext

end RustKv.Runs
