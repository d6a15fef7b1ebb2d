import Mathlib.Logic.Function.Basic

namespace RustKv.RwLocks

inductive Mode
  | read
  | write
  deriving DecidableEq, Repr

variable {I R : Type}

/-- A lock is free for a mode when nobody holds it, or when only readers do and one
more wants to read. -/
def Free (held : I → R → Option Mode) (mode : Mode) (r : R) : Prop :=
  ∀ j mode', held j r = some mode' → mode = .read ∧ mode' = .read

/-- Who holds a lock to write holds it alone. -/
def Exclusive (held : I → R → Option Mode) : Prop :=
  ∀ i j r, i ≠ j → held i r = some .write → held j r = none

variable {held held' : I → R → Option Mode} {i : I}

theorem Exclusive.update (h : Exclusive held) (hothers : ∀ j, j ≠ i → held' j = held j)
    (hi : ∀ r mode, held' i r = some mode → held i r = some mode ∨ Free held mode r) : Exclusive held' := by
  have hwrites (j : I) (r : R) (mode : Mode) (hj : j ≠ i) (hw : held j r = some .write)
      (hr : held' i r = some mode) : False := by
    rcases hi r mode hr with hold | hfree
    · rw [h j i r hj hw] at hold
      cases hold
    · cases (hfree j .write hw).2
  intro j j' r hne hw
  by_cases hj : j = i
  · subst hj
    rw [hothers j' hne.symm]
    rcases hi r .write hw with hold | hfree
    · exact h j j' r hne hold
    · cases hr : held j' r with
      | none => rfl
      | some mode => cases (hfree j' mode hr).1
  · rw [hothers j hj] at hw
    by_cases hj' : j' = i
    · subst hj'
      cases hr : held' j' r with
      | none => rfl
      | some mode => exact (hwrites j r mode hj hw hr).elim
    · rw [hothers j' hj']
      exact h j j' r hne hw

end RustKv.RwLocks
