import Mathlib.Data.Fintype.Basic
import Mathlib.Data.List.Nodup
import Mathlib.Logic.Function.Basic
import Mathlib.Logic.Relation
import RustKv.RwLocks

namespace RustKv.LockOrder

open RwLocks

variable {I R : Type}

/-- A fair lock: who has it, and who waits for it in the order of arrival. -/
structure Lock (I : Type) where
  holders : List (I × Mode)
  queue : List (I × Mode)

namespace Lock

variable {l : Lock I} {i j : I} {mode : Mode}

def idle : Lock I := ⟨[], []⟩

def holding (l : Lock I) : List I := l.holders.map Prod.fst

def waiting (l : Lock I) : List I := l.queue.map Prod.fst

/-- One more may have the lock: it is free, or all read. -/
def admits (holders : List (I × Mode)) (mode : Mode) : Bool :=
  holders.all (fun h => decide (mode = .read ∧ h.2 = .read))

/-- Takes the lock, unless somebody is in the way or was there before. -/
def request (l : Lock I) (i : I) (mode : Mode) : Lock I :=
  if l.queue = [] ∧ admits l.holders mode then { l with holders := (i, mode) :: l.holders }
  else { l with queue := l.queue ++ [(i, mode)] }

/-- Hands the lock to those who have waited longest, as long as they can have it
together. -/
def handOver : List (I × Mode) → List (I × Mode) → Lock I
  | holders, [] => ⟨holders, []⟩
  | holders, w :: queue => if admits holders w.2 then handOver (w :: holders) queue else ⟨holders, w :: queue⟩

def release [DecidableEq I] (l : Lock I) (i : I) : Lock I :=
  handOver (l.holders.filter (fun h => h.1 ≠ i)) l.queue

/-- Nobody waits for a lock that he could have. -/
def Fair (l : Lock I) : Prop := ∀ w queue, l.queue = w :: queue → admits l.holders w.2 = false

theorem fair_idle : (idle : Lock I).Fair := by
  rintro w queue ⟨⟩

theorem fair_handOver (holders queue : List (I × Mode)) : (handOver holders queue).Fair := by
  induction queue generalizing holders with
  | nil => rintro w queue ⟨⟩
  | cons w queue ih =>
      rw [handOver]
      split
      · exact ih (w :: holders)
      · next h =>
        rintro _ _ ⟨⟩
        exact Bool.eq_false_iff.mpr h

theorem Fair.request (h : l.Fair) (i : I) (mode : Mode) : (l.request i mode).Fair := by
  unfold Lock.request
  split
  · next hfree =>
    intro w queue hq
    rw [hfree.1] at hq
    cases hq
  · next hbusy =>
    intro w queue hq
    cases hl : l.queue with
    | nil =>
        simp only [hl, List.nil_append, List.cons.injEq] at hq
        rw [← hq.1]
        exact Bool.eq_false_iff.mpr (fun ha => hbusy ⟨hl, ha⟩)
    | cons w' queue' =>
        simp only [hl, List.cons_append, List.cons.injEq] at hq
        rw [← hq.1]
        exact h w' queue' hl

/-- A lock that somebody waits for is held. -/
theorem Fair.held (h : l.Fair) (hi : i ∈ l.waiting) : ∃ j, j ∈ l.holding := by
  cases hq : l.queue with
  | nil => simp [waiting, hq] at hi
  | cons w queue =>
      have hblocked := h w queue hq
      cases hh : l.holders with
      | nil => simp [admits, hh] at hblocked
      | cons holder holders => exact ⟨holder.1, by simp [holding, hh]⟩

theorem request_cases (l : Lock I) (i : I) (mode : Mode) :
    ((l.request i mode).holding = i :: l.holding ∧ (l.request i mode).waiting = l.waiting) ∨
      ((l.request i mode).holding = l.holding ∧ (l.request i mode).waiting = l.waiting ++ [i]) := by
  unfold request
  split
  · exact .inl ⟨rfl, rfl⟩
  · exact .inr ⟨rfl, by simp [waiting]⟩

theorem handOver_split (holders queue : List (I × Mode)) :
    ∃ admitted, queue = admitted ++ (handOver holders queue).queue ∧
      (handOver holders queue).holders = admitted.reverse ++ holders := by
  induction queue generalizing holders with
  | nil => exact ⟨[], rfl, rfl⟩
  | cons w queue ih =>
      rw [handOver]
      split
      · obtain ⟨admitted, hqueue, hholders⟩ := ih (w :: holders)
        refine ⟨w :: admitted, ?_, ?_⟩
        · rw [List.cons_append, ← hqueue]
        · rw [hholders, List.reverse_cons, List.append_assoc]
          rfl
      · exact ⟨[], rfl, rfl⟩

theorem release_split [DecidableEq I] (l : Lock I) (i : I) :
    ∃ admitted, l.waiting = admitted ++ (l.release i).waiting ∧
      ∀ j, j ∈ (l.release i).holding ↔ j ∈ admitted ∨ (j ∈ l.holding ∧ j ≠ i) := by
  obtain ⟨admitted, hqueue, hholders⟩ := handOver_split (l.holders.filter (fun h => h.1 ≠ i)) l.queue
  refine ⟨admitted.map Prod.fst, ?_, fun j => ?_⟩
  · rw [waiting, hqueue, List.map_append]
    rfl
  · rw [holding, release, hholders, List.map_append, List.mem_append]
    apply or_congr
    · simp
    · simp only [holding, List.mem_map, List.mem_filter, decide_eq_true_eq]
      constructor
      · rintro ⟨h, ⟨hh, hne⟩, rfl⟩
        exact ⟨⟨h, hh, rfl⟩, hne⟩
      · rintro ⟨⟨h, hh, rfl⟩, hne⟩
        exact ⟨h, ⟨hh, hne⟩, rfl⟩

theorem nodup_request {l : Lock I} {i : I} (h : l.waiting.Nodup) (hi : i ∉ l.waiting) (mode : Mode) :
    (l.request i mode).waiting.Nodup := by
  rcases request_cases l i mode with ⟨-, hqueue⟩ | ⟨-, hqueue⟩
  · rw [hqueue]
    exact h
  · rw [hqueue, ← List.concat_eq_append]
    exact List.Nodup.concat hi h

theorem nodup_release [DecidableEq I] {l : Lock I} (h : l.waiting.Nodup) (i : I) :
    (l.release i).waiting.Nodup := by
  obtain ⟨admitted, hqueue, -⟩ := release_split l i
  rw [hqueue] at h
  exact h.of_append_right

end Lock

inductive Op (R : Type)
  | acquire (r : R) (mode : Mode)
  | release (r : R)
  | work

/-- Tasks that share locks, with what each of them has still to do. -/
structure System (I R : Type) where
  locks : R → Lock I
  progs : I → List (Op R)

namespace System

def start (progs : I → List (Op R)) : System I R := ⟨fun _ => .idle, progs⟩

def Holds (s : System I R) (i : I) : Prop := ∃ r, i ∈ (s.locks r).holding

def Waits (s : System I R) (i : I) : Prop := ∃ r, i ∈ (s.locks r).waiting

/-- The locks a task has, or waits for. -/
def claims (s : System I R) (i : I) (r : R) : Prop := i ∈ (s.locks r).holding ∨ i ∈ (s.locks r).waiting

variable [DecidableEq I] [DecidableEq R]

inductive Step : System I R → I → System I R → Prop
  | acquire {s : System I R} {i : I} {r : R} {mode : Mode} {prog : List (Op R)}
      (h : s.progs i = .acquire r mode :: prog) (hw : ¬ s.Waits i) :
      Step s i ⟨Function.update s.locks r ((s.locks r).request i mode), Function.update s.progs i prog⟩
  | release {s : System I R} {i : I} {r : R} {prog : List (Op R)} (h : s.progs i = .release r :: prog)
      (hw : ¬ s.Waits i) :
      Step s i ⟨Function.update s.locks r ((s.locks r).release i), Function.update s.progs i prog⟩
  | work {s : System I R} {i : I} {prog : List (Op R)} (h : s.progs i = .work :: prog) (hw : ¬ s.Waits i) :
      Step s i { s with progs := Function.update s.progs i prog }

def act (s : System I R) (i : I) : System I R :=
  match s.progs i with
  | .acquire r mode :: prog =>
      ⟨Function.update s.locks r ((s.locks r).request i mode), Function.update s.progs i prog⟩
  | .release r :: prog => ⟨Function.update s.locks r ((s.locks r).release i), Function.update s.progs i prog⟩
  | .work :: prog => { s with progs := Function.update s.progs i prog }
  | [] => s

theorem act_step {s : System I R} {i : I} (hw : ¬ s.Waits i) (hp : s.progs i ≠ []) : Step s i (s.act i) := by
  cases hprog : s.progs i with
  | nil => exact absurd hprog hp
  | cons op prog =>
      simp only [act, hprog]
      cases op with
      | acquire r mode => exact .acquire hprog hw
      | release r => exact .release hprog hw
      | work => exact .work hprog hw

def Reachable (s s' : System I R) : Prop := Relation.ReflTransGen (fun s s' => ∃ i, Step s i s') s s'

instance [Fintype R] (s : System I R) (i : I) : Decidable (s.Waits i) :=
  inferInstanceAs (Decidable (∃ r, i ∈ (s.locks r).waiting))

theorem reachable_acts {s : System I R} (turns : List I)
    (h : ∀ n (hn : n < turns.length), ¬ ((turns.take n).foldl act s).Waits turns[n] ∧
      ((turns.take n).foldl act s).progs turns[n] ≠ []) : Reachable s (turns.foldl act s) := by
  induction turns generalizing s with
  | nil => exact .refl
  | cons i turns ih =>
      have hfirst := h 0 (Nat.succ_pos _)
      have hstep : ∃ i, Step s i (s.act _) := ⟨i, act_step hfirst.1 hfirst.2⟩
      exact .head hstep (ih (fun n hn => h (n + 1) (Nat.succ_lt_succ hn)))

def CanStep (s : System I R) (i : I) : Prop := ∃ s', Step s i s'

/-- A task waits for those who have the lock, and for those before it in the queue. -/
def WaitsFor (s : System I R) (i j : I) : Prop :=
  ∃ r, i ∈ (s.locks r).waiting ∧ (j ∈ (s.locks r).holding ∨
    (j ∈ (s.locks r).waiting ∧ (s.locks r).waiting.idxOf j < (s.locks r).waiting.idxOf i))

end System

/-- A task only asks for locks above those it has, and has none at its end. -/
def Orderly (rank : R → Nat) : (R → Prop) → List (Op R) → Prop
  | held, [] => ∀ r, ¬ held r
  | held, .acquire r _ :: prog =>
      (∀ r', held r' → rank r' < rank r) ∧ Orderly rank (fun x => held x ∨ x = r) prog
  | held, .release r :: prog => Orderly rank (fun x => held x ∧ x ≠ r) prog
  | held, .work :: prog => Orderly rank held prog

/-- What holds while all tasks are orderly: they stay so, a task waits for one lock at a
time, and that lock is above all it has. -/
structure Ordered (rank : R → Nat) (s : System I R) : Prop where
  orderly : ∀ i, Orderly rank (s.claims i) (s.progs i)
  fair : ∀ r, (s.locks r).Fair
  nodup : ∀ r, (s.locks r).waiting.Nodup
  single : ∀ i r r', i ∈ (s.locks r).waiting → i ∈ (s.locks r').waiting → r = r'
  above : ∀ i r r', i ∈ (s.locks r).waiting → i ∈ (s.locks r').holding → rank r' < rank r

section Programs

variable {rank : R → Nat} {held : R → Prop} {prog : List (Op R)}

def once (r : R) (mode : Mode) : List (Op R) := [.acquire r mode, .work, .release r]

theorem orderly_once {r : R} (mode : Mode) (h : ∀ r', held r' → rank r' < rank r)
    (hprog : Orderly rank held prog) : Orderly rank held (once r mode ++ prog) := by
  refine ⟨h, ?_⟩
  have hafter : (fun x => (held x ∨ x = r) ∧ x ≠ r) = held := by
    funext x
    have hr : held r → False := fun hr => Nat.lt_irrefl _ (h r hr)
    by_cases hx : x = r
    · subst hx
      simpa using hr
    · simp [hx]
  rw [← hafter] at hprog
  exact hprog

theorem orderly_onces {A : Type} (xs : List A) (r : A → R) (mode : Mode)
    (h : ∀ x ∈ xs, ∀ r', held r' → rank r' < rank (r x)) (hprog : Orderly rank held prog) :
    Orderly rank held (xs.flatMap (fun x => once (r x) mode) ++ prog) := by
  induction xs with
  | nil => exact hprog
  | cons x xs ih =>
      rw [List.flatMap_cons, List.append_assoc]
      apply orderly_once mode (h x List.mem_cons_self)
      exact ih (fun y hy => h y (List.mem_cons_of_mem x hy))

theorem orderly_releases (rs : List R) (hprog : Orderly rank (fun x => held x ∧ x ∉ rs) prog) :
    Orderly rank held (rs.map .release ++ prog) := by
  induction rs generalizing held with
  | nil => simpa using hprog
  | cons r rs ih =>
      apply ih
      have hafter : (fun x => held x ∧ x ∉ r :: rs) = fun x => (held x ∧ x ≠ r) ∧ x ∉ rs := by
        funext x
        simp [and_assoc]
      rw [← hafter]
      exact hprog

end Programs

section Invariant

variable {rank : R → Nat} {s s' : System I R} {i : I}

theorem ordered_start {progs : I → List (Op R)} (h : ∀ i, Orderly rank (fun _ => False) (progs i)) :
    Ordered rank (System.start progs) where
  orderly i := by
    have hclaims : (System.start progs).claims i = fun _ => False := by
      funext r
      simp [System.claims, System.start, Lock.idle, Lock.holding, Lock.waiting]
    rw [hclaims]
    exact h i
  fair _ := Lock.fair_idle
  nodup _ := List.nodup_nil
  single _ _ _ hi := by cases hi
  above _ _ _ hi := by cases hi

/-- A step of one task leaves all orderly, if the task claims what the rest of its program
starts with, and the others what they have claimed before. -/
theorem Ordered.orderly_update [DecidableEq I] (h : Ordered rank s) {locks : R → Lock I}
    {held : R → Prop} {prog : List (Op R)} (horder : Orderly rank held prog)
    (hown : ∀ x, i ∈ (locks x).holding ∨ i ∈ (locks x).waiting ↔ held x)
    (hothers : ∀ k, k ≠ i → ∀ x, k ∈ (locks x).holding ∨ k ∈ (locks x).waiting ↔ s.claims k x) (k : I) :
    Orderly rank (System.claims ⟨locks, Function.update s.progs i prog⟩ k)
      (Function.update s.progs i prog k) := by
  by_cases hk : k = i
  · subst hk
    have hclaims : System.claims ⟨locks, Function.update s.progs k prog⟩ k = held := by
      funext x
      exact propext (hown x)
    rw [hclaims, Function.update_self]
    exact horder
  · have hclaims : System.claims ⟨locks, Function.update s.progs i prog⟩ k = s.claims k := by
      funext x
      exact propext (hothers k hk x)
    rw [hclaims, Function.update_of_ne hk]
    exact h.orderly k

variable [DecidableEq R]

theorem update_request (s : System I R) (i : I) (r : R) (mode : Mode) (k : I) (x : R) :
    let l := Function.update s.locks r ((s.locks r).request i mode) x
    (k ∈ l.holding ∨ k ∈ l.waiting ↔ s.claims k x ∨ (k = i ∧ x = r)) ∧
      (k ≠ i → (k ∈ l.holding ↔ k ∈ (s.locks x).holding) ∧ (k ∈ l.waiting ↔ k ∈ (s.locks x).waiting)) ∧
      (k ∈ l.waiting → k ∈ (s.locks x).waiting ∨ (k = i ∧ x = r ∧ l.holding = (s.locks x).holding)) := by
  intro l
  by_cases hx : x = r
  · subst hx
    have hl : l = (s.locks x).request i mode := Function.update_self ..
    rw [hl]
    rcases Lock.request_cases (s.locks x) i mode with ⟨hh, hw⟩ | ⟨hh, hw⟩
    · rw [hh, hw]
      refine ⟨?_, fun hk => ?_, fun hk => .inl hk⟩
      · simp only [System.claims, List.mem_cons]
        tauto
      · simp [hk]
    · rw [hh, hw]
      refine ⟨?_, fun hk => ?_, fun hk => ?_⟩
      · simp only [System.claims, List.mem_append, List.mem_singleton]
        tauto
      · simp [hk]
      · rcases List.mem_append.mp hk with hk | hk
        · exact .inl hk
        · exact .inr ⟨List.mem_singleton.mp hk, rfl, rfl⟩
  · have hl : l = s.locks x := Function.update_of_ne hx ..
    rw [hl]
    refine ⟨?_, fun _ => ⟨Iff.rfl, Iff.rfl⟩, fun hk => .inl hk⟩
    simp [System.claims, hx]

variable [DecidableEq I]

theorem Ordered.acquire (h : Ordered rank s) {r : R} {mode : Mode} {prog : List (Op R)}
    (hp : s.progs i = .acquire r mode :: prog) (hw : ¬ s.Waits i) :
    Ordered rank ⟨Function.update s.locks r ((s.locks r).request i mode), Function.update s.progs i prog⟩ := by
  have hupdate := update_request s i r mode
  have horder := h.orderly i
  rw [hp] at horder
  have hnew (x : R)
      (hx : i ∈ (Function.update s.locks r ((s.locks r).request i mode) x).waiting) : x = r := by
    rcases (hupdate i x).2.2 hx with hold | ⟨-, hx, -⟩
    · exact absurd ⟨x, hold⟩ hw
    · exact hx
  refine ⟨?_, ?_, ?_, fun k x x' hx hx' => ?_, fun k x x' hx hx' => ?_⟩
  · apply h.orderly_update horder.2
    · intro x
      exact (hupdate i x).1.trans (by simp)
    · intro k hk x
      exact (hupdate k x).1.trans (by simp [hk])
  · apply (Function.forall_update_iff s.locks (fun _ l => l.Fair)).mpr
    exact ⟨(h.fair r).request i mode, fun x _ => h.fair x⟩
  · apply (Function.forall_update_iff s.locks (fun _ l => l.waiting.Nodup)).mpr
    exact ⟨Lock.nodup_request (h.nodup r) (fun hi => hw ⟨r, hi⟩) mode, fun x _ => h.nodup x⟩
  · by_cases hk : k = i
    · subst hk
      rw [hnew x hx, hnew x' hx']
    · exact h.single k x x' (((hupdate k x).2.1 hk).2.mp hx) (((hupdate k x').2.1 hk).2.mp hx')
  · by_cases hk : k = i
    · subst hk
      -- the task has just asked for `r`, which is above all it claims
      have hr := hnew x hx
      subst hr
      apply horder.1
      rcases (hupdate k x).2.2 hx with hold | ⟨-, -, hsame⟩
      · exact absurd ⟨x, hold⟩ hw
      · by_cases hx'' : x' = x
        · subst hx''
          rw [hsame] at hx'
          exact .inl hx'
        · simp only [Function.update_of_ne hx''] at hx'
          exact .inl hx'
    · exact h.above k x x' (((hupdate k x).2.1 hk).2.mp hx) (((hupdate k x').2.1 hk).1.mp hx')

/-- A lock that a task gives back, in the eyes of all: those admitted have waited for
it. -/
theorem update_release (h : Ordered rank s) (hw : ¬ s.Waits i) (r : R) (k : I) (x : R) :
    let l := Function.update s.locks r ((s.locks r).release i) x
    (k ∈ l.holding ∨ k ∈ l.waiting ↔ s.claims k x ∧ ¬ (k = i ∧ x = r)) ∧
      (k ∈ l.waiting → k ∈ (s.locks x).waiting ∧ (k ∈ l.holding → k ∈ (s.locks x).holding)) ∧
      (k ∈ l.holding → k ∈ (s.locks x).holding ∨ k ∈ (s.locks x).waiting) := by
  intro l
  by_cases hx : x = r
  · subst hx
    have hl : l = (s.locks x).release i := Function.update_self ..
    obtain ⟨admitted, hqueue, hholding⟩ := Lock.release_split (s.locks x) i
    have hnodup := h.nodup x
    rw [hqueue, List.nodup_append] at hnodup
    have hin : i ∉ admitted ++ ((s.locks x).release i).waiting := by
      rw [← hqueue]
      exact fun hi => hw ⟨x, hi⟩
    rw [hl, System.claims, hqueue, hholding]
    refine ⟨?_, fun hk => ⟨List.mem_append.mpr (.inr hk), fun hh => ?_⟩, fun hk => ?_⟩
    · simp only [List.mem_append]
      by_cases hk : k = i
      · subst hk
        simp only [List.mem_append] at hin
        tauto
      · tauto
    · rcases hh with ha | hh
      · exact absurd rfl (hnodup.2.2 k ha k hk)
      · exact hh.1
    · rcases hk with ha | hh
      · exact .inr (List.mem_append.mpr (.inl ha))
      · exact .inl hh.1
  · have hl : l = s.locks x := Function.update_of_ne hx ..
    rw [hl]
    refine ⟨?_, fun hk => ⟨hk, fun hh => hh⟩, fun hk => .inl hk⟩
    simp [System.claims, hx]

theorem Ordered.release (h : Ordered rank s) {r : R} {prog : List (Op R)}
    (hp : s.progs i = .release r :: prog) (hw : ¬ s.Waits i) :
    Ordered rank ⟨Function.update s.locks r ((s.locks r).release i), Function.update s.progs i prog⟩ := by
  have hupdate := update_release h hw r
  have horder := h.orderly i
  rw [hp, Orderly] at horder
  refine ⟨?_, ?_, ?_, fun k x x' hx hx' => ?_, fun k x x' hx hx' => ?_⟩
  · apply h.orderly_update horder
    · intro x
      exact (hupdate i x).1.trans (by simp)
    · intro k hk x
      exact (hupdate k x).1.trans (by simp [hk])
  · apply (Function.forall_update_iff s.locks (fun _ l => l.Fair)).mpr
    exact ⟨Lock.fair_handOver _ _, fun x _ => h.fair x⟩
  · apply (Function.forall_update_iff s.locks (fun _ l => l.waiting.Nodup)).mpr
    exact ⟨Lock.nodup_release (h.nodup r) i, fun x _ => h.nodup x⟩
  · exact h.single k x x' ((hupdate k x).2.1 hx).1 ((hupdate k x').2.1 hx').1
  · obtain ⟨hx, hkept⟩ := (hupdate k x).2.1 hx
    rcases (hupdate k x').2.2 hx' with hold | hold
    · exact h.above k x x' hx hold
    · -- a task that has just been admitted waits for nothing else
      have hsame := h.single k x x' hx hold
      subst hsame
      exact h.above k x x hx (hkept hx')

theorem Ordered.step (h : Ordered rank s) (hs : System.Step s i s') : Ordered rank s' := by
  cases hs with
  | acquire hp hw => exact h.acquire hp hw
  | release hp hw => exact h.release hp hw
  | work hp hw =>
      refine ⟨?_, h.fair, h.nodup, h.single, h.above⟩
      have horder := h.orderly i
      rw [hp, Orderly] at horder
      exact h.orderly_update horder (fun _ => Iff.rfl) (fun _ _ _ => Iff.rfl)

theorem Ordered.reachable (h : Ordered rank s) (hs : System.Reachable s s') : Ordered rank s' := by
  induction hs with
  | refl => exact h
  | tail _ hstep ih =>
      obtain ⟨i, hstep⟩ := hstep
      exact ih.step hstep

end Invariant

section Deadlocks

variable {rank : R → Nat} {s : System I R} {i j : I} [DecidableEq I]

/-- Going from a task to one it waits for, the locks they wait for rise, or the place in
the queue gets better. -/
theorem Ordered.rises (h : Ordered rank s) (hij : Relation.TransGen s.WaitsFor i j) (r r' : R)
    (hr : i ∈ (s.locks r).waiting) (hr' : j ∈ (s.locks r').waiting) :
    rank r < rank r' ∨ (rank r = rank r' ∧
      (s.locks r').waiting.idxOf j < (s.locks r).waiting.idxOf i) := by
  have hone (k l : I) (x x' : R) (hkl : s.WaitsFor k l) (hk : k ∈ (s.locks x).waiting)
      (hl : l ∈ (s.locks x').waiting) : rank x < rank x' ∨ (rank x = rank x' ∧
        (s.locks x').waiting.idxOf l < (s.locks x).waiting.idxOf k) := by
    obtain ⟨y, hy, hheld | ⟨hbefore, hlt⟩⟩ := hkl
    · rw [h.single k x y hk hy]
      exact .inl (h.above l x' y hl hheld)
    · rw [h.single k x y hk hy, h.single l x' y hl hbefore]
      exact .inr ⟨rfl, hlt⟩
  induction hij generalizing r' with
  | single hij => exact hone _ _ r r' hij hr hr'
  | tail _ hkl ih =>
      obtain ⟨y, hy, -⟩ := id hkl
      have hfirst := ih y hy
      have hlast := hone _ _ y r' hkl hy hr'
      omega

/-- Nobody waits for himself, through whomever. -/
theorem Ordered.acyclic (h : Ordered rank s) (i : I) : ¬ Relation.TransGen s.WaitsFor i i := by
  intro hii
  have hwaits : s.Waits i := by
    rcases Relation.TransGen.head'_iff.mp hii with ⟨j, ⟨r, hr, -⟩, -⟩
    exact ⟨r, hr⟩
  obtain ⟨r, hr⟩ := hwaits
  have := h.rises hii r r hr hr
  omega

variable [DecidableEq R]

theorem Ordered.canStep (h : Ordered rank s) (hholds : s.Holds j) (hw : ¬ s.Waits j) : s.CanStep j := by
  obtain ⟨r, hr⟩ := hholds
  have horder := h.orderly j
  cases hp : s.progs j with
  | nil =>
      rw [hp] at horder
      exact absurd (.inl hr) (horder r)
  | cons op prog =>
      cases op with
      | acquire x mode => exact ⟨_, .acquire hp hw⟩
      | release x => exact ⟨_, .release hp hw⟩
      | work => exact ⟨_, .work hp hw⟩

/-- Behind every wait there is a task with a lock that can go on. -/
theorem Ordered.progress (h : Ordered rank s) {bound : Nat} (hbound : ∀ r, rank r ≤ bound)
    (hw : s.Waits i) : ∃ j, s.Holds j ∧ s.CanStep j := by
  obtain ⟨r, hr⟩ := hw
  induction hn : bound - rank r using Nat.strongRecOn generalizing i r with
  | ind n ih =>
      obtain ⟨j, hj⟩ := (h.fair r).held hr
      by_cases hwj : s.Waits j
      · obtain ⟨r', hr'⟩ := hwj
        have habove := h.above j r' r hr' hj
        have hle := hbound r'
        exact ih (bound - rank r') (by omega) r' hr' rfl
      · exact ⟨j, ⟨r, hj⟩, h.canStep ⟨r, hj⟩ hwj⟩

end Deadlocks

end RustKv.LockOrder
