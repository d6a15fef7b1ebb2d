import RustKv.Pieces
import RustKv.Recovery

namespace RustKv.Recovery

open Text Pieces Protocol Domain FrameParser FrameRoundTrip CommandParser AofRoundTrip Zset RustKv.Types
  Executor

variable {S J : Type} [Host] [F64 S] [SerdeJson J] {rts : Nat → Runtime} {r : Recovered S J}

theorem replayFrames_append (rts : Nat → Runtime) (r : Recovered S J) (fs gs : List Frame) :
    replayFrames rts r (fs ++ gs) =
      match replayFrames rts r fs with
      | .ok r => replayFrames rts r gs
      | .error e => .error e := by
  induction fs generalizing r with
  | nil => rfl
  | cons f fs ih =>
      simp only [List.cons_append, replayFrames]
      cases replayFrame rts r f with
      | ok r => exact ih r
      | error e => rfl

theorem drain_frames (rts : Nat → Runtime) {fs : List Frame} (hfit : ∀ f ∈ fs, Fits f) {t : Bytes}
    (ht : t = [] ∨ parseFrame t = .ok none) (r : Recovered S J) (fuel n : Nat)
    (hfuel : (serializeAll fs ++ t).length ≤ fuel) :
    drain rts fuel r (serializeAll fs ++ t) n =
      match replayFrames rts r fs with
      | .ok r => .ok (r, if t = [] then none else some t, n + fs.length)
      | .error e => .error e := by
  induction fs generalizing r fuel n with
  | nil =>
      simp only [serializeAll, List.nil_append, replayFrames, List.length_nil, Nat.add_zero] at hfuel ⊢
      cases fuel with
      | zero =>
          have h0 : t = [] := List.length_eq_zero_iff.mp (Nat.le_zero.mp hfuel)
          simp [drain, h0]
      | succ fuel =>
          by_cases h0 : t = []
          · simp [drain, h0]
          · simp [drain, h0, ht.resolve_left h0]
  | cons f fs ih =>
      have hpos := serialize_length_pos f
      have hf := hfit f (by simp)
      have hne : serialize f ++ (serializeAll fs ++ t) ≠ [] := by
        intro h
        simp [serialize_ne_nil] at h
      rw [serializeAll, List.append_assoc] at hfuel ⊢
      rw [List.length_append] at hfuel
      cases fuel with
      | zero => omega
      | succ fuel =>
          simp only [drain, hne, if_false, parseFrame_append hf, replayFrames]
          cases replayFrame rts r f with
          | error e => rfl
          | ok r =>
              simp only [List.drop_left]
              rw [ih (fun g hg => hfit g (List.mem_cons_of_mem f hg)) r fuel (n + 1) (by omega)]
              simp only [List.length_cons]
              rw [Nat.add_right_comm n 1, Nat.add_assoc]

omit [Host] in
theorem parseFrame_cut {hs : List Frame} (hfit : ∀ f ∈ hs, Fits f) {t : Bytes}
    (ht : Cut serialize hs t) : t = [] ∨ parseFrame t = .ok none := by
  rcases ht with ⟨-, ht⟩ | ⟨f, hs', rfl, hpre, hne⟩
  · exact .inl ht
  · exact .inr (parseFrame_strictPrefix (hfit f (by simp)) hpre hne)

/-- Every read ends where a frame ends. -/
def OnFrames : List Frame → List Nat → Prop
  | _, [] => True
  | fs, n :: reads => ∃ gs hs, fs = gs ++ hs ∧ (serializeAll gs).length = n ∧ OnFrames hs reads

omit [Host] in
theorem serializeAll_eq_nil {fs : List Frame} (h : serializeAll fs = []) : fs = [] := by
  cases fs with
  | nil => rfl
  | cons f fs => exact absurd (List.append_eq_nil_iff.mp h).1 (serialize_ne_nil f)

omit [Host] in
theorem take_serializeAll (gs hs : List Frame) :
    (serializeAll (gs ++ hs)).take (serializeAll gs).length = serializeAll gs ∧
      (serializeAll (gs ++ hs)).drop (serializeAll gs).length = serializeAll hs := by
  rw [serializeAll_append]
  exact ⟨List.take_left, List.drop_left⟩

/-- Reads that end where frames end replay the frames, one after another. -/
theorem readLoop_onFrames {capacity : Nat} (hpos : 0 < capacity) (reads : List Nat) {fs : List Frame}
    (hfit : ∀ f ∈ fs, Fits f) (hreads : OnFrames fs reads)
    {result : Except AofError (Recovered S J × Bytes)}
    (h : readLoop rts capacity (serializeAll fs) r [] reads = some result) :
    result = match replayFrames rts r fs with
      | .ok r => .ok (r, [])
      | .error e => .error e := by
  have hcap : ¬ 0 = capacity := by omega
  induction reads generalizing fs r with
  | nil =>
      simp only [readLoop, List.length_nil, hcap, if_false] at h
      split at h
      · next hnil =>
        cases h
        rw [serializeAll_eq_nil hnil]
        rfl
      · cases h
  | cons n reads ih =>
      obtain ⟨gs, hs, rfl, hn, hrest⟩ := hreads
      obtain ⟨htake, hdrop⟩ := take_serializeAll gs hs
      have hd := drain_frames rts (fun f hf => hfit f (List.mem_append_left hs hf)) (.inl rfl)
        r (serializeAll gs).length 0 (by rw [List.append_nil])
      rw [List.append_nil] at hd
      rw [← hn] at h
      simp only [readLoop, List.length_nil, hcap, if_false, htake, hdrop, List.nil_append, hd] at h
      rw [replayFrames_append]
      split at h
      · cases hg : replayFrames rts r gs with
        | error e =>
            rw [hg] at h
            cases h
            rfl
        | ok r' =>
            rw [hg] at h
            exact ih (fun f hf => hfit f (List.mem_append_right gs hf)) hrest h
      · cases h

theorem drain_left (fuel : Nat) (r : Recovered S J) (data : Bytes) (n : Nat)
    {r' : Recovered S J} {left : Bytes} {n' : Nat}
    (h : drain rts fuel r data n = .ok (r', some left, n')) :
    left ≠ [] ∧ left.length ≤ data.length := by
  induction fuel generalizing r data n with
  | zero => cases h
  | succ fuel ih =>
      simp only [drain] at h
      split at h
      · cases h
      · next hne =>
        split at h
        · split at h
          · obtain ⟨hleft, hlen⟩ := ih _ _ _ h
            exact ⟨hleft, by rw [List.length_drop] at hlen; omega⟩
          · cases h
        · cases h
          exact ⟨hne, le_refl _⟩
        · cases h

theorem readLoop_tail {capacity : Nat} (reads : List Nat) {rest tail : Bytes} (htail : tail ≠ [])
    {r' : Recovered S J} {tail' : Bytes}
    (h : readLoop rts capacity rest r tail reads = some (.ok (r', tail'))) : tail' ≠ [] := by
  induction reads generalizing rest r tail with
  | nil =>
      simp only [readLoop] at h
      split at h
      · cases h
      · split at h <;> cases h
        exact htail
  | cons n reads ih =>
      simp only [readLoop] at h
      split at h
      · cases h
      · split at h
        · split at h
          · exact ih htail h
          · next hd =>
            split at h
            · cases h
            · exact ih (drain_left _ _ _ _ hd).1 h
          · cases h
        · cases h

theorem readLoop_isSome {capacity : Nat} (reads : List Nat) (r : Recovered S J) {rest tail : Bytes}
    (hpos : ∀ n ∈ reads, 0 < n) (hsum : reads.sum = rest.length)
    (hcap : tail.length + rest.length < capacity) :
    ∃ result, readLoop rts capacity rest r tail reads = some result := by
  induction reads generalizing rest r tail with
  | nil =>
      have hnil : rest = [] := List.length_eq_zero_iff.mp hsum.symm
      have hne : tail.length ≠ capacity := by omega
      simp only [readLoop, hne, if_false, hnil, if_true]
      exact ⟨_, rfl⟩
  | cons n reads ih =>
      rw [List.sum_cons] at hsum
      have hne : tail.length ≠ capacity := by omega
      have hn : 0 < n ∧ n ≤ capacity - tail.length ∧ n ≤ rest.length :=
        ⟨hpos n (by simp), by omega, by omega⟩
      have hrest : reads.sum = (rest.drop n).length := by rw [List.length_drop]; omega
      have hpos' : ∀ m ∈ reads, 0 < m := fun m hm => hpos m (List.mem_cons_of_mem n hm)
      simp only [readLoop, hne, if_false, hn, and_self, if_true]
      cases hd : drain rts (tail ++ rest.take n).length r (tail ++ rest.take n) 0 with
      | error e => exact ⟨_, rfl⟩
      | ok out =>
          obtain ⟨r₁, left, execTime⟩ := out
          cases left with
          | none => exact ih _ hpos' hrest (by omega)
          | some left =>
              obtain ⟨-, hlen⟩ := drain_left _ _ _ _ hd
              simp only
              split
              · exact ⟨_, rfl⟩
              · refine ih _ hpos' hrest ?_
                rw [List.length_append, List.length_take] at hlen
                omega

/-- Reads that leave no tail at the end of the file end where frames end. -/
theorem onFrames_of_readLoop {capacity : Nat} (reads : List Nat) {fs : List Frame}
    (hfit : ∀ f ∈ fs, Fits f) {r' : Recovered S J}
    (h : readLoop rts capacity (serializeAll fs) r [] reads = some (.ok (r', []))) :
    OnFrames fs reads := by
  induction reads generalizing fs r with
  | nil => trivial
  | cons n reads ih =>
      simp only [readLoop, List.nil_append] at h
      split at h
      · cases h
      · split at h
        · next hn =>
          have htake := List.take_prefix n (serializeAll fs)
          rw [serializeAll_eq_flatMap] at htake
          obtain ⟨gs, hs, t, rfl, htake, ht⟩ := prefix_flatMap (fun f _ => serialize_ne_nil f) htake
          have hparse := parseFrame_cut (fun f hf => hfit f (List.mem_append_right gs hf)) ht
          rw [← serializeAll_eq_flatMap, ← serializeAll_eq_flatMap] at htake
          have hd := drain_frames rts (fun f hf => hfit f (List.mem_append_left hs hf)) hparse
            r (serializeAll gs ++ t).length 0 (le_refl _)
          rw [htake, hd] at h
          cases hg : replayFrames rts r gs with
          | error e => simp [hg] at h
          | ok r₁ =>
              simp only [hg] at h
              by_cases h0 : t = []
              · subst h0
                rw [List.append_nil] at htake
                have hlen : (serializeAll gs).length = n := by
                  rw [← htake, List.length_take]
                  omega
                have hdrop := (take_serializeAll gs hs).2
                rw [hlen] at hdrop
                rw [if_pos rfl, hdrop] at h
                exact ⟨gs, hs, rfl, hlen, ih (fun f hf => hfit f (List.mem_append_right gs hf)) h⟩
              · rw [if_neg h0] at h
                simp only at h
                split at h
                · cases h
                · exact absurd rfl (readLoop_tail reads h0 h)
        · cases h

end RustKv.Recovery
