import RustKv.PolicySpec

namespace RustKv.Eviction

open Recency

variable {K : Type} [DecidableEq K] {k x : K}

inductive PolicyCall (K : Type)
  | write (key : K)
  | read (key : K)
  | delete (key : K)
  | victim
  deriving DecidableEq

/-- Whether the call is an on_write or on_read of `k`. -/
def PolicyCall.touches (k : K) : PolicyCall K → Bool
  | .write key => decide (key = k)
  | .read key => decide (key = k)
  | .delete _ => false
  | .victim => false

section History

variable {calls : List (PolicyCall K)}

/-- The calls since `k` was last inserted, its insertion the first of them. There
are none when `k` is not there. -/
def sinceInsert (k : K) (calls : List (PolicyCall K)) : List (PolicyCall K) :=
  (calls.reverse.takeWhile (fun c => decide (c ≠ .delete k))).reverse.dropWhile
    (fun c => decide (c ≠ .write k))

/-- How often `k` was written or read since it was last inserted. -/
def uses (k : K) (calls : List (PolicyCall K)) : Nat :=
  (sinceInsert k calls).countP (PolicyCall.touches k)

/-- How many calls were made since `k` was last written or read. -/
def age (k : K) (calls : List (PolicyCall K)) : Nat := calls.reverse.findIdx (PolicyCall.touches k)

theorem sinceInsert_snoc (k : K) (calls : List (PolicyCall K)) (c : PolicyCall K) :
    sinceInsert k (calls ++ [c]) =
      if c = .delete k then []
      else if sinceInsert k calls = [] then (if c = .write k then [c] else [])
      else sinceInsert k calls ++ [c] := by
  rw [sinceInsert, List.reverse_append, List.reverse_singleton, List.singleton_append, List.takeWhile_cons]
  by_cases hdel : c = .delete k
  · simp [hdel]
  · rw [if_pos (by simpa using hdel), if_neg hdel, List.reverse_cons, List.dropWhile_append]
    change (if (sinceInsert k calls).isEmpty = true then _ else sinceInsert k calls ++ [c]) = _
    simp only [List.isEmpty_iff]
    split
    · by_cases hwrite : c = .write k
      · simp [hwrite]
      · simp [hwrite]
    · rfl

theorem uses_eq_zero : uses k calls = 0 ↔ sinceInsert k calls = [] := by
  induction calls using List.reverseRecOn with
  | nil => simp [uses, sinceInsert]
  | append_singleton calls c ih =>
      rw [uses, sinceInsert_snoc]
      split
      · simp
      · split
        · split
          · next hc => simp [hc, PolicyCall.touches]
          · simp
        · next hne =>
          rw [List.countP_append]
          change uses k calls + _ = 0 ↔ _
          have := mt ih.mp hne
          simp [this]

/-- A use counts once the key is there, and the write that brings it in does too. -/
theorem uses_snoc (k : K) (calls : List (PolicyCall K)) (c : PolicyCall K) :
    uses k (calls ++ [c]) =
      if c = .delete k then 0
      else if c.touches k = true ∧ (c = .write k ∨ 0 < uses k calls) then uses k calls + 1
      else uses k calls := by
  rw [uses, sinceInsert_snoc]
  by_cases hdel : c = .delete k
  · rw [if_pos hdel, if_pos hdel]
    rfl
  · rw [if_neg hdel, if_neg hdel]
    by_cases hs : sinceInsert k calls = []
    · rw [if_pos hs, uses_eq_zero.mpr hs]
      by_cases hwrite : c = .write k
      · simp [hwrite, PolicyCall.touches]
      · simp [hwrite]
    · have hpos : 0 < uses k calls := Nat.pos_of_ne_zero (mt uses_eq_zero.mp hs)
      rw [if_neg hs, List.countP_append, List.countP_singleton]
      change uses k calls + _ = _
      cases c.touches k with
      | true => simp [hpos]
      | false => simp

theorem uses_write (x : K) : uses k (calls ++ [.write x]) = if k = x then uses k calls + 1 else uses k calls := by
  by_cases hk : k = x
  · simp [uses_snoc, PolicyCall.touches, hk]
  · simp [uses_snoc, PolicyCall.touches, hk, Ne.symm hk]

theorem uses_read (x : K) :
    uses k (calls ++ [.read x]) = if k = x ∧ 0 < uses k calls then uses k calls + 1 else uses k calls := by
  simp [uses_snoc, PolicyCall.touches, eq_comm]

theorem uses_delete (x : K) : uses k (calls ++ [.delete x]) = if k = x then 0 else uses k calls := by
  simp [uses_snoc, PolicyCall.touches, eq_comm]

theorem uses_victim : uses k (calls ++ [.victim]) = uses k calls := by
  simp [uses_snoc, PolicyCall.touches]

theorem age_snoc (k : K) (calls : List (PolicyCall K)) (c : PolicyCall K) :
    age k (calls ++ [c]) = if c.touches k then 0 else age k calls + 1 := by
  rw [age, List.reverse_append, List.reverse_singleton, List.singleton_append, List.findIdx_cons]
  cases c.touches k with
  | true => rfl
  | false => rfl

/-- The order after the call, when `order` is the one before it. -/
def PolicyCall.reorder : PolicyCall K → List K → List K
  | .write k, order => touch k order
  | .read k, order => if k ∈ order then touch k order else order
  | .delete k, order => forget k order
  | .victim, order => order

/-- The keys that are there, the one used longest ago first. -/
def recency (calls : List (PolicyCall K)) : List K := calls.foldl (fun order c => c.reorder order) []

theorem recency_snoc (calls : List (PolicyCall K)) (c : PolicyCall K) :
    recency (calls ++ [c]) = c.reorder (recency calls) := by
  rw [recency, List.foldl_append]
  rfl

theorem mem_recency : k ∈ recency calls ↔ 0 < uses k calls := by
  induction calls using List.reverseRecOn generalizing k with
  | nil => simp [recency, uses, sinceInsert]
  | append_singleton calls c ih =>
      rw [recency_snoc]
      cases c with
      | write x =>
          rw [PolicyCall.reorder, mem_touch, ih, uses_write]
          by_cases hk : k = x
          · simp [hk]
          · simp [hk]
      | read x =>
          rw [PolicyCall.reorder, uses_read]
          by_cases hx : x ∈ recency calls
          · rw [if_pos hx, mem_touch, ih]
            by_cases hk : k = x
            · simp [hk, ih.mp hx]
            · simp [hk]
          · rw [if_neg hx, ih, if_neg]
            rintro ⟨rfl, hk⟩
            exact hx (ih.mpr hk)
      | delete x =>
          rw [PolicyCall.reorder, mem_forget, ih, uses_delete]
          by_cases hk : k = x
          · simp [hk]
          · simp [hk]
      | victim => rw [PolicyCall.reorder, ih, uses_victim]

/-- The order is that of the last uses. -/
theorem recency_oldest (calls : List (PolicyCall K)) : Oldest (fun k => age k calls) (recency calls) := by
  induction calls using List.reverseRecOn with
  | nil => exact List.Pairwise.nil
  | append_singleton calls c ih =>
      rw [recency_snoc]
      cases c with
      | write x =>
          refine ih.touch ?_ ?_
          · intro y hy
            simp [age_snoc, PolicyCall.touches, Ne.symm hy]
          · simp [age_snoc, PolicyCall.touches]
      | read x =>
          rw [PolicyCall.reorder]
          by_cases hx : x ∈ recency calls
          · rw [if_pos hx]
            refine ih.touch ?_ ?_
            · intro y hy
              simp [age_snoc, PolicyCall.touches, Ne.symm hy]
            · simp [age_snoc, PolicyCall.touches]
          · rw [if_neg hx]
            refine ih.later ?_
            intro y hy
            have hne : x ≠ y := fun he => hx (he ▸ hy)
            simp [age_snoc, PolicyCall.touches, hne]
      | delete x =>
          refine ih.forget ?_
          intro y _
          simp [age_snoc, PolicyCall.touches]
      | victim =>
          refine ih.later ?_
          intro y _
          simp [age_snoc, PolicyCall.touches]

theorem nodup_recency (calls : List (PolicyCall K)) : (recency calls).Nodup := by
  refine (recency_oldest calls).imp ?_
  rintro a _ hab rfl
  exact lt_irrefl _ hab

end History

namespace EvictionStrategy

def call (e : EvictionStrategy K) : PolicyCall K → Option (EvictionStrategy K)
  | .write k => e.onWrite k
  | .read k => e.onRead k
  | .delete k => e.onDelete k
  | .victim => e.popVictim.map Prod.snd

def run (t : EvictionType) (calls : List (PolicyCall K)) : Option (EvictionStrategy K) :=
  calls.foldlM call (new t)

/-- The keys that come out when the victim is deleted again and again, until there
is none. -/
def drain : Nat → EvictionStrategy K → Option (List K)
  | 0, _ => none
  | fuel + 1, e => do
      let (victim, e) ← e.popVictim
      match victim with
      | none => some []
      | some key =>
          let e ← e.onDelete key
          let keys ← drain fuel e
          some (key :: keys)

theorem run_snoc {t : EvictionType} {calls : List (PolicyCall K)} {e : EvictionStrategy K}
    (h : run t calls = some e) (c : PolicyCall K) : run t (calls ++ [c]) = e.call c := by
  rw [run, List.foldlM_append]
  change (run t calls).bind _ = _
  rw [h, Option.bind_some]
  simp

end EvictionStrategy

open EvictionStrategy

section Lru

variable {n : LruNode K} {order : List K}

theorem LruNode.call_holds (h : n.Holds order) (c : PolicyCall K) :
    ∃ n', (lru n).call c = some (.lru n') ∧ n'.Holds (c.reorder order) := by
  cases c with
  | write k =>
      obtain ⟨n', hn', hholds⟩ := onWrite_holds h k
      exact ⟨n', by simp [call, EvictionStrategy.onWrite, hn'], hholds⟩
  | read k =>
      obtain ⟨n', hn', hholds⟩ := onRead_holds h k
      exact ⟨n', by simp [call, EvictionStrategy.onRead, hn'], hholds⟩
  | delete k =>
      obtain ⟨n', hn', hholds⟩ := onDelete_holds h k
      exact ⟨n', by simp [call, EvictionStrategy.onDelete, hn'], hholds⟩
  | victim => exact ⟨n, by simp [call, EvictionStrategy.popVictim, popVictim_holds h], h⟩

theorem LruNode.run_holds (calls : List (PolicyCall K)) :
    ∃ n, run .lru calls = some (lru n) ∧ n.Holds (recency calls) := by
  induction calls using List.reverseRecOn with
  | nil => exact ⟨LruNode.new, rfl, new_holds⟩
  | append_singleton calls c ih =>
      obtain ⟨n, hn, hholds⟩ := ih
      obtain ⟨n', hn', hholds'⟩ := call_holds hholds c
      refine ⟨n', (run_snoc hn c).trans hn', ?_⟩
      rw [recency_snoc]
      exact hholds'

theorem LruNode.drain_holds (h : n.Holds order) (fuel : Nat) (hfuel : order.length < fuel) :
    drain fuel (.lru n) = some order := by
  induction fuel generalizing n order with
  | zero => omega
  | succ fuel ih =>
      rw [drain, EvictionStrategy.popVictim, popVictim_holds h]
      cases order with
      | nil => rfl
      | cons k rest =>
          obtain ⟨n', hn', hholds⟩ := onDelete_holds h k
          have hnot : k ∉ rest := (List.nodup_cons.mp h.tracks.nodup).1
          rw [forget_cons, if_pos rfl, forget_of_notMem hnot] at hholds
          have hrest := ih hholds (by simpa using hfuel)
          simp [EvictionStrategy.onDelete, hn', hrest]

end Lru

/-- The victims come out in the order of their last uses, and they are just the
keys that are there. -/
theorem LruNode.drain_recency (calls : List (PolicyCall K)) :
    ∃ n keys, run .lru calls = some (.lru n) ∧
      (∀ fuel, keys.length < fuel → drain fuel (.lru n) = some keys) ∧
      keys.Nodup ∧ (∀ k, k ∈ keys ↔ k ∈ n.mapKey) ∧ (∀ k, k ∈ keys ↔ 0 < uses k calls) ∧
      keys.Pairwise (fun a b => age b calls < age a calls) := by
  obtain ⟨n, hn, hholds⟩ := run_holds calls
  exact ⟨n, recency calls, hn, drain_holds hholds, nodup_recency calls, fun _ => hholds.mem_iff,
    fun _ => mem_recency, recency_oldest calls⟩

section Lfu

variable {n : LfuNode K} {calls : List (PolicyCall K)}

/-- The keys of each bucket. -/
def bucketKeys (calls : List (PolicyCall K)) (f : Nat) : List K :=
  (recency calls).filter (fun k => decide (min 255 (uses k calls) = f))

theorem bucketKeys_touch {c : PolicyCall K} (hr : recency (calls ++ [c]) = touch k (recency calls))
    (hu : ∀ x, x ≠ k → uses x (calls ++ [c]) = uses x calls) :
    bucketKeys (calls ++ [c]) = moveTo (bucketKeys calls) k (min 255 (uses k (calls ++ [c]))) := by
  funext g
  have hforget : (forget k (recency calls)).filter
      (fun x => decide (min 255 (uses x (calls ++ [c])) = g)) = forget k (bucketKeys calls g) :=
    filter_forget (fun x hx => by rw [hu x hx])
  rw [bucketKeys, hr, touch, List.filter_append, hforget, moveTo]
  by_cases hg : g = min 255 (uses k (calls ++ [c]))
  · rw [if_pos hg, List.filter_singleton]
    simp [hg, touch]
  · rw [if_neg hg, List.filter_singleton]
    simp [Ne.symm hg]

/-- What the policy is after the calls. -/
structure LfuNode.After (n : LfuNode K) (calls : List (PolicyCall K)) : Prop where
  holds : n.Holds (bucketKeys calls)
  freq : ∀ k, n.freq k = if 0 < uses k calls then some (min 255 (uses k calls)) else none
  ranked : n.Ranked

theorem LfuNode.new_after : (LfuNode.new : LfuNode K).After [] where
  holds := LfuNode.new_holds
  freq _ := rfl
  ranked := LfuNode.new_ranked

namespace LfuNode.After

variable {n' : LfuNode K} {c : PolicyCall K} {f : Nat}

theorem uses_pos (h : n.After calls) (hk : n.freq k = some f) : 0 < uses k calls ∧ f = min 255 (uses k calls) := by
  rw [h.freq] at hk
  split at hk
  · next hpos => exact ⟨hpos, (Option.some_inj.mp hk).symm⟩
  · cases hk

theorem uses_zero (h : n.After calls) (hk : n.freq k = none) : uses k calls = 0 := by
  rw [h.freq] at hk
  split at hk
  · cases hk
  · next hpos => exact Nat.eq_zero_of_not_pos hpos

theorem used (h : n.After calls) (holds : n'.Holds (moveTo (bucketKeys calls) k f))
    (freq : ∀ x, n'.freq x = if x = k then some f else n.freq x) (ranked : n'.Ranked)
    (hr : recency (calls ++ [c]) = touch k (recency calls))
    (hu : ∀ x, x ≠ k → uses x (calls ++ [c]) = uses x calls) (hpos : 0 < uses k (calls ++ [c]))
    (hf : f = min 255 (uses k (calls ++ [c]))) : n'.After (calls ++ [c]) where
  holds := by
    rw [bucketKeys_touch hr hu, ← hf]
    exact holds
  freq x := by
    rw [freq]
    by_cases hx : x = k
    · rw [if_pos hx, hx, if_pos hpos, hf]
    · rw [if_neg hx, hu x hx, h.freq]
  ranked := ranked

theorem unused (h : n.After calls) (hr : recency (calls ++ [c]) = recency calls)
    (hu : ∀ x, uses x (calls ++ [c]) = uses x calls) : n.After (calls ++ [c]) where
  holds := by
    have hkeys : bucketKeys (calls ++ [c]) = bucketKeys calls := by
      funext g
      simp only [bucketKeys, hr, hu]
    rw [hkeys]
    exact h.holds
  freq x := by
    rw [hu, h.freq]
  ranked := h.ranked

theorem write (h : n.After calls) (k : K) : ∃ n', n.onWrite k = some n' ∧ n'.After (calls ++ [.write k]) := by
  have hothers : ∀ x, x ≠ k → uses x (calls ++ [.write k]) = uses x calls := by
    intro x hx
    rw [uses_write, if_neg hx]
  have huses : uses k (calls ++ [.write k]) = uses k calls + 1 := by
    rw [uses_write, if_pos rfl]
  cases hk : n.freq k with
  | none =>
      obtain ⟨n', hn', holds, freq, ranked⟩ := onWrite_new h.holds hk
      have hzero := h.uses_zero hk
      refine ⟨n', hn', h.used holds freq (ranked h.ranked) (recency_snoc _ _) hothers ?_ ?_⟩
      · omega
      · rw [huses, hzero]
        rfl
  | some f =>
      obtain ⟨n', hn', holds, freq, ranked⟩ := onRead_holds h.holds hk
      obtain ⟨-, hf⟩ := h.uses_pos hk
      refine ⟨n', (onWrite_tracked hk).trans hn',
        h.used holds freq (ranked h.ranked) (recency_snoc _ _) hothers ?_ ?_⟩
      · omega
      · omega

theorem read (h : n.After calls) (k : K) : ∃ n', n.onRead k = some n' ∧ n'.After (calls ++ [.read k]) := by
  have hothers : ∀ x, x ≠ k → uses x (calls ++ [.read k]) = uses x calls := by
    intro x hx
    rw [uses_read, if_neg (fun hc => hx hc.1)]
  cases hk : n.freq k with
  | none =>
      have hzero := h.uses_zero hk
      refine ⟨n, onRead_untracked hk, h.unused ?_ ?_⟩
      · rw [recency_snoc, PolicyCall.reorder, if_neg]
        rw [mem_recency]
        omega
      · intro x
        rw [uses_read, if_neg]
        rintro ⟨rfl, hx⟩
        omega
  | some f =>
      obtain ⟨n', hn', holds, freq, ranked⟩ := onRead_holds h.holds hk
      obtain ⟨hpos, hf⟩ := h.uses_pos hk
      have huses : uses k (calls ++ [.read k]) = uses k calls + 1 := by
        rw [uses_read, if_pos ⟨rfl, hpos⟩]
      refine ⟨n', hn', h.used holds freq (ranked h.ranked) ?_ hothers ?_ ?_⟩
      · rw [recency_snoc, PolicyCall.reorder, if_pos (mem_recency.mpr hpos)]
      · omega
      · omega

theorem delete (h : n.After calls) (k : K) : ∃ n', n.onDelete k = some n' ∧ n'.After (calls ++ [.delete k]) := by
  obtain ⟨n', hn', holds, freq, ranked⟩ := onDelete_holds h.holds k
  refine ⟨n', hn', ?_, ?_, ranked h.ranked⟩
  · have hkeys : bucketKeys (calls ++ [.delete k]) = fun g => forget k (bucketKeys calls g) := by
      funext g
      rw [bucketKeys, recency_snoc]
      refine filter_forget ?_
      intro x hx
      rw [uses_delete, if_neg hx]
    rw [hkeys]
    exact holds
  · intro x
    rw [freq, uses_delete]
    by_cases hx : x = k
    · simp [hx]
    · rw [if_neg hx, if_neg hx, h.freq]

/-- The victim has the smallest frequency of all, and was used longest ago of those
that have it. -/
theorem victim (h : n.After calls) :
    ∃ v n', n.popVictim = some (v, n') ∧ n'.After (calls ++ [.victim]) ∧
      (v = none ↔ ∀ k, n.freq k = none) ∧
      ∀ k, v = some k → ∃ f, n.freq k = some f ∧ ∀ x g, n.freq x = some g →
        f ≤ g ∧ (g = f → x ≠ k → age x calls < age k calls) := by
  obtain ⟨m, hm, hv, hranked⟩ := popVictim_holds h.holds
  obtain ⟨ranked, hnone⟩ := hranked h.ranked
  have hafter : LfuNode.After { n with minFreq := m } calls := ⟨h.holds.withMinFreq hm, h.freq, ranked⟩
  refine ⟨_, _, hv, hafter.unused (recency_snoc _ _) (fun _ => uses_victim), ?_, ?_⟩
  · rw [List.head?_eq_none_iff]
    refine ⟨hnone, fun hall => List.eq_nil_iff_forall_not_mem.mpr ?_⟩
    intro x hx
    have := (h.holds.mem_iff hm).mp hx
    rw [hall x] at this
    cases this
  · intro k hk
    refine ⟨m, (h.holds.mem_iff hm).mp (List.mem_of_mem_head? hk), ?_⟩
    intro x g hx
    refine ⟨(ranked x g hx).2, ?_⟩
    rintro rfl hne
    -- both keys stand in the bucket of the smallest frequency, and `k` comes first
    have hmem := (h.holds.mem_iff hm).mpr hx
    have hold : Oldest (fun k => age k calls) (bucketKeys calls g) :=
      List.Pairwise.filter _ (recency_oldest calls)
    obtain ⟨rest, hrest⟩ := List.head?_eq_some_iff.mp hk
    rw [hrest] at hmem hold
    rcases List.mem_cons.mp hmem with he | hmem
    · exact absurd he hne
    · exact List.rel_of_pairwise_cons hold hmem

end LfuNode.After

theorem LfuNode.call_after (h : n.After calls) (c : PolicyCall K) :
    ∃ n', (lfu n).call c = some (.lfu n') ∧ n'.After (calls ++ [c]) := by
  cases c with
  | write k =>
      obtain ⟨n', hn', hafter⟩ := h.write k
      exact ⟨n', by simp [call, EvictionStrategy.onWrite, hn'], hafter⟩
  | read k =>
      obtain ⟨n', hn', hafter⟩ := h.read k
      exact ⟨n', by simp [call, EvictionStrategy.onRead, hn'], hafter⟩
  | delete k =>
      obtain ⟨n', hn', hafter⟩ := h.delete k
      exact ⟨n', by simp [call, EvictionStrategy.onDelete, hn'], hafter⟩
  | victim =>
      obtain ⟨v, n', hn', hafter, -⟩ := h.victim
      exact ⟨n', by simp [call, EvictionStrategy.popVictim, hn'], hafter⟩

theorem LfuNode.run_after (calls : List (PolicyCall K)) :
    ∃ n, run .lfu calls = some (lfu n) ∧ n.After calls := by
  induction calls using List.reverseRecOn with
  | nil => exact ⟨LfuNode.new, rfl, new_after⟩
  | append_singleton calls c ih =>
      obtain ⟨n, hn, hafter⟩ := ih
      obtain ⟨n', hn', hafter'⟩ := call_after hafter c
      exact ⟨n', (run_snoc hn c).trans hn', hafter'⟩

end Lfu

/-- A key's frequency is the number of its uses, up to 255, its node is in the
bucket of this frequency, and the victim has the smallest one. -/
theorem LfuNode.victim_least_used (calls : List (PolicyCall K)) :
    ∃ n, run .lfu calls = some (.lfu n) ∧
      (∀ k, n.freq k = if 0 < uses k calls then some (min 255 (uses k calls)) else none) ∧
      (∃ v n', n.popVictim = some (v, n') ∧ (v = none ↔ ∀ k, k ∉ n.mapKey) ∧
        ∀ k, v = some k → ∃ f, n.freq k = some f ∧ ∀ x g, n.freq x = some g →
          f ≤ g ∧ (g = f → x ≠ k → age x calls < age k calls)) ∧
      n.buckets.length = 256 ∧
      ∀ f b, n.buckets[f]? = some b → ∃ xs, b.Lists xs ∧ ∀ k p, (p, k) ∈ xs ↔
        ∃ m, n.mapKey.lookup k = some m ∧ m.freq = f ∧ m.lruNode = p := by
  obtain ⟨n, hn, hafter⟩ := run_after calls
  obtain ⟨v, n', hv, -, hnone, hleast⟩ := hafter.victim
  refine ⟨n, hn, hafter.freq, ⟨v, n', hv, ?_, hleast⟩, hafter.holds.length, ?_⟩
  · rw [hnone]
    simp [LfuNode.freq, Finmap.lookup_eq_none]
  · intro f b hb
    obtain ⟨xs, hxs, hplaces, -⟩ := hafter.holds.buckets f b hb
    refine ⟨xs, hxs, fun k p => ?_⟩
    rw [← hplaces k p, LfuNode.ptr, Option.bind_eq_some_iff]
    simp

namespace EvictionStrategy

variable {t : EvictionType} {e e' : EvictionStrategy K}

/-- The policy is what some calls have made of a new one. -/
def Called (t : EvictionType) (e : EvictionStrategy K) : Prop := ∃ calls, run t calls = some e

/-- The order in which the victims come out. -/
def Order (e : EvictionStrategy K) (order : List K) : Prop :=
  ∀ fuel, order.length < fuel → drain fuel e = some order

theorem called_new (t : EvictionType) : Called t (new t : EvictionStrategy K) := ⟨[], rfl⟩

theorem Called.call (h : Called t e) {c : PolicyCall K} (hc : e.call c = some e') : Called t e' := by
  obtain ⟨calls, hcalls⟩ := h
  exact ⟨calls ++ [c], (run_snoc hcalls c).trans hc⟩

theorem Called.wf (h : Called t e) : e.WF := by
  obtain ⟨calls, hcalls⟩ := h
  cases t with
  | lru =>
      obtain ⟨n, hn, hholds⟩ := LruNode.run_holds calls
      rw [hcalls] at hn
      cases hn
      exact hholds.wf
  | lfu =>
      obtain ⟨n, hn, hafter⟩ := LfuNode.run_after calls
      rw [hcalls] at hn
      cases hn
      exact hafter.holds.wf

/-- There is a victim while there is a key. -/
theorem Called.popVictim (h : Called t e) :
    ∃ v e', e.popVictim = some (v, e') ∧ Called t e' ∧ e'.tracked = e.tracked ∧
      (v = none → e.tracked = ∅) ∧ ∀ k, v = some k → k ∈ e.tracked := by
  obtain ⟨v, e', hv, -, htracked, hmem⟩ := popVictim_spec h.wf
  refine ⟨v, e', hv, h.call (c := .victim) (by simp [EvictionStrategy.call, hv]), htracked, ?_, hmem⟩
  rintro rfl
  obtain ⟨calls, hcalls⟩ := h
  refine Finset.eq_empty_iff_forall_notMem.mpr ?_
  intro k
  cases t with
  | lru =>
      obtain ⟨n, hn, hholds⟩ := LruNode.run_holds calls
      rw [hcalls] at hn
      cases hn
      rw [EvictionStrategy.popVictim, LruNode.popVictim_holds hholds] at hv
      obtain ⟨hnil, -⟩ : recency calls = [] ∧ lru n = e' := by simpa using hv
      rw [mem_tracked_lru hholds, hnil]
      exact List.not_mem_nil
  | lfu =>
      obtain ⟨n, hn, hafter⟩ := LfuNode.run_after calls
      rw [hcalls] at hn
      cases hn
      obtain ⟨v, n', hv', -, hnone, -⟩ := hafter.victim
      rw [EvictionStrategy.popVictim, hv'] at hv
      obtain ⟨hnil, -⟩ : v = none ∧ lfu n' = e' := by simpa using hv
      rw [mem_tracked_lfu, hnone.mp hnil]
      simp

theorem Called.onDelete (h : Called t e) (k : K) :
    ∃ e', e.onDelete k = some e' ∧ Called t e' ∧ ∀ x, x ∈ e'.tracked ↔ x ≠ k ∧ x ∈ e.tracked := by
  obtain ⟨e', he', -, htracked⟩ := onDelete_spec h.wf k
  exact ⟨e', he', h.call (c := .delete k) he', htracked⟩

theorem order_nil (h : e.popVictim = some (none, e')) : Order e [] := by
  intro fuel hfuel
  cases fuel with
  | zero => cases hfuel
  | succ fuel =>
      rw [drain, h]
      rfl

theorem Order.cons {e'' : EvictionStrategy K} {order : List K} (h : Order e'' order)
    (hv : e.popVictim = some (some k, e')) (hd : e'.onDelete k = some e'') : Order e (k :: order) := by
  intro fuel hfuel
  cases fuel with
  | zero => cases hfuel
  | succ fuel =>
      have hrest := h fuel (by simpa using hfuel)
      simp [drain, hv, hd, hrest]

theorem Order.unique {order order' : List K} (h : Order e order) (h' : Order e order') : order = order' := by
  have h₁ := h (order.length + order'.length + 1) (by omega)
  rw [h' (order.length + order'.length + 1) (by omega)] at h₁
  exact (Option.some_inj.mp h₁).symm

/-- All keys come out, each once. -/
theorem Called.exists_order (h : Called t e) :
    ∃ order, Order e order ∧ order.Nodup ∧ ∀ k, k ∈ order ↔ k ∈ e.tracked := by
  -- a victim that comes out is there no more
  induction hsize : e.tracked.card using Nat.strong_induction_on generalizing e with
  | _ size ih =>
      obtain ⟨v, e₁, hv, hcalled, htracked, hnone, hmem⟩ := h.popVictim
      cases v with
      | none => exact ⟨[], order_nil hv, List.nodup_nil, fun k => by simp [hnone rfl]⟩
      | some x =>
          obtain ⟨e₂, he₂, hcalled₂, htracked₂⟩ := hcalled.onDelete x
          have hx := hmem x rfl
          have herase : e₂.tracked = e.tracked.erase x := by
            ext k
            rw [htracked₂, htracked, Finset.mem_erase]
          have hcard := Finset.card_erase_lt_of_mem hx
          rw [← herase, hsize] at hcard
          obtain ⟨order, horder, hnodup, hkeys⟩ := ih _ hcard hcalled₂ rfl
          refine ⟨x :: order, horder.cons hv he₂, ?_, ?_⟩
          · rw [List.nodup_cons, hkeys, herase]
            exact ⟨Finset.notMem_erase x _, hnodup⟩
          · intro k
            rw [List.mem_cons, hkeys, herase, Finset.mem_erase]
            by_cases hk : k = x
            · simp [hk, hx]
            · simp [hk]

end EvictionStrategy

end RustKv.Eviction
