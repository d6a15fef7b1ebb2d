import RustKv.PolicyOrder

namespace RustKv.Eviction

open Recency EvictionStrategy

variable {K : Type} [DecidableEq K] {t : EvictionType} {calls : List (PolicyCall K)}
variable {e : EvictionStrategy K} {k : K}

/-- The bucket of a key. LRU has a single one. -/
def EvictionType.rank (t : EvictionType) (calls : List (PolicyCall K)) (k : K) : Nat :=
  match t with
  | .lru => 255
  | .lfu => min 255 (uses k calls)

theorem EvictionType.rank_le (t : EvictionType) (calls : List (PolicyCall K)) (k : K) :
    t.rank calls k ≤ 255 := by
  cases t with
  | lru => exact Nat.le_refl 255
  | lfu => exact Nat.min_le_left 255 _

theorem EvictionType.rank_congr {calls' : List (PolicyCall K)} (t : EvictionType)
    (h : uses k calls' = uses k calls) : t.rank calls' k = t.rank calls k := by
  cases t with
  | lru => rfl
  | lfu => rw [rank, rank, h]

/-- The keys that are there, in the order in which they are evicted. -/
def victims (t : EvictionType) (calls : List (PolicyCall K)) : List K :=
  byRank (t.rank calls) 255 (recency calls)

theorem mem_victims : k ∈ victims t calls ↔ 0 < uses k calls := by
  rw [victims, mem_byRank (t.rank_le calls), mem_recency]

theorem nodup_victims (t : EvictionType) (calls : List (PolicyCall K)) : (victims t calls).Nodup :=
  nodup_byRank (nodup_recency calls)

theorem victims_delete (t : EvictionType) (calls : List (PolicyCall K)) (k : K) :
    victims t (calls ++ [.delete k]) = forget k (victims t calls) := by
  rw [victims, recency_snoc]
  apply byRank_forget
  intro x hx
  apply t.rank_congr
  rw [uses_delete, if_neg hx]

theorem victims_victim (t : EvictionType) (calls : List (PolicyCall K)) :
    victims t (calls ++ [.victim]) = victims t calls := by
  have hrank : t.rank (calls ++ [.victim]) = t.rank calls :=
    funext (fun x => t.rank_congr uses_victim)
  rw [victims, recency_snoc, hrank]
  rfl

/-- A key in the highest bucket becomes the last one when it is read. -/
theorem victims_read (hk : 0 < uses k calls) (top : t.rank calls k = 255) :
    victims t (calls ++ [.read k]) = touch k (victims t calls) := by
  rw [victims, recency_snoc, PolicyCall.reorder, if_pos (mem_recency.mpr hk)]
  refine byRank_touch ?_ ?_
  · intro x hx
    apply t.rank_congr
    rw [uses_read, if_neg (fun hc => hx hc.1)]
  · cases t with
    | lru => rfl
    | lfu =>
        rw [EvictionType.rank] at top ⊢
        rw [uses_read, if_pos ⟨rfl, hk⟩]
        omega

theorem victims_lru (calls : List (PolicyCall K)) : victims .lru calls = recency calls :=
  byRank_top (fun _ _ => rfl)

theorem popVictim_head (h : run t calls = some e) :
    ∃ e', e.popVictim = some ((victims t calls).head?, e') := by
  cases t with
  | lru =>
      obtain ⟨n, hn, hholds⟩ := LruNode.run_holds calls
      rw [h] at hn
      cases hn
      refine ⟨.lru n, ?_⟩
      rw [victims_lru, EvictionStrategy.popVictim, LruNode.popVictim_holds hholds]
      rfl
  | lfu =>
      obtain ⟨n, hn, hafter⟩ := LfuNode.run_after calls
      rw [h] at hn
      cases hn
      obtain ⟨m, hm, hv, hranked⟩ := LfuNode.popVictim_holds hafter.holds
      obtain ⟨ranked, hnone⟩ := hranked hafter.ranked
      have hfreq {x : K} (hx : x ∈ recency calls) : n.freq x = some (min 255 (uses x calls)) := by
        rw [hafter.freq, if_pos (mem_recency.mp hx)]
      refine ⟨.lfu { n with minFreq := m }, ?_⟩
      rw [EvictionStrategy.popVictim, hv, victims, byRank_head hm]
      · rfl
      · intro x hx
        exact (ranked x _ (hfreq hx)).2
      · intro hempty
        apply List.eq_nil_iff_forall_not_mem.mpr
        intro x hx
        have hx' := hfreq hx
        rw [hnone hempty x] at hx'
        cases hx'

/-- The victims come out in this order. -/
theorem order_victims (h : run t calls = some e) : Order e (victims t calls) := by
  induction hsize : (victims t calls).length generalizing calls e with
  | zero =>
      obtain ⟨e', hv⟩ := popVictim_head h
      rw [List.length_eq_zero_iff] at hsize
      rw [hsize] at hv ⊢
      exact order_nil hv
  | succ size ih =>
      obtain ⟨e', hv⟩ := popVictim_head h
      obtain ⟨k, rest, hcons⟩ := List.exists_cons_of_length_eq_add_one hsize
      rw [hcons] at hv hsize ⊢
      have hrun : run t (calls ++ [.victim]) = some e' := by
        rw [run_snoc h, EvictionStrategy.call, hv]
        rfl
      obtain ⟨e'', hd, -⟩ := Called.onDelete ⟨_, hrun⟩ k
      have hrun' : run t (calls ++ [.victim] ++ [.delete k]) = some e'' := (run_snoc hrun _).trans hd
      have hrest : victims t (calls ++ [.victim] ++ [.delete k]) = rest := by
        have hnot : k ∉ rest := (List.nodup_cons.mp (hcons ▸ nodup_victims t calls)).1
        rw [victims_delete, victims_victim, hcons, forget_cons, if_pos rfl, forget_of_notMem hnot]
      refine Order.cons ?_ hv hd
      rw [← hrest]
      apply ih hrun'
      rw [hrest]
      simpa using hsize

theorem mem_tracked_run (h : run t calls = some e) : k ∈ e.tracked ↔ 0 < uses k calls := by
  cases t with
  | lru =>
      obtain ⟨n, hn, hholds⟩ := LruNode.run_holds calls
      rw [h] at hn
      cases hn
      rw [mem_tracked_lru hholds, mem_recency]
  | lfu =>
      obtain ⟨n, hn, hafter⟩ := LfuNode.run_after calls
      rw [h] at hn
      cases hn
      rw [mem_tracked_lfu]
      constructor
      · rintro ⟨f, hf⟩
        exact (hafter.uses_pos hf).1
      · intro hpos
        exact ⟨_, by rw [hafter.freq, if_pos hpos]⟩

/-- The frequency that LFU has for a key. -/
def EvictionStrategy.freq (k : K) : EvictionStrategy K → Option Nat
  | .lru _ => none
  | .lfu n => n.freq k

theorem run_freq (h : run t calls = some e) (k : K) :
    e.freq k = if t = .lfu ∧ 0 < uses k calls then some (min 255 (uses k calls)) else none := by
  cases t with
  | lru =>
      obtain ⟨n, hn, -⟩ := LruNode.run_holds calls
      rw [h] at hn
      cases hn
      rfl
  | lfu =>
      obtain ⟨n, hn, hafter⟩ := LfuNode.run_after calls
      rw [h] at hn
      cases hn
      rw [EvictionStrategy.freq, hafter.freq]
      simp

end RustKv.Eviction
