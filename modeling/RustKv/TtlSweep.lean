import RustKv.ServerSteps
import RustKv.VictimOrder

namespace RustKv.Normal

open Text CacheStore Eviction EvictionStrategy Recency

section Sweep

variable {D : Type} {now : Nat} {t : EvictionType} {calls : List (PolicyCall Str)} {g : Guard D}

/-- A check of eviction_ttl that has drawn `key`. -/
def sweepKey (now : Nat) (key : Str) (g : Guard D) : Guard D :=
  match DirectCacheNode.select (.writeguard g) now key with
  | (some value, node) => if value.isExpired now then (node.delete key).guard else node.guard
  | (none, node) => node.guard

theorem evictionTtl_eq (now sample : Nat) (g : Guard D) :
    evictionTtl now sample g =
      if g.shard.node.approxMemory = 0 then g
      else match g.shard.node.evicition.getRandomSampleKey sample with
        | none => g
        | some key => sweepKey now key g := rfl

/-- The checks of a shard, one for each key drawn. -/
def sweep (now : Nat) (keys : List Str) (g : Guard D) : Guard D :=
  keys.foldl (fun g key => sweepKey now key g) g

theorem sweep_snoc (now : Nat) (keys : List Str) (key : Str) (g : Guard D) :
    sweep now (keys ++ [key]) g = sweepKey now key (sweep now keys g) := by
  rw [sweep, List.foldl_append]
  rfl

def expired (now : Nat) (m : Store D) (k : Str) : Bool :=
  (m.lookup k).any (fun e => e.isExpired now)

def alive (now : Nat) (m : Store D) (k : Str) : Bool := (live now m k).isSome

theorem expired_iff {m : Store D} {k : Str} :
    expired now m k = true ↔ ∃ e, m.lookup k = some e ∧ e.isExpired now = true := by
  rw [expired, Option.any_eq_true]

theorem alive_iff {m : Store D} {k : Str} :
    alive now m k = true ↔ ∃ e, m.lookup k = some e ∧ e.isExpired now = false := by
  rw [alive, live, Option.isSome_iff_exists]
  simp only [Option.filter_eq_some_iff, Bool.not_eq_true']

/-- The key is drawn and its entry has expired. -/
def gone (now : Nat) (m : Store D) (keys : List Str) (k : Str) : Bool :=
  keys.contains k && expired now m k

theorem gone_iff {m : Store D} {keys : List Str} {k : Str} :
    gone now m keys k = true ↔ k ∈ keys ∧ expired now m k = true := by
  rw [gone, Bool.and_eq_true, List.contains_iff_mem]

theorem not_expired_of_alive {m : Store D} {k : Str} (h : alive now m k = true) :
    expired now m k = false := by
  obtain ⟨e, he, hexp⟩ := alive_iff.mp h
  simp [expired, he, hexp]

theorem removeGuard_policy {k : Str} {e : ValueEntry D} (hk : g.shard.dbStore.lookup k = some e)
    (h : run t calls = some g.shard.node.evicition) :
    run t (calls ++ [.delete k]) =
      some (DirectCacheNode.removeGuard g k).2.shard.node.evicition := by
  obtain ⟨p, hp, -⟩ := Called.onDelete ⟨calls, h⟩ k
  have hk' : g.shard.node.dbStore.lookup k = some e := hk
  have hremove : (g.shard.node.removeEntry k).map (fun r => ((r.1, r.2.1), r.2.2)) =
      some ((some e, .fetchSub e.dataSize), ⟨g.shard.node.dbStore.erase k,
        MemoryChange.apply g.shard.node.approxMemory (.fetchSub e.dataSize), p⟩) := by
    simp only [MemoryCacheNode.removeEntry, hk', hp, Option.bind_eq_bind, Option.bind_some,
      Option.map_some]
  rw [run_snoc h]
  change g.shard.node.evicition.onDelete k = some (g.shard.removeEntry k).2.node.evicition
  rw [Shard.removeEntry, (outcome_eq hremove).2, hp]

theorem getEntry_policy {k : Str} {e : ValueEntry D} (hk : g.shard.dbStore.lookup k = some e)
    (h : run t calls = some g.shard.node.evicition) :
    run t (calls ++ [.read k]) = some (g.shard.getEntry k).2.node.evicition := by
  obtain ⟨p, hp, -⟩ := onRead_spec g.shard.wf.policy k
  have hk' : g.shard.node.dbStore.lookup k = some e := hk
  have hget : g.shard.node.getEntry k = some (some e, { g.shard.node with evicition := p }) := by
    simp only [MemoryCacheNode.getEntry, MemoryCacheNode.onRead, hk', hp, Option.bind_eq_bind,
      Option.bind_some]
  rw [run_snoc h]
  change g.shard.node.evicition.onRead k = _
  rw [Shard.getEntry, (outcome_eq hget).2, hp]

/-- What a check does: an expired entry is deleted by the lookup itself, and for a
live one on_read is called. -/
theorem sweepKey_spec (h : run t calls = some g.shard.node.evicition) (now : Nat) (k : Str) :
    g.shard.dbStore.lookup k = none ∧ sweepKey now k g = g ∨
    expired now g.shard.dbStore k = true ∧
      (sweepKey now k g).shard.dbStore = g.shard.dbStore.erase k ∧
      run t (calls ++ [.delete k]) = some (sweepKey now k g).shard.node.evicition ∨
    alive now g.shard.dbStore k = true ∧
      (sweepKey now k g).shard.dbStore = g.shard.dbStore ∧
      run t (calls ++ [.read k]) = some (sweepKey now k g).shard.node.evicition := by
  have hpeek : g.shard.peekEntry k = g.shard.dbStore.lookup k := rfl
  simp only [sweepKey, DirectCacheNode.select, hpeek]
  cases hl : g.shard.dbStore.lookup k with
  | none => exact .inl ⟨rfl, rfl⟩
  | some e =>
      refine .inr ?_
      by_cases hexp : e.isExpired now = true
      · refine .inl ⟨expired_iff.mpr ⟨e, hl, hexp⟩, ?_, ?_⟩
        · simp only [hexp, if_true]
          exact g.shard.removeEntry_dbStore k
        · simp only [hexp, if_true]
          exact removeGuard_policy hl h
      · rw [Bool.not_eq_true] at hexp
        have hvalue : g.shard.getEntry k = (some e, (g.shard.getEntry k).2) := by
          rw [← hl, ← g.shard.getEntry_value k]
        refine .inr ⟨alive_iff.mpr ⟨e, hl, hexp⟩, ?_, ?_⟩
        · rw [hvalue]
          simp only [hexp, Bool.false_eq_true, if_false]
          exact g.shard.getEntry_dbStore k
        · rw [hvalue]
          simp only [hexp, Bool.false_eq_true, if_false]
          exact getEntry_policy hl h

/-- The live keys among those drawn, the one drawn last at the end. -/
def reread (now : Nat) (m : Store D) (keys : List Str) : List Str :=
  (keys.filter (alive now m)).foldl (fun order k => touch k order) []

variable {m : Store D} {keys : List Str} {k x : Str}

theorem reread_snoc (now : Nat) (m : Store D) (keys : List Str) (k : Str) :
    reread now m (keys ++ [k]) =
      if alive now m k = true then touch k (reread now m keys) else reread now m keys := by
  rw [reread, List.filter_append, List.foldl_append]
  by_cases hk : alive now m k = true
  · rw [if_pos hk, List.filter_cons_of_pos hk]
    rfl
  · rw [if_neg hk, List.filter_cons_of_neg hk]
    rfl

theorem mem_reread : x ∈ reread now m keys ↔ x ∈ keys ∧ alive now m x = true := by
  induction keys using List.reverseRecOn with
  | nil => simp [reread]
  | append_singleton keys k ih =>
      rw [reread_snoc, List.mem_append, List.mem_singleton]
      by_cases hk : alive now m k = true
      · rw [if_pos hk, mem_touch, ih]
        by_cases hx : x = k
        · simp [hx, hk]
        · simp [hx]
      · rw [if_neg hk, ih]
        by_cases hx : x = k
        · subst hx
          simp [hk]
        · simp [hx]

/-- The sweep of a shard with the store `m` and the calls `calls` on its policy. -/
structure Swept (t : EvictionType) (now : Nat) (calls : List (PolicyCall Str)) (m : Store D)
    (keys : List Str) (g : Guard D) (calls' : List (PolicyCall Str)) : Prop where
  policy : run t calls' = some g.shard.node.evicition
  store : ∀ x, g.shard.dbStore.lookup x =
    if gone now m keys x = true then none else m.lookup x
  used : ∀ x, uses x calls' =
    if gone now m keys x = true then 0
    else if alive now m x = true then uses x calls + keys.count x
    else uses x calls
  order : (∀ k ∈ keys, alive now m k = true → t.rank calls k = 255) →
    victims t calls' = (victims t calls).filter (fun x => !keys.contains x) ++ reread now m keys

theorem gone_snoc (hk : expired now m k = true → k ∈ keys) (x : Str) :
    gone now m (keys ++ [k]) x = gone now m keys x := by
  rw [Bool.eq_iff_iff, gone_iff, gone_iff, List.mem_append, List.mem_singleton]
  constructor
  · rintro ⟨hx | rfl, hexp⟩
    · exact ⟨hx, hexp⟩
    · exact ⟨hk hexp, hexp⟩
  · rintro ⟨hx, hexp⟩
    exact ⟨.inl hx, hexp⟩

theorem gone_snoc_ne (h : x ≠ k) : gone now m (keys ++ [k]) x = gone now m keys x := by
  rw [Bool.eq_iff_iff, gone_iff, gone_iff, List.mem_append, List.mem_singleton, or_iff_left h]

theorem gone_snoc_self (h : expired now m k = true) : gone now m (keys ++ [k]) k = true :=
  gone_iff.mpr ⟨by simp, h⟩

theorem count_snoc_ne (h : x ≠ k) : (keys ++ [k]).count x = keys.count x := by
  rw [List.count_append, List.count_singleton, if_neg (by simpa using Ne.symm h), Nat.add_zero]

theorem forget_undrawn (V : List Str) :
    forget k (V.filter (fun x => !keys.contains x)) =
      V.filter (fun x => !(keys ++ [k]).contains x) := by
  rw [forget, List.filter_filter]
  apply List.filter_congr
  intro x _
  by_cases hx : x = k
  · simp [hx]
  · simp [hx]

variable {g' : Guard D} {calls' : List (PolicyCall Str)}

theorem Swept.lookup_some {e : ValueEntry D} (h : Swept t now calls m keys g calls')
    (hk : g.shard.dbStore.lookup k = some e) :
    m.lookup k = some e ∧ ¬ gone now m keys k = true := by
  rw [h.store] at hk
  split at hk
  · cases hk
  · next hgone => exact ⟨hk, hgone⟩

theorem not_gone_of_alive (hk : alive now m k = true) : ¬ gone now m keys k = true := by
  intro hgone
  have hexp := (gone_iff.mp hgone).2
  rw [not_expired_of_alive hk] at hexp
  cases hexp

theorem Swept.used_of_alive (h : Swept t now calls m keys g calls') (hk : alive now m k = true) :
    uses k calls' = uses k calls + keys.count k := by
  rw [h.used, if_neg (not_gone_of_alive hk), if_pos hk]

theorem Swept.absent (h : Swept t now calls m keys g calls')
    (hm : ∀ x, 0 < uses x calls → ∃ e, m.lookup x = some e)
    (hk : g.shard.dbStore.lookup k = none) : Swept t now calls m (keys ++ [k]) g calls' := by
  have hstored : ∀ e, m.lookup k = some e → k ∈ keys ∧ expired now m k = true := by
    intro e he
    rw [← gone_iff]
    by_contra hgone
    rw [h.store, if_neg hgone, he] at hk
    cases hk
  have hexp : expired now m k = true → k ∈ keys := by
    intro hexp
    obtain ⟨e, he, -⟩ := expired_iff.mp hexp
    exact (hstored e he).1
  have hdead : ¬ alive now m k = true := by
    intro hlive
    obtain ⟨e, he, -⟩ := alive_iff.mp hlive
    have hfalse := (hstored e he).2
    rw [not_expired_of_alive hlive] at hfalse
    cases hfalse
  refine ⟨h.policy, ?_, ?_, ?_⟩
  · intro x
    simp only [gone_snoc hexp, h.store]
  · intro x
    simp only [gone_snoc hexp, h.used]
    by_cases hx : alive now m x = true
    · have hne : x ≠ k := by
        rintro rfl
        exact hdead hx
      rw [count_snoc_ne hne]
    · simp only [if_neg hx]
  · intro hrank
    rw [h.order (fun k' hk' => hrank k' (List.mem_append_left _ hk')), reread_snoc, if_neg hdead]
    congr 1
    apply List.filter_congr
    intro x hx
    have hiff : x ∈ keys ++ [k] ↔ x ∈ keys := by
      rw [List.mem_append, List.mem_singleton]
      refine ⟨?_, .inl⟩
      rintro (hx' | rfl)
      · exact hx'
      · obtain ⟨e, he⟩ := hm x (mem_victims.mp hx)
        exact (hstored e he).1
    rw [← List.contains_iff_mem, ← List.contains_iff_mem] at hiff
    rw [Bool.eq_iff_iff.mpr hiff]

theorem Swept.removed (h : Swept t now calls m keys g calls')
    (hk : expired now g.shard.dbStore k = true)
    (hstore : g'.shard.dbStore = g.shard.dbStore.erase k)
    (hrun : run t (calls' ++ [.delete k]) = some g'.shard.node.evicition) :
    Swept t now calls m (keys ++ [k]) g' (calls' ++ [.delete k]) := by
  obtain ⟨e, he, hexp⟩ := expired_iff.mp hk
  obtain ⟨he, hgone⟩ := h.lookup_some he
  have hexp' : expired now m k = true := expired_iff.mpr ⟨e, he, hexp⟩
  have hnot : k ∉ keys := fun hc => hgone (gone_iff.mpr ⟨hc, hexp'⟩)
  have hdead : ¬ alive now m k = true := by
    intro hlive
    rw [not_expired_of_alive hlive] at hexp'
    cases hexp'
  refine ⟨hrun, ?_, ?_, ?_⟩
  · intro x
    rw [hstore]
    by_cases hx : x = k
    · subst hx
      rw [Finmap.lookup_erase, if_pos (gone_snoc_self hexp')]
    · rw [Finmap.lookup_erase_ne hx, h.store, gone_snoc_ne hx]
  · intro x
    rw [uses_delete]
    by_cases hx : x = k
    · subst hx
      rw [if_pos rfl, if_pos (gone_snoc_self hexp')]
    · rw [if_neg hx, h.used, count_snoc_ne hx, gone_snoc_ne hx]
  · intro hrank
    have hL : k ∉ reread now m keys := fun hc => hnot (mem_reread.mp hc).1
    rw [victims_delete, h.order (fun k' hk' => hrank k' (List.mem_append_left _ hk')), reread_snoc,
      if_neg hdead, forget_append, forget_undrawn, forget_of_notMem hL]

theorem Swept.read (h : Swept t now calls m keys g calls')
    (hm : ∀ x e, m.lookup x = some e → 0 < uses x calls)
    (hk : alive now g.shard.dbStore k = true) (hstore : g'.shard.dbStore = g.shard.dbStore)
    (hrun : run t (calls' ++ [.read k]) = some g'.shard.node.evicition) :
    Swept t now calls m (keys ++ [k]) g' (calls' ++ [.read k]) := by
  obtain ⟨e, he, hexp⟩ := alive_iff.mp hk
  obtain ⟨he, hgone⟩ := h.lookup_some he
  have hlive : alive now m k = true := alive_iff.mpr ⟨e, he, hexp⟩
  have hgone' : expired now m k = true → k ∈ keys := by
    intro hc
    rw [not_expired_of_alive hlive] at hc
    cases hc
  have hused := h.used_of_alive hlive
  have hpos : 0 < uses k calls' := by
    have := hm k e he
    omega
  refine ⟨hrun, ?_, ?_, ?_⟩
  · intro x
    simp only [gone_snoc hgone', hstore, h.store]
  · intro x
    rw [uses_read]
    simp only [gone_snoc hgone']
    by_cases hx : x = k
    · subst hx
      rw [if_pos ⟨rfl, hpos⟩, hused, if_neg hgone, if_pos hlive, List.count_append,
        List.count_singleton_self, Nat.add_assoc]
    · rw [if_neg (fun hc => hx hc.1), h.used, count_snoc_ne hx]
  · intro hrank
    have htop : t.rank calls' k = 255 := by
      have h255 := hrank k (by simp) hlive
      cases t with
      | lru => rfl
      | lfu =>
          rw [EvictionType.rank] at h255 ⊢
          omega
    rw [victims_read hpos htop, h.order (fun k' hk' => hrank k' (List.mem_append_left _ hk')),
      reread_snoc, if_pos hlive, touch, touch, forget_append, forget_undrawn, List.append_assoc]

theorem sweep_swept (h : run t calls = some g.shard.node.evicition) (now : Nat) (keys : List Str) :
    ∃ calls', Swept t now calls g.shard.dbStore keys (sweep now keys g) calls' := by
  have htracked (x : Str) : 0 < uses x calls ↔ ∃ e, g.shard.dbStore.lookup x = some e := by
    rw [← mem_tracked_run h, ← g.shard.wf.keys]
    exact Finmap.mem_iff
  induction keys using List.reverseRecOn with
  | nil =>
      refine ⟨calls, h, fun x => by simp [sweep, gone], fun x => by simp [gone], fun _ => ?_⟩
      simp [reread]
  | append_singleton keys k ih =>
      obtain ⟨calls', hs⟩ := ih
      rw [sweep_snoc]
      rcases sweepKey_spec hs.policy now k with ⟨hk, heq⟩ | ⟨hk, hstore, hrun⟩ | ⟨hk, hstore, hrun⟩
      · rw [heq]
        exact ⟨calls', hs.absent (fun x => (htracked x).mp) hk⟩
      · exact ⟨_, hs.removed hk hstore hrun⟩
      · exact ⟨_, hs.read (fun x e he => (htracked x).mpr ⟨e, he⟩) hk hstore hrun⟩

/-- A sweep leaves everything but the expired keys it has drawn: the entries, the
order in which the keys that are left are evicted, and their LFU frequencies. -/
structure Transparent (now : Nat) (keys : List Str) (g g' : Guard D) : Prop where
  store : ∀ x, g'.shard.dbStore.lookup x =
    if gone now g.shard.dbStore keys x = true then none else g.shard.dbStore.lookup x
  order : ∀ order, Order g.shard.node.evicition order →
    Order g'.shard.node.evicition (order.filter (fun x => (g'.shard.dbStore.lookup x).isSome))
  freq : ∀ x e, g'.shard.dbStore.lookup x = some e →
    g'.shard.node.evicition.freq x = g.shard.node.evicition.freq x

/-- The calls of on_read move no key: the live keys that are drawn are already the
last ones to be evicted, in the order in which they are drawn last, and LFU does
not count further for them. -/
structure Unmoved (t : EvictionType) (now : Nat) (keys : List Str) (g : Guard D) : Prop where
  last : ∀ order, Order g.shard.node.evicition order → reread now g.shard.dbStore keys <:+
    order.filter (fun x => !gone now g.shard.dbStore keys x)
  top : t = .lfu → ∀ k ∈ keys, alive now g.shard.dbStore k = true →
    g.shard.node.evicition.freq k = some 255

theorem rank_top_iff (h : run t calls = some g.shard.node.evicition) {e : ValueEntry D}
    (hk : g.shard.dbStore.lookup k = some e) :
    t.rank calls k = 255 ↔ (t = .lfu → g.shard.node.evicition.freq k = some 255) := by
  have hpos : 0 < uses k calls := by
    rw [← mem_tracked_run h, ← g.shard.wf.keys]
    exact Finmap.mem_of_lookup_eq_some hk
  rw [run_freq h]
  cases t with
  | lru => simp [EvictionType.rank]
  | lfu => simp [EvictionType.rank, hpos]

/-- A suffix of a list without repetitions is what is left when its other elements go. -/
theorem suffix_iff_filter_append {V L : List Str} (nodup : V.Nodup) :
    L <:+ V ↔ V.filter (fun x => !L.contains x) ++ L = V := by
  constructor
  · rintro ⟨X, rfl⟩
    have hX : X.filter (fun x => !L.contains x) = X := by
      apply List.filter_eq_self.mpr
      intro x hx
      have hL : x ∉ L := fun hL => (List.nodup_append.mp nodup).2.2 x hx x hL rfl
      simpa using hL
    have hL : L.filter (fun x => !L.contains x) = [] := by
      apply List.filter_eq_nil_iff.mpr
      intro x hx
      simpa using hx
    rw [List.filter_append, hX, hL, List.append_nil]
  · intro h
    exact ⟨_, h⟩

theorem sweep_order_iff (h : run t calls = some g.shard.node.evicition)
    {g' : Guard D} {calls' : List (PolicyCall Str)}
    (hs : Swept t now calls g.shard.dbStore keys g' calls')
    (htop : ∀ k ∈ keys, alive now g.shard.dbStore k = true → t.rank calls k = 255) :
    Order g'.shard.node.evicition
        ((victims t calls).filter (fun x => (g'.shard.dbStore.lookup x).isSome)) ↔
      reread now g.shard.dbStore keys <:+ (victims t calls).filter
        (fun x => !gone now g.shard.dbStore keys x) := by
  have hstored {x : Str} (hx : x ∈ victims t calls) : ∃ e, g.shard.dbStore.lookup x = some e := by
    refine Finmap.mem_iff.mp ((g.shard.wf.keys x).mpr ?_)
    rw [mem_tracked_run h]
    exact mem_victims.mp hx
  have hleft : (victims t calls).filter (fun x => (g'.shard.dbStore.lookup x).isSome) =
      (victims t calls).filter (fun x => !gone now g.shard.dbStore keys x) := by
    apply List.filter_congr
    intro x hx
    obtain ⟨e, he⟩ := hstored hx
    rw [hs.store, he]
    cases gone now g.shard.dbStore keys x with
    | true => rfl
    | false => rfl
  have hunread : ((victims t calls).filter
        (fun x => !gone now g.shard.dbStore keys x)).filter
        (fun x => !(reread now g.shard.dbStore keys).contains x) =
      (victims t calls).filter (fun x => !keys.contains x) := by
    rw [List.filter_filter]
    apply List.filter_congr
    intro x hx
    obtain ⟨e, he⟩ := hstored hx
    by_cases hk : x ∈ keys
    · by_cases hexp : e.isExpired now = true
      · have hgone : gone now g.shard.dbStore keys x = true :=
          gone_iff.mpr ⟨hk, expired_iff.mpr ⟨e, he, hexp⟩⟩
        simp [hk, hgone]
      · have hread : x ∈ reread now g.shard.dbStore keys :=
          mem_reread.mpr ⟨hk, alive_iff.mpr ⟨e, he, by simpa using hexp⟩⟩
        simp [hk, hread]
    · have hread : x ∉ reread now g.shard.dbStore keys := fun hc => hk (mem_reread.mp hc).1
      have hgone : ¬ gone now g.shard.dbStore keys x = true := fun hc => hk (gone_iff.mp hc).1
      simp [hk, hread, hgone]
  rw [hleft, suffix_iff_filter_append ((nodup_victims t calls).filter _), hunread]
  have horder := order_victims hs.policy
  rw [hs.order htop] at horder
  constructor
  · intro ho
    exact horder.unique ho
  · intro heq
    rwa [heq] at horder

/-- When the sweep leaves the live keys as they are. Its lookups are those of a
client, and so a live key that is drawn counts as used. -/
theorem sweep_transparent_iff (h : Called t g.shard.node.evicition) (now : Nat) (keys : List Str) :
    Transparent now keys g (sweep now keys g) ↔ Unmoved t now keys g := by
  obtain ⟨calls, hrun⟩ := h
  obtain ⟨calls', hs⟩ := sweep_swept hrun now keys
  have horder := order_victims hrun
  constructor
  · rintro ⟨-, ho, hfreq⟩
    have htop : ∀ k ∈ keys, alive now g.shard.dbStore k = true → t.rank calls k = 255 := by
      intro k hk hlive
      obtain ⟨e, he, -⟩ := alive_iff.mp hlive
      have hleft := hs.store k
      rw [if_neg (not_gone_of_alive hlive), he] at hleft
      have hcount := List.count_pos_iff.mpr hk
      have hused := hs.used_of_alive hlive
      have heq := hfreq k e hleft
      rw [run_freq hs.policy, run_freq hrun] at heq
      have hpos : 0 < uses k calls := by
        rw [← mem_tracked_run hrun, ← g.shard.wf.keys]
        exact Finmap.mem_of_lookup_eq_some he
      cases t with
      | lru => rfl
      | lfu =>
          rw [if_pos ⟨rfl, by omega⟩, if_pos ⟨rfl, hpos⟩, hused, Option.some_inj] at heq
          rw [EvictionType.rank]
          omega
    refine ⟨?_, ?_⟩
    · intro order horder'
      obtain rfl := horder.unique horder'
      exact (sweep_order_iff hrun hs htop).mp (ho _ horder)
    · rintro ht k hk hlive
      obtain ⟨e, he, -⟩ := alive_iff.mp hlive
      exact (rank_top_iff hrun he).mp (htop k hk hlive) ht
  · rintro ⟨hlast, hfreq⟩
    have htop : ∀ k ∈ keys, alive now g.shard.dbStore k = true → t.rank calls k = 255 := by
      intro k hk hlive
      obtain ⟨e, he, -⟩ := alive_iff.mp hlive
      exact (rank_top_iff hrun he).mpr (fun ht => hfreq ht k hk hlive)
    refine ⟨hs.store, ?_, ?_⟩
    · intro order horder'
      obtain rfl := horder.unique horder'
      exact (sweep_order_iff hrun hs htop).mpr (hlast _ horder)
    · intro x e hx
      obtain ⟨hx, hleft⟩ := hs.lookup_some hx
      rw [run_freq hs.policy, run_freq hrun, hs.used, if_neg hleft]
      by_cases hlive : alive now g.shard.dbStore x = true
      · rw [if_pos hlive]
        by_cases hk : x ∈ keys
        · have hrank := htop x hk hlive
          cases t with
          | lru => rfl
          | lfu =>
              rw [EvictionType.rank] at hrank
              have hmin : min 255 (uses x calls + keys.count x) = 255 := by omega
              have hpos : 0 < uses x calls := by omega
              rw [hmin, hrank, if_pos ⟨rfl, Nat.add_pos_left hpos _⟩, if_pos ⟨rfl, hpos⟩]
        · rw [List.count_eq_zero.mpr hk, Nat.add_zero]
      · rw [if_neg hlive]

end Sweep

section Sample

theorem insertGuard_policy {D : Type} {t : EvictionType} {calls : List (PolicyCall Str)} {g : Guard D}
    (h : run t calls = some g.shard.node.evicition) (k : Str) (v : ValueEntry D) :
    run t (calls ++ [.write k]) = some (DirectCacheNode.insertGuard g k v).shard.node.evicition := by
  obtain ⟨p, hp, -⟩ := onWrite_spec g.shard.wf.policy k
  have hinsert : ∃ c n, g.shard.node.insertEntry k v = some (c, n) ∧ n.evicition = p := by
    simp only [MemoryCacheNode.insertEntry, hp, Option.bind_eq_bind, Option.bind_some]
    exact ⟨_, _, rfl, rfl⟩
  obtain ⟨c, n, hn, hpolicy⟩ := hinsert
  rw [run_snoc h]
  change g.shard.node.evicition.onWrite k = some (g.shard.insertEntry k v).2.node.evicition
  rw [Shard.insertEntry, (outcome_eq hn).2, hpolicy, hp]

def keyA : Str := Str.ofAscii (ascii ['a']) (by decide)

def keyB : Str := Str.ofAscii (ascii ['b']) (by decide)

/-- A shard with two keys that never expire, the first one written before the second. -/
def twoKeys : Guard Unit :=
  DirectCacheNode.insertGuard (DirectCacheNode.insertGuard ⟨Shard.new .lru, 0⟩ keyA ⟨(), none, 7⟩)
    keyB ⟨(), none, 7⟩

theorem twoKeys_run : run .lru [.write keyA, .write keyB] = some twoKeys.shard.node.evicition := by
  have hnew : run .lru [] = some (⟨Shard.new .lru, 0⟩ : Guard Unit).shard.node.evicition := rfl
  exact insertGuard_policy (insertGuard_policy hnew keyA _) keyB _

theorem twoKeys_victims : victims .lru [.write keyA, .write keyB] = [keyA, keyB] := by
  rw [victims_lru]
  decide

/-- The key written first is drawn, is alive, and is no longer the first to be evicted. -/
theorem sweep_moves_live_key :
    evictionTtl 0 0 twoKeys = sweep 0 [keyA] twoKeys ∧
      ¬ Transparent 0 [keyA] twoKeys (sweep 0 [keyA] twoKeys) := by
  constructor
  · have hdraw : twoKeys.shard.node.evicition.getRandomSampleKey 0 = some keyA := by decide +kernel
    have hmemory : ¬ twoKeys.shard.node.approxMemory = 0 := by decide +kernel
    rw [evictionTtl_eq, if_neg hmemory, hdraw]
    rfl
  · intro h
    obtain ⟨calls, hs⟩ := sweep_swept twoKeys_run 0 [keyA]
    have hlast := (sweep_order_iff twoKeys_run hs (fun _ _ _ => rfl)).mp
      (h.order _ (order_victims twoKeys_run))
    rw [twoKeys_victims] at hlast
    exact absurd hlast (by decide +kernel)

/-- The key written last may be drawn as often as it happens. -/
theorem sweep_keeps_last_key :
    Called .lru twoKeys.shard.node.evicition ∧
      Transparent 0 [keyB, keyB] twoKeys (sweep 0 [keyB, keyB] twoKeys) := by
  refine ⟨⟨_, twoKeys_run⟩, (sweep_transparent_iff ⟨_, twoKeys_run⟩ 0 [keyB, keyB]).mpr ⟨?_, ?_⟩⟩
  · intro order horder
    obtain rfl := (order_victims twoKeys_run).unique horder
    rw [twoKeys_victims]
    decide +kernel
  · intro ht
    cases ht

end Sample

end RustKv.Normal
