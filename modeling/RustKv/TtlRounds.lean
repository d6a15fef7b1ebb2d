import Mathlib.Algebra.Order.BigOperators.Group.Finset
import RustKv.TtlSweep

namespace RustKv.Normal

open Text CacheStore Eviction SampleVec

section Samples

variable {K : Type} [DecidableEq K] {k : K}

omit [DecidableEq K] in
theorem settleMinFreq_sampleKeys {n n' : LfuNode K} {freq : Nat} (h : n.settleMinFreq freq = some n') :
    n'.sampleKeys = n.sampleKeys := by
  obtain ⟨b, -, h⟩ := Option.bind_eq_some_iff.mp h
  by_cases hmin : n.minFreq = freq ∧ b.isEmpty = true
  · rw [if_pos hmin] at h
    obtain ⟨m, -, h⟩ := Option.bind_eq_some_iff.mp h
    obtain ⟨c, -, h⟩ := Option.bind_eq_some_iff.mp h
    cases h
    rfl
  · rw [if_neg hmin] at h
    cases h
    rfl

theorem LfuNode.onRead_sampleKeys {n n' : LfuNode K} (h : n.onRead k = some n') :
    n'.sampleKeys = n.sampleKeys := by
  rw [LfuNode.onRead] at h
  cases hl : n.mapKey.lookup k with
  | none =>
      rw [hl] at h
      cases h
      rfl
  | some p =>
      rw [hl] at h
      simp only at h
      generalize (if p.freq + 1 > 255 then 255 else p.freq + 1) = f at h
      by_cases hf : f ≠ p.freq
      · rw [if_pos hf] at h
        obtain ⟨b₁, -, h⟩ := Option.bind_eq_some_iff.mp h
        obtain ⟨b₂, -, h⟩ := Option.bind_eq_some_iff.mp h
        obtain ⟨b₃, -, h⟩ := Option.bind_eq_some_iff.mp h
        obtain ⟨⟨ptr, b₄⟩, -, h⟩ := Option.bind_eq_some_iff.mp h
        exact (settleMinFreq_sampleKeys h).trans rfl
      · rw [if_neg hf] at h
        obtain ⟨b₁, -, h⟩ := Option.bind_eq_some_iff.mp h
        obtain ⟨b₂, -, h⟩ := Option.bind_eq_some_iff.mp h
        cases h
        rfl

theorem onRead_sampleKeys {e e' : EvictionStrategy K} (h : e.onRead k = some e') :
    e'.sampleKeys = e.sampleKeys := by
  cases e with
  | lru n =>
      obtain ⟨n', hn, rfl⟩ := Option.map_eq_some_iff.mp h
      rw [LruNode.onRead] at hn
      cases hl : n.mapKey.lookup k with
      | none =>
          rw [hl] at hn
          cases hn
          rfl
      | some p =>
          rw [hl] at hn
          obtain ⟨l, -, hn⟩ := Option.bind_eq_some_iff.mp hn
          cases hn
          rfl
  | lfu n =>
      obtain ⟨n', hn, rfl⟩ := Option.map_eq_some_iff.mp h
      exact LfuNode.onRead_sampleKeys hn

end Samples

section Rounds

variable {ι D : Type} [DecidableEq ι] {now : Nat}

/-- A check that has drawn `key`, with what it adds to expired_count. -/
def checkKey (now : Nat) (key : Str) (g : Guard D) : Nat × Guard D :=
  match DirectCacheNode.select (.writeguard g) now key with
  | (some value, node) =>
      if value.isExpired now then (1, (node.delete key).guard) else (0, node.guard)
  | (none, node) => (0, node.guard)

/-- The state of the sampling loop of eviction_ttl. -/
structure Round (ι D : Type) where
  shards : ι → Shard D
  globalMemory : UInt64
  activeShards : List ι
  keysCheck : Nat
  expiredCount : Nat

def Round.lock (r : Round ι D) (i : ι) : Guard D := ⟨r.shards i, r.globalMemory⟩

def Round.check (now draw sample : Nat) (r : Round ι D) : Round ι D :=
  let index := draw % r.activeShards.length
  match r.activeShards[index]? with
  | none => r
  | some i =>
      if (r.shards i).node.approxMemory = 0 then
        { r with activeShards := (swapRemove r.activeShards index).getD [] }
      else
        match (r.shards i).node.evicition.getRandomSampleKey sample with
        | none => { r with keysCheck := r.keysCheck - 1 }
        | some key =>
            let (count, g) := checkKey now key (r.lock i)
            { r with
              shards := Function.update r.shards i g.shard
              globalMemory := g.globalMemory
              keysCheck := r.keysCheck - 1
              expiredCount := r.expiredCount + count }

def Round.run (now : Nat) (draws : Nat → Nat × Nat) : Nat → Round ι D → Round ι D
  | 0, r => r
  | fuel + 1, r =>
      if 0 < r.keysCheck ∧ r.activeShards ≠ [] then
        Round.run now draws fuel (r.check now (draws fuel).1 (draws fuel).2)
      else r

/-- A round. Every pass takes a shard from the active ones or one from keys_check. -/
def sweepRound (now : Nat) (draws : Nat → Nat × Nat) (shards : ι → Shard D) (globalMemory : UInt64)
    (activeShards : List ι) : Round ι D :=
  Round.run now draws (20 + activeShards.length) ⟨shards, globalMemory, activeShards, 20, 0⟩

def Round.again (r : Round ι D) (inBudget : Bool) : Bool :=
  if r.expiredCount < 5 then false else inBudget

/-- The keys that are drawn from the shards as they stand. -/
def drawn (shards : ι → Shard D) (draws : Nat → Nat × Nat) : Nat → List ι → Nat → List (ι × Str)
  | 0, _, _ => []
  | fuel + 1, activeShards, keysCheck =>
      if 0 < keysCheck ∧ activeShards ≠ [] then
        let index := (draws fuel).1 % activeShards.length
        match activeShards[index]? with
        | none => []
        | some i =>
            if (shards i).node.approxMemory = 0 then
              drawn shards draws fuel ((swapRemove activeShards index).getD []) keysCheck
            else
              match (shards i).node.evicition.getRandomSampleKey (draws fuel).2 with
              | none => drawn shards draws fuel activeShards (keysCheck - 1)
              | some key => (i, key) :: drawn shards draws fuel activeShards (keysCheck - 1)
      else []

def removed [Fintype ι] (now : Nat) (shards shards' : ι → Shard D) : Nat :=
  ∑ i, ((shards i).dbStore.keys.filter (fun k =>
    (expired now (shards i).dbStore k && ((shards' i).dbStore.lookup k).isNone) = true)).card

section Check

variable {g : Guard D} {k : Str}

/-- The lookup hands out no entry that has expired, so that the branch behind it
never counts. -/
theorem checkKey_fst (now : Nat) (k : Str) (g : Guard D) : (checkKey now k g).1 = 0 := by
  obtain ⟨g', hselect, -⟩ := select_writeguard g now k
  rw [checkKey]
  rw [hselect]
  cases hl : live now g.shard.dbStore k with
  | none => rfl
  | some e =>
      have hexp := (Option.filter_eq_some_iff.mp hl).2
      rw [Bool.not_eq_true'] at hexp
      simp [hexp]

theorem checkKey_snd (now : Nat) (k : Str) (g : Guard D) : (checkKey now k g).2 = sweepKey now k g := by
  obtain ⟨g', hselect, -⟩ := select_writeguard g now k
  rw [checkKey, sweepKey]
  rw [hselect]
  cases hl : live now g.shard.dbStore k with
  | none => rfl
  | some e =>
      simp only
      split <;> rfl

theorem sweepKey_lookup (now : Nat) (k : Str) (g : Guard D) (x : Str) :
    (sweepKey now k g).shard.dbStore.lookup x =
      if x = k then live now g.shard.dbStore k else g.shard.dbStore.lookup x := by
  obtain ⟨g', hselect, hlookup⟩ := select_writeguard g now k
  rw [sweepKey]
  rw [hselect]
  cases hl : live now g.shard.dbStore k with
  | none =>
      rw [hl] at hlookup
      exact hlookup x
  | some e =>
      have hexp := (Option.filter_eq_some_iff.mp hl).2
      rw [Bool.not_eq_true'] at hexp
      rw [hl] at hlookup
      simp only [hexp, Bool.false_eq_true, if_false]
      exact hlookup x

theorem live_eq_none_of_expired {m : Store D} (h : expired now m k = true) : live now m k = none := by
  obtain ⟨e, he, hexp⟩ := expired_iff.mp h
  simp [live, he, hexp, Option.filter]

/-- Two shards that the loop cannot tell apart. -/
structure Alike (s s' : Shard D) : Prop where
  store : s'.dbStore = s.dbStore
  memory : s'.node.approxMemory = s.node.approxMemory
  samples : s'.node.evicition.sampleKeys = s.node.evicition.sampleKeys

theorem Alike.trans {s s' s'' : Shard D} (h : Alike s s') (h' : Alike s' s'') : Alike s s'' :=
  ⟨h'.store.trans h.store, h'.memory.trans h.memory, h'.samples.trans h.samples⟩

theorem Alike.draw {s s' : Shard D} (h : Alike s s') (sample : Nat) :
    s'.node.evicition.getRandomSampleKey sample = s.node.evicition.getRandomSampleKey sample := by
  rw [EvictionStrategy.getRandomSampleKey, EvictionStrategy.getRandomSampleKey, h.samples]

theorem getEntry_alike (s : Shard D) (k : Str) : Alike s (s.getEntry k).2 := by
  obtain ⟨p, hp, -⟩ := EvictionStrategy.onRead_spec s.wf.policy k
  cases hl : s.node.dbStore.lookup k with
  | none =>
      have hget : s.node.getEntry k = some (none, s.node) := by
        simp only [MemoryCacheNode.getEntry, hl]
      have hnode : (s.getEntry k).2.node = s.node := (outcome_eq hget).2
      exact ⟨by rw [Shard.dbStore, hnode, Shard.dbStore], by rw [hnode], by rw [hnode]⟩
  | some e =>
      have hget : s.node.getEntry k = some (some e, { s.node with evicition := p }) := by
        simp only [MemoryCacheNode.getEntry, MemoryCacheNode.onRead, hl, hp, Option.bind_eq_bind,
          Option.bind_some]
      have hnode : (s.getEntry k).2.node = { s.node with evicition := p } := (outcome_eq hget).2
      refine ⟨by rw [Shard.dbStore, hnode, Shard.dbStore], by rw [hnode], ?_⟩
      rw [hnode]
      exact onRead_sampleKeys hp

theorem sweepKey_alike (h : expired now g.shard.dbStore k = false) :
    Alike g.shard (sweepKey now k g).shard := by
  have hpeek : g.shard.peekEntry k = g.shard.dbStore.lookup k := rfl
  simp only [sweepKey, DirectCacheNode.select, hpeek]
  cases hl : g.shard.dbStore.lookup k with
  | none => exact ⟨rfl, rfl, rfl⟩
  | some e =>
      have hexp : e.isExpired now = false := by
        simpa [expired, hl] using h
      have hvalue : g.shard.getEntry k = (some e, (g.shard.getEntry k).2) := by
        rw [← hl, ← g.shard.getEntry_value k]
      simp only [hexp, Bool.false_eq_true, if_false]
      rw [hvalue]
      simp only [hexp, Bool.false_eq_true, if_false]
      exact getEntry_alike g.shard k

end Check

variable {r : Round ι D} {draw sample : Nat} {shards : ι → Shard D}

theorem Round.check_cases (now draw sample : Nat) (hactive : r.activeShards ≠ []) :
    ∃ i, r.activeShards[draw % r.activeShards.length]? = some i ∧
      ((r.shards i).node.approxMemory = 0 ∧ r.check now draw sample = { r with
          activeShards := (swapRemove r.activeShards (draw % r.activeShards.length)).getD [] } ∨
      (r.shards i).node.approxMemory ≠ 0 ∧
        ((r.shards i).node.evicition.getRandomSampleKey sample = none ∧
          r.check now draw sample = { r with keysCheck := r.keysCheck - 1 } ∨
        ∃ key, (r.shards i).node.evicition.getRandomSampleKey sample = some key ∧
          r.check now draw sample = { r with
            shards := Function.update r.shards i (sweepKey now key (r.lock i)).shard
            globalMemory := (sweepKey now key (r.lock i)).globalMemory
            keysCheck := r.keysCheck - 1 })) := by
  have hlt : draw % r.activeShards.length < r.activeShards.length :=
    Nat.mod_lt _ (List.length_pos_of_ne_nil hactive)
  have hi := List.getElem?_eq_getElem hlt
  refine ⟨_, hi, ?_⟩
  rw [Round.check]
  simp only [hi]
  by_cases hmemory : (r.shards r.activeShards[draw % r.activeShards.length]).node.approxMemory = 0
  · rw [if_pos hmemory]
    exact .inl ⟨hmemory, rfl⟩
  · rw [if_neg hmemory]
    refine .inr ⟨hmemory, ?_⟩
    cases hkey : (r.shards r.activeShards[draw % r.activeShards.length]).node.evicition.getRandomSampleKey
        sample with
    | none => exact .inl ⟨rfl, rfl⟩
    | some key =>
        refine .inr ⟨key, rfl, ?_⟩
        simp only [checkKey_fst, checkKey_snd, Nat.add_zero]

omit [DecidableEq ι] in
theorem swapRemove_length {xs : List ι} {i : Nat} (hi : i < xs.length) :
    ((swapRemove xs i).getD []).length + 1 = xs.length := by
  have hne : xs ≠ [] := by
    rintro rfl
    cases hi
  rw [swapRemove, List.getLast?_eq_some_getLast hne]
  simp only [if_pos hi, Option.getD_some, List.length_dropLast, List.length_set]
  omega

theorem Round.run_over (now : Nat) (draws : Nat → Nat × Nat) (fuel : Nat)
    (h : r.keysCheck + r.activeShards.length ≤ fuel) :
    (r.run now draws fuel).keysCheck = 0 ∨ (r.run now draws fuel).activeShards = [] := by
  induction fuel generalizing r with
  | zero => exact .inl (by rw [Round.run]; omega)
  | succ fuel ih =>
      rw [Round.run]
      by_cases hgo : 0 < r.keysCheck ∧ r.activeShards ≠ []
      · rw [if_pos hgo]
        apply ih
        have hlt : (draws fuel).1 % r.activeShards.length < r.activeShards.length :=
          Nat.mod_lt _ (List.length_pos_of_ne_nil hgo.2)
        have hlen := swapRemove_length hlt
        obtain ⟨i, -, ⟨-, he⟩ | ⟨-, ⟨-, he⟩ | ⟨key, -, he⟩⟩⟩ :=
          r.check_cases now (draws fuel).1 (draws fuel).2 hgo.2
        · rw [he]
          simp only
          omega
        · rw [he]
          simp only
          omega
        · rw [he]
          simp only
          omega
      · rw [if_neg hgo]
        by_cases hkeys : 0 < r.keysCheck
        · exact .inr (not_not.mp (fun hne => hgo ⟨hkeys, hne⟩))
        · exact .inl (Nat.eq_zero_of_not_pos hkeys)

theorem Round.run_expiredCount (now : Nat) (draws : Nat → Nat × Nat) (fuel : Nat) :
    (r.run now draws fuel).expiredCount = r.expiredCount := by
  induction fuel generalizing r with
  | zero => rfl
  | succ fuel ih =>
      rw [Round.run]
      by_cases hgo : 0 < r.keysCheck ∧ r.activeShards ≠ []
      · rw [if_pos hgo, ih]
        obtain ⟨i, -, ⟨-, he⟩ | ⟨-, ⟨-, he⟩ | ⟨key, -, he⟩⟩⟩ :=
          r.check_cases now (draws fuel).1 (draws fuel).2 hgo.2
        · rw [he]
        · rw [he]
        · rw [he]
      · rw [if_neg hgo]

theorem Round.run_gone {i : ι} {k : Str} (now : Nat) (draws : Nat → Nat × Nat) (fuel : Nat)
    (h : (r.shards i).dbStore.lookup k = none) :
    ((r.run now draws fuel).shards i).dbStore.lookup k = none := by
  induction fuel generalizing r with
  | zero => exact h
  | succ fuel ih =>
      rw [Round.run]
      by_cases hgo : 0 < r.keysCheck ∧ r.activeShards ≠ []
      · rw [if_pos hgo]
        apply ih
        obtain ⟨j, -, ⟨-, he⟩ | ⟨-, ⟨-, he⟩ | ⟨key, -, he⟩⟩⟩ :=
          r.check_cases now (draws fuel).1 (draws fuel).2 hgo.2
        · rw [he]
          exact h
        · rw [he]
          exact h
        · rw [he]
          simp only
          by_cases hij : i = j
          · subst hij
            rw [Function.update_self, sweepKey_lookup]
            split
            · next hk =>
              have hnone : (r.lock i).shard.dbStore.lookup key = none := by rw [← hk]; exact h
              rw [live, hnone, Option.filter_none]
            · exact h
          · rw [Function.update_of_ne hij]
            exact h
      · rw [if_neg hgo]
        exact h

/-- Until an expired key is drawn the shards stay as they stand, but for the order of
their keys in the policy. -/
theorem Round.run_drawn (now : Nat) (draws : Nat → Nat × Nat) (fuel : Nat)
    (h : ∀ i, Alike (shards i) (r.shards i)) :
    ((∀ p ∈ drawn shards draws fuel r.activeShards r.keysCheck,
        expired now (shards p.1).dbStore p.2 = false) ∧
      ∀ i, Alike (shards i) ((r.run now draws fuel).shards i)) ∨
    ∃ p ∈ drawn shards draws fuel r.activeShards r.keysCheck,
      expired now (shards p.1).dbStore p.2 = true ∧
      ((r.run now draws fuel).shards p.1).dbStore.lookup p.2 = none := by
  induction fuel generalizing r with
  | zero => exact .inl ⟨by simp [drawn], h⟩
  | succ fuel ih =>
      rw [Round.run, drawn]
      by_cases hgo : 0 < r.keysCheck ∧ r.activeShards ≠ []
      · rw [if_pos hgo, if_pos hgo]
        obtain ⟨i, hi, hcase⟩ := r.check_cases now (draws fuel).1 (draws fuel).2 hgo.2
        simp only [hi]
        rw [← (h i).memory, ← (h i).draw]
        rcases hcase with ⟨hmemory, he⟩ | ⟨hmemory, ⟨hkey, he⟩ | ⟨key, hkey, he⟩⟩
        · rw [if_pos hmemory, he]
          exact ih (r := { r with
            activeShards := (swapRemove r.activeShards
              ((draws fuel).1 % r.activeShards.length)).getD [] }) h
        · rw [if_neg hmemory, hkey, he]
          exact ih (r := { r with keysCheck := r.keysCheck - 1 }) h
        · rw [if_neg hmemory, hkey, he]
          simp only
          cases hexp : expired now (shards i).dbStore key with
          | true =>
              refine .inr ⟨(i, key), List.mem_cons_self, hexp, Round.run_gone now draws fuel ?_⟩
              simp only [Function.update_self]
              rw [sweepKey_lookup, if_pos rfl]
              apply live_eq_none_of_expired
              change expired now (r.shards i).dbStore key = true
              rw [(h i).store]
              exact hexp
          | false =>
              have halike (j : ι) : Alike (shards j)
                  (Function.update r.shards i (sweepKey now key (r.lock i)).shard j) := by
                by_cases hj : j = i
                · subst hj
                  rw [Function.update_self]
                  refine (h j).trans (sweepKey_alike (g := r.lock j) ?_)
                  change expired now (r.shards j).dbStore key = false
                  rw [(h j).store]
                  exact hexp
                · rw [Function.update_of_ne hj]
                  exact h j
              rcases ih (r := { r with
                shards := Function.update r.shards i (sweepKey now key (r.lock i)).shard
                globalMemory := (sweepKey now key (r.lock i)).globalMemory
                keysCheck := r.keysCheck - 1 }) halike with ⟨hlive, hsame⟩ | ⟨p, hp, hgone⟩
              · refine .inl ⟨?_, hsame⟩
                intro p hp
                rcases List.mem_cons.mp hp with rfl | hp
                · exact hexp
                · exact hlive p hp
              · exact .inr ⟨p, List.mem_cons_of_mem _ hp, hgone⟩
      · rw [if_neg hgo, if_neg hgo]
        exact .inl ⟨by simp, h⟩

variable [Fintype ι]

omit [DecidableEq ι] in
theorem removed_eq_zero {shards' : ι → Shard D} :
    removed now shards shards' = 0 ↔
      ∀ i k, expired now (shards i).dbStore k = true → (shards' i).dbStore.lookup k ≠ none := by
  rw [removed, Finset.sum_eq_zero_iff]
  constructor
  · intro h i k hexp hnone
    obtain ⟨e, he, -⟩ := expired_iff.mp hexp
    have hmem : k ∈ (shards i).dbStore.keys := Finmap.mem_keys.mpr (Finmap.mem_of_lookup_eq_some he)
    have hempty := Finset.card_eq_zero.mp (h i (Finset.mem_univ i))
    refine Finset.notMem_empty k (hempty ▸ Finset.mem_filter.mpr ⟨hmem, ?_⟩)
    rw [hexp, hnone]
    rfl
  · intro h i _
    refine Finset.card_eq_zero.mpr (Finset.filter_eq_empty_iff.mpr ?_)
    intro k _ hk
    rw [Bool.and_eq_true, Option.isNone_iff_eq_none] at hk
    exact h i k hk.1 hk.2

/-- The round is over, its count is that of the expired entries it has removed, and
five of them bring on another round. -/
structure Counted (now : Nat) (shards : ι → Shard D) (r : Round ι D) : Prop where
  finished : r.keysCheck = 0 ∨ r.activeShards = []
  count : r.expiredCount = removed now shards r.shards
  again : 5 ≤ removed now shards r.shards → r.again true = true

/-- expired_count stays zero, and so it is right for just the rounds that draw no
expired key: select deletes these itself and returns None. -/
theorem sweepRound_counted_iff (now : Nat) (draws : Nat → Nat × Nat) (shards : ι → Shard D)
    (globalMemory : UInt64) (activeShards : List ι) :
    Counted now shards (sweepRound now draws shards globalMemory activeShards) ↔
      ∀ p ∈ drawn shards draws (20 + activeShards.length) activeShards 20,
        expired now (shards p.1).dbStore p.2 = false := by
  have hcount : (sweepRound now draws shards globalMemory activeShards).expiredCount = 0 :=
    Round.run_expiredCount now draws _
  have hdrawn := Round.run_drawn (r := ⟨shards, globalMemory, activeShards, 20, 0⟩) now draws
    (20 + activeShards.length) (fun i => ⟨rfl, rfl, rfl⟩)
  constructor
  · intro h p hp
    have hzero := h.count
    rw [hcount] at hzero
    rcases hdrawn with ⟨hlive, -⟩ | ⟨q, -, hexp, hgone⟩
    · exact hlive p hp
    · exact absurd hgone (removed_eq_zero.mp hzero.symm q.1 q.2 hexp)
  · intro h
    have hzero : removed now shards
        (sweepRound now draws shards globalMemory activeShards).shards = 0 := by
      rw [removed_eq_zero]
      intro i k hexp hnone
      rcases hdrawn with ⟨-, hsame⟩ | ⟨q, hq, hexp', -⟩
      · obtain ⟨e, he, -⟩ := expired_iff.mp hexp
        have hstore := (hsame i).store
        rw [sweepRound, hstore, he] at hnone
        cases hnone
      · have hlive := h q hq
        rw [hexp'] at hlive
        cases hlive
    refine ⟨Round.run_over now draws _ (Nat.le_refl _), by rw [hcount, hzero], ?_⟩
    intro hfive
    rw [hzero] at hfive
    omega

end Rounds

section Sample

/-- One shard with a key that expires at 3. -/
def oneExpiring : Unit → Shard Unit := fun _ =>
  ((Shard.new .lru : Shard Unit).insertEntry keyA ⟨(), some 3, 7⟩).2

/-- At 5 the round removes the key and counts nothing. -/
theorem round_counts_nothing :
    ¬ Counted 5 oneExpiring (sweepRound 5 (fun _ => (0, 0)) oneExpiring 7 [()]) := by
  intro h
  have hzero := h.count
  rw [show (sweepRound 5 (fun _ => (0, 0)) oneExpiring 7 [()]).expiredCount = 0 from
    Round.run_expiredCount 5 _ _] at hzero
  refine removed_eq_zero.mp hzero.symm () keyA (by decide +kernel) ?_
  exact Option.isNone_iff_eq_none.mp (by decide +kernel)

end Sample

end RustKv.Normal
