import Mathlib.Algebra.BigOperators.Group.Finset.Piecewise
import Mathlib.Algebra.Order.BigOperators.Group.Finset
import RustKv.CacheInvariant

namespace RustKv.CacheStore

open Text Eviction

variable {ι D : Type} [DecidableEq ι]

inductive StoreOp (D : Type)
  | insert (key : Str) (value : ValueEntry D)
  | remove (key : Str)
  | get (key : Str)
  | read (key : Str)

def StoreOp.run (node : MemoryCacheNode D) : StoreOp D → Option (MemoryChange × MemoryCacheNode D)
  | .insert key value => node.insertEntry key value
  | .remove key => (node.removeEntry key).map Prod.snd
  | .get key => (node.getEntry key).map (fun r => (.keep, r.2))
  | .read key => (node.onRead key).map (fun n => (.keep, n))

def MemoryChange.wraps (memory : UInt64) : MemoryChange → Bool
  | .fetchSub size => decide (memory < size)
  | _ => false

/-- All shards of all databases and GLOBAL_MEMORY. An operation first changes its
shard, under the shard's lock; what it has yet to do to GLOBAL_MEMORY is pending.
`wrapped` records whether a fetch_sub has gone below zero. -/
structure Memory (ι D : Type) where
  nodes : ι → MemoryCacheNode D
  pending : ι → Option MemoryChange
  globalMemory : UInt64
  wrapped : Bool

inductive Event (ι D : Type)
  | start (shard : ι) (op : StoreOp D)
  | finish (shard : ι)

def Memory.new (t : EvictionType) : Memory ι D where
  nodes _ := MemoryCacheNode.new t
  pending _ := none
  globalMemory := 0
  wrapped := false

/-- One step of any client. None is a step that cannot be taken: the shard is
locked, or there is nothing to finish. -/
def Memory.step (m : Memory ι D) : Event ι D → Option (Memory ι D)
  | .start shard op =>
      match m.pending shard with
      | some _ => none
      | none => do
          let (change, node) ← op.run (m.nodes shard)
          some { m with
            nodes := Function.update m.nodes shard node
            pending := Function.update m.pending shard (some change)
            wrapped := m.wrapped || change.wraps (m.nodes shard).approxMemory }
  | .finish shard =>
      match m.pending shard with
      | none => none
      | some change => some { m with
          pending := Function.update m.pending shard none
          globalMemory := change.apply m.globalMemory
          wrapped := m.wrapped || change.wraps m.globalMemory }

/-- `past` are the states a run went through before it came to the last one. -/
inductive Memory.Run (t : EvictionType) : List (Memory ι D) → Memory ι D → Prop
  | new : Memory.Run t [] (Memory.new t)
  | step {past : List (Memory ι D)} {m m' : Memory ι D} (e : Event ι D) :
      Memory.Run t past m → m.step e = some m' → Memory.Run t (m :: past) m'

def pendingAdded (c : Option MemoryChange) : Nat := (c.map MemoryChange.added).getD 0

def pendingSubbed (c : Option MemoryChange) : Nat := (c.map MemoryChange.subbed).getD 0

def pendingValue (c : Option MemoryChange) : UInt64 := (c.map MemoryChange.value).getD 0

/-- The sizes of the entries fit isize. -/
def MemoryCacheNode.Sized (node : MemoryCacheNode D) : Prop :=
  ∀ k e, node.dbStore.lookup k = some e → e.dataSize.toNat < 2 ^ 63

theorem MemoryCacheNode.Sized.sizeBefore {node : MemoryCacheNode D} (h : node.Sized) (key : Str) :
    (node.sizeBefore key).toNat < 2 ^ 63 := by
  unfold MemoryCacheNode.sizeBefore
  cases hl : node.dbStore.lookup key with
  | none => simp
  | some e => exact h key e hl

theorem lookup_le_bytes {node : MemoryCacheNode D} {key : Str} {e : ValueEntry D}
    (hl : node.dbStore.lookup key = some e) : e.dataSize.toNat ≤ node.bytes := by
  rw [MemoryCacheNode.bytes, total_erase _ hl]
  exact Nat.le_add_right _ _

/-- What an operation does to its shard. The last part is the exact account,
for sizes below 2^63. -/
theorem run_spec {node : MemoryCacheNode D} (h : node.WF) (op : StoreOp D) :
    ∃ c node', op.run node = some (c, node') ∧ node'.WF ∧
      node'.approxMemory = c.apply node.approxMemory ∧
      (node.Sized → node'.Sized →
        node'.bytes + c.subbed = node.bytes + c.added ∧ c.subbed ≤ node.bytes ∧
          c.added ≤ node'.bytes) := by
  cases op with
  | insert key value =>
      obtain ⟨node', hn, wf, hdb, hmem⟩ := MemoryCacheNode.insertEntry_spec h key value
      refine ⟨_, node', hn, wf, hmem, fun hs hs' => ?_⟩
      have hlookup : node'.dbStore.lookup key = some value := by rw [hdb, Finmap.lookup_insert]
      have hexact := memoryDiffer_exact (hs' key value hlookup) (hs.sizeBefore key)
      have hbytes := MemoryCacheNode.bytes_insert node key value
      rw [← hdb] at hbytes
      have hbefore : (node.sizeBefore key).toNat ≤ node.bytes := by
        unfold MemoryCacheNode.sizeBefore
        cases hl : node.dbStore.lookup key with
        | none => simp
        | some e => exact lookup_le_bytes hl
      have hvalue := lookup_le_bytes hlookup
      change node'.bytes + _ = _ at hbytes
      rcases (memoryDiffer value.dataSize (node.sizeBefore key)).added_or_subbed with h0 | h0 <;>
        rw [h0] at hexact ⊢ <;> omega
  | remove key =>
      obtain ⟨c, node', hn, wf, hdb, hc, hmem⟩ := MemoryCacheNode.removeEntry_spec h key
      refine ⟨c, node', by simp [StoreOp.run, hn], wf, hmem, fun _ _ => ?_⟩
      cases hl : node.dbStore.lookup key with
      | none =>
          rw [hl] at hc
          subst hc
          have herase : node.dbStore.erase key = node.dbStore := by
            refine Finmap.ext_lookup (fun k => ?_)
            by_cases he : k = key
            · rw [he, hl, Finmap.lookup_erase]
            · rw [Finmap.lookup_erase_ne he]
          rw [herase] at hdb
          simp [MemoryChange.added, MemoryChange.subbed, MemoryCacheNode.bytes, hdb]
      | some e =>
          rw [hl] at hc
          subst hc
          have htotal := total_erase (fun e : ValueEntry D => e.dataSize.toNat) hl
          rw [← hdb] at htotal
          change node.bytes = _ + node'.bytes at htotal
          simp only [MemoryChange.added, MemoryChange.subbed]
          omega
  | get key =>
      obtain ⟨node', hn, wf, hdb, hmem⟩ := MemoryCacheNode.getEntry_spec h key
      refine ⟨.keep, node', by simp [StoreOp.run, hn], wf, hmem, fun _ _ => ?_⟩
      simp [MemoryChange.added, MemoryChange.subbed, MemoryCacheNode.bytes, hdb]
  | read key =>
      obtain ⟨node', hn, wf, hdb, hmem⟩ := MemoryCacheNode.onRead_spec h key
      refine ⟨.keep, node', by simp [StoreOp.run, hn], wf, hmem, fun _ _ => ?_⟩
      simp [MemoryChange.added, MemoryChange.subbed, MemoryCacheNode.bytes, hdb]

variable {m m' : Memory ι D}

/-- What one step can be. -/
theorem step_cases {e : Event ι D} (hwf : ∀ s, (m.nodes s).WF) (h : m.step e = some m') :
    (∃ shard op c node, e = .start shard op ∧ m.pending shard = none ∧
      op.run (m.nodes shard) = some (c, node) ∧ m' = { m with
        nodes := Function.update m.nodes shard node
        pending := Function.update m.pending shard (some c)
        wrapped := m.wrapped || c.wraps (m.nodes shard).approxMemory }) ∨
    ∃ shard c, e = .finish shard ∧ m.pending shard = some c ∧ m' = { m with
        pending := Function.update m.pending shard none
        globalMemory := c.apply m.globalMemory
        wrapped := m.wrapped || c.wraps m.globalMemory } := by
  cases e with
  | start shard op =>
      simp only [Memory.step] at h
      cases hp : m.pending shard with
      | some c => simp [hp] at h
      | none =>
          obtain ⟨c, node, hrun, -⟩ := run_spec (hwf shard) op
          simp only [hp, hrun, Option.bind_eq_bind, Option.bind_some, Option.some.injEq] at h
          exact .inl ⟨shard, op, c, node, rfl, hp, hrun, h.symm⟩
  | finish shard =>
      simp only [Memory.step] at h
      cases hp : m.pending shard with
      | none => simp [hp] at h
      | some c =>
          simp only [hp, Option.some.injEq] at h
          exact .inr ⟨shard, c, rfl, hp, h.symm⟩

theorem sum_change [Fintype ι] {M : Type} [AddCommMonoid M] {f g : ι → M} (s : ι)
    (h : ∀ x, x ≠ s → g x = f x) : ∑ x, g x + f s = ∑ x, f x + g s := by
  rw [Finset.sum_eq_sum_sdiff_singleton_add (Finset.mem_univ s) f,
    Finset.sum_eq_sum_sdiff_singleton_add (Finset.mem_univ s) g]
  have hrest : ∑ x ∈ Finset.univ \ {s}, g x = ∑ x ∈ Finset.univ \ {s}, f x := by
    refine Finset.sum_congr rfl (fun x hx => h x ?_)
    rintro rfl
    simp at hx
  rw [hrest, add_right_comm]

variable [Fintype ι]

/-- The counters agree with the shards, up to what is pending, modulo 2^64. -/
structure Memory.Accounts (m : Memory ι D) : Prop where
  wf : ∀ s, (m.nodes s).WF
  balance : m.globalMemory + ∑ s, pendingValue (m.pending s) = ∑ s, (m.nodes s).approxMemory

/-- The bytes of all entries stored and of those whose removal is pending. -/
def Memory.held (m : Memory ι D) : Nat :=
  ∑ s, ((m.nodes s).bytes + pendingSubbed (m.pending s))

/-- Sizes and their sum stay within the machine's numbers. -/
def Memory.Fits (m : Memory ι D) : Prop := (∀ s, (m.nodes s).Sized) ∧ m.held < 2 ^ 64

/-- The counters agree with the shards as plain numbers, and none has wrapped. -/
structure Memory.Exact (m : Memory ι D) : Prop where
  unwrapped : m.wrapped = false
  balance : m.globalMemory.toNat + ∑ s, pendingAdded (m.pending s) = m.held
  added_le : ∀ s, pendingAdded (m.pending s) ≤ (m.nodes s).bytes

omit [DecidableEq ι] in
theorem accounts_new (t : EvictionType) : (Memory.new t : Memory ι D).Accounts where
  wf _ := new_wf t
  balance := by simp [Memory.new, pendingValue, MemoryCacheNode.new]

omit [DecidableEq ι] in
theorem exact_new (t : EvictionType) : (Memory.new t : Memory ι D).Exact where
  unwrapped := rfl
  balance := by
    have hbytes : (MemoryCacheNode.new t : MemoryCacheNode D).bytes = 0 := rfl
    simp [Memory.new, Memory.held, pendingAdded, pendingSubbed, hbytes]
  added_le s := by simp [Memory.new, pendingAdded]

/-- A sum over the shards after the value of one shard has changed. -/
theorem sum_shard {A M : Type} [AddCommMonoid M] (f : A → M) (g : ι → A) (s : ι) (a : A) :
    ∑ x, f (Function.update g s a x) + f (g s) = ∑ x, f (g x) + f a := by
  have h := sum_change (f := fun x => f (g x)) (g := fun x => f (Function.update g s a x)) s
    (fun x hx => by simp [hx])
  simpa using h

theorem step_accounts {e : Event ι D} (h : m.Accounts) (hstep : m.step e = some m') :
    m'.Accounts := by
  obtain ⟨shard, op, c, node, rfl, hp, hrun, rfl⟩ | ⟨shard, c, rfl, hp, rfl⟩ :=
    step_cases h.wf hstep
  · obtain ⟨c', node', hrun', wf, hmem, -⟩ := run_spec (h.wf shard) op
    rw [hrun] at hrun'
    cases hrun'
    refine ⟨fun s => ?_, ?_⟩
    · by_cases hs : s = shard
      · subst hs
        simpa using wf
      · simpa [hs] using h.wf s
    · have hvalue := sum_shard pendingValue m.pending shard (some c)
      have happrox := sum_shard MemoryCacheNode.approxMemory m.nodes shard node
      rw [hp] at hvalue
      simp only [pendingValue, Option.map_none, Option.getD_none, add_zero, Option.map_some,
        Option.getD_some] at hvalue
      rw [hmem, MemoryChange.apply_eq, add_comm _ c.value, ← add_assoc] at happrox
      have hbalance := h.balance
      simp only [pendingValue] at hbalance ⊢
      rw [hvalue, ← add_assoc, hbalance, add_right_cancel happrox]
  · refine ⟨h.wf, ?_⟩
    have hvalue := sum_shard pendingValue m.pending shard none
    rw [hp] at hvalue
    simp only [pendingValue, Option.map_none, Option.getD_none, add_zero, Option.map_some,
      Option.getD_some] at hvalue
    have hbalance := h.balance
    simp only [pendingValue] at hbalance ⊢
    rw [MemoryChange.apply_eq, add_assoc, add_comm c.value, hvalue, hbalance]

omit [DecidableEq ι] in
theorem bytes_le_held (m : Memory ι D) (s : ι) :
    (m.nodes s).bytes + pendingSubbed (m.pending s) ≤ m.held :=
  Finset.single_le_sum (f := fun s => (m.nodes s).bytes + pendingSubbed (m.pending s))
    (fun _ _ => Nat.zero_le _) (Finset.mem_univ s)

theorem wraps_eq_false {c : MemoryChange} {memory : UInt64} (h : c.subbed ≤ memory.toNat) :
    c.wraps memory = false := by
  cases c with
  | keep => rfl
  | fetchAdd size => rfl
  | fetchSub size =>
      simp only [MemoryChange.wraps, decide_eq_false_iff_not, UInt64.not_lt]
      exact UInt64.le_iff_toNat_le.mpr h

theorem apply_toNat {c : MemoryChange} {memory : UInt64} (hsub : c.subbed ≤ memory.toNat)
    (hadd : memory.toNat + c.added < 2 ^ 64) :
    (c.apply memory).toNat + c.subbed = memory.toNat + c.added := by
  cases c with
  | keep => rfl
  | fetchAdd size =>
      change (memory + size).toNat + 0 = memory.toNat + size.toNat
      change memory.toNat + size.toNat < 2 ^ 64 at hadd
      rw [UInt64.toNat_add, Nat.mod_eq_of_lt hadd, Nat.add_zero]
  | fetchSub size =>
      change (memory - size).toNat + size.toNat = memory.toNat + 0
      change size.toNat ≤ memory.toNat at hsub
      rw [UInt64.toNat_sub_of_le _ _ (UInt64.le_iff_toNat_le.mpr hsub)]
      omega

theorem start_exact {shard : ι} {op : StoreOp D} {c : MemoryChange} {node : MemoryCacheNode D}
    (h : m.Exact) (hwf : ∀ s, (m.nodes s).WF) (hfits : m.Fits) (hsized : node.Sized)
    (hp : m.pending shard = none) (hrun : op.run (m.nodes shard) = some (c, node)) :
    Memory.Exact { m with
      nodes := Function.update m.nodes shard node
      pending := Function.update m.pending shard (some c)
      wrapped := m.wrapped || c.wraps (m.nodes shard).approxMemory } := by
  obtain ⟨c', node', hrun', wf, -, hexact⟩ := run_spec (hwf shard) op
  rw [hrun] at hrun'
  cases hrun'
  obtain ⟨hbytes, hsub, hadd⟩ := hexact (hfits.1 shard) hsized
  have hle := bytes_le_held m shard
  have hlt := hfits.2
  refine ⟨?_, ?_, fun s => ?_⟩
  · have happrox : (m.nodes shard).approxMemory.toNat = (m.nodes shard).bytes := by
      rw [(hwf shard).memory]
      exact UInt64.toNat_ofNat_of_lt' (Nat.lt_of_le_of_lt (Nat.le_trans (Nat.le_add_right _ _) hle) hlt)
    simp [h.unwrapped, wraps_eq_false (happrox ▸ hsub)]
  · have hadded := sum_shard pendingAdded m.pending shard (some c)
    have hheld := sum_change (f := fun s => (m.nodes s).bytes + pendingSubbed (m.pending s))
      (g := fun s => (Function.update m.nodes shard node s).bytes +
        pendingSubbed (Function.update m.pending shard (some c) s)) shard
      (fun x hx => by simp [hx])
    have hbalance := h.balance
    simp only [Function.update_self, hp] at hadded hheld
    simp only [pendingAdded, pendingSubbed, Option.map_none, Option.getD_none, Option.map_some,
      Option.getD_some, Memory.held] at hadded hheld hbalance ⊢
    omega
  · by_cases hs : s = shard
    · subst hs
      simpa [pendingAdded] using hadd
    · simpa [hs] using h.added_le s

theorem finish_exact {shard : ι} {c : MemoryChange} (h : m.Exact) (hlt : m.held < 2 ^ 64)
    (hp : m.pending shard = some c) :
    Memory.Exact { m with
      pending := Function.update m.pending shard none
      globalMemory := c.apply m.globalMemory
      wrapped := m.wrapped || c.wraps m.globalMemory } := by
  have hadded := sum_shard pendingAdded m.pending shard none
  have hheld := sum_change (f := fun s => (m.nodes s).bytes + pendingSubbed (m.pending s))
    (g := fun s => (m.nodes s).bytes + pendingSubbed (Function.update m.pending shard none s)) shard
    (fun x hx => by simp [hx])
  have hrest : ∑ s, pendingAdded (Function.update m.pending shard none s) ≤
      ∑ s, ((m.nodes s).bytes + pendingSubbed (Function.update m.pending shard none s)) := by
    refine Finset.sum_le_sum (fun s _ => ?_)
    by_cases hs : s = shard
    · simp [hs, pendingAdded]
    · simpa [hs] using Nat.le_trans (h.added_le s) (Nat.le_add_right _ _)
  have hbalance := h.balance
  have hsubbed : c.subbed ≤ m.globalMemory.toNat := by
    rcases c.added_or_subbed with h0 | h0
    · simp only [Function.update_self, hp] at hadded hheld
      simp only [pendingAdded, pendingSubbed, Option.map_none, Option.getD_none, Option.map_some,
        Option.getD_some, Memory.held, h0] at hadded hheld hbalance hrest
      omega
    · omega
  simp only [Function.update_self, hp] at hadded hheld
  simp only [pendingAdded, pendingSubbed, Option.map_none, Option.getD_none, Option.map_some,
    Option.getD_some, Memory.held] at hadded hheld hbalance hlt
  refine ⟨by simp [h.unwrapped, wraps_eq_false hsubbed], ?_, fun s => ?_⟩
  · have happly := apply_toNat hsubbed (by omega)
    simp only [pendingAdded, pendingSubbed, Memory.held]
    omega
  · by_cases hs : s = shard
    · simp [hs, pendingAdded]
    · simpa [hs] using h.added_le s

theorem step_exact {e : Event ι D} (h : m.Exact) (hwf : ∀ s, (m.nodes s).WF) (hfits : m.Fits)
    (hfits' : m'.Fits) (hstep : m.step e = some m') : m'.Exact := by
  obtain ⟨shard, op, c, node, rfl, hp, hrun, rfl⟩ | ⟨shard, c, rfl, hp, rfl⟩ := step_cases hwf hstep
  · have hsized := hfits'.1 shard
    simp only [Function.update_self] at hsized
    exact start_exact h hwf hfits hsized hp hrun
  · exact finish_exact h hfits.2 hp

theorem run_accounts {t : EvictionType} {past : List (Memory ι D)} (h : Memory.Run t past m) :
    m.Accounts ∧ ((∀ m' ∈ past, m'.Fits) → m.Fits → m.Exact) := by
  induction h with
  | new => exact ⟨accounts_new t, fun _ _ => exact_new t⟩
  | step e _ hstep ih =>
      refine ⟨step_accounts ih.1 hstep, fun hpast hfits => ?_⟩
      have hm := hpast _ List.mem_cons_self
      have hexact := ih.2 (fun m' hm' => hpast m' (List.mem_cons_of_mem _ hm')) hm
      exact step_exact hexact ih.1.wf hm hfits hstep

/-- In every state of every interleaving of operations on all shards: a shard's
keys are those of its policy, sample_keys lists them once each with the right
back indices, the shard's counter is the sum of its sizes, and GLOBAL_MEMORY is
the sum of the shards' counters when no operation is in progress; every shard
that is not locked can take any operation. While the sizes fit the machine's
numbers no fetch_sub wraps and both sums are exact. -/
theorem store_invariant {t : EvictionType} {past : List (Memory ι D)} (h : Memory.Run t past m) :
    (∀ s, (m.nodes s).dbStore.keys = (m.nodes s).evicition.tracked ∧
      (m.nodes s).evicition.sampleKeys.Nodup ∧
      (∀ k, k ∈ (m.nodes s).evicition.sampleKeys ↔ k ∈ (m.nodes s).dbStore) ∧
      (∀ k, k ∈ (m.nodes s).dbStore → ∃ i, (m.nodes s).evicition.sampleIdx k = some i ∧
        (m.nodes s).evicition.sampleKeys[i]? = some k) ∧
      (m.nodes s).approxMemory = UInt64.ofNat (m.nodes s).bytes) ∧
    ((∀ s, m.pending s = none) → m.globalMemory = ∑ s, (m.nodes s).approxMemory) ∧
    (∀ s op, m.pending s = none → ∃ m', m.step (.start s op) = some m') ∧
    ((∀ m' ∈ m :: past, m'.Fits) → m.wrapped = false ∧
      (∀ s, (m.nodes s).approxMemory.toNat = (m.nodes s).bytes) ∧
      ((∀ s, m.pending s = none) →
        m.globalMemory.toNat = ∑ s, (m.nodes s).approxMemory.toNat)) := by
  obtain ⟨hacc, hexact⟩ := run_accounts h
  refine ⟨fun s => ?_, ?_, ?_, ?_⟩
  · have wf := hacc.wf s
    have hsampled := EvictionStrategy.sampled wf.policy
    have hmem : ∀ k, k ∈ (m.nodes s).evicition.sampleKeys ↔ k ∈ (m.nodes s).dbStore := by
      intro k
      rw [hsampled.mem_iff, wf.keys, EvictionStrategy.mem_tracked_iff]
    refine ⟨?_, hsampled.nodup, hmem, ?_, wf.memory⟩
    · ext k
      rw [Finmap.mem_keys, wf.keys]
    · intro k hk
      rw [wf.keys, EvictionStrategy.mem_tracked_iff] at hk
      obtain ⟨i, hi⟩ := hk
      exact ⟨i, hi, (hsampled k i).mp hi⟩
  · intro hquiet
    have hbalance := hacc.balance
    simpa [hquiet, pendingValue] using hbalance
  · intro s op hp
    obtain ⟨c, node, hrun, -⟩ := run_spec (hacc.wf s) op
    exact ⟨_, by simp only [Memory.step, hp, hrun, Option.bind_eq_bind, Option.bind_some]; rfl⟩
  · intro hfits
    have hm := hfits m List.mem_cons_self
    have hex := hexact (fun m' hm' => hfits m' (List.mem_cons_of_mem _ hm')) hm
    have happrox : ∀ s, (m.nodes s).approxMemory.toNat = (m.nodes s).bytes := by
      intro s
      have hle := bytes_le_held m s
      have hlt := hm.2
      rw [(hacc.wf s).memory]
      exact UInt64.toNat_ofNat_of_lt' (Nat.lt_of_le_of_lt (Nat.le_trans (Nat.le_add_right _ _) hle) hlt)
    refine ⟨hex.unwrapped, happrox, fun hquiet => ?_⟩
    have hbalance := hex.balance
    simpa [hquiet, pendingAdded, pendingSubbed, Memory.held, happrox] using hbalance

omit [DecidableEq ι] in
theorem fits_of_held {m : Memory ι D} (h : m.held < 2 ^ 63) : m.Fits := by
  refine ⟨fun s k e he => ?_, by omega⟩
  have hle := lookup_le_bytes he
  have hheld := bytes_le_held m s
  omega

/-- The memory after some steps; those that cannot be taken are passed over. -/
def Memory.after (t : EvictionType) (events : List (Event ι D)) : Memory ι D :=
  events.foldl (fun m e => (m.step e).getD m) (Memory.new t)

omit [Fintype ι] in
theorem after_concat (t : EvictionType) (events : List (Event ι D)) (e : Event ι D) :
    Memory.after t (events ++ [e]) = ((Memory.after t events).step e).getD (Memory.after t events) := by
  rw [Memory.after, List.foldl_concat]
  rfl

omit [Fintype ι] in
theorem run_after {t : EvictionType} (events : List (Event ι D))
    (h : ∀ n (hn : n < events.length), ((Memory.after t (events.take n)).step events[n]).isSome) :
    Memory.Run t ((List.range events.length).reverse.map (fun n => Memory.after t (events.take n)))
      (Memory.after t events) := by
  induction events using List.reverseRecOn with
  | nil => exact .new
  | append_singleton events e ih =>
      have htake {n : Nat} (hn : n ≤ events.length) : (events ++ [e]).take n = events.take n :=
        List.take_append_of_le_length hn
      have hlast := h events.length (by simp)
      rw [htake le_rfl, List.take_length, List.getElem_concat_length rfl] at hlast
      obtain ⟨m, hm⟩ := Option.isSome_iff_exists.mp hlast
      have hpast : (List.range events.length).reverse.map (fun n => Memory.after t ((events ++ [e]).take n)) =
          (List.range events.length).reverse.map (fun n => Memory.after t (events.take n)) := by
        refine List.map_congr_left (fun n hn => ?_)
        rw [htake (List.mem_range.mp (List.mem_reverse.mp hn)).le]
      have hrun := ih (fun n hn => by
        have hstep := h n (by rw [List.length_append]; omega)
        rwa [htake hn.le, List.getElem_append_left hn] at hstep)
      rw [List.length_append, List.length_singleton, List.range_succ, List.reverse_append, List.reverse_singleton,
        List.singleton_append, List.map_cons, htake le_rfl, List.take_length, hpast]
      refine .step e hrun ?_
      rw [after_concat, hm, Option.getD_some]

def firstKey : Str := Str.ofAscii [0x6B] (by decide)

def secondKey : Str := Str.ofAscii [0x6C] (by decide)

/-- On two shards a key is replaced while another one is inserted and removed. -/
def sampleEvents : List (Event Bool Unit) :=
  [.start false (.insert firstKey ⟨(), none, 7⟩), .start true (.insert secondKey ⟨(), none, 5⟩), .finish false,
    .start false (.insert firstKey ⟨(), none, 3⟩), .finish true, .start true (.remove secondKey), .finish true,
    .finish false]

theorem store_invariant_sample : (Memory.after .lru sampleEvents).wrapped = false ∧
    (Memory.after .lru sampleEvents).globalMemory.toNat =
      ∑ s, ((Memory.after .lru sampleEvents).nodes s).approxMemory.toNat := by
  have hrun : Memory.Run .lru _ (Memory.after .lru sampleEvents) := run_after sampleEvents (by decide +kernel)
  have hheld : ∀ n < 9, (Memory.after .lru (sampleEvents.take n)).held < 2 ^ 63 := by decide +kernel
  have hfits : ∀ m' ∈ Memory.after .lru sampleEvents ::
      (List.range sampleEvents.length).reverse.map (fun n => Memory.after .lru (sampleEvents.take n)), m'.Fits := by
    intro m' hm
    rcases List.mem_cons.mp hm with rfl | hpast
    · exact fits_of_held (hheld 8 (by decide))
    · obtain ⟨n, hn, rfl⟩ := List.mem_map.mp hpast
      have hlt : n < 8 := List.mem_range.mp (List.mem_reverse.mp hn)
      exact fits_of_held (hheld n (by omega))
  have hquiet : ∀ s, (Memory.after .lru sampleEvents).pending s = none := by decide +kernel
  obtain ⟨hunwrapped, -, hsum⟩ := (store_invariant hrun).2.2.2 hfits
  exact ⟨hunwrapped, hsum hquiet⟩

end RustKv.CacheStore
