import Mathlib.Data.UInt
import RustKv.CacheStore
import RustKv.PolicySpec

namespace RustKv.CacheStore

open Text Eviction

section Totals

variable {K V : Type} [DecidableEq K] {m : Finmap (fun _ : K => V)} {k : K} {v w : V}

/-- The sum of the sizes of all values of a map. -/
def total (size : V → Nat) (m : Finmap (fun _ : K => V)) : Nat :=
  (m.entries.map (fun e => size e.2)).sum

/-- The same when the size depends on the key too. -/
def weight (size : K → V → Nat) (m : Finmap (fun _ : K => V)) : Nat :=
  (m.entries.map (fun e => size e.1 e.2)).sum

theorem weight_insert_new (size : K → V → Nat) (h : m.lookup k = none) (v : V) :
    weight size (m.insert k v) = size k v + weight size m := by
  rw [weight, Finmap.entries_insert_of_notMem (Finmap.lookup_eq_none.mp h), Multiset.map_cons,
    Multiset.sum_cons]
  rfl

theorem insert_erase (m : Finmap (fun _ : K => V)) (k : K) (v : V) :
    (m.erase k).insert k v = m.insert k v := by
  refine Finmap.ext_lookup (fun k' => ?_)
  by_cases he : k' = k
  · subst he
    rw [Finmap.lookup_insert, Finmap.lookup_insert]
  · rw [Finmap.lookup_insert_of_ne _ he, Finmap.lookup_insert_of_ne _ he, Finmap.lookup_erase_ne he]

theorem insert_lookup (h : m.lookup k = some v) : m.insert k v = m := by
  refine Finmap.ext_lookup (fun k' => ?_)
  by_cases he : k' = k
  · subst he
    rw [Finmap.lookup_insert, h]
  · rw [Finmap.lookup_insert_of_ne _ he]

theorem weight_erase (size : K → V → Nat) (h : m.lookup k = some v) :
    weight size m = size k v + weight size (m.erase k) := by
  rw [← weight_insert_new size (Finmap.lookup_erase k m), insert_erase, insert_lookup h]

theorem weight_insert (size : K → V → Nat) (h : m.lookup k = some w) (v : V) :
    weight size (m.insert k v) + size k w = size k v + weight size m := by
  rw [← insert_erase, weight_insert_new size (Finmap.lookup_erase k m), weight_erase size h]
  omega

theorem total_insert_new (size : V → Nat) (h : m.lookup k = none) (v : V) :
    total size (m.insert k v) = size v + total size m :=
  weight_insert_new (fun _ => size) h v

theorem total_erase (size : V → Nat) (h : m.lookup k = some v) :
    total size m = size v + total size (m.erase k) :=
  weight_erase (fun _ => size) h

theorem total_insert (size : V → Nat) (h : m.lookup k = some w) (v : V) :
    total size (m.insert k v) + size w = size v + total size m :=
  weight_insert (fun _ => size) h v

end Totals

variable {D : Type} {node : MemoryCacheNode D}

def MemoryCacheNode.bytes (node : MemoryCacheNode D) : Nat :=
  total (fun e : ValueEntry D => e.dataSize.toNat) node.dbStore

structure MemoryCacheNode.WF (node : MemoryCacheNode D) : Prop where
  policy : node.evicition.WF
  keys : ∀ k, k ∈ node.dbStore ↔ k ∈ node.evicition.tracked
  memory : node.approxMemory = UInt64.ofNat node.bytes

theorem new_wf (t : EvictionType) : (MemoryCacheNode.new t : MemoryCacheNode D).WF where
  policy := EvictionStrategy.new_wf t
  keys k := by cases t <;> exact Iff.rfl
  memory := rfl

/-- A change of the counter as a number to add to it. -/
def MemoryChange.value : MemoryChange → UInt64
  | .keep => 0
  | .fetchAdd size => size
  | .fetchSub size => -size

theorem MemoryChange.apply_eq (m : UInt64) (c : MemoryChange) : c.apply m = m + c.value := by
  cases c with
  | keep => exact (UInt64.add_zero m).symm
  | fetchAdd size => rfl
  | fetchSub size => exact UInt64.sub_eq_add_neg m size

theorem memoryDiffer_value (size before : UInt64) : (memoryDiffer size before).value = size - before := by
  unfold memoryDiffer
  have h : (size.toInt64 - before.toInt64).toUInt64 = size - before := rfl
  by_cases hpos : size.toInt64 - before.toInt64 > 0
  · rw [if_pos hpos]
    exact h
  · rw [if_neg hpos]
    by_cases hneg : size.toInt64 - before.toInt64 < 0
    · rw [if_pos hneg]
      change -(-(size.toInt64 - before.toInt64)).toUInt64 = _
      rw [Int64.toUInt64_neg, neg_neg, h]
    · rw [if_neg hneg]
      have h0 : size.toInt64 - before.toInt64 = 0 :=
        Int64.le_antisymm (Int64.not_lt.mp hpos) (Int64.not_lt.mp hneg)
      rw [← h, h0]
      rfl

namespace MemoryCacheNode

theorem bytes_insert (node : MemoryCacheNode D) (key : Str) (value : ValueEntry D) :
    total (fun e : ValueEntry D => e.dataSize.toNat) (node.dbStore.insert key value) +
      (node.sizeBefore key).toNat = value.dataSize.toNat + node.bytes := by
  unfold sizeBefore
  cases hl : node.dbStore.lookup key with
  | none => rw [total_insert_new _ hl]; rfl
  | some entry => exact total_insert _ hl value

theorem insertEntry_spec (h : node.WF) (key : Str) (value : ValueEntry D) :
    ∃ node', node.insertEntry key value =
        some (memoryDiffer value.dataSize (node.sizeBefore key), node') ∧
      node'.WF ∧ node'.dbStore = node.dbStore.insert key value ∧
      node'.approxMemory =
        (memoryDiffer value.dataSize (node.sizeBefore key)).apply node.approxMemory := by
  obtain ⟨e, he, wf, htracked⟩ := EvictionStrategy.onWrite_spec h.policy key
  refine ⟨_, by simp only [insertEntry, he, Option.bind_eq_bind, Option.bind_some]; rfl,
    ⟨wf, ?_, ?_⟩, rfl, rfl⟩
  · intro k
    rw [Finmap.mem_insert, htracked, h.keys]
  · have hb := congrArg UInt64.ofNat (bytes_insert node key value)
    rw [UInt64.ofNat_add, UInt64.ofNat_add, UInt64.ofNat_toNat, UInt64.ofNat_toNat] at hb
    change MemoryChange.apply _ _ = UInt64.ofNat (total _ (node.dbStore.insert key value))
    rw [MemoryChange.apply_eq, memoryDiffer_value, h.memory, eq_sub_of_add_eq hb, ← add_sub_assoc,
      add_comm]

theorem removeEntry_spec (h : node.WF) (key : Str) :
    ∃ c node', node.removeEntry key = some (node.dbStore.lookup key, c, node') ∧
      node'.WF ∧ node'.dbStore = node.dbStore.erase key ∧
      c = (match node.dbStore.lookup key with
        | some value => .fetchSub value.dataSize
        | none => .keep) ∧ node'.approxMemory = c.apply node.approxMemory := by
  unfold removeEntry
  cases hl : node.dbStore.lookup key with
  | none =>
      refine ⟨.keep, node, rfl, h, ?_, rfl, rfl⟩
      refine Finmap.ext_lookup (fun k => ?_)
      by_cases he : k = key
      · rw [he, hl, Finmap.lookup_erase]
      · rw [Finmap.lookup_erase_ne he]
  | some value =>
      obtain ⟨e, he, wf, htracked⟩ := EvictionStrategy.onDelete_spec h.policy key
      refine ⟨_, _, by simp only [he, Option.bind_eq_bind, Option.bind_some]; rfl, ⟨wf, ?_, ?_⟩,
        rfl, rfl, rfl⟩
      · intro k
        rw [Finmap.mem_erase, htracked, h.keys]
      · have hb := congrArg UInt64.ofNat
          (total_erase (fun e : ValueEntry D => e.dataSize.toNat) hl)
        rw [UInt64.ofNat_add, UInt64.ofNat_toNat] at hb
        change node.approxMemory - value.dataSize = UInt64.ofNat (total _ (node.dbStore.erase key))
        rw [h.memory, bytes, hb]
        exact add_sub_cancel_left _ _

theorem onRead_spec (h : node.WF) (key : Str) :
    ∃ node', node.onRead key = some node' ∧ node'.WF ∧ node'.dbStore = node.dbStore ∧
      node'.approxMemory = node.approxMemory := by
  obtain ⟨e, he, wf, htracked⟩ := EvictionStrategy.onRead_spec h.policy key
  refine ⟨{ node with evicition := e }, by simp [onRead, he], ⟨wf, ?_, h.memory⟩, rfl, rfl⟩
  intro k
  rw [htracked, h.keys]

theorem getEntry_spec (h : node.WF) (key : Str) :
    ∃ node', node.getEntry key = some (node.dbStore.lookup key, node') ∧ node'.WF ∧
      node'.dbStore = node.dbStore ∧ node'.approxMemory = node.approxMemory := by
  unfold getEntry
  cases hl : node.dbStore.lookup key with
  | none => exact ⟨node, rfl, h, rfl, rfl⟩
  | some value =>
      obtain ⟨node', hn, wf, hdb, hmem⟩ := onRead_spec h key
      exact ⟨node', by simp [hn], wf, hdb, hmem⟩

end MemoryCacheNode

def MemoryChange.added : MemoryChange → Nat
  | .fetchAdd size => size.toNat
  | _ => 0

def MemoryChange.subbed : MemoryChange → Nat
  | .fetchSub size => size.toNat
  | _ => 0

theorem toInt_toInt64 {n : UInt64} (h : n.toNat < 2 ^ 63) : n.toInt64.toInt = n.toNat := by
  change n.toBitVec.toInt = _
  rw [BitVec.toInt_eq_toNat_of_lt]
  · rfl
  · change 2 * n.toNat < 2 ^ 64
    omega

theorem MemoryChange.added_or_subbed (c : MemoryChange) : c.added = 0 ∨ c.subbed = 0 := by
  cases c <;> simp [MemoryChange.added, MemoryChange.subbed]

/-- Below 2^63 the difference of two sizes is exact. -/
theorem memoryDiffer_exact {size before : UInt64} (hs : size.toNat < 2 ^ 63)
    (hb : before.toNat < 2 ^ 63) :
    size.toNat + (memoryDiffer size before).subbed = before.toNat + (memoryDiffer size before).added := by
  have hint : (size.toInt64 - before.toInt64).toInt = (size.toNat : Int) - before.toNat := by
    rw [Int64.toInt_sub, toInt_toInt64 hs, toInt_toInt64 hb]
    refine Int.bmod_eq_of_le ?_ ?_ <;> omega
  have hu : (size.toInt64 - before.toInt64).toUInt64 = size - before := rfl
  unfold memoryDiffer
  by_cases hpos : size.toInt64 - before.toInt64 > 0
  · rw [if_pos hpos]
    have hlt : before.toNat ≤ size.toNat := by
      have := Int64.lt_iff_toInt_lt.mp hpos
      rw [hint, Int64.toInt_zero] at this
      omega
    simp only [MemoryChange.added, MemoryChange.subbed, hu]
    rw [UInt64.toNat_sub_of_le _ _ (UInt64.le_iff_toNat_le.mpr hlt)]
    omega
  · rw [if_neg hpos]
    by_cases hneg : size.toInt64 - before.toInt64 < 0
    · rw [if_pos hneg]
      have hlt : size.toNat ≤ before.toNat := by
        have := Int64.lt_iff_toInt_lt.mp hneg
        rw [hint, Int64.toInt_zero] at this
        omega
      have hsub : (-(size.toInt64 - before.toInt64)).toUInt64 = before - size := by
        rw [Int64.toUInt64_neg, hu, neg_sub]
      simp only [MemoryChange.added, MemoryChange.subbed, hsub]
      rw [UInt64.toNat_sub_of_le _ _ (UInt64.le_iff_toNat_le.mpr hlt)]
      omega
    · rw [if_neg hneg]
      have h0 : size.toInt64 - before.toInt64 = 0 :=
        Int64.le_antisymm (Int64.not_lt.mp hpos) (Int64.not_lt.mp hneg)
      rw [h0, Int64.toInt_zero] at hint
      simp only [MemoryChange.added, MemoryChange.subbed]
      omega

end RustKv.CacheStore
