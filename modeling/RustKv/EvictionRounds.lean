import Mathlib.Algebra.BigOperators.Ring.Finset
import Mathlib.Data.Fintype.Prod
import Mathlib.Data.Prod.Lex
import RustKv.MemoryEviction
import RustKv.Selection

namespace RustKv.CacheStore

open Text Eviction Selection

section Selected

variable {D : Type} {n : Nat}

def evictionMaxNumber : Nat := 5

/-- The sixteen databases, each of num_shards shards. -/
abbrev ShardId (n : Nat) := Fin 16 × Fin n

/-- What the heap compares: the memory of a shard, then its database, then its index. -/
abbrev HeapItem (n : Nat) := Nat ×ₗ (Fin 16 ×ₗ Fin n)

def heapItem (memory : UInt64) (s : ShardId n) : HeapItem n := toLex (memory.toNat, toLex s)

def HeapItem.shard (item : HeapItem n) : ShardId n := ofLex (ofLex item).2

def allShards (n : Nat) : List (ShardId n) :=
  (List.finRange 16).flatMap (fun db => (List.finRange n).map (fun shard => (db, shard)))

def Memory.visit (m : Memory (ShardId n) D) (heap : List (HeapItem n)) (s : ShardId n) :
    List (HeapItem n) :=
  let memory := (m.nodes s).approxMemory
  if memory = 0 then heap else offer evictionMaxNumber heap (heapItem memory s)

def Memory.shardIndices (m : Memory (ShardId n) D) : List (HeapItem n) :=
  (allShards n).foldl m.visit []

def Memory.selected (m : Memory (ShardId n) D) : List (ShardId n) := m.shardIndices.map HeapItem.shard

def Memory.heapItems (m : Memory (ShardId n) D) : List (HeapItem n) :=
  ((allShards n).filter (fun s => (m.nodes s).approxMemory ≠ 0)).map
    (fun s => heapItem (m.nodes s).approxMemory s)

@[simp]
theorem shard_heapItem (memory : UInt64) (s : ShardId n) : (heapItem memory s).shard = s := rfl

theorem mem_allShards (s : ShardId n) : s ∈ allShards n := by
  refine List.mem_flatMap.mpr ⟨s.1, List.mem_finRange s.1, ?_⟩
  exact List.mem_map.mpr ⟨s.2, List.mem_finRange s.2, rfl⟩

theorem nodup_allShards (n : Nat) : (allShards n).Nodup := by
  refine List.nodup_flatMap.mpr ⟨fun db _ => ?_, ?_⟩
  · refine (List.nodup_finRange n).map ?_
    intro a b hab
    exact (Prod.mk.inj hab).2
  · refine (List.nodup_finRange 16).imp ?_
    intro a b hab x ha hb
    obtain ⟨i, -, rfl⟩ := List.mem_map.mp ha
    obtain ⟨j, -, hj⟩ := List.mem_map.mp hb
    exact hab (Prod.mk.inj hj).1.symm

theorem foldl_visit (m : Memory (ShardId n) D) (shards : List (ShardId n)) (heap : List (HeapItem n)) :
    shards.foldl m.visit heap =
      ((shards.filter (fun s => (m.nodes s).approxMemory ≠ 0)).map
        (fun s => heapItem (m.nodes s).approxMemory s)).foldl (offer evictionMaxNumber) heap := by
  induction shards generalizing heap with
  | nil => rfl
  | cons s shards ih =>
      rw [List.foldl_cons, ih, List.filter_cons]
      by_cases hs : (m.nodes s).approxMemory = 0
      · simp [Memory.visit, hs]
      · simp [Memory.visit, hs]

theorem shardIndices_greatest (m : Memory (ShardId n) D) :
    Greatest evictionMaxNumber m.heapItems m.shardIndices := by
  rw [Memory.shardIndices, foldl_visit]
  exact greatest_foldl evictionMaxNumber m.heapItems

theorem mem_heapItems (m : Memory (ShardId n) D) (item : HeapItem n) :
    item ∈ m.heapItems ↔ (m.nodes item.shard).approxMemory ≠ 0 ∧
      item = heapItem (m.nodes item.shard).approxMemory item.shard := by
  constructor
  · intro h
    obtain ⟨s, hs, rfl⟩ := List.mem_map.mp h
    simpa using (List.mem_filter.mp hs).2
  · rintro ⟨hne, hitem⟩
    refine List.mem_map.mpr ⟨item.shard, List.mem_filter.mpr ⟨mem_allShards _, by simpa using hne⟩, ?_⟩
    exact hitem.symm

theorem mem_selected (m : Memory (ShardId n) D) (s : ShardId n) :
    s ∈ m.selected ↔ heapItem (m.nodes s).approxMemory s ∈ m.shardIndices := by
  constructor
  · intro h
    obtain ⟨item, hitem, rfl⟩ := List.mem_map.mp h
    rw [← ((mem_heapItems m item).mp ((shardIndices_greatest m).mem hitem)).2]
    exact hitem
  · exact fun h => List.mem_map.mpr ⟨_, h, rfl⟩

theorem selected_nonzero (m : Memory (ShardId n) D) {s : ShardId n} (h : s ∈ m.selected) :
    (m.nodes s).approxMemory ≠ 0 := by
  have hitem := (shardIndices_greatest m).mem ((mem_selected m s).mp h)
  simpa using ((mem_heapItems m _).mp hitem).1

theorem nodup_selected (m : Memory (ShardId n) D) : m.selected.Nodup := by
  have hitems : m.heapItems.Nodup := by
    refine ((nodup_allShards n).filter _).map ?_
    intro a b hab
    exact congrArg HeapItem.shard hab
  refine ((shardIndices_greatest m).nodup hitems).map_on ?_
  intro a ha b hb hab
  rw [((mem_heapItems m a).mp ((shardIndices_greatest m).mem ha)).2,
    ((mem_heapItems m b).mp ((shardIndices_greatest m).mem hb)).2, hab]

theorem length_selected (m : Memory (ShardId n) D) :
    m.selected.length = min evictionMaxNumber
      (Finset.univ.filter (fun s => (m.nodes s).approxMemory ≠ 0)).card := by
  have hcard : (Finset.univ.filter (fun s => (m.nodes s).approxMemory ≠ 0)).card =
      ((allShards n).filter (fun s => (m.nodes s).approxMemory ≠ 0)).length := by
    rw [← List.toFinset_card_of_nodup ((nodup_allShards n).filter _)]
    congr 1
    ext s
    simp [mem_allShards]
  rw [Memory.selected, List.length_map, (shardIndices_greatest m).length, hcard, Memory.heapItems,
    List.length_map]

/-- A round starts a task on five shards, or on all that are not empty, and no shard
left out is greater, by memory, database and index, than one that is taken. -/
theorem selected_greatest (m : Memory (ShardId n) D) :
    m.selected.Nodup ∧
    m.selected.length = min 5 (Finset.univ.filter (fun s => (m.nodes s).approxMemory ≠ 0)).card ∧
    (∀ s ∈ m.selected, (m.nodes s).approxMemory ≠ 0) ∧
    ∀ s ∈ m.selected, ∀ s', s' ∉ m.selected →
      (m.nodes s').approxMemory = 0 ∨
        heapItem (m.nodes s').approxMemory s' < heapItem (m.nodes s).approxMemory s := by
  refine ⟨nodup_selected m, length_selected m, fun s hs => selected_nonzero m hs, ?_⟩
  intro s hs s' hs'
  by_cases hzero : (m.nodes s').approxMemory = 0
  · exact .inl hzero
  · rw [mem_selected] at hs hs'
    have hitem : heapItem (m.nodes s').approxMemory s' ∈ m.heapItems :=
      (mem_heapItems m _).mpr ⟨by simpa using hzero, rfl⟩
    refine .inr (lt_of_le_of_ne ((shardIndices_greatest m).le_of_not_mem hitem hs' hs) ?_)
    intro heq
    exact hs' (heq ▸ hs)

end Selected

section Tasks

variable {ι D : Type} [DecidableEq ι]

/-- Where a task_delete is. It loads GLOBAL_MEMORY at the top of its loop and before each
deletion; between an entry leaving the shard and GLOBAL_MEMORY being told, the other tasks
run on. -/
inductive Phase
  | top
  | lock
  | batch (deleted : Nat)
  | victim (deleted : Nat)
  | deleting (deleted : Nat)
  | pause (deleted : Nat)
  | done
deriving DecidableEq, Repr

/-- The shards and the tasks of one round. -/
structure Round (ι D : Type) where
  memory : Memory ι D
  phase : ι → Phase

/-- A task for each selected shard; the other shards have none. -/
def Round.start (m : Memory ι D) (selected : List ι) : Round ι D where
  memory := m
  phase s := if selected.contains s then .top else .done

def Round.goto (r : Round ι D) (shard : ι) (p : Phase) : Round ι D :=
  { r with phase := Function.update r.phase shard p }

/-- One step of the task on a shard. `timeUp` is what the stopwatch says after a batch.
None is a task that has returned. -/
def Round.step (targetMemory : UInt64) (r : Round ι D) (shard : ι) (timeUp : Bool) :
    Option (Round ι D) :=
  match r.phase shard with
  | .top =>
      some (r.goto shard (if r.memory.globalMemory ≤ targetMemory then .done else .lock))
  | .lock => some (r.goto shard (.batch 0))
  | .batch deleted =>
      some (r.goto shard
        (if deleted < 200 ∧ r.memory.globalMemory > targetMemory then .victim deleted
        else .pause deleted))
  | .victim deleted => do
      let (key, evicition) ← (r.memory.nodes shard).evicition.popVictim
      let memory := r.memory.peek shard evicition
      match key with
      | some key =>
          let memory ← memory.step (.start shard (.remove key))
          some (Round.goto ⟨memory, r.phase⟩ shard (.deleting deleted))
      | none => some (Round.goto ⟨memory, r.phase⟩ shard (.pause deleted))
  | .deleting deleted => do
      let memory ← r.memory.step (.finish shard)
      some (Round.goto ⟨memory, r.phase⟩ shard (.batch (deleted + 1)))
  | .pause deleted => some (r.goto shard (if deleted = 0 ∨ timeUp then .done else .top))
  | .done => none

/-- The steps of a task that leave the entries and GLOBAL_MEMORY alone. -/
inductive Turn (above empty : Prop) : Phase → Phase → Prop
  | reached : ¬above → Turn above empty .top .done
  | enter : above → Turn above empty .top .lock
  | locked : Turn above empty .lock (.batch 0)
  | next (deleted : Nat) : above → Turn above empty (.batch deleted) (.victim deleted)
  | enough (deleted : Nat) : ¬above ∨ deleted ≠ 0 → Turn above empty (.batch deleted) (.pause deleted)
  | nothing (deleted : Nat) : empty → Turn above empty (.victim deleted) (.pause deleted)
  | stop (deleted : Nat) : Turn above empty (.pause deleted) .done
  | again (deleted : Nat) : deleted ≠ 0 → Turn above empty (.pause deleted) .top

inductive Round.Moves (targetMemory : UInt64) (r : Round ι D) (shard : ι) : Round ι D → Prop
  | turn {memory : Memory ι D} {p : Phase}
      (hturn : Turn (targetMemory < r.memory.globalMemory) ((r.memory.nodes shard).dbStore = ∅)
        (r.phase shard) p)
      (hstore : ∀ s, (memory.nodes s).dbStore = (r.memory.nodes s).dbStore)
      (hglobal : memory.globalMemory = r.memory.globalMemory)
      (hpending : memory.pending = r.memory.pending) :
      Moves targetMemory r shard ⟨memory, Function.update r.phase shard p⟩
  | remove {memory : Memory ι D} {deleted : Nat} {key : Str} {entry : ValueEntry D}
      (hphase : r.phase shard = .victim deleted)
      (hentry : (r.memory.nodes shard).dbStore.lookup key = some entry)
      (hstore : ∀ s, (memory.nodes s).dbStore =
        if s = shard then (r.memory.nodes s).dbStore.erase key else (r.memory.nodes s).dbStore)
      (hglobal : memory.globalMemory = r.memory.globalMemory)
      (hpending : memory.pending =
        Function.update r.memory.pending shard (some (.fetchSub entry.dataSize))) :
      Moves targetMemory r shard ⟨memory, Function.update r.phase shard (.deleting deleted)⟩
  | finish {memory : Memory ι D} {deleted : Nat} {size : UInt64}
      (hphase : r.phase shard = .deleting deleted)
      (hsize : r.memory.pending shard = some (.fetchSub size))
      (hnodes : memory.nodes = r.memory.nodes)
      (hglobal : memory.globalMemory.toNat + size.toNat = r.memory.globalMemory.toNat)
      (hpending : memory.pending = Function.update r.memory.pending shard none) :
      Moves targetMemory r shard ⟨memory, Function.update r.phase shard (.batch (deleted + 1))⟩

variable [Fintype ι]

/-- A state of the system, and only a task that is deleting an entry has something pending. -/
structure Round.Sound (t : EvictionType) (r : Round ι D) : Prop where
  reach : ∃ past, Memory.Reach t past r.memory ∧ ∀ m ∈ r.memory :: past, m.Fits
  pending : ∀ s, (∃ deleted size, r.phase s = .deleting deleted ∧
      r.memory.pending s = some (.fetchSub size)) ∨
    ((∀ deleted, r.phase s ≠ .deleting deleted) ∧ r.memory.pending s = none)

variable {t : EvictionType} {target : UInt64} {r r' : Round ι D} {s : ι} {timeUp : Bool}

theorem Round.Sound.kept (h : r.Sound t) (s : ι) : (r.memory.nodes s).Kept t := by
  obtain ⟨past, hreach, -⟩ := h.reach
  obtain ⟨hacc, hcalled, -⟩ := reach_accounts hreach
  exact ⟨hacc.wf s, hcalled s⟩

theorem Round.Sound.exact (h : r.Sound t) : r.memory.Exact := by
  obtain ⟨past, hreach, hfits⟩ := h.reach
  obtain ⟨-, -, hexact⟩ := reach_accounts hreach
  exact hexact (fun m hm => hfits m (List.mem_cons_of_mem _ hm)) (hfits _ List.mem_cons_self)

theorem Round.Sound.fits (h : r.Sound t) : r.memory.Fits := by
  obtain ⟨past, -, hfits⟩ := h.reach
  exact hfits _ List.mem_cons_self

theorem Round.Sound.quiet (h : r.Sound t) (hphase : ∀ deleted, r.phase s ≠ .deleting deleted) :
    r.memory.pending s = none := by
  obtain ⟨deleted, size, hd, -⟩ | ⟨-, hp⟩ := h.pending s
  · exact absurd hd (hphase deleted)
  · exact hp

omit [DecidableEq ι] in
theorem fits_of_le {m m' : Memory ι D} (h : m.Fits)
    (hstore : ∀ s k e, (m'.nodes s).dbStore.lookup k = some e → (m.nodes s).dbStore.lookup k = some e)
    (hheld : ∀ s, (m'.nodes s).bytes + pendingSubbed (m'.pending s) ≤
      (m.nodes s).bytes + pendingSubbed (m.pending s)) : m'.Fits := by
  refine ⟨fun s k e hk => h.1 s k e (hstore s k e hk), ?_⟩
  exact Nat.lt_of_le_of_lt (Finset.sum_le_sum (fun s _ => hheld s)) h.2

theorem peek_fits {m : Memory ι D} (h : m.Fits) (s : ι) (e : EvictionStrategy Str) : (m.peek s e).Fits := by
  apply fits_of_le h
  · intro x k entry hk
    rwa [peek_dbStore] at hk
  · intro x
    rw [MemoryCacheNode.bytes, peek_dbStore]
    exact Nat.le_refl _

def Memory.removed (m : Memory ι D) (s : ι) (key : Str) (entry : ValueEntry D)
    (e : EvictionStrategy Str) : Memory ι D :=
  { m with
    nodes := Function.update m.nodes s
      ⟨(m.nodes s).dbStore.erase key, (m.nodes s).approxMemory - entry.dataSize, e⟩
    pending := Function.update m.pending s (some (.fetchSub entry.dataSize))
    wrapped := m.wrapped || MemoryChange.wraps (m.nodes s).approxMemory (.fetchSub entry.dataSize) }

omit [Fintype ι] in
theorem step_remove {m : Memory ι D} {key : Str} {entry : ValueEntry D} {e : EvictionStrategy Str}
    (hp : m.pending s = none) (hentry : (m.nodes s).dbStore.lookup key = some entry)
    (hdelete : (m.nodes s).evicition.onDelete key = some e) :
    m.step (.start s (.remove key)) = some (m.removed s key entry e) := by
  simp only [Memory.step, hp, StoreOp.run, MemoryCacheNode.removeEntry, hentry, hdelete,
    Option.bind_eq_bind, Option.bind_some, Option.map_some, MemoryChange.apply, Memory.removed]

omit [Fintype ι] in
theorem removed_dbStore (m : Memory ι D) (s : ι) (key : Str) (entry : ValueEntry D)
    (e : EvictionStrategy Str) (x : ι) :
    ((m.removed s key entry e).nodes x).dbStore =
      if x = s then (m.nodes x).dbStore.erase key else (m.nodes x).dbStore := by
  by_cases hx : x = s
  · subst hx
    simp [Memory.removed]
  · simp [Memory.removed, hx]

theorem removed_fits {m : Memory ι D} {key : Str} {entry : ValueEntry D} (h : m.Fits)
    (hp : m.pending s = none) (hentry : (m.nodes s).dbStore.lookup key = some entry)
    (e : EvictionStrategy Str) : (m.removed s key entry e).Fits := by
  apply fits_of_le h
  · intro x k entry' hk
    rw [removed_dbStore] at hk
    by_cases hx : x = s
    · rw [if_pos hx] at hk
      by_cases hkey : k = key
      · rw [hkey, Finmap.lookup_erase] at hk
        cases hk
      · rwa [Finmap.lookup_erase_ne hkey] at hk
    · rwa [if_neg hx] at hk
  · intro x
    rw [MemoryCacheNode.bytes, removed_dbStore]
    by_cases hx : x = s
    · subst hx
      have htotal := total_erase (fun e : ValueEntry D => e.dataSize.toNat) hentry
      simp only [if_true, Memory.removed, Function.update_self, hp, pendingSubbed,
        MemoryCacheNode.bytes, MemoryChange.subbed, Option.map_some, Option.map_none,
        Option.getD_some, Option.getD_none]
      omega
    · rw [if_neg hx]
      simp [Memory.removed, hx, MemoryCacheNode.bytes]

def Memory.finished (m : Memory ι D) (s : ι) (size : UInt64) : Memory ι D :=
  { m with
    pending := Function.update m.pending s none
    globalMemory := m.globalMemory - size
    wrapped := m.wrapped || MemoryChange.wraps m.globalMemory (.fetchSub size) }

omit [Fintype ι] in
theorem step_finish {m : Memory ι D} {size : UInt64} (hp : m.pending s = some (.fetchSub size)) :
    m.step (.finish s) = some (m.finished s size) := by
  simp only [Memory.step, hp, MemoryChange.apply, Memory.finished]

theorem finished_fits {m : Memory ι D} (h : m.Fits) (s : ι) (size : UInt64) :
    (m.finished s size).Fits := by
  apply fits_of_le h
  · exact fun x k entry hk => hk
  · intro x
    by_cases hx : x = s
    · subst hx
      simp [Memory.finished, pendingSubbed]
    · simp [Memory.finished, hx]

theorem size_le_global {m : Memory ι D} {size : UInt64} (h : m.Exact)
    (hp : m.pending s = some (.fetchSub size)) : size.toNat ≤ m.globalMemory.toNat := by
  have hle : ∑ x, (pendingAdded (m.pending x) + if x = s then size.toNat else 0) ≤ m.held := by
    refine Finset.sum_le_sum (fun x _ => ?_)
    have hadded := h.added_le x
    by_cases hx : x = s
    · subst hx
      simp [hp, pendingAdded, pendingSubbed, MemoryChange.added, MemoryChange.subbed]
    · rw [if_neg hx]
      omega
  rw [Finset.sum_add_distrib, Finset.sum_ite_eq' Finset.univ s, if_pos (Finset.mem_univ s),
    ← h.balance] at hle
  omega

theorem Round.Sound.turn (h : r.Sound t) {p : Phase} (hphase : ∀ deleted, r.phase s ≠ .deleting deleted)
    (hp : ∀ deleted, p ≠ .deleting deleted) {e : EvictionStrategy Str} {v : Option Str}
    {memory : Memory ι D}
    (hmemory : memory = r.memory ∨ (r.memory.nodes s).evicition.popVictim = some (v, e) ∧
      memory = r.memory.peek s e) :
    Round.Sound t ⟨memory, Function.update r.phase s p⟩ := by
  obtain ⟨past, hreach, hfits⟩ := h.reach
  have hpending : memory.pending = r.memory.pending := by
    obtain rfl | ⟨-, rfl⟩ := hmemory
    · rfl
    · rfl
  refine ⟨?_, fun x => ?_⟩
  · obtain rfl | ⟨hv, rfl⟩ := hmemory
    · exact ⟨past, hreach, hfits⟩
    · refine ⟨_, .victim hreach (h.quiet hphase) hv, ?_⟩
      exact List.forall_mem_cons.mpr ⟨peek_fits h.fits s e, hfits⟩
  · rw [hpending]
    by_cases hx : x = s
    · subst hx
      exact .inr ⟨by simpa using hp, h.quiet hphase⟩
    · simpa [hx] using h.pending x

theorem Round.Sound.remove (h : r.Sound t) {deleted : Nat} {key : Str} {entry : ValueEntry D}
    {e e' : EvictionStrategy Str} (hphase : r.phase s = .victim deleted)
    (hv : (r.memory.nodes s).evicition.popVictim = some (some key, e))
    (hentry : (r.memory.nodes s).dbStore.lookup key = some entry) (hdelete : e.onDelete key = some e') :
    (r.memory.peek s e).step (.start s (.remove key)) =
        some ((r.memory.peek s e).removed s key entry e') ∧
      Round.Sound t ⟨(r.memory.peek s e).removed s key entry e',
        Function.update r.phase s (.deleting deleted)⟩ := by
  obtain ⟨past, hreach, hfits⟩ := h.reach
  have hp : r.memory.pending s = none := h.quiet (by simp [hphase])
  have hentry' : ((r.memory.peek s e).nodes s).dbStore.lookup key = some entry := by
    rw [peek_dbStore]
    exact hentry
  have hstep := step_remove (m := r.memory.peek s e) hp hentry' (by simpa [Memory.peek] using hdelete)
  refine ⟨hstep, ?_, fun x => ?_⟩
  · refine ⟨_, .step _ (.victim hreach hp hv) hstep, ?_⟩
    exact List.forall_mem_cons.mpr ⟨removed_fits (peek_fits h.fits s e) hp hentry' e',
      List.forall_mem_cons.mpr ⟨peek_fits h.fits s e, hfits⟩⟩
  · by_cases hx : x = s
    · subst hx
      exact .inl ⟨deleted, entry.dataSize, by simp, by simp [Memory.removed]⟩
    · simpa [Memory.removed, Memory.peek, hx] using h.pending x

theorem Round.Sound.finish (h : r.Sound t) {deleted : Nat} {size : UInt64}
    (hsize : r.memory.pending s = some (.fetchSub size)) :
    Round.Sound t ⟨r.memory.finished s size, Function.update r.phase s (.batch deleted)⟩ := by
  obtain ⟨past, hreach, hfits⟩ := h.reach
  refine ⟨⟨_, .step _ hreach (step_finish hsize), ?_⟩, fun x => ?_⟩
  · exact List.forall_mem_cons.mpr ⟨finished_fits h.fits s size, hfits⟩
  · by_cases hx : x = s
    · subst hx
      exact .inr ⟨by simp, by simp [Memory.finished]⟩
    · simpa [Memory.finished, hx] using h.pending x

theorem Round.Sound.goto (h : r.Sound t) {p : Phase} (hphase : ∀ deleted, r.phase s ≠ .deleting deleted)
    (hp : ∀ deleted, p ≠ .deleting deleted)
    (hturn : Turn (target < r.memory.globalMemory) ((r.memory.nodes s).dbStore = ∅) (r.phase s) p) :
    r.Moves target s (r.goto s p) ∧ (r.goto s p).Sound t :=
  ⟨.turn hturn (fun _ => rfl) rfl rfl, h.turn (e := (r.memory.nodes s).evicition) (v := none) hphase hp (.inl rfl)⟩

theorem step_moves (h : r.Sound t) (hstep : r.step target s timeUp = some r') :
    r.Moves target s r' ∧ r'.Sound t := by
  rw [Round.step] at hstep
  split at hstep
  next hphase =>
    cases hstep
    by_cases hle : r.memory.globalMemory ≤ target
    · rw [if_pos hle]
      exact h.goto (by simp [hphase]) (by simp) (hphase ▸ .reached (UInt64.not_lt.mpr hle))
    · rw [if_neg hle]
      exact h.goto (by simp [hphase]) (by simp) (hphase ▸ .enter (UInt64.not_le.mp hle))
  next hphase =>
    cases hstep
    exact h.goto (by simp [hphase]) (by simp) (hphase ▸ .locked)
  next deleted hphase =>
    cases hstep
    by_cases hmore : deleted < 200 ∧ r.memory.globalMemory > target
    · rw [if_pos hmore]
      exact h.goto (by simp [hphase]) (by simp) (hphase ▸ .next deleted hmore.2)
    · rw [if_neg hmore]
      refine h.goto (by simp [hphase]) (by simp) (hphase ▸ .enough deleted ?_)
      by_cases habove : target < r.memory.globalMemory
      · exact .inr (by have := mt (fun hlt => ⟨hlt, habove⟩) hmore; omega)
      · exact .inl habove
  next deleted hphase =>
    obtain ⟨e, hv, hempty⟩ | ⟨key, entry, e, e', hv, hentry, hdelete, -⟩ := (h.kept s).popVictim
    · simp only [hv, Option.bind_eq_bind, Option.bind_some, Option.some.injEq] at hstep
      subst hstep
      refine ⟨.turn (hphase ▸ .nothing deleted hempty) (peek_dbStore r.memory s e) rfl rfl, ?_⟩
      exact h.turn (by simp [hphase]) (by simp) (.inr ⟨hv, rfl⟩)
    · obtain ⟨hremove, hsound⟩ := h.remove hphase hv hentry hdelete
      simp only [hv, Option.bind_eq_bind, Option.bind_some, hremove, Option.some.injEq] at hstep
      subst hstep
      refine ⟨.remove hphase hentry ?_ rfl rfl, hsound⟩
      intro x
      rw [removed_dbStore, peek_dbStore]
  next deleted hphase =>
    obtain ⟨-, size, -, hsize⟩ | ⟨hnot, -⟩ := h.pending s
    · simp only [step_finish hsize, Option.bind_eq_bind, Option.bind_some, Option.some.injEq] at hstep
      subst hstep
      refine ⟨.finish hphase hsize rfl ?_ rfl, h.finish hsize⟩
      have hle := size_le_global h.exact hsize
      change (r.memory.globalMemory - size).toNat + size.toNat = _
      rw [UInt64.toNat_sub_of_le _ _ (UInt64.le_iff_toNat_le.mpr hle)]
      omega
    · exact absurd hphase (hnot deleted)
  next deleted hphase =>
    cases hstep
    by_cases hstop : deleted = 0 ∨ timeUp
    · rw [if_pos hstop]
      exact h.goto (by simp [hphase]) (by simp) (hphase ▸ .stop deleted)
    · rw [if_neg hstop]
      exact h.goto (by simp [hphase]) (by simp) (hphase ▸ .again deleted (fun h0 => hstop (.inl h0)))
  next => cases hstep

theorem exists_step (h : r.Sound t) (hphase : r.phase s ≠ .done) (target : UInt64) (timeUp : Bool) :
    ∃ r', r.step target s timeUp = some r' := by
  rw [Round.step]
  cases hs : r.phase s with
  | top => exact ⟨_, rfl⟩
  | lock => exact ⟨_, rfl⟩
  | batch deleted => exact ⟨_, rfl⟩
  | victim deleted =>
      obtain ⟨e, hv, -⟩ | ⟨key, entry, e, e', hv, hentry, hdelete, -⟩ := (h.kept s).popVictim
      · simp only [hv, Option.bind_eq_bind, Option.bind_some]
        exact ⟨_, rfl⟩
      · obtain ⟨hremove, -⟩ := h.remove hs hv hentry hdelete
        simp only [hv, Option.bind_eq_bind, Option.bind_some, hremove]
        exact ⟨_, rfl⟩
  | deleting deleted =>
      obtain ⟨-, size, -, hsize⟩ | ⟨hnot, -⟩ := h.pending s
      · simp only [step_finish hsize, Option.bind_eq_bind, Option.bind_some]
        exact ⟨_, rfl⟩
      · exact absurd hs (hnot deleted)
  | pause deleted => exact ⟨_, rfl⟩
  | done => exact absurd hs hphase

/-- The steps of a task still ahead, as far as its shard and its phase can tell. -/
def Phase.weight : Phase → Nat
  | .done => 0
  | .pause 0 => 1
  | .victim 0 => 2
  | .batch 0 => 3
  | .lock => 4
  | .top => 5
  | .pause (_ + 1) => 6
  | .victim (_ + 1) => 7
  | .batch (_ + 1) => 8
  | .deleting _ => 9

def Round.weight (r : Round ι D) (s : ι) : Nat :=
  8 * (r.memory.nodes s).dbStore.keys.card + (r.phase s).weight

omit [DecidableEq ι] [Fintype ι] in
theorem Turn.weight_lt {above empty : Prop} {p p' : Phase} (h : Turn above empty p p') :
    p'.weight < p.weight := by
  cases h with
  | reached _ => decide
  | enter _ => decide
  | locked => decide
  | next deleted _ => cases deleted <;> simp [Phase.weight]
  | enough deleted _ => cases deleted <;> simp [Phase.weight]
  | nothing deleted _ => cases deleted <;> simp [Phase.weight]
  | stop deleted => cases deleted <;> simp [Phase.weight]
  | again deleted hne =>
      cases deleted with
      | zero => exact absurd rfl hne
      | succ deleted => simp [Phase.weight]

theorem card_erase {key : Str} {entry : ValueEntry D} {node : MemoryCacheNode D}
    (h : node.dbStore.lookup key = some entry) :
    (node.dbStore.erase key).keys.card + 1 = node.dbStore.keys.card := by
  rw [Finmap.keys_erase]
  exact Finset.card_erase_add_one (Finmap.mem_keys.mpr (Finmap.mem_of_lookup_eq_some h))

omit [Fintype ι] in
theorem Round.Moves.weight_lt (h : r.Moves target s r') : r'.weight s < r.weight s := by
  cases h with
  | turn hturn hstore _ _ =>
      have hlt := hturn.weight_lt
      simp only [Round.weight, hstore, Function.update_self]
      omega
  | @remove _ deleted _ _ hphase hentry hstore _ _ =>
      have hcard := card_erase hentry
      simp only [Round.weight, hstore, if_true, Function.update_self, hphase]
      have hweight : 2 ≤ (Phase.victim deleted).weight := by cases deleted <;> simp [Phase.weight]
      simp only [Phase.weight] at hweight ⊢
      omega
  | finish hphase _ hnodes _ _ =>
      simp [Round.weight, hnodes, hphase, Phase.weight]

omit [Fintype ι] in
theorem Round.Moves.other (h : r.Moves target s r') {x : ι} (hx : x ≠ s) :
    r'.phase x = r.phase x ∧ (r'.memory.nodes x).dbStore = (r.memory.nodes x).dbStore := by
  cases h with
  | turn _ hstore _ _ => exact ⟨Function.update_of_ne hx _ _, hstore x⟩
  | remove _ _ hstore _ _ => exact ⟨Function.update_of_ne hx _ _, by rw [hstore, if_neg hx]⟩
  | finish _ _ hnodes _ _ => exact ⟨Function.update_of_ne hx _ _, by rw [hnodes]⟩

/-- All that the tasks can still do. -/
def Round.ahead (r : Round ι D) : Nat := ∑ s, r.weight s

theorem Round.Moves.ahead_lt (h : r.Moves target s r') : r'.ahead < r.ahead := by
  refine Finset.sum_lt_sum (fun x _ => ?_) ⟨s, Finset.mem_univ s, h.weight_lt⟩
  by_cases hx : x = s
  · exact hx ▸ Nat.le_of_lt h.weight_lt
  · obtain ⟨hphase, hstore⟩ := h.other hx
    simp only [Round.weight, hphase, hstore]
    exact Nat.le_refl _

/-- Tells GLOBAL_MEMORY of an entry although it is at the target already. -/
def Round.surplus (targetMemory : UInt64) (r : Round ι D) (shard : ι) : Bool :=
  match r.phase shard with
  | .deleting _ => decide (r.memory.globalMemory ≤ targetMemory)
  | _ => false

/-- Any interleaving of the tasks: the number of steps, and the shards of which an entry
was deleted with GLOBAL_MEMORY at the target. -/
inductive Round.Runs (targetMemory : UInt64) (start : Round ι D) : Nat → List ι → Round ι D → Prop
  | nil : Runs targetMemory start 0 [] start
  | step {steps : Nat} {late : List ι} {r r' : Round ι D} (shard : ι) (timeUp : Bool) :
      Runs targetMemory start steps late r → r.step targetMemory shard timeUp = some r' →
      Runs targetMemory start (steps + 1)
        (if r.surplus targetMemory shard then shard :: late else late) r'

/-- The round when the tasks have taken these turns, with the late deletions; turns of tasks
that have returned are passed over. -/
def Round.after (targetMemory : UInt64) (start : Round ι D) (turns : List (ι × Bool)) : List ι × Round ι D :=
  turns.foldl (fun p turn =>
    match p.2.step targetMemory turn.1 turn.2 with
    | some r => (if p.2.surplus targetMemory turn.1 then turn.1 :: p.1 else p.1, r)
    | none => p) ([], start)

omit [Fintype ι] in
theorem runs_after (targetMemory : UInt64) (start : Round ι D) (turns : List (ι × Bool))
    (h : ∀ n (hn : n < turns.length), ((Round.after targetMemory start (turns.take n)).2.step targetMemory
      turns[n].1 turns[n].2).isSome) :
    Round.Runs targetMemory start turns.length (Round.after targetMemory start turns).1
      (Round.after targetMemory start turns).2 := by
  induction turns using List.reverseRecOn with
  | nil => exact .nil
  | append_singleton turns turn ih =>
      have htake {n : Nat} (hn : n ≤ turns.length) : (turns ++ [turn]).take n = turns.take n :=
        List.take_append_of_le_length hn
      have hlast := h turns.length (by simp)
      rw [htake le_rfl, List.take_length, List.getElem_concat_length rfl] at hlast
      obtain ⟨r, hr⟩ := Option.isSome_iff_exists.mp hlast
      have hruns := ih (fun n hn => by
        have hstep := h n (by rw [List.length_append]; omega)
        rwa [htake hn.le, List.getElem_append_left hn] at hstep)
      have hafter : Round.after targetMemory start (turns ++ [turn]) =
          (if (Round.after targetMemory start turns).2.surplus targetMemory turn.1
            then turn.1 :: (Round.after targetMemory start turns).1
            else (Round.after targetMemory start turns).1, r) := by
        rw [Round.after, List.foldl_concat]
        change (match (Round.after targetMemory start turns).2.step targetMemory turn.1 turn.2 with
          | some r => _
          | none => _) = _
        rw [hr]
        rfl
      rw [hafter, List.length_append]
      exact .step turn.1 turn.2 hruns hr

def Round.Over (r : Round ι D) : Prop := ∀ s, r.phase s = .done

/-- Has not been told that GLOBAL_MEMORY is above the target. -/
def Phase.Settled (p : Phase) : Prop := ∀ deleted, p ≠ .victim deleted ∧ p ≠ .deleting deleted

/-- Before the first deletion. -/
def Phase.First (p : Phase) : Prop := p = .top ∨ p = .lock ∨ p = .batch 0 ∨ p = .victim 0

theorem Turn.settled {above empty : Prop} {p p' : Phase} (h : Turn above empty p p') (hnot : ¬above) :
    p'.Settled := by
  cases h with
  | enter habove => exact absurd habove hnot
  | next deleted habove => exact absurd habove hnot
  | reached _ => simp [Phase.Settled]
  | locked => simp [Phase.Settled]
  | enough deleted _ => simp [Phase.Settled]
  | nothing deleted _ => simp [Phase.Settled]
  | stop deleted => simp [Phase.Settled]
  | again deleted _ => simp [Phase.Settled]

omit [Fintype ι] in
theorem settled_update {x : ι} (h : (r.phase x).Settled) (hx : x ≠ s) (p : Phase) :
    (Function.update r.phase s p x).Settled := by
  rwa [Function.update_of_ne hx]

/-- A task with something to delete does not leave its first turn of the loop without
a deletion, unless GLOBAL_MEMORY is at the target. -/
theorem Turn.first {above empty : Prop} {p p' : Phase} (h : Turn above empty p p') (habove : above)
    (hstored : ¬empty) (hfirst : p.First) : p'.First := by
  cases h with
  | reached hnot => exact absurd habove hnot
  | enter _ => simp [Phase.First]
  | locked => simp [Phase.First]
  | next deleted _ => simpa [Phase.First] using hfirst
  | enough deleted hend =>
      rcases hend with hnot | hne
      · exact absurd habove hnot
      · exact absurd (by simpa [Phase.First] using hfirst) hne
  | nothing deleted hempty => exact absurd hempty hstored
  | stop deleted => simp [Phase.First] at hfirst
  | again deleted _ => simp [Phase.First] at hfirst

def Round.Fewer (r : Round ι D) (m : Memory ι D) (s : ι) : Prop :=
  (r.memory.nodes s).dbStore.keys.card < (m.nodes s).dbStore.keys.card

/-- How far a round that began with these shards has come. -/
structure Round.Progress (t : EvictionType) (target : UInt64) (m : Memory ι D) (selected late : List ι)
    (r : Round ι D) : Prop where
  sound : r.Sound t
  outside : ∀ s, s ∉ selected → r.phase s = .done ∧
    (r.memory.nodes s).dbStore = (m.nodes s).dbStore
  smaller : ∀ s, (r.memory.nodes s).dbStore.keys ⊆ (m.nodes s).dbStore.keys
  nodup : late.Nodup
  overdue : ∀ s ∈ late, s ∈ selected ∧ (r.phase s).Settled ∧ r.memory.globalMemory ≤ target
  spared : r.memory.globalMemory ≤ target → ∃ s ∈ selected, s ∉ late ∧ (r.phase s).Settled
  begun : ∀ s ∈ selected, r.memory.globalMemory ≤ target ∨ r.Fewer m s ∨
    (r.phase s).First ∧ (r.memory.nodes s).dbStore ≠ ∅
  told : r.memory.globalMemory = m.globalMemory ∨ ∃ s, r.Fewer m s
  taken : ∀ s deleted, r.phase s = .deleting deleted → r.Fewer m s

variable {m : Memory ι D} {selected late : List ι}

theorem progress_start {past : List (Memory ι D)} (h : Memory.Reach t past m)
    (hfits : ∀ m' ∈ m :: past, m'.Fits) (hquiet : ∀ s, m.pending s = none)
    (habove : target < m.globalMemory) (hstored : ∀ s ∈ selected, (m.nodes s).dbStore ≠ ∅) :
    Round.Progress t target m selected [] (Round.start m selected) where
  sound := by
    refine ⟨⟨past, h, hfits⟩, fun s => .inr ⟨fun deleted => ?_, hquiet s⟩⟩
    simp only [Round.start]
    split <;> simp
  outside s hs := ⟨by simp [Round.start, hs], rfl⟩
  smaller _ := Finset.Subset.refl _
  nodup := List.nodup_nil
  overdue := by simp
  spared hle := absurd habove (UInt64.not_lt.mpr hle)
  begun s hs := .inr (.inr ⟨by simp [Round.start, hs, Phase.First], hstored s hs⟩)
  told := .inl rfl
  taken s deleted hphase := by
    simp only [Round.start] at hphase
    split at hphase <;> cases hphase

theorem Round.Progress.selected_of (h : r.Progress t target m selected late) (hphase : r.phase s ≠ .done) :
    s ∈ selected := by
  by_contra hs
  exact hphase (h.outside s hs).1

theorem Round.Progress.late_eq_nil (h : r.Progress t target m selected late)
    (habove : target < r.memory.globalMemory) : late = [] := by
  refine List.eq_nil_iff_forall_not_mem.mpr (fun s hs => ?_)
  exact absurd habove (UInt64.not_lt.mpr (h.overdue s hs).2.2)

theorem Round.Progress.turn (h : r.Progress t target m selected late) {memory : Memory ι D} {p : Phase}
    (hturn : Turn (target < r.memory.globalMemory) ((r.memory.nodes s).dbStore = ∅) (r.phase s) p)
    (hstore : ∀ x, (memory.nodes x).dbStore = (r.memory.nodes x).dbStore)
    (hglobal : memory.globalMemory = r.memory.globalMemory)
    (hsound : Round.Sound t ⟨memory, Function.update r.phase s p⟩) :
    Round.Progress t target m selected late ⟨memory, Function.update r.phase s p⟩ := by
  have hsettled : ∀ x, (r.phase x).Settled → r.memory.globalMemory ≤ target →
      (Function.update r.phase s p x).Settled := by
    intro x hx hle
    by_cases hxs : x = s
    · subst hxs
      rw [Function.update_self]
      exact hturn.settled (UInt64.not_lt.mpr hle)
    · rwa [Function.update_of_ne hxs]
  refine ⟨hsound, fun x hx => ?_, fun x => ?_, h.nodup, fun x hx => ?_, fun hle => ?_, fun x hx => ?_,
    ?_, fun x deleted hx => ?_⟩
  · obtain ⟨hdone, hsame⟩ := h.outside x hx
    have hxs : x ≠ s := by
      rintro rfl
      rw [hdone] at hturn
      cases hturn
    exact ⟨(Function.update_of_ne hxs _ _).trans hdone, (hstore x).trans hsame⟩
  · simpa only [hstore] using h.smaller x
  · obtain ⟨hsel, hset, hle⟩ := h.overdue x hx
    exact ⟨hsel, hsettled x hset hle, hglobal ▸ hle⟩
  · rw [hglobal] at hle
    obtain ⟨x, hx, hlate, hset⟩ := h.spared hle
    exact ⟨x, hx, hlate, hsettled x hset hle⟩
  · simp only [Round.Fewer, hglobal, hstore]
    rcases UInt64.lt_or_le target r.memory.globalMemory with habove | hle
    · obtain hle | hless | ⟨hfirst, hne⟩ := h.begun x hx
      · exact .inl hle
      · exact .inr (.inl hless)
      · refine .inr (.inr ⟨?_, hne⟩)
        by_cases hxs : x = s
        · subst hxs
          rw [Function.update_self]
          exact hturn.first habove hne hfirst
        · rwa [Function.update_of_ne hxs]
    · exact .inl hle
  · simpa only [Round.Fewer, hglobal, hstore] using h.told
  · have hxs : x ≠ s := by
      rintro rfl
      have hp : p = .deleting deleted := (Function.update_self x p r.phase).symm.trans hx
      subst hp
      generalize r.phase x = p at hturn
      cases hturn
    have hphase : r.phase x = .deleting deleted := (Function.update_of_ne hxs _ _).symm.trans hx
    simpa only [Round.Fewer, hstore] using h.taken x deleted hphase

theorem Round.Progress.remove (h : r.Progress t target m selected late) {memory : Memory ι D}
    {deleted : Nat} {key : Str} {entry : ValueEntry D} (hphase : r.phase s = .victim deleted)
    (hentry : (r.memory.nodes s).dbStore.lookup key = some entry)
    (hstore : ∀ x, (memory.nodes x).dbStore =
      if x = s then (r.memory.nodes x).dbStore.erase key else (r.memory.nodes x).dbStore)
    (hglobal : memory.globalMemory = r.memory.globalMemory)
    (hsound : Round.Sound t ⟨memory, Function.update r.phase s (.deleting deleted)⟩) :
    Round.Progress t target m selected late ⟨memory, Function.update r.phase s (.deleting deleted)⟩ := by
  have hselected : s ∈ selected := h.selected_of (by simp [hphase])
  have hother : ∀ x, (r.phase x).Settled → x ≠ s := by
    rintro x hx rfl
    exact (hx deleted).1 hphase
  have hfewer : (memory.nodes s).dbStore.keys.card < (m.nodes s).dbStore.keys.card := by
    have hcard := card_erase hentry
    have hle := Finset.card_le_card (h.smaller s)
    rw [hstore, if_pos rfl]
    omega
  refine ⟨hsound, fun x hx => ?_, fun x => ?_, h.nodup, fun x hx => ?_, fun hle => ?_, fun x hx => ?_,
    .inr ⟨s, hfewer⟩, fun x deleted' hx => ?_⟩
  · have hxs : x ≠ s := fun heq => hx (heq ▸ hselected)
    obtain ⟨hdone, hsame⟩ := h.outside x hx
    refine ⟨(Function.update_of_ne hxs _ _).trans hdone, ?_⟩
    exact (hstore x).trans ((if_neg hxs).trans hsame)
  · simp only [hstore]
    split
    · rw [Finmap.keys_erase]
      exact (Finset.erase_subset _ _).trans (h.smaller x)
    · exact h.smaller x
  · obtain ⟨hsel, hset, hle⟩ := h.overdue x hx
    exact ⟨hsel, settled_update hset (hother x hset) _, hglobal ▸ hle⟩
  · rw [hglobal] at hle
    obtain ⟨x, hx, hlate, hset⟩ := h.spared hle
    exact ⟨x, hx, hlate, settled_update hset (hother x hset) _⟩
  · by_cases hxs : x = s
    · exact .inr (.inl (hxs ▸ hfewer))
    · simp only [Round.Fewer, hglobal, hstore, if_neg hxs, Function.update_of_ne hxs]
      exact h.begun x hx
  · by_cases hxs : x = s
    · exact hxs ▸ hfewer
    · have hphase' : r.phase x = .deleting deleted' := (Function.update_of_ne hxs _ _).symm.trans hx
      simp only [Round.Fewer, hstore, if_neg hxs]
      exact h.taken x deleted' hphase'

theorem Round.Progress.finish (h : r.Progress t target m selected late) {memory : Memory ι D}
    {deleted : Nat} {size : UInt64} (hphase : r.phase s = .deleting deleted)
    (hnodes : memory.nodes = r.memory.nodes)
    (hglobal : memory.globalMemory.toNat + size.toNat = r.memory.globalMemory.toNat)
    (hsound : Round.Sound t ⟨memory, Function.update r.phase s (.batch (deleted + 1))⟩) :
    Round.Progress t target m selected (if r.surplus target s then s :: late else late)
      ⟨memory, Function.update r.phase s (.batch (deleted + 1))⟩ := by
  have hselected : s ∈ selected := h.selected_of (by simp [hphase])
  have hother : ∀ x, (r.phase x).Settled → x ≠ s := by
    rintro x hx rfl
    exact (hx deleted).2 hphase
  have hfall : memory.globalMemory ≤ r.memory.globalMemory :=
    UInt64.le_iff_toNat_le.mpr (hglobal ▸ Nat.le_add_right _ _)
  have hsettled : (Function.update r.phase s (.batch (deleted + 1)) s).Settled := by
    simp [Phase.Settled]
  have hsurplus : r.surplus target s = decide (r.memory.globalMemory ≤ target) := by
    rw [Round.surplus, hphase]
  have hfewer : ∀ {x}, r.Fewer m x →
      (memory.nodes x).dbStore.keys.card < (m.nodes x).dbStore.keys.card := by
    intro x hx
    rw [hnodes]
    exact hx
  have hbegun : ∀ x ∈ selected, memory.globalMemory ≤ target ∨
      (memory.nodes x).dbStore.keys.card < (m.nodes x).dbStore.keys.card ∨
      (Function.update r.phase s (.batch (deleted + 1)) x).First ∧ (memory.nodes x).dbStore ≠ ∅ := by
    intro x hx
    rw [hnodes]
    obtain hle | hless | ⟨hfirst, hne⟩ := h.begun x hx
    · exact .inl (UInt64.le_trans hfall hle)
    · exact .inr (.inl hless)
    · have hxs : x ≠ s := by
        rintro rfl
        simp [hphase, Phase.First] at hfirst
      exact .inr (.inr ⟨by rwa [Function.update_of_ne hxs], hne⟩)
  have houtside : ∀ x, x ∉ selected → Function.update r.phase s (.batch (deleted + 1)) x = .done ∧
      (memory.nodes x).dbStore = (m.nodes x).dbStore := by
    intro x hx
    have hxs : x ≠ s := fun heq => hx (heq ▸ hselected)
    obtain ⟨hdone, hsame⟩ := h.outside x hx
    rw [hnodes]
    exact ⟨(Function.update_of_ne hxs _ _).trans hdone, hsame⟩
  have htaken : ∀ x deleted', Function.update r.phase s (.batch (deleted + 1)) x = .deleting deleted' →
      (memory.nodes x).dbStore.keys.card < (m.nodes x).dbStore.keys.card := by
    intro x deleted' hx
    by_cases hxs : x = s
    · simp [hxs] at hx
    · exact hfewer (h.taken x deleted' ((Function.update_of_ne hxs _ _).symm.trans hx))
  have htold : memory.globalMemory = m.globalMemory ∨
      ∃ x, (memory.nodes x).dbStore.keys.card < (m.nodes x).dbStore.keys.card :=
    .inr ⟨s, hfewer (h.taken s deleted hphase)⟩
  have hsmaller : ∀ x, (memory.nodes x).dbStore.keys ⊆ (m.nodes x).dbStore.keys := by
    intro x
    rw [hnodes]
    exact h.smaller x
  rw [hsurplus]
  rcases UInt64.lt_or_le target r.memory.globalMemory with habove | hle
  · -- this deletion was called for, and may be the one that reaches the target
    rw [decide_eq_false (UInt64.not_le.mpr habove), if_neg Bool.false_ne_true]
    have hnil := h.late_eq_nil habove
    subst hnil
    refine ⟨hsound, houtside, hsmaller, List.nodup_nil, by simp, fun _ => ?_, hbegun, htold, htaken⟩
    exact ⟨s, hselected, List.not_mem_nil, hsettled⟩
  · rw [decide_eq_true hle, if_pos rfl]
    have hnew : s ∉ late := fun hs => hother s (h.overdue s hs).2.1 rfl
    have hle' := UInt64.le_trans hfall hle
    refine ⟨hsound, houtside, hsmaller, List.nodup_cons.mpr ⟨hnew, h.nodup⟩, fun x hx => ?_,
      fun _ => ?_, hbegun, htold, htaken⟩
    · rcases List.mem_cons.mp hx with rfl | hx
      · exact ⟨hselected, hsettled, hle'⟩
      · obtain ⟨hsel, hset, -⟩ := h.overdue x hx
        exact ⟨hsel, settled_update hset (hother x hset) _, hle'⟩
    · obtain ⟨x, hx, hlate, hset⟩ := h.spared hle
      refine ⟨x, hx, ?_, settled_update hset (hother x hset) _⟩
      exact List.not_mem_cons_of_ne_of_not_mem (hother x hset) hlate

/-- What one step of a task does to the progress of the round. -/
theorem progress_step (h : r.Progress t target m selected late)
    (hstep : r.step target s timeUp = some r') :
    r'.Progress t target m selected (if r.surplus target s then s :: late else late) := by
  obtain ⟨hmoves, hsound⟩ := step_moves h.sound hstep
  cases hmoves with
  | turn hturn hstore hglobal _ =>
      have hnot : r.surplus target s = false := by
        cases hphase : r.phase s <;> simp [Round.surplus, hphase]
        rw [hphase] at hturn
        cases hturn
      rw [hnot, if_neg Bool.false_ne_true]
      exact h.turn hturn hstore hglobal hsound
  | remove hphase hentry hstore hglobal _ =>
      have hnot : r.surplus target s = false := by simp [Round.surplus, hphase]
      rw [hnot, if_neg Bool.false_ne_true]
      exact h.remove hphase hentry hstore hglobal hsound
  | finish hphase _ hnodes hglobal _ => exact h.finish hphase hnodes hglobal hsound

theorem Round.Runs.progress {start : Round ι D} {steps : Nat}
    (h : Round.Runs target start steps late r) (hstart : start.Progress t target m selected []) :
    r.Progress t target m selected late ∧ steps + r.ahead ≤ start.ahead := by
  induction h with
  | nil => exact ⟨hstart, by omega⟩
  | step shard timeUp _ hstep ih =>
      obtain ⟨hprogress, hahead⟩ := ih
      have hless := (step_moves hprogress.sound hstep).1.ahead_lt
      exact ⟨progress_step hprogress hstep, by omega⟩

omit [DecidableEq ι] in
/-- The entries of all shards. -/
def Memory.entries (m : Memory ι D) : Nat := ∑ s, (m.nodes s).dbStore.keys.card

theorem ahead_start (m : Memory ι D) (hselected : selected.Nodup) :
    (Round.start m selected).ahead = 8 * m.entries + 5 * selected.length := by
  have hphase : ∀ s, ((Round.start m selected).phase s).weight = if s ∈ selected.toFinset then 5 else 0 := by
    intro s
    by_cases hs : s ∈ selected
    · simp [Round.start, hs, Phase.weight]
    · simp [Round.start, hs, Phase.weight]
  have hsum : ∑ s, ((Round.start m selected).phase s).weight = 5 * selected.length := by
    simp only [hphase]
    rw [Finset.sum_ite_mem, Finset.univ_inter, Finset.sum_const_nat (fun _ _ => rfl),
      List.toFinset_card_of_nodup hselected, Nat.mul_comm]
  rw [← hsum, Memory.entries, Finset.mul_sum, ← Finset.sum_add_distrib]
  rfl

/-- The tasks that come too late leave one out. -/
theorem Round.Progress.length_late (h : r.Progress t target m selected late) :
    late = [] ∨ late.length < selected.length := by
  by_cases hnil : late = []
  · exact .inl hnil
  · obtain ⟨x, hx⟩ := List.exists_mem_of_ne_nil late hnil
    obtain ⟨y, hy, hlate, -⟩ := h.spared (h.overdue x hx).2.2
    have hnodup : (y :: late).Nodup := List.nodup_cons.mpr ⟨hlate, h.nodup⟩
    have hsub : y :: late ⊆ selected :=
      List.cons_subset.mpr ⟨hy, fun z hz => (h.overdue z hz).1⟩
    exact .inr (List.subperm_of_subset hnodup hsub).length_le

theorem Round.Progress.over (h : r.Progress t target m selected late) (hover : r.Over) :
    r.memory.globalMemory ≤ target ∨ ∀ s ∈ selected, r.Fewer m s := by
  rcases UInt64.lt_or_le target r.memory.globalMemory with habove | hle
  · refine .inr (fun s hs => ?_)
    obtain hle | hless | ⟨hfirst, -⟩ := h.begun s hs
    · exact absurd habove (UInt64.not_lt.mpr hle)
    · exact hless
    · simp [hover s, Phase.First] at hfirst
  · exact .inl hle

/-- The tasks can be run until all of them have returned. -/
theorem Round.Runs.complete {start : Round ι D} {steps : Nat}
    (h : Round.Runs target start steps late r) (hstart : start.Progress t target m selected []) :
    ∃ steps' late' r', Round.Runs target start steps' late' r' ∧ r'.Over := by
  induction hn : r.ahead using Nat.strong_induction_on generalizing steps late r with
  | _ n ih =>
      by_cases hover : r.Over
      · exact ⟨steps, late, r, h, hover⟩
      · obtain ⟨s, hs⟩ := not_forall.mp hover
        obtain ⟨hprogress, -⟩ := h.progress hstart
        obtain ⟨r', hstep⟩ := exists_step hprogress.sound hs target false
        have hless := (step_moves hprogress.sound hstep).1.ahead_lt
        exact ih _ (hn ▸ hless) (.step s false h hstep) rfl

/-- Rounds one after another, each begun with GLOBAL_MEMORY above the target, on the
shards that `choose` takes, and each ended when all its tasks have. -/
inductive Rounds (choose : Memory ι D → List ι) (targetMemory : UInt64) (m : Memory ι D) :
    Nat → Memory ι D → Prop
  | zero : Rounds choose targetMemory m 0 m
  | succ {rounds steps : Nat} {late : List ι} {m' : Memory ι D} {r : Round ι D} :
      Rounds choose targetMemory m rounds m' → targetMemory < m'.globalMemory →
      Round.Runs targetMemory (Round.start m' (choose m')) steps late r → r.Over →
      Rounds choose targetMemory m (rounds + 1) r.memory

/-- A state between two rounds. -/
structure Memory.Idle (t : EvictionType) (m : Memory ι D) : Prop where
  reach : ∃ past, Memory.Reach t past m ∧ ∀ m' ∈ m :: past, m'.Fits
  quiet : ∀ s, m.pending s = none

theorem Round.Progress.idle (h : r.Progress t target m selected late) (hover : r.Over) :
    r.memory.Idle t :=
  ⟨h.sound.reach, fun s => h.sound.quiet (by simp [hover s])⟩

theorem Round.Progress.entries_lt (h : r.Progress t target m selected late)
    (habove : target < m.globalMemory) (hselected : selected ≠ []) (hover : r.Over) :
    r.memory.entries < m.entries := by
  have hfewer : ∃ s, r.Fewer m s := by
    obtain hle | hall := h.over hover
    · obtain heq | hfewer := h.told
      · exact absurd (heq ▸ habove) (UInt64.not_lt.mpr hle)
      · exact hfewer
    · obtain ⟨s, hs⟩ := List.exists_mem_of_ne_nil selected hselected
      exact ⟨s, hall s hs⟩
  obtain ⟨s, hs⟩ := hfewer
  exact Finset.sum_lt_sum (fun x _ => Finset.card_le_card (h.smaller x)) ⟨s, Finset.mem_univ s, hs⟩

end Tasks

section Storage

variable {D : Type} {n : Nat} {t : EvictionType} {m m' : Memory (ShardId n) D} {target : UInt64}

theorem stored_of_selected (hwf : ∀ s, (m.nodes s).WF) {s : ShardId n} (hs : s ∈ m.selected) :
    (m.nodes s).dbStore ≠ ∅ := by
  intro hempty
  refine selected_nonzero m hs ?_
  rw [(hwf s).memory, MemoryCacheNode.bytes, hempty]
  rfl

/-- GLOBAL_MEMORY above the target is memory of some shard. -/
theorem selected_ne_nil (hidle : m.Idle t) (habove : target < m.globalMemory) : m.selected ≠ [] := by
  intro hnil
  obtain ⟨past, hreach, -⟩ := hidle.reach
  obtain ⟨hacc, -⟩ := reach_accounts hreach
  have hlength := length_selected m
  rw [hnil, List.length_nil, evictionMaxNumber] at hlength
  have hnone : (Finset.univ.filter (fun s => (m.nodes s).approxMemory ≠ 0)) = ∅ :=
    Finset.card_eq_zero.mp (by omega)
  have hzero : ∀ s, (m.nodes s).approxMemory = 0 := by
    intro s
    by_contra hs
    exact Finset.notMem_empty s (hnone ▸ Finset.mem_filter.mpr ⟨Finset.mem_univ s, hs⟩)
  have hbalance := hacc.balance
  simp only [hidle.quiet, pendingValue, Option.map_none, Option.getD_none, Finset.sum_const_zero,
    add_zero, hzero] at hbalance
  rw [hbalance] at habove
  exact absurd habove (UInt64.not_lt.mpr (UInt64.zero_le))

theorem Memory.Idle.progress (h : m.Idle t) (habove : target < m.globalMemory) :
    (Round.start m m.selected).Progress t target m m.selected [] := by
  obtain ⟨past, hreach, hfits⟩ := h.reach
  obtain ⟨hacc, -⟩ := reach_accounts hreach
  exact progress_start hreach hfits h.quiet habove (fun s hs => stored_of_selected hacc.wf hs)

/-- One round of eviction_memory, in any interleaving of its tasks and whatever their
stopwatches say. It takes at most so many steps, and a task that has not returned can go
on. Only the selected shards lose entries. With GLOBAL_MEMORY at the target each task
still completes at most one deletion, one of the tasks none, and so at most four entries
go that need not have gone. When all tasks have returned, GLOBAL_MEMORY is at the target
or every selected shard has lost an entry. -/
theorem eviction_round {past : List (Memory (ShardId n) D)} (h : Memory.Reach t past m)
    (hfits : ∀ m' ∈ m :: past, m'.Fits) (hquiet : ∀ s, m.pending s = none)
    (habove : target < m.globalMemory) {steps : Nat} {late : List (ShardId n)}
    {r : Round (ShardId n) D} (hruns : Round.Runs target (Round.start m m.selected) steps late r) :
    steps ≤ 8 * m.entries + 25 ∧
    (∀ s timeUp, r.phase s ≠ .done → ∃ r', r.step target s timeUp = some r') ∧
    (∀ s, s ∉ m.selected → (r.memory.nodes s).dbStore = (m.nodes s).dbStore) ∧
    (∀ s, (r.memory.nodes s).dbStore.keys ⊆ (m.nodes s).dbStore.keys) ∧
    late.Nodup ∧ late.length ≤ 4 ∧
    (r.Over → r.memory.globalMemory ≤ target ∨ ∀ s ∈ m.selected,
      (r.memory.nodes s).dbStore.keys.card < (m.nodes s).dbStore.keys.card) := by
  have hidle : m.Idle t := ⟨⟨past, h, hfits⟩, hquiet⟩
  obtain ⟨hprogress, hahead⟩ := hruns.progress (hidle.progress habove)
  have hlength : m.selected.length ≤ 5 := by
    rw [length_selected]
    exact Nat.min_le_left _ _
  rw [ahead_start m (nodup_selected m)] at hahead
  refine ⟨by omega, fun s timeUp hs => exists_step hprogress.sound hs target timeUp,
    fun s hs => (hprogress.outside s hs).2, hprogress.smaller, hprogress.nodup, ?_,
    hprogress.over⟩
  obtain hnil | hless := hprogress.length_late
  · simp [hnil]
  · omega

theorem rounds_idle (h : m.Idle t) {rounds : Nat}
    (hrounds : Rounds Memory.selected target m rounds m') :
    m'.Idle t ∧ rounds + m'.entries ≤ m.entries := by
  induction hrounds with
  | zero => exact ⟨h, by omega⟩
  | succ _ habove hruns hover ih =>
      obtain ⟨hidle, hentries⟩ := ih
      obtain ⟨hprogress, -⟩ := hruns.progress (hidle.progress habove)
      have hless := hprogress.entries_lt habove (selected_ne_nil hidle habove) hover
      exact ⟨hprogress.idle hover, by omega⟩

/-- Rounds of eviction_memory, while nobody writes. As long as GLOBAL_MEMORY is above the
target another round can be run to its end, and each round deletes an entry; so after no
more rounds than there are entries GLOBAL_MEMORY is at the target. -/
theorem eviction_reaches_target {past : List (Memory (ShardId n) D)} (h : Memory.Reach t past m)
    (hfits : ∀ m' ∈ m :: past, m'.Fits) (hquiet : ∀ s, m.pending s = none) (target : UInt64) :
    (∀ rounds m', Rounds Memory.selected target m rounds m' →
      rounds + m'.entries ≤ m.entries ∧
      (target < m'.globalMemory → ∃ m'', Rounds Memory.selected target m (rounds + 1) m'')) ∧
    ∃ rounds m', rounds ≤ m.entries ∧ Rounds Memory.selected target m rounds m' ∧
      m'.globalMemory ≤ target := by
  have hidle : m.Idle t := ⟨⟨past, h, hfits⟩, hquiet⟩
  have hnext : ∀ rounds m', Rounds Memory.selected target m rounds m' → target < m'.globalMemory →
      ∃ m'', Rounds Memory.selected target m (rounds + 1) m'' := by
    intro rounds m' hrounds habove
    have hstart := (rounds_idle hidle hrounds).1.progress habove
    obtain ⟨steps, late, r, hruns, hover⟩ := Round.Runs.complete .nil hstart
    exact ⟨r.memory, .succ hrounds habove hruns hover⟩
  refine ⟨fun rounds m' hrounds => ⟨(rounds_idle hidle hrounds).2, hnext rounds m' hrounds⟩, ?_⟩
  -- otherwise there would be more rounds than entries
  by_contra hnever
  have hmany : ∀ rounds, ∃ m', Rounds Memory.selected target m rounds m' := by
    intro rounds
    induction rounds with
    | zero => exact ⟨m, .zero⟩
    | succ rounds ih =>
        obtain ⟨m', hrounds⟩ := ih
        have hle := (rounds_idle hidle hrounds).2
        rcases UInt64.lt_or_le target m'.globalMemory with habove | hdone
        · exact hnext rounds m' hrounds habove
        · exact absurd ⟨rounds, m', by omega, hrounds, hdone⟩ hnever
  obtain ⟨m', hrounds⟩ := hmany (m.entries + 1)
  have hle := (rounds_idle hidle hrounds).2
  omega

theorem zero_lt_sixteen : 0 < 16 := Nat.zero_lt_succ 15

def firstShard : ShardId 1 := (⟨0, zero_lt_sixteen⟩, ⟨0, Nat.one_pos⟩)

def lastShard : ShardId 1 := (⟨15, Nat.lt_succ_self 15⟩, ⟨0, Nat.one_pos⟩)

/-- One shard in each database, with entries in the first and the last. -/
def stored (n : Nat) : Memory (ShardId 1) Unit := Memory.after .lru ((storedEvents firstShard lastShard).take n)

theorem stored_reach : Memory.Reach .lru ((List.range 6).reverse.map stored) (stored 6) :=
  (run_after (storedEvents firstShard lastShard) (by decide +kernel)).reach

theorem stored_fits : ∀ m ∈ stored 6 :: (List.range 6).reverse.map stored, m.Fits := by
  have hheld : ∀ n < 7, (stored n).held < 2 ^ 63 := by decide +kernel
  intro m hm
  rcases List.mem_cons.mp hm with rfl | hpast
  · exact fits_of_held (hheld 6 (by decide))
  · obtain ⟨n, hn, rfl⟩ := List.mem_map.mp hpast
    have hlt : n < 6 := List.mem_range.mp (List.mem_reverse.mp hn)
    exact fits_of_held (hheld n (by omega))

/-- The tasks of the two shards take turns; the last shard's has looked at GLOBAL_MEMORY
before the first one's deletion brings it to the target. -/
def sampleTurns : List (ShardId 1 × Bool) :=
  [(firstShard, false), (lastShard, false), (firstShard, false), (lastShard, false), (firstShard, false),
    (lastShard, false), (firstShard, false), (firstShard, false), (lastShard, false), (lastShard, false),
    (firstShard, false), (firstShard, true), (lastShard, false), (lastShard, true)]

def sampleRound : List (ShardId 1) × Round (ShardId 1) Unit :=
  Round.after 10 (Round.start (stored 6) (stored 6).selected) sampleTurns

theorem eviction_round_sample : sampleRound.1 = [lastShard] ∧ sampleRound.2.Over ∧ sampleTurns.length ≤
      8 * (stored 6).entries + 25 ∧ sampleRound.1.length ≤ 4 ∧ (sampleRound.2.memory.globalMemory ≤ 10 ∨
      ∀ s ∈ (stored 6).selected,
        (sampleRound.2.memory.nodes s).dbStore.keys.card < ((stored 6).nodes s).dbStore.keys.card) := by
  have habove : (10 : UInt64) < (stored 6).globalMemory := by decide +kernel
  have hquiet : ∀ s, (stored 6).pending s = none := by decide +kernel
  have hover : sampleRound.2.Over := by
    have hdone : ∀ s, sampleRound.2.phase s = .done := by decide +kernel
    exact hdone
  have hruns := runs_after 10 (Round.start (stored 6) (stored 6).selected) sampleTurns (by decide +kernel)
  obtain ⟨hsteps, -, -, -, -, hlate, hend⟩ := eviction_round stored_reach stored_fits hquiet habove hruns
  exact ⟨by decide +kernel, hover, hsteps, hlate, hend hover⟩

theorem eviction_reaches_target_sample : (stored 6).globalMemory = 16 ∧
    ∃ rounds m', rounds ≤ (stored 6).entries ∧ Rounds Memory.selected 4 (stored 6) rounds m' ∧
      m'.globalMemory ≤ 4 :=
  ⟨by decide +kernel, (eviction_reaches_target stored_reach stored_fits (by decide +kernel) 4).2⟩

end Storage

end RustKv.CacheStore
