import RustKv.GlobalMemory
import RustKv.PolicyOrder

namespace RustKv.CacheStore

open Text Eviction

section Loops

variable {D : Type}

/-- One batch of task_delete: the loop on a locked shard, with `left` deletions still
allowed. The keys are those it deleted. -/
def deleteBatch (targetMemory : UInt64) :
    Nat → MemoryCacheNode D → UInt64 → Option (List Str × MemoryCacheNode D × UInt64)
  | 0, node, globalMemory => some ([], node, globalMemory)
  | left + 1, node, globalMemory =>
      if globalMemory > targetMemory then do
        let (key, evicition) ← node.evicition.popVictim
        let node := { node with evicition := evicition }
        match key with
        | some key =>
            let (_, change, node) ← node.removeEntry key
            let (keys, r) ← deleteBatch targetMemory left node (change.apply globalMemory)
            some (key :: keys, r)
        | none => some ([], node, globalMemory)
      else some ([], node, globalMemory)

/-- The loop of task_delete on one shard, while no other task runs and before its
time is up. None is a loop that is not over after `fuel` batches. -/
def taskDelete (targetMemory : UInt64) :
    Nat → MemoryCacheNode D → UInt64 → Option (List Str × MemoryCacheNode D × UInt64)
  | 0, _, _ => none
  | fuel + 1, node, globalMemory =>
      if globalMemory ≤ targetMemory then some ([], node, globalMemory)
      else do
        let (batch, node, globalMemory) ← deleteBatch targetMemory 200 node globalMemory
        if batch = [] then some ([], node, globalMemory)
        else
          let (keys, r) ← taskDelete targetMemory fuel node globalMemory
          some (batch ++ keys, r)

/-- What the iterations do. While GLOBAL_MEMORY is above the target, the victim of
the policy is removed from the store and its data_size is taken from GLOBAL_MEMORY.
Asking for a victim where there is none changes the policy only. -/
inductive EvictsTo (targetMemory : UInt64) :
    MemoryCacheNode D → UInt64 → List Str → MemoryCacheNode D → UInt64 → Prop
  | done (node : MemoryCacheNode D) (globalMemory : UInt64) :
      EvictsTo targetMemory node globalMemory [] node globalMemory
  | victim {node node' : MemoryCacheNode D} {globalMemory global' : UInt64} {key : Str}
      {keys : List Str} {entry : ValueEntry D} {e e' : EvictionStrategy Str}
      (above : targetMemory < globalMemory)
      (hvictim : node.evicition.popVictim = some (some key, e))
      (hentry : node.dbStore.lookup key = some entry)
      (hdelete : e.onDelete key = some e')
      (rest : EvictsTo targetMemory
        ⟨node.dbStore.erase key, node.approxMemory - entry.dataSize, e'⟩
        (globalMemory - entry.dataSize) keys node' global') :
      EvictsTo targetMemory node globalMemory (key :: keys) node' global'
  | noVictim {node node' : MemoryCacheNode D} {globalMemory global' : UInt64} {keys : List Str}
      {e : EvictionStrategy Str} (hvictim : node.evicition.popVictim = some (none, e))
      (rest : EvictsTo targetMemory { node with evicition := e } globalMemory keys node' global') :
      EvictsTo targetMemory node globalMemory keys node' global'

/-- A shard whose policy has tracked its store from the start. -/
structure MemoryCacheNode.Kept (t : EvictionType) (node : MemoryCacheNode D) : Prop where
  wf : node.WF
  called : EvictionStrategy.Called t node.evicition

variable {t : EvictionType} {node node' : MemoryCacheNode D} {target g g' : UInt64} {keys : List Str}

theorem MemoryCacheNode.Kept.tracked (h : node.Kept t) : node.evicition.tracked = node.dbStore.keys := by
  ext k
  rw [Finmap.mem_keys, h.wf.keys]

theorem MemoryCacheNode.Kept.peek {v : Option Str} {e : EvictionStrategy Str} (h : node.Kept t)
    (hv : node.evicition.popVictim = some (v, e)) :
    MemoryCacheNode.Kept t { node with evicition := e } := by
  obtain ⟨v', e', hv', hcalled, htracked, -⟩ := h.called.popVictim
  rw [hv] at hv'
  cases hv'
  refine ⟨⟨hcalled.wf, fun k => ?_, h.wf.memory⟩, hcalled⟩
  rw [htracked]
  exact h.wf.keys k

/-- The store is empty, or the victim is a key of it and can be removed. -/
theorem MemoryCacheNode.Kept.popVictim (h : node.Kept t) :
    (∃ e, node.evicition.popVictim = some (none, e) ∧ node.dbStore = ∅) ∨
    ∃ key entry e e', node.evicition.popVictim = some (some key, e) ∧
      node.dbStore.lookup key = some entry ∧ e.onDelete key = some e' ∧
      MemoryCacheNode.Kept t ⟨node.dbStore.erase key, node.approxMemory - entry.dataSize, e'⟩ := by
  obtain ⟨v, e, hv, hcalled, htracked, hnone, hmem⟩ := h.called.popVictim
  cases v with
  | none =>
      refine .inl ⟨e, hv, ?_⟩
      have hempty := hnone rfl
      rw [h.tracked] at hempty
      refine Finmap.ext_lookup (fun k => ?_)
      rw [Finmap.lookup_empty, Finmap.lookup_eq_none, ← Finmap.mem_keys, hempty]
      exact Finset.notMem_empty k
  | some key =>
      have hkey : key ∈ node.dbStore := (h.wf.keys key).mpr (hmem key rfl)
      obtain ⟨entry, hentry⟩ := Finmap.mem_iff.mp hkey
      obtain ⟨e', he', hcalled', -⟩ := hcalled.onDelete key
      obtain ⟨c, node', hremove, wf, -, -, -⟩ := MemoryCacheNode.removeEntry_spec (h.peek hv).wf key
      simp only [MemoryCacheNode.removeEntry, hentry, he', Option.bind_eq_bind, Option.bind_some,
        Option.some.injEq, Prod.mk.injEq, true_and] at hremove
      obtain ⟨-, rfl⟩ := hremove
      exact .inr ⟨key, entry, e, e', hv, hentry, he', wf, hcalled'⟩

theorem MemoryCacheNode.Kept.victim {key : Str} {entry : ValueEntry D} {e e' : EvictionStrategy Str}
    (h : node.Kept t) (hvictim : node.evicition.popVictim = some (some key, e))
    (hentry : node.dbStore.lookup key = some entry) (hdelete : e.onDelete key = some e') :
    MemoryCacheNode.Kept t ⟨node.dbStore.erase key, node.approxMemory - entry.dataSize, e'⟩ := by
  obtain ⟨e₁, hv, -⟩ | ⟨key₁, entry₁, e₁, e₂, hv, he, hd, hkept⟩ := h.popVictim
  · rw [hvictim] at hv
    cases hv
  · rw [hvictim] at hv
    cases hv
    rw [hentry] at he
    cases he
    rw [hdelete] at hd
    cases hd
    exact hkept

theorem MemoryCacheNode.Kept.noVictim {e : EvictionStrategy Str} (h : node.Kept t)
    (hvictim : node.evicition.popVictim = some (none, e)) : node.dbStore = ∅ := by
  obtain ⟨e₁, hv, hempty⟩ | ⟨key₁, entry₁, e₁, e₂, hv, -⟩ := h.popVictim
  · exact hempty
  · rw [hvictim] at hv
    cases hv

namespace EvictsTo

theorem trans {last : MemoryCacheNode D} {keys' : List Str} {g'' : UInt64}
    (h : EvictsTo target node g keys node' g') (h' : EvictsTo target node' g' keys' last g'') :
    EvictsTo target node g (keys ++ keys') last g'' := by
  induction h with
  | done => exact h'
  | victim above hvictim hentry hdelete _ ih => exact .victim above hvictim hentry hdelete (ih h')
  | noVictim hvictim _ ih => exact .noVictim hvictim (ih h')

theorem kept (h : EvictsTo target node g keys node' g') (hk : node.Kept t) : node'.Kept t := by
  induction h with
  | done => exact hk
  | victim _ hvictim hentry hdelete _ ih => exact ih (hk.victim hvictim hentry hdelete)
  | noVictim hvictim _ ih => exact ih (hk.peek hvictim)

theorem order {rest : List Str} (h : EvictsTo target node g keys node' g') (hk : node.Kept t)
    (hrest : node'.evicition.Order rest) : node.evicition.Order (keys ++ rest) := by
  induction h with
  | done => exact hrest
  | victim _ hvictim hentry hdelete _ ih =>
      exact (ih (hk.victim hvictim hentry hdelete) hrest).cons hvictim hdelete
  | @noVictim node _ _ _ keys e hvictim _ ih =>
      have hkept := hk.peek hvictim
      have horder : e.Order (keys ++ _) := ih hkept hrest
      -- there is still no key when the policy is asked again
      obtain ⟨order, hnil, -, hmem⟩ := hkept.called.exists_order
      have hempty : order = [] := by
        refine List.eq_nil_iff_forall_not_mem.mpr (fun k hk' => ?_)
        rw [hmem, hkept.tracked, Finmap.mem_keys] at hk'
        rw [show node.dbStore = ∅ from hk.noVictim hvictim] at hk'
        exact Finmap.notMem_empty hk'
      rw [horder.unique (hempty ▸ hnil)]
      exact EvictionStrategy.order_nil hvictim

theorem lookup (h : EvictsTo target node g keys node' g') (k : Str) :
    node'.dbStore.lookup k = if k ∈ keys then none else node.dbStore.lookup k := by
  induction h with
  | done => simp
  | @victim _ _ _ _ key keys _ _ _ _ _ _ _ _ ih =>
      rw [ih]
      by_cases hk : k = key
      · subst hk
        simp
      · simp [hk, Finmap.lookup_erase_ne hk]
  | noVictim _ _ ih => exact ih

theorem mem_iff (h : EvictsTo target node g keys node' g') (k : Str) :
    k ∈ node'.dbStore ↔ k ∈ node.dbStore ∧ k ∉ keys := by
  rw [Finmap.mem_iff, Finmap.mem_iff, h.lookup]
  by_cases hk : k ∈ keys
  · simp [hk]
  · simp [hk]

theorem keys_stored (h : EvictsTo target node g keys node' g') :
    keys.Nodup ∧ ∀ k ∈ keys, k ∈ node.dbStore := by
  induction h with
  | done => simp
  | @victim node _ _ _ key keys entry _ _ _ _ hentry _ _ ih =>
      obtain ⟨hnodup, hstored⟩ := ih
      refine ⟨List.nodup_cons.mpr ⟨fun hkey => ?_, hnodup⟩, ?_⟩
      · exact (Finmap.mem_erase.mp (hstored key hkey)).1 rfl
      · intro k hk
        rcases List.mem_cons.mp hk with rfl | hk
        · exact Finmap.mem_of_lookup_eq_some hentry
        · exact (Finmap.mem_erase.mp (hstored k hk)).2
  | noVictim _ _ ih => exact ih

theorem card_lt (h : EvictsTo target node g keys node' g') (hne : keys ≠ []) :
    node'.dbStore.keys.card < node.dbStore.keys.card := by
  obtain ⟨k, hk⟩ := List.exists_mem_of_ne_nil keys hne
  refine Finset.card_lt_card (Finset.ssubset_iff_exists_subset_erase.mpr ⟨k, ?_, ?_⟩)
  · exact Finmap.mem_keys.mpr (h.keys_stored.2 k hk)
  · intro x hx
    obtain ⟨hx, hnot⟩ := (h.mem_iff x).mp (Finmap.mem_keys.mp hx)
    refine Finset.mem_erase.mpr ⟨?_, Finmap.mem_keys.mpr hx⟩
    rintro rfl
    exact hnot hk

theorem sizeBefore_erase {key : Str} (size : UInt64) (e : EvictionStrategy Str)
    (h : ∀ k ∈ keys, k ∈ node.dbStore.erase key) :
    keys.map (MemoryCacheNode.sizeBefore ⟨node.dbStore.erase key, size, e⟩) =
      keys.map node.sizeBefore := by
  refine List.map_congr_left (fun k hk => ?_)
  have hne := (Finmap.mem_erase.mp (h k hk)).1
  simp only [MemoryCacheNode.sizeBefore, Finmap.lookup_erase_ne hne]

theorem sizeBefore_entry {key : Str} {entry : ValueEntry D} (h : node.dbStore.lookup key = some entry) :
    node.sizeBefore key = entry.dataSize := by
  simp only [MemoryCacheNode.sizeBefore, h]

theorem global_eq (h : EvictsTo target node g keys node' g') : g' = g - (keys.map node.sizeBefore).sum := by
  induction h with
  | done => simp
  | victim _ _ hentry _ rest ih =>
      rw [ih, sizeBefore_erase _ _ rest.keys_stored.2, List.map_cons, List.sum_cons,
        sizeBefore_entry hentry, sub_sub]
  | noVictim _ _ ih => exact ih

theorem over_target (h : EvictsTo target node g keys node' g') {i : Nat} (hi : i < keys.length) :
    target < g - ((keys.take i).map node.sizeBefore).sum := by
  induction h generalizing i with
  | done => cases hi
  | @victim node _ g _ key keys entry _ _ above _ hentry _ rest ih =>
      cases i with
      | zero => simpa using above
      | succ i =>
          have hlater := ih (by simpa using hi)
          rw [sizeBefore_erase _ _ (fun k hk => rest.keys_stored.2 k (List.mem_of_mem_take hk))] at hlater
          rw [List.take_succ_cons, List.map_cons, List.sum_cons, sizeBefore_entry hentry, ← sub_sub]
          exact hlater
  | noVictim _ _ ih => exact ih hi

/-- As plain numbers too, while GLOBAL_MEMORY counts at least what is stored here. -/
theorem global_exact (h : EvictsTo target node g keys node' g') (hg : node.bytes ≤ g.toNat) :
    node'.bytes ≤ g'.toNat ∧
      g.toNat = g'.toNat + (keys.map (fun k => (node.sizeBefore k).toNat)).sum := by
  induction h with
  | done => exact ⟨hg, by simp⟩
  | @victim node node' g g' key keys entry _ e' _ _ hentry _ rest ih =>
      have htotal := total_erase (fun e : ValueEntry D => e.dataSize.toNat) hentry
      have hbytes : node.bytes = entry.dataSize.toNat + MemoryCacheNode.bytes
        ⟨node.dbStore.erase key, node.approxMemory - entry.dataSize, e'⟩ := htotal
      have hle : entry.dataSize.toNat ≤ g.toNat := by omega
      have hsub := UInt64.toNat_sub_of_le g entry.dataSize (UInt64.le_iff_toNat_le.mpr hle)
      obtain ⟨hrest, hglobal⟩ := ih (by omega)
      refine ⟨hrest, ?_⟩
      have hsizes := congrArg (List.map UInt64.toNat)
        (sizeBefore_erase (node.approxMemory - entry.dataSize) e' rest.keys_stored.2)
      rw [List.map_map, List.map_map] at hsizes
      change keys.map (fun k => UInt64.toNat (MemoryCacheNode.sizeBefore _ k)) = _ at hsizes
      rw [hsizes] at hglobal
      rw [List.map_cons, List.sum_cons, sizeBefore_entry hentry]
      change g.toNat = g'.toNat + (entry.dataSize.toNat + (keys.map (UInt64.toNat ∘ node.sizeBefore)).sum)
      omega
  | noVictim _ _ ih => exact ih hg

end EvictsTo

theorem deleteBatch_spec (target : UInt64) (left : Nat) (h : node.Kept t) (g : UInt64) :
    ∃ keys node' g', deleteBatch target left node g = some (keys, node', g') ∧
      EvictsTo target node g keys node' g' ∧
      (keys.length = left ∨ g' ≤ target ∨ node'.dbStore = ∅) := by
  induction left generalizing node g with
  | zero => exact ⟨[], node, g, rfl, .done node g, .inl rfl⟩
  | succ left ih =>
      rw [deleteBatch]
      by_cases hover : g > target
      · rw [if_pos hover]
        obtain ⟨e, hv, hempty⟩ | ⟨key, entry, e, e', hv, hentry, hdelete, hkept⟩ := h.popVictim
        · refine ⟨[], { node with evicition := e }, g, ?_, .noVictim hv (.done _ _), .inr (.inr hempty)⟩
          simp [hv]
        · obtain ⟨keys, node', g', hbatch, hevicts, hend⟩ := ih hkept (g - entry.dataSize)
          refine ⟨key :: keys, node', g', ?_, .victim hover hv hentry hdelete hevicts, ?_⟩
          · simp [hv, MemoryCacheNode.removeEntry, hentry, hdelete, MemoryChange.apply, hbatch]
          · simpa using hend
      · rw [if_neg hover]
        exact ⟨[], node, g, rfl, .done node g, .inr (.inl (UInt64.not_lt.mp hover))⟩

/-- The loop comes to an end, with the target reached or the store empty. -/
theorem taskDelete_spec (target : UInt64) (h : node.Kept t) (g : UInt64) :
    ∃ keys node' g', (∀ fuel, keys.length < fuel →
        taskDelete target fuel node g = some (keys, node', g')) ∧
      EvictsTo target node g keys node' g' ∧ (g' ≤ target ∨ node'.dbStore = ∅) := by
  -- by the number of keys still stored, which every batch but the last makes smaller
  induction hsize : node.dbStore.keys.card using Nat.strong_induction_on generalizing node g with
  | _ size ih =>
      by_cases hdone : g ≤ target
      · refine ⟨[], node, g, ?_, .done node g, .inl hdone⟩
        intro fuel hfuel
        cases fuel with
        | zero => cases hfuel
        | succ fuel => rw [taskDelete, if_pos hdone]
      · obtain ⟨batch, node₁, g₁, hbatch, hevicts, hend⟩ := deleteBatch_spec target 200 h g
        by_cases hnil : batch = []
        · subst hnil
          refine ⟨[], node₁, g₁, ?_, hevicts, hend.resolve_left (by simp)⟩
          intro fuel hfuel
          cases fuel with
          | zero => cases hfuel
          | succ fuel => simp [taskDelete, hdone, hbatch]
        · have hless : node₁.dbStore.keys.card < size := by
            rw [← hsize]
            exact hevicts.card_lt hnil
          obtain ⟨keys, node', g', htask, hevicts', hend'⟩ := ih _ hless (hevicts.kept h) g₁ rfl
          refine ⟨batch ++ keys, node', g', ?_, hevicts.trans hevicts', hend'⟩
          intro fuel hfuel
          cases fuel with
          | zero => cases hfuel
          | succ fuel =>
              have hpos := List.length_pos_iff.mpr hnil
              rw [List.length_append] at hfuel
              have hrest := htask fuel (by omega)
              simp [taskDelete, hdone, hbatch, hnil, hrest]

end Loops

section Reach

variable {ι D : Type} [DecidableEq ι]

/-- The policy of one shard is asked for a victim. -/
def Memory.peek (m : Memory ι D) (shard : ι) (e : EvictionStrategy Str) : Memory ι D :=
  { m with nodes := Function.update m.nodes shard { m.nodes shard with evicition := e } }

/-- The states of every run, with the eviction tasks: besides the operations on the
shards, one of these asks the policy of a shard it has locked for a victim. `past` are
the states before. -/
inductive Memory.Reach (t : EvictionType) : List (Memory ι D) → Memory ι D → Prop
  | new : Memory.Reach t [] (Memory.new t)
  | step {past : List (Memory ι D)} {m m' : Memory ι D} (e : Event ι D) :
      Memory.Reach t past m → m.step e = some m' → Memory.Reach t (m :: past) m'
  | victim {past : List (Memory ι D)} {m : Memory ι D} {shard : ι} {key : Option Str}
      {e : EvictionStrategy Str} :
      Memory.Reach t past m → m.pending shard = none →
      (m.nodes shard).evicition.popVictim = some (key, e) →
      Memory.Reach t (m :: past) (m.peek shard e)

variable {t : EvictionType} {m m' : Memory ι D} {past : List (Memory ι D)}

theorem Memory.Run.reach (h : Memory.Run t past m) : Memory.Reach t past m := by
  induction h with
  | new => exact .new
  | step e _ hstep ih => exact .step e ih hstep

theorem run_called {node node' : MemoryCacheNode D} {op : StoreOp D} {c : MemoryChange}
    (h : op.run node = some (c, node')) (hcalled : node.evicition.Called t) :
    node'.evicition.Called t := by
  cases op with
  | insert key value =>
      obtain ⟨e, he, heq⟩ := Option.bind_eq_some_iff.mp h
      cases heq
      exact hcalled.call (c := .write key) he
  | remove key =>
      obtain ⟨⟨r, c', node₁⟩, hr, heq⟩ := Option.map_eq_some_iff.mp h
      cases heq
      rw [MemoryCacheNode.removeEntry] at hr
      split at hr
      · obtain ⟨e, he, heq⟩ := Option.bind_eq_some_iff.mp hr
        cases heq
        exact hcalled.call (c := .delete key) he
      · cases hr
        exact hcalled
  | get key =>
      obtain ⟨⟨r, node₁⟩, hr, heq⟩ := Option.map_eq_some_iff.mp h
      cases heq
      rw [MemoryCacheNode.getEntry] at hr
      split at hr
      · obtain ⟨node₂, hn, heq⟩ := Option.bind_eq_some_iff.mp hr
        cases heq
        obtain ⟨e, he, heq⟩ := Option.bind_eq_some_iff.mp hn
        cases heq
        exact hcalled.call (c := .read key) he
      · cases hr
        exact hcalled
  | read key =>
      obtain ⟨node₂, hn, heq⟩ := Option.map_eq_some_iff.mp h
      cases heq
      obtain ⟨e, he, heq⟩ := Option.bind_eq_some_iff.mp hn
      cases heq
      exact hcalled.call (c := .read key) he

/-- The iterations are steps of the system, on a shard that no other operation holds. -/
theorem EvictsTo.reach {s : ι} {target g g' : UInt64} {node node' : MemoryCacheNode D} {keys : List Str}
    (h : EvictsTo target node g keys node' g') (hm : Memory.Reach t past m) (hnode : m.nodes s = node)
    (hglobal : m.globalMemory = g) (hp : m.pending s = none) :
    ∃ past' m', Memory.Reach t past' m' ∧ m'.nodes = Function.update m.nodes s node' ∧
      m'.globalMemory = g' ∧ m'.pending = m.pending := by
  induction h generalizing past m with
  | done => exact ⟨past, m, hm, by rw [← hnode, Function.update_eq_self], hglobal, rfl⟩
  | @victim node _ g _ key _ entry e e' _ hvictim hentry hdelete _ ih =>
      subst hnode hglobal
      have hpeek := Memory.Reach.victim hm hp hvictim
      have hnode : (m.peek s e).nodes s = { m.nodes s with evicition := e } := by simp [Memory.peek]
      have hstart : (m.peek s e).step (.start s (.remove key)) = some { m.peek s e with
          nodes := Function.update (m.peek s e).nodes s
            ⟨(m.nodes s).dbStore.erase key, (m.nodes s).approxMemory - entry.dataSize, e'⟩
          pending := Function.update m.pending s (some (.fetchSub entry.dataSize))
          wrapped := m.wrapped ||
            MemoryChange.wraps (m.nodes s).approxMemory (.fetchSub entry.dataSize) } := by
        simp only [Memory.step, show (m.peek s e).pending s = none from hp, StoreOp.run, hnode,
          MemoryCacheNode.removeEntry, hentry, hdelete, Option.bind_eq_bind, Option.bind_some,
          Option.map_some, MemoryChange.apply]
        rfl
      obtain ⟨past', m', hreach, hnodes, hg, hpending⟩ :=
        ih (.step (.finish s) (.step (.start s (.remove key)) hpeek hstart)
          (by simp only [Memory.step, Function.update_self]; rfl))
          (by simp) rfl (by simp)
      refine ⟨past', m', hreach, ?_, hg, ?_⟩
      · rw [hnodes]
        simp [Memory.peek]
      · rw [hpending]
        simp [← hp]
  | @noVictim node _ g _ _ e hvictim _ ih =>
      subst hnode hglobal
      obtain ⟨past', m', hreach, hnodes, hg, hpending⟩ :=
        ih (Memory.Reach.victim hm hp hvictim) (by simp [Memory.peek]) rfl hp
      refine ⟨past', m', hreach, ?_, hg, hpending⟩
      rw [hnodes]
      simp [Memory.peek]

variable [Fintype ι]

omit [Fintype ι] in
theorem peek_dbStore (m : Memory ι D) (shard : ι) (e : EvictionStrategy Str) (s : ι) :
    ((m.peek shard e).nodes s).dbStore = (m.nodes s).dbStore := by
  by_cases hs : s = shard
  · simp [Memory.peek, hs]
  · simp [Memory.peek, hs]

omit [Fintype ι] in
theorem peek_approxMemory (m : Memory ι D) (shard : ι) (e : EvictionStrategy Str) (s : ι) :
    ((m.peek shard e).nodes s).approxMemory = (m.nodes s).approxMemory := by
  by_cases hs : s = shard
  · simp [Memory.peek, hs]
  · simp [Memory.peek, hs]

theorem peek_accounts {shard : ι} {v : Option Str} {e : EvictionStrategy Str} (h : m.Accounts)
    (hcalled : ∀ s, (m.nodes s).evicition.Called t)
    (hv : (m.nodes shard).evicition.popVictim = some (v, e)) :
    (m.peek shard e).Accounts ∧ ∀ s, ((m.peek shard e).nodes s).evicition.Called t := by
  have hkept : ∀ s, ((m.peek shard e).nodes s).Kept t := by
    intro s
    by_cases hs : s = shard
    · subst hs
      simpa [Memory.peek] using MemoryCacheNode.Kept.peek ⟨h.wf s, hcalled s⟩ hv
    · simpa [Memory.peek, hs] using MemoryCacheNode.Kept.mk (h.wf s) (hcalled s)
  refine ⟨⟨fun s => (hkept s).wf, ?_⟩, fun s => (hkept s).called⟩
  simp only [peek_approxMemory]
  exact h.balance

theorem peek_exact {shard : ι} {e : EvictionStrategy Str} (h : m.Exact) : (m.peek shard e).Exact := by
  have hbytes : ∀ s, ((m.peek shard e).nodes s).bytes = (m.nodes s).bytes := by
    intro s
    rw [MemoryCacheNode.bytes, peek_dbStore]
    rfl
  refine ⟨h.unwrapped, ?_, ?_⟩
  · simp only [Memory.held, hbytes]
    exact h.balance
  · intro s
    rw [hbytes]
    exact h.added_le s

theorem reach_accounts (h : Memory.Reach t past m) :
    m.Accounts ∧ (∀ s, (m.nodes s).evicition.Called t) ∧
      ((∀ m' ∈ past, m'.Fits) → m.Fits → m.Exact) := by
  induction h with
  | new => exact ⟨accounts_new t, fun _ => EvictionStrategy.called_new t, fun _ _ => exact_new t⟩
  | @step past m m' e _ hstep ih =>
      obtain ⟨hacc, hcalled, hexact⟩ := ih
      refine ⟨step_accounts hacc hstep, ?_, ?_⟩
      · obtain ⟨shard, op, c, node, rfl, -, hrun, rfl⟩ | ⟨shard, c, rfl, -, rfl⟩ := step_cases hacc.wf hstep
        · intro s
          by_cases hs : s = shard
          · subst hs
            simpa using run_called hrun (hcalled s)
          · simpa [hs] using hcalled s
        · exact hcalled
      · intro hpast hfits
        have hm := hpast _ List.mem_cons_self
        exact step_exact (hexact (fun m' hm' => hpast m' (List.mem_cons_of_mem _ hm')) hm) hacc.wf hm
          hfits hstep
  | @victim past m shard key e _ _ hv ih =>
      obtain ⟨hacc, hcalled, hexact⟩ := ih
      obtain ⟨hacc', hcalled'⟩ := peek_accounts hacc hcalled hv
      refine ⟨hacc', hcalled', fun hpast _ => ?_⟩
      exact peek_exact (hexact (fun m' hm' => hpast m' (List.mem_cons_of_mem _ hm'))
        (hpast _ List.mem_cons_self))

theorem bytes_le_global {s : ι} (h : m.Exact) (hp : m.pending s = none) :
    (m.nodes s).bytes ≤ m.globalMemory.toNat := by
  have hle : ∑ x, (pendingAdded (m.pending x) + if x = s then (m.nodes s).bytes else 0) ≤ m.held := by
    refine Finset.sum_le_sum (fun x _ => ?_)
    by_cases hx : x = s
    · subst hx
      simp [hp, pendingAdded]
    · rw [if_neg hx]
      exact Nat.le_trans (h.added_le x) (Nat.le_add_right _ _)
  rw [Finset.sum_add_distrib, Finset.sum_ite_eq' Finset.univ s, if_pos (Finset.mem_univ s),
    ← h.balance] at hle
  omega

/-- In every state that is reached, on every shard and for every target: the loop of
the eviction task ends, with GLOBAL_MEMORY at the target or the shard empty. Each
iteration removes the victim of the policy and takes its size from GLOBAL_MEMORY.
What is removed is a prefix of the order in which the policy gives the keys up, and
no shorter one would do. -/
theorem taskDelete_shortest (h : Memory.Reach t past m) (s : ι) (target : UInt64) :
    ∃ removed node' global' order,
      (∀ fuel, removed.length < fuel →
        taskDelete target fuel (m.nodes s) m.globalMemory = some (removed, node', global')) ∧
      EvictsTo target (m.nodes s) m.globalMemory removed node' global' ∧
      (∀ k, k ∈ node'.dbStore ↔ k ∈ (m.nodes s).dbStore ∧ k ∉ removed) ∧
      global' = m.globalMemory - (removed.map (m.nodes s).sizeBefore).sum ∧
      (global' ≤ target ∨ node'.dbStore = ∅) ∧
      ((m.nodes s).evicition.Order order ∧ order.Nodup ∧
        ∀ k, k ∈ order ↔ k ∈ (m.nodes s).dbStore) ∧
      removed <+: order ∧
      (∀ p, p <+: order → p.length < removed.length →
        target < m.globalMemory - (p.map (m.nodes s).sizeBefore).sum ∧
        ∃ k ∈ (m.nodes s).dbStore, k ∉ p) ∧
      (m.pending s = none → (∀ m' ∈ m :: past, m'.Fits) →
        m.globalMemory.toNat =
          global'.toNat + (removed.map (fun k => ((m.nodes s).sizeBefore k).toNat)).sum) := by
  obtain ⟨hacc, hcalled, hexact⟩ := reach_accounts h
  have hkept : (m.nodes s).Kept t := ⟨hacc.wf s, hcalled s⟩
  obtain ⟨removed, node', global', htask, hevicts, hend⟩ := taskDelete_spec target hkept m.globalMemory
  obtain ⟨rest, hrest, -⟩ := (hevicts.kept hkept).called.exists_order
  have horder := hevicts.order hkept hrest
  obtain ⟨order, horder', hnodup, hmem⟩ := hkept.called.exists_order
  rw [← horder.unique horder'] at hnodup hmem
  refine ⟨removed, node', global', removed ++ rest, htask, hevicts, hevicts.mem_iff, hevicts.global_eq,
    hend, ⟨horder, hnodup, ?_⟩, List.prefix_append _ _, ?_, ?_⟩
  · intro k
    rw [hmem, hkept.tracked, Finmap.mem_keys]
  · intro p hp hlen
    have hpre := List.prefix_of_prefix_length_le hp (List.prefix_append removed rest) (Nat.le_of_lt hlen)
    have htake := List.prefix_iff_eq_take.mp hpre
    refine ⟨?_, removed[p.length], hevicts.keys_stored.2 _ (List.getElem_mem hlen), ?_⟩
    · rw [htake]
      exact hevicts.over_target hlen
    · intro hin
      obtain ⟨i, hi, heq⟩ := List.mem_iff_getElem.mp hin
      have hget : removed[i] = removed[p.length] := by
        rw [← heq]
        exact (hpre.getElem hi).symm
      have := (List.Nodup.getElem_inj_iff hevicts.keys_stored.1).mp hget
      omega
  · intro hp hfits
    have hm := hexact (fun m' hm' => hfits m' (List.mem_cons_of_mem _ hm')) (hfits m List.mem_cons_self)
    exact (hevicts.global_exact (bytes_le_global hm hp)).2

end Reach

/-- Two entries in one shard, and one in another. -/
def storedEvents {ι : Type} (s s' : ι) : List (Event ι Unit) :=
  [.start s (.insert firstKey ⟨(), none, 7⟩), .start s' (.insert firstKey ⟨(), none, 5⟩), .finish s,
    .finish s', .start s (.insert secondKey ⟨(), none, 4⟩), .finish s]

def storedMemory : Memory Bool Unit := Memory.after .lru (storedEvents false true)

theorem taskDelete_sample : ∃ past, Memory.Reach .lru past storedMemory ∧ storedMemory.globalMemory = 16 ∧
      ∃ removed node' global', taskDelete 10 (removed.length + 1) (storedMemory.nodes false)
        storedMemory.globalMemory = some (removed, node', global') ∧
        (global' ≤ 10 ∨ node'.dbStore = ∅) := by
  have hreach := (run_after (storedEvents false true) (by decide +kernel)).reach (t := .lru)
  obtain ⟨removed, node', global', order, htask, -, -, -, hend, -⟩ := taskDelete_shortest hreach false 10
  exact ⟨_, hreach, by decide +kernel, removed, node', global', htask _ (Nat.lt_succ_self _), hend⟩

end RustKv.CacheStore
