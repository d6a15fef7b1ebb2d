import RustKv.CacheNodes

namespace RustKv.CacheStore

open Text Eviction SampleVec

variable {D : Type} {now : Nat} {k : Str}

abbrev Store (D : Type) := Finmap (fun _ : Str => ValueEntry D)

/-- The entry of a key, if it has one that has not expired. -/
def live (now : Nat) (m : Store D) (k : Str) : Option (ValueEntry D) :=
  (m.lookup k).filter (fun e => !e.isExpired now)

/-- The entries that have not expired. -/
def unexpired (now : Nat) (m : Store D) : Store D where
  entries := m.entries.filter (fun e => !e.2.isExpired now)
  nodupKeys := by
    have h := m.nodupKeys
    rw [← Multiset.nodup_keys] at h ⊢
    exact Multiset.nodup_of_le (Multiset.map_le_map (Multiset.filter_le _ _)) h

theorem lookup_unexpired (now : Nat) (m : Store D) (k : Str) :
    (unexpired now m).lookup k = live now m k := by
  refine Option.ext (fun e => ?_)
  rw [live, Option.filter_eq_some_iff, Finmap.lookup_eq_some_iff, Finmap.lookup_eq_some_iff]
  exact Multiset.mem_filter

def DirectCacheNode.store (node : DirectCacheNode D) : Store D := node.guard.shard.dbStore

theorem select_writeguard (g : Guard D) (now : Nat) (k : Str) :
    ∃ g', DirectCacheNode.select (.writeguard g) now k =
        (live now g.shard.dbStore k, .writeguard g') ∧
      ∀ k', g'.shard.dbStore.lookup k' =
        if k' = k then live now g.shard.dbStore k else g.shard.dbStore.lookup k' := by
  have hpeek : g.shard.peekEntry k = g.shard.dbStore.lookup k := rfl
  simp only [DirectCacheNode.select, live, hpeek]
  cases hl : g.shard.dbStore.lookup k with
  | none =>
      refine ⟨g, rfl, fun k' => ?_⟩
      split
      · next he => rw [he, hl]; rfl
      · rfl
  | some e =>
      by_cases hexp : e.isExpired now = true
      · refine ⟨(DirectCacheNode.removeGuard g k).2, by simp [hexp, Option.filter], fun k' => ?_⟩
        change (g.shard.removeEntry k).2.dbStore.lookup k' = _
        rw [Shard.removeEntry_dbStore]
        split
        · next he => rw [he, Finmap.lookup_erase]; simp [hexp, Option.filter]
        · next he => rw [Finmap.lookup_erase_ne he]
      · refine ⟨{ g with shard := (g.shard.getEntry k).2 }, ?_, fun k' => ?_⟩
        · simp [hexp, hl, Option.filter]
        · change (g.shard.getEntry k).2.dbStore.lookup k' = _
          rw [Shard.getEntry_dbStore]
          split
          · next he => rw [he, hl]; simp [hexp, Option.filter]
          · rfl

theorem insertGuard_lookup (g : Guard D) (k : Str) (v : ValueEntry D) (k' : Str) :
    (DirectCacheNode.insertGuard g k v).shard.dbStore.lookup k' =
      if k' = k then some v else g.shard.dbStore.lookup k' := by
  change (g.shard.insertEntry k v).2.dbStore.lookup k' = _
  rw [Shard.insertEntry_dbStore, lookup_insert_ite]

theorem removeGuard_lookup (g : Guard D) (k k' : Str) :
    (DirectCacheNode.removeGuard g k).2.shard.dbStore.lookup k' =
      if k' = k then none else g.shard.dbStore.lookup k' := by
  change (g.shard.removeEntry k).2.dbStore.lookup k' = _
  rw [Shard.removeEntry_dbStore, lookup_erase_ite]

theorem removeGuard_value (g : Guard D) (k : Str) :
    (DirectCacheNode.removeGuard g k).1 = g.shard.dbStore.lookup k :=
  g.shard.removeEntry_value k

/-- What a script sees at a key: its own change, else the unexpired entry below. -/
def LuaCacheNode.view (node : LuaCacheNode D) (now : Nat) (k : Str) : Option (ValueEntry D) :=
  match node.differMap.lookup k with
  | some (.update value) => some value
  | some .delete => none
  | none => live now node.dbStore.store k

/-- The node writes through a write guard, over base entries that agree with `base`
where they have not expired. -/
structure LuaCacheNode.Over (node : LuaCacheNode D) (now : Nat) (base : Store D) : Prop where
  writes : ∃ g, node.dbStore = .writeguard g
  live : ∀ k, live now node.dbStore.store k = live now base k

variable {node : LuaCacheNode D} {base : Store D}

theorem live_live (m : Store D) (k : Str) :
    (live now m k).filter (fun e => !e.isExpired now) = live now m k := by
  simp [live, Option.filter_filter]

theorem LuaCacheNode.select_spec (h : node.Over now base) (k : Str) :
    (node.select now k).1 = node.view now k ∧ (node.select now k).2.Over now base ∧
      (node.select now k).2.differMap = node.differMap ∧
      ∀ k', (node.select now k).2.view now k' = node.view now k' := by
  obtain ⟨⟨g, hg⟩, hlive⟩ := h
  unfold LuaCacheNode.select LuaCacheNode.view
  cases hd : node.differMap.lookup k with
  | some c => cases c <;> exact ⟨rfl, ⟨⟨g, hg⟩, hlive⟩, rfl, fun _ => rfl⟩
  | none =>
      obtain ⟨g', hsel, hlookup⟩ := select_writeguard g now k
      have hsame : ∀ k', CacheStore.live now g'.shard.dbStore k' =
          CacheStore.live now g.shard.dbStore k' := by
        intro k'
        rw [CacheStore.live, hlookup]
        split
        · next he => rw [he, live_live]
        · rfl
      rw [hg, hsel]
      rw [hg] at hlive
      refine ⟨rfl, ⟨⟨g', rfl⟩, fun k' => (hsame k').trans (hlive k')⟩, rfl, fun k' => ?_⟩
      have hstore : DirectCacheNode.store (.writeguard g') = g'.shard.dbStore := rfl
      have hstore' : DirectCacheNode.store (.writeguard g) = g.shard.dbStore := rfl
      simp only [hstore, hstore', hsame]

theorem LuaCacheNode.view_differ (node : LuaCacheNode D) (c : ChangeOp D) (n : Int64) (k k' : Str) :
    LuaCacheNode.view ⟨node.dbStore, node.differMap.insert k c, n⟩ now k' =
      if k' = k then (match c with
        | .update value => some value
        | .delete => none) else node.view now k' := by
  unfold LuaCacheNode.view
  by_cases he : k' = k
  · subst he
    simp only [Finmap.lookup_insert, if_true]
    cases c <;> rfl
  · simp only [Finmap.lookup_insert_of_ne _ he, he, if_false]

theorem LuaCacheNode.insert_spec (h : node.Over now base) (k : Str) (v : ValueEntry D) :
    (node.insert now k v).Over now base ∧
      ∀ k', (node.insert now k v).view now k' = if k' = k then some v else node.view now k' := by
  obtain ⟨-, hover, -, hview⟩ := LuaCacheNode.select_spec h k
  refine ⟨⟨hover.writes, hover.live⟩, fun k' => ?_⟩
  rw [← hview k']
  exact LuaCacheNode.view_differ (node.select now k).2 (.update v) _ k k'

theorem LuaCacheNode.delete_spec (h : node.Over now base) (k : Str) :
    (node.delete now k).Over now base ∧
      ∀ k', (node.delete now k).view now k' = if k' = k then none else node.view now k' := by
  obtain ⟨-, hover, -, hview⟩ := LuaCacheNode.select_spec h k
  refine ⟨⟨hover.writes, hover.live⟩, fun k' => ?_⟩
  rw [← hview k']
  exact LuaCacheNode.view_differ (node.select now k).2 .delete _ k k'

theorem LuaCacheNode.take_spec (h : node.Over now base) (k : Str) :
    (node.take now k).1 = node.view now k ∧ (node.take now k).2.Over now base ∧
      ∀ k', (node.take now k).2.view now k' = if k' = k then none else node.view now k' := by
  cases hd : node.differMap.lookup k with
  | some c =>
      cases c with
      | update value =>
          simp only [LuaCacheNode.take, hd]
          exact ⟨by simp [LuaCacheNode.view, hd], ⟨h.writes, h.live⟩,
            fun k' => LuaCacheNode.view_differ node .delete _ k k'⟩
      | delete =>
          simp only [LuaCacheNode.take, hd]
          exact ⟨by simp [LuaCacheNode.view, hd], ⟨h.writes, h.live⟩,
            fun k' => LuaCacheNode.view_differ node .delete _ k k'⟩
  | none =>
      obtain ⟨hval, hover, -, hview⟩ := LuaCacheNode.select_spec h k
      have hsel : node.select now k = ((node.dbStore.select now k).1,
          { node with dbStore := (node.dbStore.select now k).2 }) := by
        simp [LuaCacheNode.select, hd]
      rw [hsel] at hval hover hview
      simp only [LuaCacheNode.take, hd]
      rw [← hval]
      cases hs : node.dbStore.select now k with
      | mk value dbStore =>
          rw [hs] at hover hview hval
          cases value with
          | some value =>
              refine ⟨rfl, ⟨hover.writes, hover.live⟩, fun k' => ?_⟩
              rw [← hview k']
              exact LuaCacheNode.view_differ { node with dbStore := dbStore } .delete _ k k'
          | none =>
              refine ⟨rfl, hover, fun k' => ?_⟩
              rw [hview k']
              split
              · next he => rw [he, ← hval]
              · rfl

inductive MapOp (D : Type)
  | insert (key : Str) (value : ValueEntry D)
  | select (key : Str)
  | take (key : Str)
  | delete (key : Str)

/-- The call on any implementation of the operations. -/
def MapOp.call {σ : Type} [KvOperator σ D] (now : Nat) (s : σ) : MapOp D → Option (ValueEntry D) × σ
  | .insert key value => (none, KvOperator.insert s now key value)
  | .select key => KvOperator.select s now key
  | .take key => KvOperator.take s now key
  | .delete key => (none, KvOperator.delete s now key)

/-- The call on a plain finite map. -/
def MapOp.onMap (m : Store D) : MapOp D → Option (ValueEntry D) × Store D
  | .insert key value => (none, m.insert key value)
  | .select key => (m.lookup key, m)
  | .take key => (m.lookup key, m.erase key)
  | .delete key => (none, m.erase key)

def MapOp.calls {σ : Type} [KvOperator σ D] (now : Nat) (s : σ) :
    List (MapOp D) → List (Option (ValueEntry D)) × σ
  | [] => ([], s)
  | op :: ops =>
      let (r, s) := op.call now s
      let (rs, s) := MapOp.calls now s ops
      (r :: rs, s)

def MapOp.allOnMap (m : Store D) : List (MapOp D) → List (Option (ValueEntry D)) × Store D
  | [] => ([], m)
  | op :: ops =>
      let (r, m) := op.onMap m
      let (rs, m) := MapOp.allOnMap m ops
      (r :: rs, m)

/-- One call on the script's node is the call on the map it stands for. -/
theorem call_refines {m : Store D} (h : node.Over now base)
    (hm : ∀ k, m.lookup k = node.view now k) (op : MapOp D) :
    (op.call now node).1 = (op.onMap m).1 ∧ (op.call now node).2.Over now base ∧
      ∀ k, (op.onMap m).2.lookup k = (op.call now node).2.view now k := by
  cases op with
  | insert key value =>
      obtain ⟨hover, hview⟩ := LuaCacheNode.insert_spec h key value
      refine ⟨rfl, hover, fun k => ?_⟩
      exact (lookup_insert_ite m key value k).trans ((hm k ▸ hview k).symm)
  | select key =>
      obtain ⟨hval, hover, -, hview⟩ := LuaCacheNode.select_spec h key
      exact ⟨hval.trans (hm key).symm, hover, fun k => (hm k).trans (hview k).symm⟩
  | take key =>
      obtain ⟨hval, hover, hview⟩ := LuaCacheNode.take_spec h key
      refine ⟨hval.trans (hm key).symm, hover, fun k => ?_⟩
      exact (lookup_erase_ite m key k).trans ((hm k ▸ hview k).symm)
  | delete key =>
      obtain ⟨hover, hview⟩ := LuaCacheNode.delete_spec h key
      refine ⟨rfl, hover, fun k => ?_⟩
      exact (lookup_erase_ite m key k).trans ((hm k ▸ hview k).symm)

theorem calls_refine (ops : List (MapOp D)) {m : Store D} (h : node.Over now base)
    (hm : ∀ k, m.lookup k = node.view now k) :
    (MapOp.calls now node ops).1 = (MapOp.allOnMap m ops).1 ∧
      (MapOp.calls now node ops).2.Over now base ∧
      ∀ k, (MapOp.allOnMap m ops).2.lookup k = (MapOp.calls now node ops).2.view now k := by
  induction ops generalizing node m with
  | nil => exact ⟨rfl, h, hm⟩
  | cons op ops ih =>
      obtain ⟨hr, hover, hview⟩ := call_refines h hm op
      obtain ⟨hrs, hover', hview'⟩ := ih hover hview
      refine ⟨?_, hover', hview'⟩
      simp only [MapOp.calls, MapOp.allOnMap]
      rw [hr, hrs]

/-- `drained` gives the changes of the map, each once, in any order. -/
def Drains (m : Finmap (fun _ : Str => ChangeOp D)) (drained : List (Str × ChangeOp D)) : Prop :=
  (drained.map Prod.fst).Nodup ∧ ∀ k c, (k, c) ∈ drained ↔ m.lookup k = some c

/-- Some order there is. -/
theorem exists_drains (m : Finmap (fun _ : Str => ChangeOp D)) : ∃ drained, Drains m drained := by
  induction m using Finmap.induction_on with
  | H a =>
      refine ⟨a.entries.map (fun e => (e.1, e.2)), ?_, fun k c => ?_⟩
      · rw [List.map_map]
        exact a.nodupKeys
      · rw [Finmap.lookup_toFinmap, ← Option.mem_def, AList.mem_lookup_iff, List.mem_map]
        constructor
        · rintro ⟨e, he, ⟨⟩⟩
          exact he
        · intro he
          exact ⟨⟨k, c⟩, he, rfl⟩

theorem drains_empty : Drains (∅ : Finmap (fun _ : Str => ChangeOp D)) [] :=
  ⟨List.nodup_nil, fun k c => by simp⟩

theorem Drains.insert {m : Finmap (fun _ : Str => ChangeOp D)} {drained : List (Str × ChangeOp D)}
    (h : Drains m drained) {key : Str} (hnew : m.lookup key = none) (change : ChangeOp D) :
    Drains (m.insert key change) ((key, change) :: drained) := by
  obtain ⟨hnodup, hmem⟩ := h
  have hnot (c : ChangeOp D) : (key, c) ∉ drained := by
    rw [hmem, hnew]
    simp
  refine ⟨List.nodup_cons.mpr ⟨fun hk => ?_, hnodup⟩, fun k c => ?_⟩
  · obtain ⟨⟨k, c⟩, hp, rfl⟩ := List.mem_map.mp hk
    exact hnot c hp
  · rw [List.mem_cons, hmem]
    by_cases hk : k = key
    · subst hk
      rw [Finmap.lookup_insert, hnew]
      simp [eq_comm]
    · rw [Finmap.lookup_insert_of_ne _ hk]
      simp [hk]

theorem applyChange_lookup (g : Guard D) (change : Str × ChangeOp D) :
    ∃ g', LuaCacheNode.applyChange (.writeguard g) change = .writeguard g' ∧
      ∀ k, g'.shard.dbStore.lookup k = if k = change.1 then (match change.2 with
        | .update value => some value
        | .delete => none) else g.shard.dbStore.lookup k := by
  obtain ⟨key, c⟩ := change
  cases c with
  | update value => exact ⟨_, rfl, insertGuard_lookup g key value⟩
  | delete => exact ⟨_, rfl, removeGuard_lookup g key⟩

theorem foldl_applyChange (drained : List (Str × ChangeOp D)) (g : Guard D)
    (nodup : (drained.map Prod.fst).Nodup) :
    ∃ g', drained.foldl LuaCacheNode.applyChange (.writeguard g) = .writeguard g' ∧
      (∀ k c, (k, c) ∈ drained → g'.shard.dbStore.lookup k = match c with
        | .update value => some value
        | .delete => none) ∧
      ∀ k, k ∉ drained.map Prod.fst → g'.shard.dbStore.lookup k = g.shard.dbStore.lookup k := by
  induction drained generalizing g with
  | nil => exact ⟨g, rfl, by simp, fun _ _ => rfl⟩
  | cons change drained ih =>
      obtain ⟨hnot, hnodup⟩ := List.nodup_cons.mp nodup
      obtain ⟨g₁, hg₁, hlookup₁⟩ := applyChange_lookup g change
      obtain ⟨g₂, hg₂, hin, hout⟩ := ih g₁ hnodup
      refine ⟨g₂, by rw [List.foldl_cons, hg₁, hg₂], ?_, ?_⟩
      · intro k c hk
        rcases List.mem_cons.mp hk with rfl | hk
        · rw [hout k hnot, hlookup₁, if_pos rfl]
        · exact hin k c hk
      · intro k hk
        rw [List.map_cons, List.mem_cons, not_or] at hk
        rw [hout k hk.2, hlookup₁, if_neg hk.1]

/-- The shard after the commit holds the changes, and the entries without one,
whatever the order. -/
theorem commit_lookup {g : Guard D} (hg : node.dbStore = .writeguard g)
    {drained : List (Str × ChangeOp D)} (hd : Drains node.differMap drained) :
    ∃ g', (node.commit drained).dbStore = .writeguard g' ∧
      ∀ k, g'.shard.dbStore.lookup k = match node.differMap.lookup k with
        | some (.update value) => some value
        | some .delete => none
        | none => g.shard.dbStore.lookup k := by
  obtain ⟨g', hg', hin, hout⟩ := foldl_applyChange drained g hd.1
  refine ⟨g', by rw [← hg', ← hg]; rfl, fun k => ?_⟩
  cases hc : node.differMap.lookup k with
  | some c =>
      rw [hin k c ((hd.2 k c).mpr hc)]
      cases c <;> rfl
  | none =>
      refine hout k (fun hmem => ?_)
      obtain ⟨⟨k', c⟩, hkc, rfl⟩ := List.mem_map.mp hmem
      have := (hd.2 k' c).mp hkc
      rw [hc] at this
      cases this

theorem commit_spec (h : node.Over now base) {drained : List (Str × ChangeOp D)}
    (hd : Drains node.differMap drained) (k : Str) :
    live now (node.commit drained).dbStore.store k =
      (node.view now k).filter (fun e => !e.isExpired now) := by
  obtain ⟨g, hg⟩ := h.writes
  obtain ⟨g', hg', hlookup⟩ := commit_lookup hg hd
  rw [hg']
  change live now g'.shard.dbStore k = _
  unfold live LuaCacheNode.view
  rw [hlookup, hg]
  cases node.differMap.lookup k with
  | some c => cases c <;> rfl
  | none => exact (live_live g.shard.dbStore k).symm

/-- The write buffer of a script is a finite map over the unexpired entries of
the shard: calls answer as the map does, the shard's unexpired entries are left
alone until the commit, and the commit makes them those of the map. -/
theorem lua_node_refines_map (g : Guard D) (now : Nat) (ops : List (MapOp D)) :
    let run := MapOp.calls now (LuaCacheNode.new (.writeguard g)) ops
    let map := MapOp.allOnMap (unexpired now g.shard.dbStore) ops
    run.1 = map.1 ∧
    (∀ k, live now run.2.dbStore.store k = live now g.shard.dbStore k) ∧
    ∀ drained, Drains run.2.differMap drained →
      ∀ k, live now (run.2.commit drained).dbStore.store k = live now map.2 k := by
  intro run map
  have hover : (LuaCacheNode.new (.writeguard g)).Over now g.shard.dbStore :=
    ⟨⟨g, rfl⟩, fun _ => rfl⟩
  have hview : ∀ k, (unexpired now g.shard.dbStore).lookup k =
      (LuaCacheNode.new (.writeguard g)).view now k :=
    fun k => lookup_unexpired now g.shard.dbStore k
  obtain ⟨hreplies, hover', hview'⟩ := calls_refine ops hover hview
  refine ⟨hreplies, hover'.live, fun drained hd k => ?_⟩
  rw [commit_spec hover' hd k, live, hview' k]

end RustKv.CacheStore
