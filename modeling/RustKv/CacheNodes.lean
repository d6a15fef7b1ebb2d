import RustKv.CacheInvariant

namespace RustKv.CacheStore

open Text Eviction

variable {D β : Type}

/-- A shard whose redundant structures agree, so that no operation on it fails. -/
structure Shard (D : Type) where
  node : MemoryCacheNode D
  wf : node.WF

def Shard.new (configType : EvictionType) : Shard D := ⟨MemoryCacheNode.new configType, new_wf configType⟩

/-- The outcome of an operation that is known to succeed and keep the shard in order. -/
def Shard.outcome (r : Option (β × MemoryCacheNode D)) (h : ∃ b n, r = some (b, n) ∧ n.WF) :
    β × Shard D :=
  match r, h with
  | some (b, n), h => (b, ⟨n, by
      obtain ⟨b', n', e, wf⟩ := h
      cases e
      exact wf⟩)
  | none, h => False.elim (by
      obtain ⟨b', n', e, -⟩ := h
      cases e)

theorem outcome_eq {r : Option (β × MemoryCacheNode D)} {h : ∃ b n, r = some (b, n) ∧ n.WF} {b : β}
    {n : MemoryCacheNode D} (e : r = some (b, n)) :
    (Shard.outcome r h).1 = b ∧ (Shard.outcome r h).2.node = n := by
  subst e
  exact ⟨rfl, rfl⟩

namespace Shard

def insertEntry (s : Shard D) (key : Str) (value : ValueEntry D) : MemoryChange × Shard D :=
  outcome (s.node.insertEntry key value) (by
    obtain ⟨n, hn, wf, -⟩ := MemoryCacheNode.insertEntry_spec s.wf key value
    exact ⟨_, n, hn, wf⟩)

def removeEntry (s : Shard D) (key : Str) : (Option (ValueEntry D) × MemoryChange) × Shard D :=
  outcome ((s.node.removeEntry key).map (fun r => ((r.1, r.2.1), r.2.2))) (by
    obtain ⟨c, n, hn, wf, -⟩ := MemoryCacheNode.removeEntry_spec s.wf key
    exact ⟨_, n, by rw [hn]; rfl, wf⟩)

def getEntry (s : Shard D) (key : Str) : Option (ValueEntry D) × Shard D :=
  outcome (s.node.getEntry key) (by
    obtain ⟨n, hn, wf, -⟩ := MemoryCacheNode.getEntry_spec s.wf key
    exact ⟨_, n, hn, wf⟩)

def peekEntry (s : Shard D) (key : Str) : Option (ValueEntry D) := s.node.peekEntry key

def onRead (s : Shard D) (key : Str) : Unit × Shard D :=
  outcome ((s.node.onRead key).map (fun n => ((), n))) (by
    obtain ⟨n, hn, wf, -⟩ := MemoryCacheNode.onRead_spec s.wf key
    exact ⟨(), n, by rw [hn]; rfl, wf⟩)

def dbStore (s : Shard D) : Finmap (fun _ : Str => ValueEntry D) := s.node.dbStore

@[simp] theorem insertEntry_dbStore (s : Shard D) (key : Str) (value : ValueEntry D) :
    (s.insertEntry key value).2.dbStore = s.dbStore.insert key value := by
  obtain ⟨n, hn, -, hdb, -⟩ := MemoryCacheNode.insertEntry_spec s.wf key value
  rw [dbStore, insertEntry, (outcome_eq hn).2, hdb]
  rfl

theorem removeEntry_eq (s : Shard D) (key : Str) :
    (s.removeEntry key).1.1 = s.dbStore.lookup key ∧
      (s.removeEntry key).2.dbStore = s.dbStore.erase key := by
  obtain ⟨c, n, hn, -, hdb, -⟩ := MemoryCacheNode.removeEntry_spec s.wf key
  have he : (s.node.removeEntry key).map (fun r => ((r.1, r.2.1), r.2.2)) =
      some ((s.node.dbStore.lookup key, c), n) := by rw [hn]; rfl
  refine ⟨?_, ?_⟩
  · rw [removeEntry, (outcome_eq he).1]
    rfl
  · rw [dbStore, removeEntry, (outcome_eq he).2, hdb]
    rfl

@[simp] theorem removeEntry_value (s : Shard D) (key : Str) :
    (s.removeEntry key).1.1 = s.dbStore.lookup key := (s.removeEntry_eq key).1

@[simp] theorem removeEntry_dbStore (s : Shard D) (key : Str) :
    (s.removeEntry key).2.dbStore = s.dbStore.erase key := (s.removeEntry_eq key).2

theorem getEntry_eq (s : Shard D) (key : Str) :
    (s.getEntry key).1 = s.dbStore.lookup key ∧ (s.getEntry key).2.dbStore = s.dbStore := by
  obtain ⟨n, hn, -, hdb, -⟩ := MemoryCacheNode.getEntry_spec s.wf key
  refine ⟨?_, ?_⟩
  · rw [getEntry, (outcome_eq hn).1]
    rfl
  · rw [dbStore, getEntry, (outcome_eq hn).2, hdb]
    rfl

@[simp] theorem getEntry_value (s : Shard D) (key : Str) :
    (s.getEntry key).1 = s.dbStore.lookup key := (s.getEntry_eq key).1

@[simp] theorem getEntry_dbStore (s : Shard D) (key : Str) :
    (s.getEntry key).2.dbStore = s.dbStore := (s.getEntry_eq key).2

@[simp] theorem onRead_dbStore (s : Shard D) (key : Str) :
    (s.onRead key).2.dbStore = s.dbStore := by
  obtain ⟨n, hn, -, hdb, -⟩ := MemoryCacheNode.onRead_spec s.wf key
  have he : (s.node.onRead key).map (fun n => ((), n)) = some ((), n) := by rw [hn]; rfl
  rw [dbStore, onRead, (outcome_eq he).2, hdb]
  rfl

end Shard

def ValueEntry.isExpired (now : Nat) (e : ValueEntry D) : Bool :=
  match e.expiresAt with
  | some expiresAt => decide (now > expiresAt)
  | none => false

/-- The operations a command has on the shard it has locked. `now` is the value
of the cached clock. -/
class KvOperator (σ : Type) (D : outParam Type) where
  insert : σ → Nat → Str → ValueEntry D → σ
  select : σ → Nat → Str → Option (ValueEntry D) × σ
  take : σ → Nat → Str → Option (ValueEntry D) × σ
  delete : σ → Nat → Str → σ

/-- What a lock on a shard gives access to. -/
structure Guard (D : Type) where
  shard : Shard D
  globalMemory : UInt64

inductive DirectCacheNode (D : Type)
  | writeguard (guard : Guard D)
  | readguard (guard : Guard D)

namespace DirectCacheNode

def guard : DirectCacheNode D → Guard D
  | .writeguard g => g
  | .readguard g => g

def insertGuard (g : Guard D) (key : Str) (value : ValueEntry D) : Guard D :=
  let (change, shard) := g.shard.insertEntry key value
  ⟨shard, change.apply g.globalMemory⟩

def removeGuard (g : Guard D) (key : Str) : Option (ValueEntry D) × Guard D :=
  let ((value, change), shard) := g.shard.removeEntry key
  (value, ⟨shard, change.apply g.globalMemory⟩)

def insert (node : DirectCacheNode D) (key : Str) (value : ValueEntry D) : DirectCacheNode D :=
  match node with
  | .writeguard g => .writeguard (insertGuard g key value)
  | .readguard g => .readguard g

def delete (node : DirectCacheNode D) (key : Str) : DirectCacheNode D :=
  match node with
  | .writeguard g => .writeguard (removeGuard g key).2
  | .readguard g => .readguard g

def take (node : DirectCacheNode D) (key : Str) : Option (ValueEntry D) × DirectCacheNode D :=
  match node with
  | .writeguard g =>
      let (value, g) := removeGuard g key
      (value, .writeguard g)
  | .readguard g => (none, .readguard g)

def select (node : DirectCacheNode D) (now : Nat) (key : Str) :
    Option (ValueEntry D) × DirectCacheNode D :=
  match node with
  | .writeguard g =>
      match g.shard.peekEntry key with
      | none => (none, node)
      | some value =>
          if value.isExpired now then (none, .writeguard (removeGuard g key).2)
          else
            let (value, shard) := g.shard.getEntry key
            (value, .writeguard { g with shard := shard })
  | .readguard g =>
      match g.shard.peekEntry key with
      | none => (none, node)
      | some value =>
          if value.isExpired now then (none, node)
          else (some value, .readguard { g with shard := (g.shard.onRead key).2 })

instance : KvOperator (DirectCacheNode D) D where
  insert node _ := node.insert
  select := select
  take node _ := node.take
  delete node _ := node.delete

end DirectCacheNode

inductive ChangeOp (D : Type)
  | update (value : ValueEntry D)
  | delete

structure LuaCacheNode (D : Type) where
  dbStore : DirectCacheNode D
  differMap : Finmap (fun _ : Str => ChangeOp D)
  localMemoryDiff : Int64

namespace LuaCacheNode

def new (dbStore : DirectCacheNode D) : LuaCacheNode D where
  dbStore := dbStore
  differMap := ∅
  localMemoryDiff := 0

def select (node : LuaCacheNode D) (now : Nat) (key : Str) : Option (ValueEntry D) × LuaCacheNode D :=
  match node.differMap.lookup key with
  | some (.update value) => (some value, node)
  | some .delete => (none, node)
  | none =>
      let (value, dbStore) := node.dbStore.select now key
      (value, { node with dbStore := dbStore })

def sizeOf (value : Option (ValueEntry D)) : UInt64 :=
  match value with
  | some entry => entry.dataSize
  | none => 0

def insert (node : LuaCacheNode D) (now : Nat) (key : Str) (value : ValueEntry D) : LuaCacheNode D :=
  let (before, node) := node.select now key
  { node with
    differMap := node.differMap.insert key (.update value)
    localMemoryDiff := node.localMemoryDiff +
      (value.dataSize.toInt64 - (sizeOf before).toInt64) }

/-- An entry that is taken from the shard is a clone in the source; what tells the clone
from the entry, its room and its sizes, is in `Clones`. -/
def take (node : LuaCacheNode D) (now : Nat) (key : Str) : Option (ValueEntry D) × LuaCacheNode D :=
  match node.differMap.lookup key with
  | some (.update value) =>
      (some value, { node with
        differMap := node.differMap.insert key .delete
        localMemoryDiff := node.localMemoryDiff - value.dataSize.toInt64 })
  | some .delete => (none, { node with differMap := node.differMap.insert key .delete })
  | none =>
      match node.dbStore.select now key with
      | (some value, dbStore) =>
          (some value, {
            dbStore := dbStore
            differMap := node.differMap.insert key .delete
            localMemoryDiff := node.localMemoryDiff - value.dataSize.toInt64 })
      | (none, dbStore) => (none, { node with dbStore := dbStore })

def delete (node : LuaCacheNode D) (now : Nat) (key : Str) : LuaCacheNode D :=
  let (before, node) := node.select now key
  { node with
    differMap := node.differMap.insert key .delete
    localMemoryDiff := node.localMemoryDiff - (sizeOf before).toInt64 }

instance : KvOperator (LuaCacheNode D) D where
  insert := insert
  select := select
  take := take
  delete := delete

def applyChange (base : DirectCacheNode D) (change : Str × ChangeOp D) : DirectCacheNode D :=
  match change.2 with
  | .update value => base.insert change.1 value
  | .delete => base.delete change.1

/-- Commits the changes in the order in which draining differ_map gives them. -/
def commit (node : LuaCacheNode D) (drained : List (Str × ChangeOp D)) : LuaCacheNode D :=
  { node with
    dbStore := drained.foldl applyChange node.dbStore
    differMap := ∅ }

end LuaCacheNode

end RustKv.CacheStore
