import RustKv.Domain
import RustKv.Policy

namespace RustKv.CacheStore

open Text Eviction

variable {D : Type}

structure ValueEntry (D : Type) where
  data : D
  expiresAt : Option Nat
  dataSize : UInt64

structure MemoryCacheNode (D : Type) where
  dbStore : Finmap (fun _ : Str => ValueEntry D)
  approxMemory : UInt64
  evicition : EvictionStrategy Str

def MemoryCacheNode.new (configType : EvictionType) : MemoryCacheNode D where
  dbStore := ∅
  approxMemory := 0
  evicition := EvictionStrategy.new configType

/-- What an operation does to a counter of memory: to the one of its shard and,
a moment later, to GLOBAL_MEMORY. -/
inductive MemoryChange
  | keep
  | fetchAdd (size : UInt64)
  | fetchSub (size : UInt64)

def MemoryChange.apply (memory : UInt64) : MemoryChange → UInt64
  | .keep => memory
  | .fetchAdd size => memory + size
  | .fetchSub size => memory - size

def memoryDiffer (size sizeBefore : UInt64) : MemoryChange :=
  let differ := size.toInt64 - sizeBefore.toInt64
  if differ > 0 then .fetchAdd differ.toUInt64
  else if differ < 0 then .fetchSub (-differ).toUInt64
  else .keep

namespace MemoryCacheNode

def sizeBefore (node : MemoryCacheNode D) (key : Str) : UInt64 :=
  match node.dbStore.lookup key with
  | some entry => entry.dataSize
  | none => 0

def insertEntry (node : MemoryCacheNode D) (key : Str) (value : ValueEntry D) :
    Option (MemoryChange × MemoryCacheNode D) := do
  let evicition ← node.evicition.onWrite key
  let change := memoryDiffer value.dataSize (node.sizeBefore key)
  some (change, ⟨node.dbStore.insert key value, change.apply node.approxMemory, evicition⟩)

def removeEntry (node : MemoryCacheNode D) (key : Str) :
    Option (Option (ValueEntry D) × MemoryChange × MemoryCacheNode D) :=
  match node.dbStore.lookup key with
  | some value => do
      let evicition ← node.evicition.onDelete key
      let change := MemoryChange.fetchSub value.dataSize
      some (some value, change,
        ⟨node.dbStore.erase key, change.apply node.approxMemory, evicition⟩)
  | none => some (none, .keep, node)

def peekEntry (node : MemoryCacheNode D) (key : Str) : Option (ValueEntry D) :=
  node.dbStore.lookup key

def onRead (node : MemoryCacheNode D) (key : Str) : Option (MemoryCacheNode D) := do
  let evicition ← node.evicition.onRead key
  some { node with evicition := evicition }

def getEntry (node : MemoryCacheNode D) (key : Str) :
    Option (Option (ValueEntry D) × MemoryCacheNode D) :=
  match node.dbStore.lookup key with
  | some value => do
      let node ← node.onRead key
      some (some value, node)
  | none => some (none, node)

end MemoryCacheNode

end RustKv.CacheStore
