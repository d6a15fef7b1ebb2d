import RustKv.LruList
import RustKv.SampleVec

namespace RustKv.Eviction

open SampleVec

variable {K : Type} [DecidableEq K]

structure MetaPointers where
  lruNode : Nat
  sampleIdx : Nat

structure LruNode (K : Type) where
  list : LruList K
  sampleKeys : List K
  mapKey : Finmap (fun _ : K => MetaPointers)

def LruNode.new : LruNode K where
  list := LruList.new
  sampleKeys := []
  mapKey := ∅

def LruNode.onWrite (n : LruNode K) (key : K) : Option (LruNode K) :=
  match n.mapKey.lookup key with
  | none => do
      let (ptr, list) ← n.list.pushBack key
      some ⟨list, n.sampleKeys ++ [key], n.mapKey.insert key ⟨ptr, n.sampleKeys.length⟩⟩
  | some pointers => do
      let list ← n.list.pushMidBack pointers.lruNode
      some { n with list := list }

def LruNode.onRead (n : LruNode K) (key : K) : Option (LruNode K) :=
  match n.mapKey.lookup key with
  | some pointers => do
      let list ← n.list.pushMidBack pointers.lruNode
      some { n with list := list }
  | none => some n

def LruNode.onDelete (n : LruNode K) (key : K) : Option (LruNode K) :=
  match n.mapKey.lookup key with
  | some pointers => do
      let list ← n.list.popNode pointers.lruNode
      let sampleKeys ← swapRemove n.sampleKeys pointers.sampleIdx
      let mapKey := n.mapKey.erase key
      let mapKey := match sampleKeys[pointers.sampleIdx]? with
        | some moved => adjust mapKey moved (fun p => { p with sampleIdx := pointers.sampleIdx })
        | none => mapKey
      some ⟨list, sampleKeys, mapKey⟩
  | none => some n

def LruNode.popVictim (n : LruNode K) : Option (Option K) := n.list.peekFront

structure LfuMetaPointers where
  freq : Nat
  lruNode : Nat
  sampleIdx : Nat

structure LfuNode (K : Type) where
  buckets : List (LruList K)
  sampleKeys : List K
  mapKey : Finmap (fun _ : K => LfuMetaPointers)
  minFreq : Nat

def LfuNode.new : LfuNode K where
  buckets := List.replicate 256 LruList.new
  sampleKeys := []
  mapKey := ∅
  minFreq := 1

/-- The search of update_min_freq for a bucket that is not empty, `fuel` buckets
from the last one. -/
def firstFilled (buckets : List (LruList K)) : Nat → Nat → Option Nat
  | 0, freq => some freq
  | fuel + 1, freq => do
      let bucket ← buckets[freq]?
      if bucket.isEmpty then firstFilled buckets fuel (freq + 1) else some freq

def LfuNode.updateMinFreq (n : LfuNode K) : Option (LfuNode K) := do
  let minFreq ← firstFilled n.buckets (255 - n.minFreq) n.minFreq
  let top ← n.buckets[255]?
  some { n with minFreq := if minFreq = 255 ∧ top.isEmpty then 1 else minFreq }

def LfuNode.settleMinFreq (n : LfuNode K) (freq : Nat) : Option (LfuNode K) := do
  let bucket ← n.buckets[freq]?
  if n.minFreq = freq ∧ bucket.isEmpty then n.updateMinFreq else some n

def LfuNode.onRead (n : LfuNode K) (key : K) : Option (LfuNode K) :=
  match n.mapKey.lookup key with
  | some pointers =>
      let oldFreq := pointers.freq
      let newFreq := if oldFreq + 1 > 255 then 255 else oldFreq + 1
      if newFreq ≠ oldFreq then do
        let old ← n.buckets[oldFreq]?
        let old ← old.popNode pointers.lruNode
        let buckets := n.buckets.set oldFreq old
        let new ← buckets[newFreq]?
        let (ptr, new) ← new.pushBack key
        LfuNode.settleMinFreq { n with
          buckets := buckets.set newFreq new
          mapKey := n.mapKey.insert key { pointers with freq := newFreq, lruNode := ptr } } oldFreq
      else do
        let bucket ← n.buckets[newFreq]?
        let bucket ← bucket.pushMidBack pointers.lruNode
        some { n with buckets := n.buckets.set newFreq bucket }
  | none => some n

def LfuNode.onWrite (n : LfuNode K) (key : K) : Option (LfuNode K) :=
  match n.mapKey.lookup key with
  | none => do
      let bucket ← n.buckets[1]?
      let (ptr, bucket) ← bucket.pushBack key
      some {
        buckets := n.buckets.set 1 bucket
        sampleKeys := n.sampleKeys ++ [key]
        mapKey := n.mapKey.insert key ⟨1, ptr, n.sampleKeys.length⟩
        minFreq := 1 }
  | some _ => n.onRead key

def LfuNode.onDelete (n : LfuNode K) (key : K) : Option (LfuNode K) :=
  match n.mapKey.lookup key with
  | some pointers => do
      let bucket ← n.buckets[pointers.freq]?
      let bucket ← bucket.popNode pointers.lruNode
      let sampleKeys ← swapRemove n.sampleKeys pointers.sampleIdx
      let mapKey := n.mapKey.erase key
      let mapKey := match sampleKeys[pointers.sampleIdx]? with
        | some moved => adjust mapKey moved (fun p => { p with sampleIdx := pointers.sampleIdx })
        | none => mapKey
      LfuNode.settleMinFreq { n with
        buckets := n.buckets.set pointers.freq bucket
        sampleKeys := sampleKeys
        mapKey := mapKey } pointers.freq
  | none => some n

def LfuNode.checkMinFreq (n : LfuNode K) : Option (LfuNode K) := do
  let bucket ← n.buckets[n.minFreq]?
  if bucket.isEmpty then n.updateMinFreq else some n

def LfuNode.popVictim (n : LfuNode K) : Option (Option K × LfuNode K) := do
  let n ← n.checkMinFreq
  let bucket ← n.buckets[n.minFreq]?
  let victim ← bucket.peekFront
  some (victim, n)

inductive EvictionStrategy (K : Type)
  | lru (node : LruNode K)
  | lfu (node : LfuNode K)

inductive EvictionType
  | lru
  | lfu
  deriving DecidableEq, Repr

namespace EvictionStrategy

def new : EvictionType → EvictionStrategy K
  | .lru => .lru LruNode.new
  | .lfu => .lfu LfuNode.new

def onWrite (key : K) : EvictionStrategy K → Option (EvictionStrategy K)
  | .lru n => (n.onWrite key).map .lru
  | .lfu n => (n.onWrite key).map .lfu

def onRead (key : K) : EvictionStrategy K → Option (EvictionStrategy K)
  | .lru n => (n.onRead key).map .lru
  | .lfu n => (n.onRead key).map .lfu

def onDelete (key : K) : EvictionStrategy K → Option (EvictionStrategy K)
  | .lru n => (n.onDelete key).map .lru
  | .lfu n => (n.onDelete key).map .lfu

def popVictim : EvictionStrategy K → Option (Option K × EvictionStrategy K)
  | .lru n => n.popVictim.map (fun v => (v, .lru n))
  | .lfu n => n.popVictim.map (fun r => (r.1, .lfu r.2))

def sampleKeys : EvictionStrategy K → List K
  | .lru n => n.sampleKeys
  | .lfu n => n.sampleKeys

/-- The key drawn when the random index comes out as `i`. -/
def getRandomSampleKey (e : EvictionStrategy K) (i : Nat) : Option K :=
  if e.sampleKeys = [] then none else e.sampleKeys[i % e.sampleKeys.length]?

/-- The keys of map_key. -/
def tracked : EvictionStrategy K → Finset K
  | .lru n => n.mapKey.keys
  | .lfu n => n.mapKey.keys

def sampleIdx (key : K) : EvictionStrategy K → Option Nat
  | .lru n => (n.mapKey.lookup key).map MetaPointers.sampleIdx
  | .lfu n => (n.mapKey.lookup key).map LfuMetaPointers.sampleIdx

end EvictionStrategy

end RustKv.Eviction
