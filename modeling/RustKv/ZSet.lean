import Mathlib.Data.Finmap
import RustKv.SkipDelete

namespace RustKv.Zset

open Text Domain

variable {S : Type}

/-- A skip list whose links are in order, so that no operation on it panics. -/
structure SkipIndex (S : Type) where
  list : SkipList S
  chained : ∃ chain, list.Chain chain

def SkipIndex.new [Score S] : SkipIndex S := ⟨SkipList.new, [], new_chain⟩

theorem SkipIndex.insert_some [Score S] (x : SkipIndex S) (score : S) (member : Bytes)
    (coins : List Bool) :
    ∃ z t, x.list.insert score member coins = some (z, t) ∧ ∃ chain, t.Chain chain := by
  obtain ⟨chain, C⟩ := x.chained
  obtain ⟨z, t, p, Q, R, A, h, -, -, -, -, Ct, -⟩ := insert_spec C score member coins
  exact ⟨z, t, h, _, Ct⟩

theorem SkipIndex.delete_some [Score S] (x : SkipIndex S) (score : S) (member : Bytes) :
    ∃ b t, x.list.delete score member = some (b, t) ∧ ∃ chain, t.Chain chain := by
  obtain ⟨chain, C⟩ := x.chained
  obtain ⟨p, Q, R, A, -, -, -, ⟨z, B, t, sc, -, -, -, -, h, Ct, -⟩ | ⟨-, h⟩⟩ :=
    delete_spec C score member
  · exact ⟨true, t, h, _, Ct⟩
  · exact ⟨false, x.list, h, chain, C⟩

def SkipIndex.insert [Score S] (x : SkipIndex S) (score : S) (member : Bytes)
    (coins : List Bool) : SkipIndex S :=
  match h : x.list.insert score member coins with
  | some (_, t) => ⟨t, by
      obtain ⟨z, t', h', C⟩ := x.insert_some score member coins
      rw [h] at h'
      cases h'
      exact C⟩
  | none => x

def SkipIndex.delete [Score S] (x : SkipIndex S) (score : S) (member : Bytes) : SkipIndex S :=
  match h : x.list.delete score member with
  | some (_, t) => ⟨t, by
      obtain ⟨b, t', h', C⟩ := x.delete_some score member
      rw [h] at h'
      cases h'
      exact C⟩
  | none => x

theorem SkipIndex.insert_list [Score S] {x : SkipIndex S} {score : S} {member : Bytes}
    {coins : List Bool} {z : Nat} {t : SkipList S}
    (h : x.list.insert score member coins = some (z, t)) :
    (x.insert score member coins).list = t := by
  unfold SkipIndex.insert
  split
  · next h' => rw [h] at h'; cases h'; rfl
  · next h' => rw [h] at h'; cases h'

theorem SkipIndex.delete_list [Score S] {x : SkipIndex S} {score : S} {member : Bytes} {b : Bool}
    {t : SkipList S} (h : x.list.delete score member = some (b, t)) :
    (x.delete score member).list = t := by
  unfold SkipIndex.delete
  split
  · next h' => rw [h] at h'; cases h'; rfl
  · next h' => rw [h] at h'; cases h'

/-- What a call finds out at run time: the comparisons of random_level, and how
much room the containers it grows have afterwards. -/
structure Runtime where
  coins : List Bool
  capacity : UInt64
  nodesCapacity : UInt64

structure ZSet (S : Type) where
  dict : Finmap (fun _ : Bytes => S)
  zsl : SkipIndex S
  dictCapacity : UInt64
  nodesCapacity : UInt64

def ZSet.new [Score S] : ZSet S where
  dict := ∅
  zsl := SkipIndex.new
  dictCapacity := 0
  nodesCapacity := 0

def ZSet.insert [Score S] (rt : Runtime) (z : ZSet S) (score : S) (member : Bytes) :
    Bool × ZSet S :=
  match z.dict.lookup member with
  | some oldScore =>
      if Score.equal oldScore score then (false, z)
      else
        (false, { z with
          dict := z.dict.insert member score
          zsl := (z.zsl.delete oldScore member).insert score member rt.coins
          dictCapacity := rt.capacity
          nodesCapacity := rt.nodesCapacity })
  | none =>
      (true, { z with
        dict := z.dict.insert member score
        zsl := z.zsl.insert score member rt.coins
        dictCapacity := rt.capacity
        nodesCapacity := rt.nodesCapacity })

def ZSet.delete [Score S] (z : ZSet S) (member : Bytes) : Bool × ZSet S :=
  match z.dict.lookup member with
  | some score =>
      (true, { z with dict := z.dict.erase member, zsl := z.zsl.delete score member })
  | none => (false, z)

def ZSet.score (z : ZSet S) (member : Bytes) : Option S := z.dict.lookup member

def ZSet.rank [Score S] (z : ZSet S) (member : Bytes) : Option UInt64 :=
  match z.dict.lookup member with
  | some score => (z.zsl.list.getRank score member).getD none
  | none => none

def ZSet.len (z : ZSet S) : UInt64 := UInt64.ofNat z.dict.keys.card

def asIsize (n : UInt64) : Int := Int.bmod n.toNat (2 ^ 64)

/-- Adding in isize, which wraps around. -/
def isizeAdd (a b : Int) : Int := Int.bmod (a + b) (2 ^ 64)

def ZSet.collect (z : ZSet S) (i : Nat) : Nat → List (Bytes × S)
  | 0 => []
  | n + 1 =>
      match z.zsl.list.getElementByRank (UInt64.ofNat i) with
      | some (some (score, member)) => (member, score) :: z.collect (i + 1) n
      | _ => []

def ZSet.range (z : ZSet S) (start stop : Int) : List (Bytes × S) :=
  let len := asIsize z.len
  let start := if start < 0 then isizeAdd start len else start
  let stop := if stop < 0 then isizeAdd stop len else stop
  let start := (max start 0).toNat
  let stop := (max stop 0).toNat
  if start > stop ∨ start ≥ z.len.toNat then []
  else
    let stop := min stop (z.len.toNat - 1)
    z.collect start (stop + 1 - start)

def ZSet.heapMemorySize [Host] (z : ZSet S) : UInt64 :=
  z.dictCapacity * UInt64.ofNat (Host.sizeOfBytes + 8 + 8) +
    z.nodesCapacity * UInt64.ofNat Host.sizeOfSkipNode

end RustKv.Zset
