import RustKv.Domain

namespace RustKv.Zset

open Text Domain

variable {S : Type}

def zskiplistMaxlevel : Nat := 32

structure SkipListLevel where
  forward : Option Nat
  span : UInt64
  deriving DecidableEq, Repr

structure Node (S : Type) where
  score : S
  member : Bytes
  backward : Option Nat
  level : List SkipListLevel
  deriving DecidableEq, Repr

/-- The skip list over its arena of nodes. NULL_NODE is none, `freeList` is a
stack with its top first, and usize is UInt64. -/
structure SkipList (S : Type) where
  nodes : List (Node S)
  freeList : List Nat
  head : Nat
  tail : Option Nat
  maxLevel : Nat
  length : UInt64
  deriving DecidableEq, Repr

def emptyNode (score : S) (member : Bytes) (levelCount : Nat) : Node S where
  score := score
  member := member
  backward := none
  level := List.replicate levelCount ⟨none, 0⟩

def SkipList.new [Score S] : SkipList S where
  nodes := [emptyNode Score.zero [] zskiplistMaxlevel]
  freeList := []
  head := 0
  tail := none
  maxLevel := 1
  length := 0

def climb (level : Nat) : List Bool → Nat
  | [] => level
  | coin :: coins => if coin && level < zskiplistMaxlevel then climb (level + 1) coins else level

/-- The level drawn when the comparisons with ZSKIPLIST_P come out as `coins`. -/
def randomLevel (coins : List Bool) : Nat := climb 1 coins

def SkipList.link (s : SkipList S) (x i : Nat) : Option SkipListLevel :=
  s.nodes[x]?.bind (fun n => n.level[i]?)

/-- Writes to one level of one node. As in every operation below, none is an
index out of bounds, where the program panics. -/
def SkipList.modifyLink (s : SkipList S) (x i : Nat) (f : SkipListLevel → SkipListLevel) :
    Option (SkipList S) := do
  let n ← s.nodes[x]?
  let l ← n.level[i]?
  some { s with nodes := s.nodes.set x { n with level := n.level.set i (f l) } }

def SkipList.setBackward (s : SkipList S) (x : Nat) (b : Option Nat) : Option (SkipList S) := do
  let n ← s.nodes[x]?
  some { s with nodes := s.nodes.set x { n with backward := b } }

def SkipList.allocateNode (s : SkipList S) (score : S) (member : Bytes) (levelCount : Nat) :
    Nat × SkipList S :=
  match s.freeList with
  | idx :: rest =>
      (idx, { s with nodes := s.nodes.set idx (emptyNode score member levelCount), freeList := rest })
  | [] => (s.nodes.length, { s with nodes := s.nodes ++ [emptyNode score member levelCount] })

/-- The inner loop of every search: on level `i`, go forward while `pass` accepts
the next node and the rank it would give. -/
def SkipList.walk (s : SkipList S) (pass : Node S → UInt64 → Bool) (i : Nat) :
    Nat → Nat → UInt64 → Option (Nat × UInt64)
  | 0, _, _ => none
  | fuel + 1, current, rank => do
      let l ← s.link current i
      match l.forward with
      | none => some (current, rank)
      | some next =>
          let n ← s.nodes[next]?
          if pass n (rank + l.span) then s.walk pass i fuel next (rank + l.span)
          else some (current, rank)

structure Path where
  current : Nat
  rank : UInt64
  stops : List (Nat × UInt64)

/-- The levels below `i`, from the top down. `stops` holds, for each level done,
the node where it was left and its rank: the arrays update and rank. -/
def SkipList.search (s : SkipList S) (pass : Node S → UInt64 → Bool) : Nat → Path → Option Path
  | 0, p => some p
  | i + 1, p => do
      let (c, r) ← s.walk pass i (s.nodes.length + 1) p.current p.rank
      s.search pass i ⟨c, r, (c, r) :: p.stops⟩

def forLevels {σ : Type} (lo hi : Nat) (f : σ → Nat → Option σ) (s : σ) : Option σ :=
  (List.range' lo (hi - lo)).foldlM f s

def before [Score S] (score : S) (member : Bytes) (n : Node S) : Bool :=
  Score.less n.score score || (Score.equal n.score score && decide (n.member < member))

def upTo [Score S] (score : S) (member : Bytes) (n : Node S) : Bool :=
  Score.less n.score score || (Score.equal n.score score && decide (n.member ≤ member))

/-- The new levels a tall node opens: they start at the head and span the list. -/
def SkipList.raise (s : SkipList S) (level : Nat) : Option (SkipList S) := do
  if s.maxLevel < level then
    let s' ← forLevels s.maxLevel level
      (fun t i => t.modifyLink t.head i (fun l => { l with span := t.length })) s
    some { s' with maxLevel := level }
  else some s

def SkipList.linkNode (s : SkipList S) (stops : List (Nat × UInt64)) (rank0 : UInt64)
    (new i : Nat) : Option (SkipList S) := do
  let (up, rank) ← stops[i]?
  let l ← s.link up i
  let s ← s.modifyLink new i (fun _ => ⟨l.forward, l.span - (rank0 - rank)⟩)
  s.modifyLink up i (fun _ => ⟨some new, rank0 - rank + 1⟩)

def SkipList.widen (s : SkipList S) (stops : List (Nat × UInt64)) (i : Nat) :
    Option (SkipList S) := do
  let (up, _) ← stops[i]?
  s.modifyLink up i (fun l => { l with span := l.span + 1 })

def SkipList.linkBackward (s : SkipList S) (prev new : Nat) : Option (SkipList S) := do
  let s ← s.setBackward new (if prev = s.head then none else some prev)
  let l ← s.link new 0
  match l.forward with
  | some next => s.setBackward next (some new)
  | none => some { s with tail := some new }

def SkipList.insert [Score S] (s : SkipList S) (score : S) (member : Bytes) (coins : List Bool) :
    Option (Nat × SkipList S) := do
  let p ← s.search (fun n _ => before score member n) s.maxLevel ⟨s.head, 0, []⟩
  let level := randomLevel coins
  let stops := p.stops ++ List.replicate (level - s.maxLevel) (s.head, 0)
  let s ← s.raise level
  let (new, s) := s.allocateNode score member level
  let (up0, rank0) ← stops[0]?
  let s ← forLevels 0 level (fun s i => s.linkNode stops rank0 new i) s
  let s ← forLevels level s.maxLevel (fun s i => s.widen stops i) s
  let s ← s.linkBackward up0 new
  some (new, { s with length := s.length + 1 })

def SkipList.unlink (s : SkipList S) (stops : List (Nat × UInt64)) (target i : Nat) :
    Option (SkipList S) := do
  let (up, _) ← stops[i]?
  let l ← s.link up i
  if l.forward = some target then
    let t ← s.link target i
    s.modifyLink up i (fun l => ⟨t.forward, l.span + (t.span - 1)⟩)
  else s.modifyLink up i (fun l => { l with span := l.span - 1 })

def SkipList.unlinkBackward (s : SkipList S) (target : Nat) : Option (SkipList S) := do
  let n ← s.nodes[target]?
  let l ← s.link target 0
  match l.forward with
  | some next => s.setBackward next n.backward
  | none => some { s with tail := n.backward }

/-- The height left after the head's empty top levels, down from `n`, are given up. -/
def SkipList.trimmed (s : SkipList S) : Nat → Option Nat
  | 0 => some 0
  | 1 => some 1
  | n + 2 => do
      let l ← s.link s.head (n + 1)
      if l.forward = none then s.trimmed (n + 1) else some (n + 2)

def SkipList.deleteNode [Score S] (s : SkipList S) (target : Nat) (stops : List (Nat × UInt64)) :
    Option (SkipList S) := do
  let s ← forLevels 0 s.maxLevel (fun s i => s.unlink stops target i) s
  let s ← s.unlinkBackward target
  let maxLevel ← s.trimmed s.maxLevel
  let n ← s.nodes[target]?
  some { s with
    maxLevel := maxLevel
    length := s.length - 1
    nodes := s.nodes.set target { n with score := Score.zero, member := [] }
    freeList := target :: s.freeList }

def SkipList.delete [Score S] (s : SkipList S) (score : S) (member : Bytes) :
    Option (Bool × SkipList S) := do
  let p ← s.search (fun n _ => before score member n) s.maxLevel ⟨s.head, 0, []⟩
  let l ← s.link p.current 0
  match l.forward with
  | none => some (false, s)
  | some target =>
      let n ← s.nodes[target]?
      if Score.equal n.score score && n.member == member then
        let s ← s.deleteNode target p.stops
        some (true, s)
      else some (false, s)

def SkipList.getRank [Score S] (s : SkipList S) (score : S) (member : Bytes) :
    Option (Option UInt64) := do
  let p ← s.search (fun n _ => upTo score member n) s.maxLevel ⟨s.head, 0, []⟩
  let n ← s.nodes[p.current]?
  if p.current ≠ s.head ∧ n.member = member then some (some (p.rank - 1)) else some none

def SkipList.elementAt (s : SkipList S) (target : UInt64) :
    Nat → Nat → UInt64 → Option (Option (S × Bytes))
  | 0, _, _ => some none
  | i + 1, current, traversed => do
      let (c, t) ← s.walk (fun _ t => decide (t ≤ target)) i (s.nodes.length + 1) current traversed
      if t = target then
        let n ← s.nodes[c]?
        some (some (n.score, n.member))
      else s.elementAt target i c t

def SkipList.getElementByRank (s : SkipList S) (rank : UInt64) : Option (Option (S × Bytes)) :=
  if s.length ≤ rank then some none else s.elementAt (rank + 1) s.maxLevel s.head 0

end RustKv.Zset
