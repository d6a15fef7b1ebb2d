import RustKv.SocketWrites
import RustKv.StoreRefinement

namespace RustKv.Abstract

open Text Protocol Domain CommandParser CacheStore Zset RustKv.Types Executor Expiry RustKv.Normal
  Collections Connection

section Wire

variable {S J : Type} [Host] [LinearOrder S] [F64 S] [SerdeJson J] {P : S → Prop} {n : Nat}

/-- The rest of the server as one connection meets it. Before its i-th command the requests
`others i` of other clients are served, and the command finds the clock and the waiting
clients of that moment. `resumed i` is what it gets when it is a BLPOP that waits. -/
structure Surroundings (S : Type) where
  others : Nat → List (Request S)
  now : Nat → Nat
  queues : Nat → Queues
  drawn : Nat → Nat → Runtime
  resumed : Nat → Except KvError Frame

def afterRequests (rts : Nat → Runtime) : Nat → Db (Value S J) → List (Request S) → Db (Value S J)
  | _, db, [] => db
  | j, db, r :: requests =>
      afterRequests rts (j + 1) (answer (rts j) r.now r.queues db r.command).2 requests

def Keyspace.afterRequests (m : Keyspace S J) : List (Request S) → Keyspace S J
  | [] => m
  | r :: requests =>
      Keyspace.afterRequests (m.execute (openAt r.now) (unserved r.queues) r.command).2 requests

def Surroundings.reply (w : Surroundings S) (i : Nat) (done : Done S) : Except KvError Frame :=
  if done.waits then w.resumed i else done.reply

/-- The i-th command of the connection, on the sharded store. -/
def Surroundings.onStore (w : Surroundings S) :
    Nat × Db (Value S J) → Command S → Except KvError Frame × (Nat × Db (Value S J))
  | (i, db), c =>
      let db := afterRequests (w.drawn i) 1 db (w.others i)
      let (done, db) := answer (w.drawn i 0) (w.now i) (w.queues i) db c
      (w.reply i done, i + 1, db)

/-- The i-th command of the connection, on a keyspace. -/
def Surroundings.onKeyspace (w : Surroundings S) :
    Nat × Keyspace S J → Command S → Except KvError Frame × (Nat × Keyspace S J)
  | (i, m), c =>
      let m := m.afterRequests (w.others i)
      let (done, m) := m.execute (openAt (w.now i)) (unserved (w.queues i)) c
      (w.reply i done, i + 1, m)

/-- How many commands the server has executed when the connection has executed so many. -/
def Surroundings.count (w : Surroundings S) : Nat → Nat
  | 0 => 0
  | i + 1 => w.count i + (w.others i).length + 1

theorem Pictures.afterRequests (cmp : Compares P) (rts : Nat → Runtime) (requests : List (Request S))
    {db : Db (Value S J)} {m : Keyspace S J} (h : Pictures P n db m)
    (hc : ∀ r ∈ requests, Regular P r.command) (hn : n + requests.length ≤ 2 ^ 63) (j : Nat) :
    Pictures P (n + requests.length) (afterRequests rts j db requests) (m.afterRequests requests) := by
  induction requests generalizing n db m j with
  | nil => exact h
  | cons r requests ih =>
      rw [List.length_cons] at hn ⊢
      have hnext := (h.answer cmp r.now (rts j) r.queues (hc r (by simp)) (by omega)).2
      have hrest := ih hnext (fun r hr => hc r (List.mem_cons_of_mem _ hr)) (by omega) (j + 1)
      rw [Nat.add_right_comm, Nat.add_assoc] at hrest
      exact hrest

/-- The store and the keyspace after so many commands of the connection. -/
def Surroundings.Matches (w : Surroundings S) (P : S → Prop) (i : Nat) (onStore : Nat × Db (Value S J))
    (onKeyspace : Nat × Keyspace S J) : Prop :=
  onStore.1 = i ∧ onKeyspace.1 = i ∧ Pictures P (w.count i) onStore.2 onKeyspace.2

end Wire

section WireSample

attribute [local instance] singleShard flatJson wholeNumbers

def alone : Surroundings (WithNan UInt64) := ⟨fun _ => [], fun _ => 0, fun _ => ∅, fun _ _ => drawn, fun _ => .ok .null⟩

/-- SET k v and GET k, cut inside the GET. -/
def sampleEvents : List ConnectionEvent :=
  [.gotData (ascii ['*', '3', '\r', '\n', '$', '3', '\r', '\n', 'S', 'E', 'T', '\r', '\n', '$', '1', '\r', '\n', 'k', '\r',
      '\n', '$', '1', '\r', '\n', 'v', '\r', '\n', '*', '2', '\r', '\n', '$', '3', '\r', '\n', 'G']),
    .gotData (ascii ['E', 'T', '\r', '\n', '$', '1', '\r', '\n', 'k', '\r', '\n'])]

end WireSample
end RustKv.Abstract
