import Mathlib.Data.Fintype.Prod
import Mathlib.Data.Fintype.Sum
import RustKv.LockOrder
import RustKv.Transactions

namespace RustKv.Deadlocks

open Text Protocol Domain Zset RustKv.Types Executor Expiry Lua RwLocks LockOrder

section Tasks

variable {I S J : Type} [Host]

/-- The locks of the server: one for each shard of its 16 databases, one for the blocking
queues of each, and one for the sessions of each script. -/
inductive LockId (I : Type) [Host]
  | shard (db : Fin 16) (shard : Fin Host.numShards)
  | blockingQueues (db : Fin 16)
  | sessions (script : I)
  deriving DecidableEq

/-- The order in which nested locks are taken. -/
def rank : LockId I → Nat
  | .shard _ shard => shard.val
  | .blockingQueues _ | .sessions _ => Host.numShards

/-- What runs: the command of a client, with the database the client has selected, the
sweep for expired keys, the watch on the memory, and the tasks this starts to clean a
shard. -/
inductive Task (S : Type) [Host]
  | command (db : Fin 16) (c : Command S)
  | evictionTtl
  | evictionMemory
  | cleaner (db : Fin 16) (shard : Fin Host.numShards)

def shardOf (db : Fin 16) (key : Str) : LockId I := .shard db (Host.shardIndex key)

def allShards : List (Fin 16 × Fin Host.numShards) :=
  (List.finRange 16).flatMap (fun db => (List.finRange Host.numShards).map (fun shard => (db, shard)))

def lookAtAll : List (Op (LockId I)) := allShards.flatMap (fun p => once (.shard p.1 p.2) .read)

/-- Locking the shards of a script, in order; each guard goes into the sessions. -/
def lockShards (i : I) (db : Fin 16) (shards : List (Fin Host.numShards)) : List (Op (LockId I)) :=
  shards.flatMap (fun shard => .acquire (.shard db shard) .write :: once (.sessions i) .write)

def calls (i : I) (n : Nat) : List (Op (LockId I)) :=
  (List.range n).flatMap (fun _ => once (.sessions i) .write)

/-- The end of a script: its guards are dropped while it has the sessions. -/
def endScript (i : I) (db : Fin 16) (order : List (Fin Host.numShards)) : List (Op (LockId I)) :=
  .acquire (.sessions i) .write :: .work :: ((order.map (.shard db)).map .release ++ [.release (.sessions i)])

def locksAlone : Command S → Bool
  | .mset _ | .mget _ | .lpush _ | .blpop _ | .eval _ => true
  | _ => false

variable [F64 S] [SerdeJson J]

/-- What a task does with the locks: a command on one key locks its shard, one without a
key nothing, MSET and MGET one shard after the other, LPUSH the queues and then the shard,
BLPOP the queues under the lock of the shard when it has to wait, EVAL all its shards in
order. The sweep looks at all shards and locks some to write, again and again; the watch
on the memory looks at all shards. -/
inductive Runs (J : Type) [SerdeJson J] (i : I) : Task S → List (Op (LockId I)) → Prop
  | keyed {db : Fin 16} {c : Command S} {rt : Runtime} {now : Nat} {values : LPushCommand → List Bytes}
      {key : Str} {a : Access S (Value S J)} (hc : locksAlone c = false)
      (hk : keyed rt now values c = some (key, a)) :
      Runs J i (.command db c) (once (shardOf db key) (Isolation.lockMode a))
  | keyless {db : Fin 16} {c : Command S} {rt : Runtime} {now : Nat} {values : LPushCommand → List Bytes}
      (hc : locksAlone c = false) (hk : keyed (J := J) rt now values c = none) :
      Runs J i (.command db c) [.work]
  | mset {db : Fin 16} {c : MSetCommand} : Runs J i (.command db (.mset c))
      ((sortedPairs c).flatMap (fun p => once (shardOf db p.1) .write) ++ [.work])
  | mget {db : Fin 16} {c : MGetCommand} : Runs J i (.command db (.mget c))
      (c.keys.flatMap (fun key => once (shardOf db key) .read) ++ [.work])
  | lpush {db : Fin 16} {c : LPushCommand} : Runs J i (.command db (.lpush c))
      (once (.blockingQueues db) .write ++ once (shardOf db c.key) .write)
  | blpopFound {db : Fin 16} {c : BLPopCommand} : Runs J i (.command db (.blpop c))
      (once (shardOf db c.key) .write ++ [.work])
  | blpopWaits {db : Fin 16} {c : BLPopCommand} : Runs J i (.command db (.blpop c))
      (.acquire (shardOf db c.key) .write :: (once (.blockingQueues db) .write ++
        [.release (shardOf db c.key), .work]))
  | eval {db : Fin 16} {c : EvalCommand} {n : Nat} {order : List (Fin Host.numShards)}
      (horder : order.Perm (shardIndices c.keys)) : Runs J i (.command db (.eval c))
      (lockShards i db (shardIndices c.keys) ++ (calls i n ++ endScript i db order))
  | evictionTtl {rounds : List (List (Fin 16 × Fin Host.numShards))} : Runs J i .evictionTtl
      (rounds.flatMap (fun picks => lookAtAll ++ picks.flatMap (fun p => once (.shard p.1 p.2) .write)))
  | evictionMemory {n : Nat} : Runs J i .evictionMemory ((List.range n).flatMap (fun _ => lookAtAll))
  | cleaner {db : Fin 16} {shard : Fin Host.numShards} {n : Nat} : Runs J i (.cleaner db shard)
      ((List.range n).flatMap (fun _ => once (.shard db shard) .write))

end Tasks

section Order

variable {I S J : Type} [Host] {i : I} {db : Fin 16}

theorem rank_le (r : LockId I) : rank r ≤ Host.numShards := by
  cases r with
  | shard db shard => exact Nat.le_of_lt shard.isLt
  | blockingQueues | sessions => exact Nat.le_refl _

/-- Sorting and removing doubles puts the shards of a script in order. -/
theorem shardIndices_pairwise (keys : List Str) : (shardIndices keys).Pairwise (· < ·) := by
  have hsorted : ((keys.map Host.shardIndex).mergeSort (fun i j => decide (i ≤ j))).Pairwise (· ≤ ·) := by
    have htrans (a b c : Fin Host.numShards) (hab : decide (a ≤ b) = true) (hbc : decide (b ≤ c) = true) :
        decide (a ≤ c) = true :=
      decide_eq_true (le_trans (of_decide_eq_true hab) (of_decide_eq_true hbc))
    have htotal (a b : Fin Host.numShards) : (decide (a ≤ b) || decide (b ≤ a)) = true := by
      rw [Bool.or_eq_true, decide_eq_true_eq, decide_eq_true_eq]
      exact le_total a b
    exact (List.pairwise_mergeSort htrans htotal (keys.map Host.shardIndex)).imp of_decide_eq_true
  have hle := hsorted.sublist (List.dedup_sublist _)
  have hne : (shardIndices keys).Pairwise (· ≠ ·) := List.nodup_dedup _
  exact (hle.and hne).imp (fun h => lt_of_le_of_ne h.1 h.2)

theorem orderly_lockShards {shards : List (Fin Host.numShards)} (hsorted : shards.Pairwise (· < ·))
    {held : LockId I → Prop} {prog : List (Op (LockId I))}
    (hheld : ∀ r, held r → ∃ shard, r = .shard db shard ∧ ∀ next ∈ shards, shard < next)
    (hprog : Orderly rank (fun r => held r ∨ ∃ shard ∈ shards, r = .shard db shard) prog) :
    Orderly rank held (lockShards i db shards ++ prog) := by
  induction shards generalizing held with
  | nil => simpa [lockShards] using hprog
  | cons shard shards ih =>
      obtain ⟨hfirst, hrest⟩ := List.pairwise_cons.mp hsorted
      rw [lockShards, List.flatMap_cons, List.append_assoc]
      refine ⟨fun r hr => ?_, ?_⟩
      · obtain ⟨before, rfl, hbefore⟩ := hheld r hr
        exact hbefore shard List.mem_cons_self
      · apply orderly_once
        · rintro r (hr | rfl)
          · obtain ⟨before, rfl, -⟩ := hheld r hr
            exact before.isLt
          · exact shard.isLt
        · apply ih hrest
          · rintro r (hr | rfl)
            · obtain ⟨before, rfl, hbefore⟩ := hheld r hr
              exact ⟨before, rfl, fun next hnext => hbefore next (List.mem_cons_of_mem _ hnext)⟩
            · exact ⟨shard, rfl, hfirst⟩
          · have hsame : (fun r => (held r ∨ r = .shard db shard) ∨ ∃ next ∈ shards, r = .shard db next) =
                fun r => held r ∨ ∃ next ∈ shard :: shards, r = LockId.shard db next := by
              funext r
              simp [or_assoc]
            rw [hsame]
            exact hprog

theorem orderly_endScript {shards order : List (Fin Host.numShards)} (horder : order.Perm shards) :
    Orderly rank (fun r => ∃ shard ∈ shards, r = LockId.shard db shard) (endScript i db order) := by
  refine ⟨?_, ?_⟩
  · rintro r ⟨shard, -, rfl⟩
    exact shard.isLt
  · apply orderly_releases
    rintro r ⟨⟨⟨shard, hshard, rfl⟩ | rfl, hnot⟩, hne⟩
    · exact hnot (List.mem_map.mpr ⟨shard, horder.mem_iff.mpr hshard, rfl⟩)
    · exact hne rfl

theorem orderly_eval {keys : List Str} {n : Nat} {order : List (Fin Host.numShards)}
    (horder : order.Perm (shardIndices keys)) :
    Orderly rank (fun _ => False)
      (lockShards i db (shardIndices keys) ++ (calls i n ++ endScript i db order)) := by
  apply orderly_lockShards (shardIndices_pairwise keys)
  · intro r hr
    cases hr
  · have hheld : (fun r => False ∨ ∃ shard ∈ shardIndices keys, r = LockId.shard db shard) =
        fun r : LockId I => ∃ shard ∈ shardIndices keys, r = LockId.shard db shard := by
      funext r
      exact propext (or_iff_right id)
    rw [hheld]
    apply orderly_onces
    · rintro _ - r ⟨shard, -, rfl⟩
      exact shard.isLt
    · exact orderly_endScript horder

/-- Without a lock, any lock may be taken, one at a time. -/
theorem orderly_alone {A : Type} (xs : List A) (r : A → LockId I) (mode : Mode)
    {prog : List (Op (LockId I))} (hprog : Orderly rank (fun _ => False) prog) :
    Orderly rank (fun _ => False) (xs.flatMap (fun x => once (r x) mode) ++ prog) := by
  apply orderly_onces xs r mode _ hprog
  intro x _ r' hr'
  cases hr'

theorem orderly_rounds {A : Type} (xs : List A) {prog : A → List (Op (LockId I))}
    (hprog : ∀ x rest, Orderly rank (fun _ => False) rest → Orderly rank (fun _ => False) (prog x ++ rest)) :
    Orderly rank (fun _ => False) (xs.flatMap prog) := by
  induction xs with
  | nil => exact fun _ => id
  | cons x xs ih => exact hprog x _ ih

theorem orderly_done : Orderly rank (fun _ : LockId I => False) [.work] := fun _ => id

variable [F64 S] [SerdeJson J]

theorem Runs.orderly {task : Task S} {prog : List (Op (LockId I))} (h : Runs J i task prog) :
    Orderly rank (fun _ => False) prog := by
  cases h with
  | keyed hc hk =>
      have hnone : Orderly rank (fun _ : LockId I => False) [] := fun _ => id
      exact orderly_once _ (fun _ hr => hr.elim) hnone
  | keyless hc hk => exact orderly_done
  | mset => exact orderly_alone _ _ _ orderly_done
  | mget => exact orderly_alone _ _ _ orderly_done
  | lpush =>
      have hnone : Orderly rank (fun _ : LockId I => False) [] := fun _ => id
      exact orderly_once _ (fun _ hr => hr.elim) (orderly_once _ (fun _ hr => hr.elim) hnone)
  | blpopFound => exact orderly_once _ (fun _ hr => hr.elim) orderly_done
  | @blpopWaits db c =>
      refine ⟨fun _ hr => hr.elim, ?_⟩
      apply orderly_once
      · rintro r (hr | rfl)
        · exact hr.elim
        · exact (Host.shardIndex c.key).isLt
      · rintro r ⟨hr | rfl, hne⟩
        · exact hr
        · exact hne rfl
  | eval horder => exact orderly_eval horder
  | evictionTtl =>
      apply orderly_rounds
      intro picks rest hrest
      rw [List.append_assoc]
      exact orderly_alone _ _ _ (orderly_alone _ _ _ hrest)
  | evictionMemory =>
      apply orderly_rounds
      intro _ rest hrest
      exact orderly_alone _ _ _ hrest
  | cleaner =>
      apply orderly_rounds
      intro _ rest hrest
      exact orderly_once _ (fun _ hr => hr.elim) hrest

/-- Whatever scripts, commands and background tasks run together, and however their steps
fall: nobody waits for himself through others, and where somebody waits, somebody who has
a lock can go on. -/
theorem no_deadlock [DecidableEq I] (tasks : I → Task S) {progs : I → List (Op (LockId I))}
    (hruns : ∀ i, Runs J i (tasks i) (progs i)) {s : System I (LockId I)}
    (hs : System.Reachable (System.start progs) s) :
    (∀ i, ¬ Relation.TransGen s.WaitsFor i i) ∧
      ((∃ i, s.Waits i) → ∃ j, s.Holds j ∧ s.CanStep j) := by
  have hordered : Ordered rank s := (ordered_start (fun i => (hruns i).orderly)).reachable hs
  refine ⟨hordered.acyclic, ?_⟩
  rintro ⟨i, hi⟩
  exact hordered.progress rank_le hi

end Order

section Sample

attribute [local instance] twoShards wholeScore flatJson

def sampleShard : Fin Host.numShards := ⟨0, Nat.two_pos⟩

def otherShard : Fin Host.numShards := ⟨1, Nat.one_lt_two⟩

/-- BLPOP m, LPUSH m x and a script with KEYS = {"k", "m"}. -/
inductive Sampled
  | blpop
  | lpush
  | script
  deriving DecidableEq

def sampleTasks : Sampled → Task UInt64
  | .blpop => .command 0 (.blpop ⟨farKey, 0⟩)
  | .lpush => .command 0 (.lpush ⟨farKey, [ascii ['x']]⟩)
  | .script => .command 0 (.eval ⟨sampleKey, [sampleKey, farKey], []⟩)

def sampleProgs : Sampled → List (Op (LockId Sampled))
  | .blpop => .acquire (shardOf 0 farKey) .write :: (once (.blockingQueues 0) .write ++
      [.release (shardOf 0 farKey), .work])
  | .lpush => once (.blockingQueues 0) .write ++ once (shardOf 0 farKey) .write
  | .script => lockShards .script 0 [sampleShard, otherShard] ++
      (calls .script 1 ++ endScript .script 0 [otherShard, sampleShard])

theorem sample_runs (i : Sampled) : Runs Str i (sampleTasks i) (sampleProgs i) := by
  cases i with
  | blpop => exact .blpopWaits
  | lpush => exact .lpush
  | script =>
      have hsorted : ([sampleKey, farKey].map Host.shardIndex).mergeSort (fun i j => decide (i ≤ j)) =
          [sampleKey, farKey].map Host.shardIndex := by
        apply List.mergeSort_of_pairwise
        decide
      have hshards : shardIndices [sampleKey, farKey] = [sampleShard, otherShard] := by
        rw [shardIndices, hsorted]
        rfl
      have horder : [otherShard, sampleShard].Perm (shardIndices [sampleKey, farKey]) := by
        rw [hshards]
        exact List.Perm.swap _ _ _
      have hruns : Runs Str Sampled.script (sampleTasks .script) _ :=
        .eval (c := ⟨sampleKey, [sampleKey, farKey], []⟩) (n := 1) horder
      rw [hshards] at hruns
      exact hruns

instance : Fintype Sampled where
  elems := [Sampled.blpop, .lpush, .script].toFinset
  complete i := by cases i <;> decide

instance : Fintype (LockId Sampled) :=
  Fintype.ofSurjective
    (Sum.elim (fun p : Fin 16 × Fin 2 => .shard p.1 p.2) (Sum.elim .blockingQueues .sessions)) (by
      intro r
      cases r with
      | shard db shard => exact ⟨.inl (db, shard), rfl⟩
      | blockingQueues db => exact ⟨.inr (.inl db), rfl⟩
      | sessions i => exact ⟨.inr (.inr i), rfl⟩)

/-- LPUSH takes the queues, BLPOP the shard of the list and asks for the queues, the script
takes the first shard and asks for the one that BLPOP has. -/
def sampleTurns : List Sampled := [.lpush, .blpop, .script, .blpop, .script, .script, .script, .script]

def sampleBlocked : System Sampled (LockId Sampled) := sampleTurns.foldl System.act (System.start sampleProgs)

theorem no_deadlock_sample : sampleBlocked.WaitsFor .script .blpop ∧ sampleBlocked.WaitsFor .blpop .lpush ∧
    ∃ j, sampleBlocked.Holds j ∧ sampleBlocked.CanStep j := by
  have hreachable : System.Reachable (System.start sampleProgs) sampleBlocked :=
    System.reachable_acts sampleTurns (by decide +kernel)
  have hscript : sampleBlocked.WaitsFor .script .blpop := ⟨.shard 0 otherShard, by decide +kernel⟩
  have hblpop : sampleBlocked.WaitsFor .blpop .lpush := ⟨.blockingQueues 0, by decide +kernel⟩
  have hwaits : sampleBlocked.Waits .script := by decide +kernel
  exact ⟨hscript, hblpop, (no_deadlock sampleTasks sample_runs hreachable).2 ⟨.script, hwaits⟩⟩

end Sample

end RustKv.Deadlocks
