import RustKv.Clients
import RustKv.Cells

namespace RustKv.Clients

open Text Protocol Domain CacheStore Zset RustKv.Types Executor AofEncoder

section Programs

variable {S J : Type} [Host]

/-- The shard whose lock a program gives back before it takes another. -/
def held : List (Instr S J) → Option (Fin Host.numShards)
  | [] => none
  | .lockShard _ :: _ => none
  | .unlockShard key :: _ => some (Host.shardIndex key)
  | _ :: code => held code

/-- A program takes one lock at a time and reaches an entry with the lock of its shard. -/
def Guarded : List (Instr S J) → Prop
  | [] => True
  | .lockShard key :: code => held code = some (Host.shardIndex key) ∧ Guarded code
  | .unlockShard _ :: code => held code = none ∧ Guarded code
  | .access key _ :: code => held code = some (Host.shardIndex key) ∧ Guarded code
  | .push _ c :: code => held code = some (Host.shardIndex c.key) ∧ Guarded code
  | .check c :: code => held code = some (Host.shardIndex c.key) ∧ Guarded code
  | .register c :: code => held code = some (Host.shardIndex c.key) ∧ Guarded code
  | _ :: code => Guarded code

theorem underLock_guarded (key : Str) (a : Access S (Value S J)) : Guarded (underLock key a) :=
  ⟨rfl, rfl, rfl, trivial⟩

theorem waitCode_guarded (c : BLPopCommand) : Guarded (waitCode (S := S) (J := J) c) := ⟨rfl, rfl, trivial⟩

theorem offers_guarded (key : Str) (items : List Bytes) {code : List (Instr S J)} (h : Guarded code)
    (hheld : held code = none) : Guarded (items.map (.offer key) ++ code) ∧
      held (items.map (.offer key) ++ code) = none := by
  induction items with
  | nil => exact ⟨h, hheld⟩
  | cons item items ih => exact ih

theorem pairs_guarded (c : MSetCommand) (pairs : List (Str × Bytes)) :
    Guarded (S := S) (J := J) (pairs.flatMap (msetPair c) ++ [.sendAof]) ∧
      held (S := S) (J := J) (pairs.flatMap (msetPair c) ++ [.sendAof]) = none := by
  induction pairs with
  | nil => exact ⟨trivial, rfl⟩
  | cons p pairs ih => exact ⟨⟨rfl, rfl, ih.2, ih.1⟩, rfl⟩

theorem program_guarded [F64 S] [SerdeJson J] {rt : Runtime} {now : Nat} {c : Command S}
    {code : List (Instr S J)} {done : Done S} (h : program rt now c = some (code, done)) :
    Guarded code ∧ held code = none := by
  cases c with
  | set | lpop | hset | hdel | zadd | zrem =>
      cases h
      exact ⟨underLock_guarded _ _, rfl⟩
  | jsonSet c =>
      simp only [program] at h
      split at h
      · cases h
        exact ⟨underLock_guarded _ _, rfl⟩
      · cases h
        exact ⟨trivial, rfl⟩
  | lpush c =>
      cases h
      exact offers_guarded c.key c.values ⟨rfl, rfl, rfl, trivial⟩ rfl
  | blpop c =>
      cases h
      exact ⟨⟨rfl, rfl, rfl, trivial⟩, rfl⟩
  | mset c =>
      cases h
      exact pairs_guarded c _
  | get | ping | unimplement | eval | hget | mget | multi | exec | multiGroup | jsonGet | zscore | zrank
  | zrange => cases h

end Programs

section Locks

variable {I S J : Type} [Host] [DecidableEq I] {m m' : Machine I S J} {i : I} {x : Client S J}

/-- The shards whose locks a client has. -/
def Client.holds : Client S J → Set (Fin Host.numShards)
  | .running t => {shard | held t.code = some shard}
  | .script _ env => {shard | shard ∈ env.sessions}
  | _ => ∅

def Client.Guarded (x : Client S J) : Prop := ∀ t, x = .running t → Clients.Guarded t.code

/-- The locks belong to the clients that hold them. -/
structure Locked (m : Machine I S J) : Prop where
  guarded : ∀ i, (m.clients i).Guarded
  holds : ∀ i, ∀ shard ∈ (m.clients i).holds, m.locks shard = some i

theorem Locked.update (h : Locked m) (hclients : m'.clients = Function.update m.clients i x)
    (hx : x.Guarded) (hself : ∀ shard ∈ x.holds, m'.locks shard = some i)
    (hothers : ∀ shard j, j ≠ i → m.locks shard = some j → m'.locks shard = some j) : Locked m' := by
  refine ⟨fun j => ?_, fun j shard hs => ?_⟩
  · rw [hclients, Function.update_apply]
    split
    · exact hx
    · exact h.guarded j
  · rw [hclients, Function.update_apply] at hs
    split at hs
    · next hj => rw [hj]; exact hself shard hs
    · next hj => exact hothers shard j hj (h.holds j shard hs)

theorem Locked.keep (h : Locked m) (hclients : m'.clients = Function.update m.clients i x)
    (hx : x.Guarded) (hlocks : m'.locks = m.locks) (hsub : x.holds ⊆ (m.clients i).holds) : Locked m' := by
  refine h.update hclients hx (fun shard hs => ?_) (fun shard j _ hj => ?_)
  · rw [hlocks]
    exact h.holds i shard (hsub hs)
  · rw [hlocks]
    exact hj

theorem Locked.lock (h : Locked m) (hclients : m'.clients = Function.update m.clients i x)
    (hx : x.Guarded) {shard : Fin Host.numShards} (hfree : m.locks shard = none)
    (hlocks : m'.locks = Function.update m.locks shard (some i))
    (hsub : ∀ s ∈ x.holds, s = shard ∨ s ∈ (m.clients i).holds) : Locked m' := by
  refine h.update hclients hx (fun s hs => ?_) (fun s j _ hj => ?_)
  · rw [hlocks, Function.update_apply]
    split
    · rfl
    · next hne => exact h.holds i s ((hsub s hs).resolve_left hne)
  · rw [hlocks, Function.update_of_ne]
    · exact hj
    · rintro rfl
      cases hfree.symm.trans hj

theorem Locked.unlock (h : Locked m) (hclients : m'.clients = Function.update m.clients i x)
    (hx : x.Guarded) (shard : Fin Host.numShards) (hheld : shard ∈ (m.clients i).holds)
    (hlocks : m'.locks = Function.update m.locks shard none)
    (hsub : ∀ s ∈ x.holds, s ≠ shard ∧ s ∈ (m.clients i).holds) : Locked m' := by
  refine h.update hclients hx (fun s hs => ?_) (fun s j hne hj => ?_)
  · obtain ⟨hs', hmem⟩ := hsub s hs
    rw [hlocks, Function.update_of_ne hs']
    exact h.holds i s hmem
  · rw [hlocks, Function.update_of_ne]
    · exact hj
    · rintro rfl
      rw [h.holds i s hheld] at hj
      exact hne (Option.some.inj hj).symm

section Scripts

variable [F64 S] [SerdeJson J]

omit [F64 S] [SerdeJson J] in
theorem Sessions.access_mem (sessions : Sessions (Value S J)) (now : Nat) (key : Str)
    (a : Access S (Value S J)) (shard : Fin Host.numShards) :
    shard ∈ (sessions.access now key a).2 ↔ shard ∈ sessions := by
  rw [← Finmap.lookup_isSome, ← Finmap.lookup_isSome, Sessions.access_lookup]
  split
  · rw [Option.isSome_map]
  · rfl

/-- Calls lock no shard and let go of none. -/
theorem redisCall_mem (moment : Lua.Moment) (env : Lua.CurrentRequestEnv (Sessions (Value S J)) S)
    (c : Lua.Call) (shard : Fin Host.numShards) :
    shard ∈ (Lua.redisCall moment env c).2.sessions ↔ shard ∈ env.sessions := by
  have hmem (command : Command S) :
      shard ∈ (execute moment.rt moment.now env.sessions command).2 ↔ shard ∈ env.sessions := by
    have hsim : ∀ key ∈ touched command, Simulates (S := S) (J := J)
        (fun x y : Sessions (Value S J) => x = y ∧ (shard ∈ x ↔ shard ∈ env.sessions)) moment.now key := by
      rintro key - a x _ ⟨rfl, hx⟩
      exact ⟨rfl, rfl, (Sessions.access_mem x moment.now key a shard).trans hx⟩
    exact (execute_sim moment.rt command hsim ⟨rfl, Iff.rfl⟩).2.2
  unfold Lua.redisCall
  cases CommandParser.tryFrom (S := S) (.array (c.args.map .bulk)) with
  | error e => rfl
  | ok command =>
      simp only
      have h := hmem command
      revert h
      cases execute moment.rt moment.now env.sessions command with
      | mk done sessions =>
          obtain ⟨reply, aof, waits⟩ := done
          cases reply <;> exact id

omit [F64 S] [SerdeJson J] in
theorem Locked.go (h : Locked m) {t t' : Task S J} (ht : m.clients i = .running t)
    (hclients : m'.clients = Function.update m.clients i (.running t')) (hlocks : m'.locks = m.locks)
    (hguard : Guarded t.code → Guarded t'.code ∧ held t'.code = held t.code) : Locked m' := by
  obtain ⟨hg, hheld⟩ := hguard (h.guarded i t ht)
  refine h.keep hclients (by rintro u ⟨⟩; exact hg) hlocks ?_
  rw [ht]
  intro shard hmem
  exact hheld.symm.trans hmem

omit [F64 S] [SerdeJson J] in
theorem Locked.free (h : Locked m) (hclients : m'.clients = Function.update m.clients i x)
    (hlocks : m'.locks = m.locks) (hx : x.holds = ∅) (hguard : x.Guarded) : Locked m' := by
  refine h.keep hclients hguard hlocks ?_
  rw [hx]
  exact Set.empty_subset _

theorem Locked.step (h : Locked m) {l : Label I S} (hs : Step m l m') : Locked m' := by
  cases hs with
  | start hidle hp =>
      obtain ⟨hguard, hnone⟩ := program_guarded hp
      refine h.free rfl rfl ?_ (by rintro t ⟨⟩; exact hguard)
      ext shard
      simp [Client.holds, hnone]
  | @lockShard i t key code ht hc hfree =>
      have hg := h.guarded i t ht
      rw [hc] at hg
      refine h.lock rfl (by rintro u ⟨⟩; exact hg.2) hfree rfl (fun s hmem => .inl ?_)
      exact (Option.some.inj (hg.1.symm.trans hmem)).symm
  | @unlockShard i t key code ht hc =>
      have hg := h.guarded i t ht
      rw [hc] at hg
      refine h.unlock rfl (by rintro u ⟨⟩; exact hg.2) (Host.shardIndex key) ?_ rfl (fun s hmem => ?_)
      · rw [ht]
        change held t.code = _
        rw [hc]
        rfl
      · cases hg.1.symm.trans hmem
  | access ht hc | push ht hc | register ht hc =>
      refine h.go ht rfl rfl (fun hg => ?_)
      rw [hc] at hg ⊢
      exact ⟨hg.2, rfl⟩
  | check ht hc =>
      refine h.go ht rfl rfl (fun hg => ?_)
      rw [hc] at hg ⊢
      simp only
      split
      · exact ⟨waitCode_guarded _, hg.1.symm⟩
      · exact ⟨hg.2, rfl⟩
  | sendAof ht hc | lockQueues ht hc | offerNone ht hc | offerSent ht hc | unlockQueues ht hc =>
      refine h.go ht rfl rfl (fun hg => ?_)
      rw [hc] at hg ⊢
      exact ⟨hg, rfl⟩
  | offerGone ht hc => exact ⟨h.guarded, h.holds⟩
  | await ht hc | finish ht hc | drop ht | elapse ht =>
      exact h.free rfl rfl rfl (by rintro u ⟨⟩)
  | receive ht hn =>
      refine h.free rfl rfl ?_ (by rintro u ⟨⟩; trivial)
      ext shard
      simp [Client.holds, held]
  | tick => exact ⟨h.guarded, h.holds⟩
  | eval ht =>
      refine h.free rfl rfl ?_ (by rintro u ⟨⟩)
      ext shard
      simp [Client.holds, Finmap.notMem_empty]
  | @lockScript i shard shards env ht hfree =>
      refine h.lock rfl (by rintro u ⟨⟩) hfree rfl (fun s hmem => ?_)
      rw [ht]
      exact Finmap.mem_insert.mp hmem
  | call ht =>
      refine h.keep rfl (by rintro u ⟨⟩) rfl ?_
      rw [ht]
      exact fun shard hmem => (redisCall_mem _ _ _ shard).mp hmem
  | succeed ht hs | fail ht =>
      refine h.keep rfl (by rintro u ⟨⟩) rfl ?_
      rw [ht]
      exact fun shard hmem => hmem
  | @commit i shard shards env node drained ht hn hd =>
      refine h.keep rfl (by rintro u ⟨⟩) rfl ?_
      rw [ht]
      intro s hmem
      rcases Finmap.mem_insert.mp hmem with rfl | hmem
      · exact Finmap.mem_of_lookup_eq_some hn
      · exact hmem
  | @release i shard env node ht hn =>
      refine h.unlock rfl (by rintro u ⟨⟩) shard ?_ rfl (fun s hmem => ?_)
      · rw [ht]
        exact Finmap.mem_of_lookup_eq_some hn
      · rw [ht]
        exact Finmap.mem_erase.mp hmem
  | endScript ht hs => exact h.free rfl rfl rfl (by rintro u ⟨⟩)

end Scripts

/-- No client is in a command, and none waits. -/
structure AtRest (m : Machine I S J) : Prop where
  idle : ∀ i, m.clients i = .idle
  locks : ∀ shard, m.locks shard = none
  queues : ∀ k, m.queues k = []

omit [DecidableEq I] in
theorem AtRest.not_running (h : AtRest m) (i : I) (t : Task S J) : m.clients i ≠ .running t := by
  rw [h.idle]
  rintro ⟨⟩

omit [DecidableEq I] in
theorem AtRest.locked (h : AtRest m) : Locked m := by
  refine ⟨fun i t ht => absurd ht (h.not_running i t), fun i shard hs => ?_⟩
  rw [h.idle] at hs
  exact hs.elim

theorem running_update {P : Task S J → Prop} (h : ∀ j t, m.clients j = .running t → P t)
    (hclients : m'.clients = Function.update m.clients i x) (hx : ∀ t, x = .running t → P t) :
    ∀ j t, m'.clients j = .running t → P t := by
  intro j t ht
  rw [hclients, Function.update_apply] at ht
  split at ht
  · exact hx t ht
  · exact h j t ht

end Locks

section Sample

attribute [local instance] singleShard wholeScore flatJson

def sampleKey : Str := Str.ofAscii (ascii ['k']) ascii_k

/-- LPUSH k a. -/
def samplePush : LPushCommand := ⟨sampleKey, [ascii ['a']]⟩

def sampleMachine : Machine (Fin 2) UInt64 Str where
  db := Db.new .lru
  now := 0
  locks _ := none
  queuesLock := none
  queues _ := []
  channels _ := .closed
  channelKeys _ := sampleKey
  tickets := 0
  clients _ := .idle
  aof := []
  replies := []

theorem sampleMachine_atRest : AtRest sampleMachine := ⟨fun _ => rfl, fun _ => rfl, fun _ => rfl⟩

end Sample

end RustKv.Clients
