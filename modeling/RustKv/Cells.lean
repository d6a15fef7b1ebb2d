import RustKv.Executor
import RustKv.LuaOverlay

namespace RustKv.Executor

open Text Decimal Protocol Domain CacheStore Zset RustKv.Types

variable {S J D : Type} {now : Nat} {key : Str}

/-- The entry, unless it has expired. -/
def unlessExpired (now : Nat) (entry : Option (ValueEntry D)) : Option (ValueEntry D) :=
  entry.filter (fun e => !e.isExpired now)

theorem unlessExpired_zero (entry : Option (ValueEntry D)) : unlessExpired 0 entry = entry := by
  cases entry with
  | none => rfl
  | some e => cases h : e.expiresAt <;> simp [unlessExpired, Option.filter, ValueEntry.isExpired, h]

theorem unlessExpired_eq_self {entry : Option (ValueEntry D)}
    (h : ∀ e, entry = some e → e.isExpired now = false) : unlessExpired now entry = entry := by
  cases entry with
  | none => rfl
  | some e => simp [unlessExpired, Option.filter, h e rfl]

theorem unlessExpired_eq_none {e : ValueEntry D} (h : e.isExpired now = true) :
    unlessExpired now (some e) = none := by
  simp [unlessExpired, Option.filter, h]

theorem unlessExpired_cases (now : Nat) (entry : Option (ValueEntry D)) :
    unlessExpired now entry = entry ∨ unlessExpired now entry = none := by
  cases entry with
  | none => exact .inl rfl
  | some e =>
      cases h : e.isExpired now with
      | true => exact .inr (unlessExpired_eq_none h)
      | false => exact .inl (unlessExpired_eq_self (by rintro e' ⟨⟩; exact h))

/-- What the key holds after the last operation, when it held `entry` before. -/
def PutBack.result (entry : Option (ValueEntry D)) : PutBack D → Option (ValueEntry D)
  | .nothing => entry
  | .insert value => some value
  | .delete => none

/-- What a command makes of the entry of its key. -/
def Access.onCell (now : Nat) (entry : Option (ValueEntry D)) : Access S D →
    Done S × Option (ValueEntry D)
  | .take f => ((f entry).1, (f entry).2.result none)
  | .select f =>
      let entry := unlessExpired now entry
      ((f entry).1, (f entry).2.result entry)
  | .insert value done => (done, some value)
  | .read f => (⟨f (unlessExpired now entry), none, false⟩, entry)

theorem putBack_writeguard (put : PutBack D) (now : Nat) (key : Str) (g : Guard D) :
    ∃ g', put.run now key (DirectCacheNode.writeguard g) = .writeguard g' ∧
      ∀ k, g'.shard.dbStore.lookup k =
        if k = key then put.result (g.shard.dbStore.lookup key) else g.shard.dbStore.lookup k := by
  cases put with
  | nothing =>
      refine ⟨g, rfl, fun k => ?_⟩
      split
      · next he => rw [he]; rfl
      · rfl
  | insert value => exact ⟨_, rfl, insertGuard_lookup g key value⟩
  | delete => exact ⟨_, rfl, removeGuard_lookup g key⟩

theorem run_writeguard {a : Access S D} (h : a.reads = false) (now : Nat) (key : Str) (g : Guard D) :
    ∃ g', a.run now key (DirectCacheNode.writeguard g) =
        ((a.onCell now (g.shard.dbStore.lookup key)).1, .writeguard g') ∧
      ∀ k, g'.shard.dbStore.lookup k =
        if k = key then (a.onCell now (g.shard.dbStore.lookup key)).2
        else g.shard.dbStore.lookup k := by
  cases a with
  | take f =>
      obtain ⟨g', hg', hlookup⟩ := putBack_writeguard (f (g.shard.dbStore.lookup key)).2 now key
        (DirectCacheNode.removeGuard g key).2
      refine ⟨g', ?_, fun k => ?_⟩
      · rw [← removeGuard_value g key] at hg' ⊢
        rw [← hg']
        rfl
      · rw [hlookup, removeGuard_lookup, removeGuard_lookup, if_pos rfl]
        by_cases hk : k = key
        · rw [if_pos hk, if_pos hk]
          rfl
        · rw [if_neg hk, if_neg hk, if_neg hk]
  | select f =>
      obtain ⟨g₁, hsel, hlookup₁⟩ := select_writeguard g now key
      obtain ⟨g', hg', hlookup⟩ := putBack_writeguard (f (live now g.shard.dbStore key)).2 now key g₁
      refine ⟨g', ?_, fun k => ?_⟩
      · simp only [Access.run, KvOperator.select, hsel, hg']
        rfl
      · rw [hlookup, hlookup₁, hlookup₁, if_pos rfl]
        by_cases hk : k = key
        · rw [if_pos hk, if_pos hk]
          rfl
        · rw [if_neg hk, if_neg hk, if_neg hk]
  | insert value done => exact ⟨_, rfl, insertGuard_lookup g key value⟩
  | read f => cases h

theorem run_readguard (f : Option (ValueEntry D) → Except KvError Frame) (now : Nat) (key : Str)
    (g : Guard D) :
    ∃ g', (Access.read f : Access S D).run now key (DirectCacheNode.readguard g) =
        (((Access.read f : Access S D).onCell now (g.shard.dbStore.lookup key)).1, .readguard g') ∧
      g'.shard.dbStore = g.shard.dbStore := by
  have hpeek : g.shard.peekEntry key = g.shard.dbStore.lookup key := rfl
  simp only [Access.run, Access.onCell, KvOperator.select, DirectCacheNode.select, hpeek]
  cases hl : g.shard.dbStore.lookup key with
  | none => exact ⟨g, rfl, rfl⟩
  | some e =>
      by_cases hexp : e.isExpired now = true
      · refine ⟨g, ?_, rfl⟩
        simp only [hexp, if_true, unlessExpired_eq_none hexp]
      · refine ⟨⟨(g.shard.onRead key).2, g.globalMemory⟩, ?_, g.shard.onRead_dbStore key⟩
        have hself : unlessExpired now (some e) = some e := by
          refine unlessExpired_eq_self ?_
          rintro e' ⟨⟩
          exact Bool.eq_false_iff.mpr hexp
        simp only [hexp, hself]
        rfl

variable [Host]

def Db.entry (db : Db D) (k : Str) : Option (ValueEntry D) :=
  (db.shards (Host.shardIndex k)).dbStore.lookup k

theorem Db.entry_new (configType : Eviction.EvictionType) (k : Str) :
    (Db.new configType : Db D).entry k = none := Finmap.lookup_empty k

theorem entry_unlock (db : Db D) (key : Str) (g : Guard D) (entry : Option (ValueEntry D))
    (h : ∀ k, g.shard.dbStore.lookup k =
      if k = key then entry else (db.shards (Host.shardIndex key)).dbStore.lookup k) (k : Str) :
    (db.unlock (Host.shardIndex key) g).entry k = if k = key then entry else db.entry k := by
  simp only [Db.entry, Db.unlock]
  by_cases hi : Host.shardIndex k = Host.shardIndex key
  · rw [hi, Function.update_self, h]
  · have hk : k ≠ key := fun he => hi (he ▸ rfl)
    rw [Function.update_of_ne hi, if_neg hk]

/-- A command reads and writes the entry of its key, and no other. -/
theorem Db.access_spec (db : Db D) (now : Nat) (key : Str) (a : Access S D) :
    (db.access now key a).1 = (a.onCell now (db.entry key)).1 ∧
      ∀ k, (db.access now key a).2.entry k =
        if k = key then (a.onCell now (db.entry key)).2 else db.entry k := by
  cases hr : a.reads with
  | false =>
      obtain ⟨g, hg, hlookup⟩ := run_writeguard hr now key (db.lock (Host.shardIndex key))
      simp only [Db.access, hr, Bool.false_eq_true, if_false, hg]
      exact ⟨rfl, entry_unlock db key g _ hlookup⟩
  | true =>
      cases a with
      | read f =>
          obtain ⟨g, hg, hstore⟩ := run_readguard (S := S) f now key (db.lock (Host.shardIndex key))
          simp only [Db.access, hr, if_true, hg]
          refine ⟨rfl, entry_unlock db key g _ (fun k => ?_)⟩
          rw [hstore]
          by_cases hk : k = key
          · rw [if_pos hk, hk]
            rfl
          · rw [if_neg hk]
            rfl
      | take | select | insert => cases hr

/-- A database as the entries of its keys. -/
abbrev Cells (D : Type) := Str → Option (ValueEntry D)

instance : Context (Cells D) D where
  access m now key a :=
    ((a.onCell now (m key)).1, Function.update m key (a.onCell now (m key)).2)

def touched : Command S → List Str
  | .get c => [c.key]
  | .set c => [c.key]
  | .lpush c => [c.key]
  | .lpop c => [c.key]
  | .blpop c => [c.key]
  | .hset c => [c.key]
  | .hget c => [c.key]
  | .hdel c => [c.key]
  | .mset c => c.keysAndValues.map Prod.fst
  | .mget c => c.keys
  | .jsonSet c => [c.key]
  | .jsonGet c => [c.key]
  | .zadd c => [c.key]
  | .zscore c => [c.key]
  | .zrank c => [c.key]
  | .zrange c => [c.key]
  | .zrem c => [c.key]
  | .ping _ | .unimplement _ | .eval _ | .multi | .exec | .multiGroup _ => []

section Simulation

variable {γ δ : Type} [F64 S] [SerdeJson J] [Context γ (Value S J)] [Context δ (Value S J)]

/-- Two contexts answer an access to a key alike and stay related. -/
def Answers (R : γ → δ → Prop) (now : Nat) (key : Str) (a : Access S (Value S J)) : Prop :=
  ∀ (x : γ) (y : δ), R x y → (Context.access x now key a).1 = (Context.access y now key a).1 ∧
    R (Context.access x now key a).2 (Context.access y now key a).2

/-- Two contexts answer alike on a key and stay related. -/
def Simulates (R : γ → δ → Prop) (now : Nat) (key : Str) : Prop :=
  ∀ (a : Access S (Value S J)) (x : γ) (y : δ), R x y →
    (Context.access x now key a).1 = (Context.access y now key a).1 ∧
      R (Context.access x now key a).2 (Context.access y now key a).2

variable {R : γ → δ → Prop} {x : γ} {y : δ}

omit [F64 S] [SerdeJson J] in
theorem msetAll_sim (pairs : List (Str × Bytes))
    (h : ∀ p ∈ pairs, Answers R now p.1 (.insert (msetEntry p.2) (.ok .null) : Access S (Value S J))) (hR : R x y) :
    (msetAll (S := S) now x pairs).1 = (msetAll (S := S) now y pairs).1 ∧
      R (msetAll (S := S) now x pairs).2 (msetAll (S := S) now y pairs).2 := by
  induction pairs generalizing x y with
  | nil => exact ⟨rfl, hR⟩
  | cons p pairs ih =>
      obtain ⟨key, value⟩ := p
      obtain ⟨hdone, hR'⟩ := h (key, value) (by simp) x y hR
      simp only [msetAll]
      cases hx : Context.access x now key (.insert (msetEntry value) (.ok .null) : Access S _) with
      | mk d x' =>
          cases hy : Context.access y now key (.insert (msetEntry value) (.ok .null) : Access S _) with
          | mk d' y' =>
              rw [hx, hy] at hdone hR'
              cases hdone
              obtain ⟨reply, aof, waits⟩ := d
              cases reply with
              | error e => exact ⟨rfl, hR'⟩
              | ok frame => exact ih (fun p hp => h p (List.mem_cons_of_mem _ hp)) hR'

omit [Host] [F64 S] [SerdeJson J] in
theorem mgetAll_sim (keys : List Str)
    (h : ∀ k ∈ keys, Answers R now k (getAccess : Access S (Value S J))) (hR : R x y) :
    (mgetAll (S := S) now x keys).1 = (mgetAll (S := S) now y keys).1 ∧
      R (mgetAll (S := S) now x keys).2 (mgetAll (S := S) now y keys).2 := by
  induction keys generalizing x y with
  | nil => exact ⟨rfl, hR⟩
  | cons key keys ih =>
      obtain ⟨hdone, hR'⟩ := h key (by simp) x y hR
      simp only [mgetAll]
      cases hx : Context.access x now key (getAccess : Access S _) with
      | mk d x' =>
          cases hy : Context.access y now key (getAccess : Access S _) with
          | mk d' y' =>
              rw [hx, hy] at hdone hR'
              cases hdone
              obtain ⟨reply, aof, waits⟩ := d
              cases reply with
              | error e => exact ⟨rfl, hR'⟩
              | ok frame =>
                  obtain ⟨hreply, hR''⟩ := ih (fun k hk => h k (List.mem_cons_of_mem _ hk)) hR'
                  simp only
                  cases hx' : mgetAll (S := S) now x' keys with
                  | mk r x'' =>
                      cases hy' : mgetAll (S := S) now y' keys with
                      | mk r' y'' =>
                          rw [hx', hy'] at hreply hR''
                          cases hreply
                          cases r <;> exact ⟨rfl, hR''⟩

/-- A command answers alike in two contexts that do on the keys it touches. -/
theorem execute_sim (rt : Runtime) (c : Command S)
    (h : ∀ k ∈ touched c, Simulates (S := S) (J := J) R now k) (hR : R x y) :
    (execute rt now x c).1 = (execute rt now y c).1 ∧
      R (execute rt now x c).2 (execute rt now y c).2 := by
  cases c with
  | ping | unimplement | eval | multi | exec | multiGroup => exact ⟨rfl, hR⟩
  | mset c =>
      obtain ⟨hreply, hR'⟩ := msetAll_sim (sortedPairs c) (fun p hp => h p.1 (by
        have := (List.mergeSort_perm c.keysAndValues _).mem_iff.mp hp
        exact List.mem_map_of_mem this) _) hR
      simp only [execute, executeMSet]
      cases hx : msetAll (S := S) now x (sortedPairs c) with
      | mk r x' =>
          cases hy : msetAll (S := S) now y (sortedPairs c) with
          | mk r' y' =>
              rw [hx, hy] at hreply hR'
              cases hreply
              cases r <;> exact ⟨rfl, hR'⟩
  | mget c =>
      obtain ⟨hreply, hR'⟩ := mgetAll_sim c.keys (fun k hk => h k hk getAccess) hR
      refine ⟨?_, hR'⟩
      simp only [execute, executeMGet, hreply]
  | jsonSet c =>
      simp only [execute, executeJsonSet]
      cases SerdeJson.fromStr (J := J) c.value with
      | none => exact ⟨rfl, hR⟩
      | some v => exact h c.key (by simp [touched]) _ x y hR
  | get c | set c | lpush c | lpop c | blpop c | hset c | hget c | hdel c | jsonGet c | zadd c
  | zscore c | zrank c | zrange c | zrem c => exact h c.key (by simp [touched]) _ x y hR

end Simulation

theorem Db.simulates (now : Nat) (key : Str) :
    Simulates (S := S) (J := J) (fun (db : Db (Value S J)) (m : Cells (Value S J)) => db.entry = m) now key := by
  rintro a db m rfl
  obtain ⟨hdone, hentry⟩ := db.access_spec now key a
  refine ⟨hdone, funext (fun k => ?_)⟩
  exact (hentry k).trans (Function.update_apply db.entry key _ k).symm

theorem Db.execute_entry [F64 S] [SerdeJson J] (rt : Runtime) (now : Nat) (db : Db (Value S J))
    (c : Command S) :
    (execute rt now db c).1 = (execute rt now (γ := Cells (Value S J)) db.entry c).1 ∧
      (execute rt now db c).2.entry = (execute rt now (γ := Cells (Value S J)) db.entry c).2 :=
  execute_sim rt c (fun k _ => Db.simulates now k) rfl

end RustKv.Executor
