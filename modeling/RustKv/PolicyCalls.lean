import RustKv.CommandSteps
import RustKv.TtlSweep

namespace RustKv.Frequency

open Text Domain CacheStore Eviction EvictionStrategy Executor

section Shards

variable {D : Type} {s s' s'' : Shard D} {g : Guard D} {k key : Str} {now : Nat}

/-- Between the two states of a shard its policy has been called with `cs`. -/
def Plays (s : Shard D) (cs : List (PolicyCall Str)) (s' : Shard D) : Prop :=
  ∀ t calls, run t calls = some s.node.evicition → run t (calls ++ cs) = some s'.node.evicition

theorem plays_of_eq (h : s'.node.evicition = s.node.evicition) : Plays s [] s' := by
  intro t calls hrun
  rw [List.append_nil, hrun, h]

theorem Plays.refl (s : Shard D) : Plays s [] s := plays_of_eq rfl

theorem Plays.trans {cs cs' : List (PolicyCall Str)} (h : Plays s cs s') (h' : Plays s' cs' s'') :
    Plays s (cs ++ cs') s'' := by
  intro t calls hrun
  rw [← List.append_assoc]
  exact h' t _ (h t calls hrun)

theorem Plays.called {cs : List (PolicyCall Str)} {t : EvictionType} (h : Plays s cs s')
    (hs : Called t s.node.evicition) : Called t s'.node.evicition := by
  obtain ⟨calls, hrun⟩ := hs
  exact ⟨_, h t calls hrun⟩

theorem insertGuard_plays (g : Guard D) (key : Str) (value : ValueEntry D) :
    Plays g.shard [.write key] (DirectCacheNode.insertGuard g key value).shard :=
  fun _ _ h => Normal.insertGuard_policy h key value

def removeCalls (key : Str) : Option (ValueEntry D) → List (PolicyCall Str)
  | some _ => [.delete key]
  | none => []

theorem delete_mem_removeCalls {entry : Option (ValueEntry D)} :
    .delete k ∈ removeCalls key entry ↔ k = key ∧ entry ≠ none := by
  cases entry with
  | none => simp [removeCalls]
  | some e => simp [removeCalls]

theorem removeGuard_plays (g : Guard D) (key : Str) :
    Plays g.shard (removeCalls key (g.shard.dbStore.lookup key))
      (DirectCacheNode.removeGuard g key).2.shard := by
  cases hl : g.shard.dbStore.lookup key with
  | some e => exact fun _ _ h => Normal.removeGuard_policy hl h
  | none =>
      have hnode : g.shard.node.dbStore.lookup key = none := hl
      have hremove : (g.shard.node.removeEntry key).map (fun r => ((r.1, r.2.1), r.2.2)) =
          some ((none, .keep), g.shard.node) := by
        simp only [MemoryCacheNode.removeEntry, hnode, Option.map_some]
      apply plays_of_eq
      change (g.shard.removeEntry key).2.node.evicition = _
      rw [Shard.removeEntry, (outcome_eq hremove).2]

def selectCalls (now : Nat) (key : Str) : Option (ValueEntry D) → List (PolicyCall Str)
  | some e => if e.isExpired now then [.delete key] else [.read key]
  | none => []

theorem delete_mem_selectCalls {entry : Option (ValueEntry D)} :
    .delete k ∈ selectCalls now key entry ↔ k = key ∧ ∃ e, entry = some e ∧ e.isExpired now = true := by
  cases entry with
  | none => simp [selectCalls]
  | some e =>
      rw [selectCalls]
      split
      · next hexp => simp [hexp]
      · next hexp => simp [hexp]

theorem select_plays (g : Guard D) (now : Nat) (key : Str) :
    Plays g.shard (selectCalls now key (g.shard.dbStore.lookup key))
      (DirectCacheNode.select (.writeguard g) now key).2.guard.shard := by
  have hpeek : g.shard.peekEntry key = g.shard.dbStore.lookup key := rfl
  simp only [DirectCacheNode.select, hpeek, selectCalls]
  cases hl : g.shard.dbStore.lookup key with
  | none => exact Plays.refl _
  | some e =>
      by_cases hexp : e.isExpired now = true
      · have hremove := removeGuard_plays g key
        rw [hl] at hremove
        simp only [hexp, if_true]
        exact hremove
      · simp only [hexp]
        exact fun _ _ h => Normal.getEntry_policy hl h

/-- A lookup under a read lock calls the policy for a live entry only. -/
def readCalls (now : Nat) (key : Str) : Option (ValueEntry D) → List (PolicyCall Str)
  | some e => if e.isExpired now then [] else [.read key]
  | none => []

theorem onRead_plays (s : Shard D) (key : Str) : Plays s [.read key] (s.onRead key).2 := by
  intro t calls hrun
  obtain ⟨p, hp, -⟩ := onRead_spec s.wf.policy key
  have hread : (s.node.onRead key).map (fun n => ((), n)) = some ((), { s.node with evicition := p }) := by
    simp only [MemoryCacheNode.onRead, hp, Option.bind_eq_bind, Option.bind_some, Option.map_some]
  rw [run_snoc hrun, Shard.onRead, (outcome_eq hread).2]
  exact hp

theorem read_plays (g : Guard D) (now : Nat) (key : Str) :
    Plays g.shard (readCalls now key (g.shard.dbStore.lookup key))
      (DirectCacheNode.select (.readguard g) now key).2.guard.shard := by
  have hpeek : g.shard.peekEntry key = g.shard.dbStore.lookup key := rfl
  simp only [DirectCacheNode.select, hpeek, readCalls]
  cases hl : g.shard.dbStore.lookup key with
  | none => exact Plays.refl _
  | some e =>
      by_cases hexp : e.isExpired now = true
      · simp only [hexp, if_true]
        exact Plays.refl _
      · simp only [hexp]
        exact onRead_plays g.shard key

theorem popVictim_plays (s : Shard D) : Plays s [.victim] (Normal.popVictim s).2 := by
  intro t calls hrun
  obtain ⟨v, p, hp, -⟩ := popVictim_spec s.wf.policy
  have hpop : (s.node.evicition.popVictim).map (fun r => (r.1, { s.node with evicition := r.2 })) =
      some (v, { s.node with evicition := p }) := by
    rw [hp]
    rfl
  rw [run_snoc hrun, Normal.popVictim, (outcome_eq hpop).2, EvictionStrategy.call, hp]
  rfl

end Shards

section Accesses

variable {S D : Type}

/-- The calls of the last operation, when the shard has `entry` under the key. -/
def putCalls (key : Str) (entry : Option (ValueEntry D)) : PutBack D → List (PolicyCall Str)
  | .nothing => []
  | .insert _ => [.write key]
  | .delete => removeCalls key entry

/-- The calls of the policy that a command makes while it has its lock. -/
def accessCalls (now : Nat) (key : Str) (entry : Option (ValueEntry D)) : Access S D → List (PolicyCall Str)
  | .take f => removeCalls key entry ++ putCalls key none (f entry).2
  | .select f =>
      selectCalls now key entry ++ putCalls key (unlessExpired now entry) (f (unlessExpired now entry)).2
  | .insert _ _ => [.write key]
  | .read _ => readCalls now key entry

theorem putBack_plays (put : PutBack D) (now : Nat) (key : Str) (g : Guard D) :
    Plays g.shard (putCalls key (g.shard.dbStore.lookup key) put)
      (put.run now key (DirectCacheNode.writeguard g)).guard.shard := by
  cases put with
  | nothing => exact Plays.refl _
  | insert value => exact insertGuard_plays g key value
  | delete => exact removeGuard_plays g key

theorem run_plays (a : Access S D) (h : a.reads = false) (now : Nat) (key : Str) (g : Guard D) :
    Plays g.shard (accessCalls now key (g.shard.dbStore.lookup key) a)
      (a.run now key (DirectCacheNode.writeguard g)).2.guard.shard := by
  cases a with
  | take f =>
      have hremove := removeGuard_plays g key
      have hput := putBack_plays (f (g.shard.dbStore.lookup key)).2 now key (DirectCacheNode.removeGuard g key).2
      rw [removeGuard_lookup, if_pos rfl] at hput
      have hall := hremove.trans hput
      rw [← removeGuard_value g key] at hall ⊢
      exact hall
  | select f =>
      obtain ⟨g₁, hsel, hlookup⟩ := select_writeguard g now key
      have hselect := select_plays g now key
      have hput := putBack_plays (f (live now g.shard.dbStore key)).2 now key g₁
      rw [hlookup, if_pos rfl] at hput
      rw [hsel] at hselect
      have hall := hselect.trans hput
      simp only [Access.run, KvOperator.select, hsel]
      exact hall
  | insert value done => exact insertGuard_plays g key value
  | read f => cases h

variable [Host]

/-- A command calls the policy of the shard of its key, and of no other. -/
theorem access_plays (db : Db D) (now : Nat) (key : Str) (a : Access S D) (i : Fin Host.numShards) :
    Plays (db.shards i) (if i = Host.shardIndex key then accessCalls now key (db.entry key) a else [])
      ((db.access now key a).2.shards i) := by
  by_cases hi : i = Host.shardIndex key
  · subst hi
    simp only [Db.access, Db.unlock, Function.update_self, if_true]
    cases hr : a.reads with
    | false => exact run_plays a hr now key (db.lock (Host.shardIndex key))
    | true =>
        cases a with
        | read f => exact read_plays (db.lock (Host.shardIndex key)) now key
        | take | select | insert => cases hr
  · simp only [Db.access, Db.unlock, Function.update_of_ne hi, if_neg hi]
    exact Plays.refl _

end Accesses

section Scripts

open RustKv.Types Lua Collections

variable {S J : Type} [Host] {I : DirectCacheNode (Value S J) → Prop} {now : Nat} {key : Str}

section Node

variable {node : LuaCacheNode (Value S J)}
  (hI : ∀ store, I store → I (DirectCacheNode.select store now key).2)

include hI

omit [Host] in
theorem select_base (h : I node.dbStore) : I (node.select now key).2.dbStore := by
  rw [LuaCacheNode.select]
  split
  · exact h
  · exact h
  · exact hI _ h

omit [Host] in
theorem take_base (h : I node.dbStore) : I (node.take now key).2.dbStore := by
  have hsel := hI _ h
  rw [LuaCacheNode.take]
  split
  · exact h
  · exact h
  · split
    · next hs =>
      rw [hs] at hsel
      exact hsel
    · next hs =>
      rw [hs] at hsel
      exact hsel

omit [Host] in
theorem putBack_base (put : PutBack (Value S J)) (h : I node.dbStore) : I (put.run now key node).dbStore := by
  cases put with
  | nothing => exact h
  | insert value | delete => exact select_base hI h

omit [Host] in
/-- Until it is committed, a script does not go beyond lookups in its shards. -/
theorem run_base (a : Access S (Value S J)) (h : I node.dbStore) : I (a.run now key node).2.dbStore := by
  cases a with
  | take f => exact putBack_base hI _ (take_base hI h)
  | select f => exact putBack_base hI _ (select_base hI h)
  | insert value done => exact select_base hI h
  | read f => exact select_base hI h

end Node

variable {i : Fin Host.numShards}

theorem access_base {sessions : Sessions (Value S J)} (a : Access S (Value S J))
    (hI : Host.shardIndex key = i → ∀ store, I store → I (DirectCacheNode.select store now key).2)
    (h : ∀ node, sessions.lookup i = some node → I node.dbStore) :
    ∀ node, (sessions.access now key a).2.lookup i = some node → I node.dbStore := by
  intro node hnode
  rw [Sessions.access_lookup] at hnode
  split at hnode
  · next hi =>
    obtain ⟨old, hold, rfl⟩ := Option.map_eq_some_iff.mp hnode
    exact run_base (hI hi.symm) a (h old hold)
  · exact h node hnode

/-- What the lookups in a shard keep, a script keeps. -/
theorem scriptRun_base [F64 S] [SerdeJson J] {db : Db (Value S J)} {moments : Nat → Moment}
    (hI : ∀ n key, Host.shardIndex key = i →
      ∀ store, I store → I (DirectCacheNode.select store (moments n).now key).2)
    (h : I (.writeguard ⟨db.shards i, 0⟩)) (keys : List Str) (script : Script) {node : LuaCacheNode (Value S J)}
    (hnode : (scriptRun db keys moments script).2.sessions.lookup i = some node) : I node.dbStore := by
  refine script_keeps
    (I := fun sessions : Sessions (Value S J) => ∀ node, sessions.lookup i = some node → I node.dbStore)
    (fun n sessions key a hs => access_base a (hI n key) hs) script 0 ?_ node hnode
  intro node hlock
  simp only [initLuaPre, lockAll_lookup] at hlock
  split at hlock
  · cases hlock
    exact h
  · cases hlock

end Scripts

section Evictions

open RustKv.Normal

variable {D : Type} {g : Guard D} {k : Str}

/-- The check after the lookup finds no expired entry. -/
theorem sweepKey_eq (now : Nat) (key : Str) (g : Guard D) :
    sweepKey now key g = (DirectCacheNode.select (.writeguard g) now key).2.guard := by
  obtain ⟨g', hsel, -⟩ := select_writeguard g now key
  simp only [sweepKey, hsel]
  cases hl : live now g.shard.dbStore key with
  | none => rfl
  | some e =>
      have hexp : e.isExpired now = false := by
        have hfilter := (Option.filter_eq_some_iff.mp hl).2
        simpa using hfilter
      simp only [hexp]
      rfl

/-- The policy is told that a key is deleted only if it is gone. -/
def Sheds (s s' : Shard D) : Prop :=
  ∃ cs, Plays s cs s' ∧ ∀ k, s'.dbStore.lookup k ≠ none → .delete k ∉ cs

theorem Sheds.refl (s : Shard D) : Sheds s s := ⟨[], Plays.refl s, fun _ _ => List.not_mem_nil⟩

theorem Sheds.called {s s' : Shard D} {t : EvictionType} (h : Sheds s s') (hs : Called t s.node.evicition) :
    Called t s'.node.evicition := by
  obtain ⟨cs, hplays, -⟩ := h
  exact hplays.called hs

theorem sweepKey_sheds (now : Nat) (key : Str) (g : Guard D) : Sheds g.shard (sweepKey now key g).shard := by
  rw [sweepKey_eq]
  refine ⟨_, select_plays g now key, ?_⟩
  intro k hk
  obtain ⟨g', hsel, hlookup⟩ := select_writeguard g now key
  rw [hsel] at hk
  change g'.shard.dbStore.lookup k ≠ none at hk
  rw [hlookup] at hk
  intro hmem
  obtain ⟨hkey, e, he, hexp⟩ := delete_mem_selectCalls.mp hmem
  rw [if_pos hkey, live, he] at hk
  exact absurd (by simp [Option.filter, hexp]) hk

theorem evictionTtl_sheds (now sample : Nat) (g : Guard D) : Sheds g.shard (evictionTtl now sample g).shard := by
  rw [evictionTtl_eq]
  split
  · exact Sheds.refl _
  · cases g.shard.node.evicition.getRandomSampleKey sample with
    | none => exact Sheds.refl _
    | some key => exact sweepKey_sheds now key g

theorem evictionMemory_sheds (g : Guard D) : Sheds g.shard (evictionMemory g).shard := by
  have hpop := popVictim_plays g.shard
  rw [evictionMemory]
  cases hv : Normal.popVictim g.shard with
  | mk v shard =>
      rw [hv] at hpop
      cases v with
      | none => exact ⟨_, hpop, by simp⟩
      | some key =>
          have hremove := removeGuard_plays ⟨shard, g.globalMemory⟩ key
          refine ⟨_, hpop.trans hremove, fun k hk => ?_⟩
          change (DirectCacheNode.removeGuard ⟨shard, g.globalMemory⟩ key).2.shard.dbStore.lookup k ≠ none at hk
          rw [removeGuard_lookup] at hk
          intro hmem
          rcases List.mem_append.mp hmem with hvictim | hdelete
          · simp at hvictim
          · rw [if_pos (delete_mem_removeCalls.mp hdelete).1] at hk
            exact hk rfl

end Evictions

section Reached

open RustKv.Types RustKv.Normal Lua Collections

variable {S J : Type} [Host] {t : EvictionType} {db db' : Db (Value S J)}

/-- The policies of all shards are of type `t` and come from calls alone. -/
def Policed (t : EvictionType) (db : Db (Value S J)) : Prop := ∀ i, Called t (db.shards i).node.evicition

theorem policed_new (t : EvictionType) : Policed t (Db.new t : Db (Value S J)) := fun _ => called_new t

theorem Policed.access (h : Policed t db) (now : Nat) (key : Str) (a : Access S (Value S J)) :
    Policed t (db.access now key a).2 :=
  fun i => (access_plays db now key a i).called (h i)

theorem Policed.unlock (h : Policed t db) {j : Fin Host.numShards} {g : Guard (Value S J)}
    (hg : Called t g.shard.node.evicition) : Policed t (db.unlock j g) := by
  intro i
  simp only [Db.unlock, Function.update_apply]
  split
  · exact hg
  · exact h i

/-- The script writes through a lock, to a shard whose policy is of type `t`. -/
def BasePoliced (t : EvictionType) (store : DirectCacheNode (Value S J)) : Prop :=
  ∃ g, store = .writeguard g ∧ Called t g.shard.node.evicition

omit [Host] in
theorem BasePoliced.select {store : DirectCacheNode (Value S J)} (h : BasePoliced t store) (now : Nat) (key : Str) :
    BasePoliced t (store.select now key).2 := by
  obtain ⟨g, rfl, hg⟩ := h
  obtain ⟨g', hsel, -⟩ := select_writeguard g now key
  have hcalled := (select_plays g now key).called hg
  rw [hsel] at hcalled ⊢
  exact ⟨g', rfl, hcalled⟩

omit [Host] in
theorem BasePoliced.applyChange {store : DirectCacheNode (Value S J)} (h : BasePoliced t store)
    (change : Str × ChangeOp (Value S J)) : BasePoliced t (LuaCacheNode.applyChange store change) := by
  obtain ⟨g, rfl, hg⟩ := h
  obtain ⟨key, c⟩ := change
  cases c with
  | update value => exact ⟨_, rfl, (insertGuard_plays g key value).called hg⟩
  | delete => exact ⟨_, rfl, (removeGuard_plays g key).called hg⟩

theorem Policed.release (h : Policed t db) {guards : Fin Host.numShards → Option (Guard (Value S J))}
    (hg : ∀ i g, guards i = some g → Called t g.shard.node.evicition) : Policed t (release db guards) := by
  intro i
  simp only [Lua.release]
  cases hi : guards i with
  | none => exact h i
  | some g => exact hg i g hi

variable [F64 S] [SerdeJson J]

theorem Policed.scriptRun (h : Policed t db) (keys : List Str) (moments : Nat → Moment) (script : Script)
    (i : Fin Host.numShards) {node : LuaCacheNode (Value S J)}
    (hnode : (scriptRun db keys moments script).2.sessions.lookup i = some node) : BasePoliced t node.dbStore :=
  scriptRun_base (fun n key _ _ hs => hs.select (moments n).now key) ⟨_, rfl, h i⟩ keys script hnode

theorem Policed.step (h : Policed t db) (hs : Step db db') : Policed t db' := by
  cases hs with
  | normal rt now queues hc => exact answer_keeps (fun _ now key a hdb => hdb.access now key a) rt now queues _ h
  | recovery rt now hc =>
      exact execute_keeps (fun _ _ _ hdb => hdb.access _ _ _) (fun _ _ hdb => hdb.access _ _ _)
        (fun _ _ _ => h.access _ _ _) h
  | @commit keys moments script frame env drained hrun hd =>
      apply h.release
      intro i g hg
      obtain ⟨node, hnode, rfl⟩ := Option.map_eq_some_iff.mp hg
      have hbase : BasePoliced t node.dbStore := h.scriptRun keys moments script i (by rw [hrun]; exact hnode)
      obtain ⟨g, hcommit, hcalled⟩ : BasePoliced t ((drained i).foldl LuaCacheNode.applyChange node.dbStore) :=
        List.foldlRecOn (drained i) _ hbase (fun _ hs change _ => hs.applyChange change)
      rw [LuaCacheNode.commit, hcommit]
      exact hcalled
  | @rollback keys moments script text env hrun =>
      apply h.release
      intro i g hg
      obtain ⟨node, hnode, rfl⟩ := Option.map_eq_some_iff.mp hg
      obtain ⟨g, hbase, hcalled⟩ := h.scriptRun keys moments script i (by rw [hrun]; exact hnode)
      rw [hbase]
      exact hcalled
  | evictionTtl now sample i => exact h.unlock ((evictionTtl_sheds now sample (db.lock i)).called (h i))
  | evictionMemory i => exact h.unlock ((evictionMemory_sheds (db.lock i)).called (h i))

theorem policed_run (h : Relation.ReflTransGen Step (Db.new t) db) : Policed t db := by
  induction h with
  | refl => exact policed_new t
  | tail _ hs ih => exact ih.step hs

end Reached

end RustKv.Frequency
