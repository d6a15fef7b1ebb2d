import RustKv.ScriptRecord
import RustKv.ExpiredKeys
import RustKv.ServerSteps

namespace RustKv.Collections

open Text Protocol Domain CacheStore Zset RustKv.Types Executor RequestReading Expiry RustKv.Normal Lua

section Accesses

variable {S D : Type} {P : ValueEntry D → Prop}

/-- The entry, if there is one, is in `P`. -/
def Within (P : ValueEntry D → Prop) (entry : Option (ValueEntry D)) : Prop := ∀ e, entry = some e → P e

theorem within_none : Within P none := by
  rintro e ⟨⟩

theorem within_some {e : ValueEntry D} (h : P e) : Within P (some e) := by
  rintro e' ⟨⟩
  exact h

theorem Within.unlessExpired {entry : Option (ValueEntry D)} (h : Within P entry) (now : Nat) :
    Within P (unlessExpired now entry) := by
  rcases unlessExpired_cases now entry with hsame | hnone
  · rwa [hsame]
  · rw [hnone]
    exact within_none

def PutsBack (P : ValueEntry D → Prop) : PutBack D → Prop
  | .insert value => P value
  | .nothing | .delete => True

theorem PutsBack.result {put : PutBack D} (h : PutsBack P put) {entry : Option (ValueEntry D)}
    (he : Within P entry) : Within P (put.result entry) := by
  cases put with
  | nothing => exact he
  | insert value => exact within_some h
  | delete => exact within_none

/-- The access puts entries of `P` back as long as it finds no others. -/
def Keeps (P : ValueEntry D → Prop) : Access S D → Prop
  | .take f | .select f => ∀ entry, Within P entry → PutsBack P (f entry).2
  | .insert value _ => P value
  | .read _ => True

/-- What is put back in place of the entry that is found is in `P`. -/
def Restores (P : ValueEntry D → Prop) (found : Option (ValueEntry D)) : Access S D → Prop
  | .take f | .select f => PutsBack P (f found).2
  | .insert value _ => P value
  | .read _ => True

theorem Keeps.restores {a : Access S D} (h : Keeps P a) {found : Option (ValueEntry D)} (he : Within P found) :
    Restores P found a := by
  cases a with
  | take f | select f => exact h found he
  | insert value done => exact h
  | read f => trivial

/-- The entry that an access finds: only a take does not look at its expiration. -/
def finds (now : Nat) (entry : Option (ValueEntry D)) : Access S D → Option (ValueEntry D)
  | .take _ => entry
  | .select _ | .insert _ _ | .read _ => unlessExpired now entry

theorem Within.finds {entry : Option (ValueEntry D)} (h : Within P entry) (now : Nat) (a : Access S D) :
    Within P (finds now entry a) := by
  cases a with
  | take f => exact h
  | select f | insert value done | read f => exact h.unlessExpired now

theorem Restores.onCell {a : Access S D} {now : Nat} {entry : Option (ValueEntry D)}
    (h : Restores P (finds now entry a) a) (he : Within P entry) : Within P (a.onCell now entry).2 := by
  cases a with
  | take f => exact PutsBack.result h within_none
  | select f => exact PutsBack.result h (he.unlessExpired now)
  | insert value done => exact within_some h
  | read f => exact he

/-- What a script has for a key is in `P`: its own change, and the entry below it. -/
structure CellWithin (P : ValueEntry D → Prop) (c : LuaCell D) : Prop where
  change : ∀ change, c.change = some change → Within P (changeValue change)
  base : Within P c.base

theorem CellWithin.view {c : LuaCell D} (h : CellWithin P c) (now : Nat) : Within P (c.view now) := by
  obtain ⟨change, base⟩ := c
  cases change with
  | some change => exact h.change change rfl
  | none => exact h.base.unlessExpired now

theorem CellWithin.committed {c : LuaCell D} (h : CellWithin P c) : Within P c.committed := by
  obtain ⟨change, base⟩ := c
  cases change with
  | some change => exact h.change change rfl
  | none => exact h.base

theorem CellWithin.select {c : LuaCell D} (h : CellWithin P c) (now : Nat) :
    CellWithin P (c.select now).2 := by
  obtain ⟨change, base⟩ := c
  cases change with
  | some change => exact h
  | none => exact ⟨by rintro _ ⟨⟩, h.base.unlessExpired now⟩

theorem CellWithin.take {c : LuaCell D} (h : CellWithin P c) (now : Nat) :
    CellWithin P (c.take now).2 := by
  obtain ⟨change, base⟩ := c
  cases change with
  | some change =>
      refine ⟨?_, h.base⟩
      rintro _ ⟨⟩
      exact within_none
  | none =>
      have hbase := h.base.unlessExpired now
      simp only [LuaCell.take] at hbase ⊢
      cases hv : Executor.unlessExpired now base with
      | some value =>
          rw [hv] at hbase
          refine ⟨?_, hbase⟩
          rintro _ ⟨⟩
          exact within_none
      | none => exact ⟨by rintro _ ⟨⟩, within_none⟩

theorem CellWithin.putBack {c : LuaCell D} (h : CellWithin P c) {put : PutBack D} (hp : PutsBack P put)
    (now : Nat) (key : Str) : CellWithin P (put.run now key c) := by
  have hsel := h.select now
  cases put with
  | nothing => exact h
  | insert value =>
      refine ⟨?_, hsel.base⟩
      rintro _ ⟨⟩
      exact within_some hp
  | delete =>
      refine ⟨?_, hsel.base⟩
      rintro _ ⟨⟩
      exact within_none

theorem Restores.onLua {a : Access S D} {now : Nat} {c : LuaCell D} (h : Restores P (c.view now) a) (key : Str)
    (hc : CellWithin P c) : CellWithin P (a.run now key c).2 := by
  cases a with
  | take f =>
      have hview : (c.take now).1 = c.view now := by
        obtain ⟨change, base⟩ := c
        cases change with
        | some change => rfl
        | none => cases hv : unlessExpired now base <;> simp [LuaCell.take, LuaCell.view, LuaCell.select, hv]
      apply (hc.take now).putBack
      change PutsBack P (f (c.take now).1).2
      rw [hview]
      exact h
  | select f => exact (hc.select now).putBack h now key
  | insert value done => exact hc.putBack (show PutsBack P (.insert value) from h) now key
  | read f => exact hc.select now

theorem Within.select_base {c : LuaCell D} (h : Within P c.base) (now : Nat) :
    Within P (c.select now).2.base := by
  obtain ⟨change, base⟩ := c
  cases change with
  | some change => exact h
  | none => exact h.unlessExpired now

theorem Within.take_base {c : LuaCell D} (h : Within P c.base) (now : Nat) : Within P (c.take now).2.base := by
  obtain ⟨change, base⟩ := c
  cases change with
  | some change => exact h
  | none =>
      have hbase : Within P (Executor.unlessExpired now base) := h.unlessExpired now
      simp only [LuaCell.take]
      cases hv : Executor.unlessExpired now base with
      | some value => rwa [hv] at hbase
      | none => exact within_none

theorem Within.putBack_base {c : LuaCell D} (h : Within P c.base) (put : PutBack D) (now : Nat) (key : Str) :
    Within P (put.run now key c).base := by
  cases put with
  | nothing => exact h
  | insert value | delete => exact h.select_base now

/-- Whatever a script does, the entry below stays as it is or is found to have expired. -/
theorem Within.run_base {c : LuaCell D} (h : Within P c.base) (a : Access S D) (now : Nat) (key : Str) :
    Within P (a.run now key c).2.base := by
  cases a with
  | take f => exact (h.take_base now).putBack_base _ now key
  | select f => exact (h.select_base now).putBack_base _ now key
  | insert value done => exact h.select_base now
  | read f => exact h.select_base now

end Accesses

section Contexts

variable {S J : Type} [Host] [F64 S] [SerdeJson J]

section Any

variable {γ : Type} [Context γ (Value S J)] {I : γ → Prop} {now : Nat}

omit [F64 S] [SerdeJson J] in
theorem msetAll_keeps (hmset : ∀ ctx key value, I ctx →
      I (Context.access ctx now key (.insert (msetEntry value) (.ok .null) : Access S (Value S J))).2)
    (pairs : List (Str × Bytes)) {ctx : γ} (h : I ctx) : I (msetAll (S := S) now ctx pairs).2 := by
  induction pairs generalizing ctx with
  | nil => exact h
  | cons p pairs ih =>
      obtain ⟨key, value⟩ := p
      have hnext := hmset ctx key value h
      simp only [msetAll]
      cases hx : Context.access ctx now key (.insert (msetEntry value) (.ok .null) : Access S _) with
      | mk d ctx' =>
          rw [hx] at hnext
          obtain ⟨reply, aof, waits⟩ := d
          cases reply with
          | error e => exact hnext
          | ok frame => exact ih hnext

omit [Host] [F64 S] [SerdeJson J] in
theorem mgetAll_keeps (hget : ∀ ctx key, I ctx → I (Context.access ctx now key (getAccess : Access S (Value S J))).2)
    (keys : List Str) {ctx : γ} (h : I ctx) : I (mgetAll (S := S) now ctx keys).2 := by
  induction keys generalizing ctx with
  | nil => exact h
  | cons key keys ih =>
      have hnext := hget ctx key h
      simp only [mgetAll]
      cases hx : Context.access ctx now key (getAccess : Access S _) with
      | mk d ctx' =>
          rw [hx] at hnext
          obtain ⟨reply, aof, waits⟩ := d
          cases reply with
          | error e => exact hnext
          | ok frame =>
              have hrest := ih hnext
              simp only
              cases hy : mgetAll (S := S) now ctx' keys with
              | mk r ctx'' =>
                  rw [hy] at hrest
                  cases r <;> exact hrest

/-- What the accesses of a command keep, the command keeps. -/
theorem execute_keeps {rt : Runtime} {c : Command S} {ctx : γ}
    (hmset : ∀ ctx key value, I ctx →
      I (Context.access ctx now key (.insert (msetEntry value) (.ok .null) : Access S (Value S J))).2)
    (hget : ∀ ctx key, I ctx → I (Context.access ctx now key (getAccess : Access S (Value S J))).2)
    (hkeyed : ∀ key (a : Access S (Value S J)), keyed rt now (fun c => c.values) c = some (key, a) →
      I (Context.access ctx now key a).2) (h : I ctx) : I (execute rt now ctx c).2 := by
  cases hk : keyed (J := J) rt now (fun c => c.values) c with
  | some p =>
      obtain ⟨key, a⟩ := p
      rw [execute_keyed hk]
      exact hkeyed key a hk
  | none =>
      cases c with
      | mset c =>
          have hall := msetAll_keeps hmset (sortedPairs c) h
          simp only [execute, executeMSet]
          cases hx : msetAll (S := S) now ctx (sortedPairs c) with
          | mk r ctx' =>
              rw [hx] at hall
              cases r <;> exact hall
      | mget c => exact mgetAll_keeps hget c.keys h
      | jsonSet c =>
          have hv : SerdeJson.fromStr (J := J) c.value = none := Option.map_eq_none_iff.mp hk
          simp only [execute, executeJsonSet, hv]
          exact h
      | ping | unimplement | eval | multi | exec | multiGroup => exact h
      | get | set | lpush | lpop | blpop | hset | hget | hdel | jsonGet | zadd | zscore | zrank | zrange
      | zrem => cases hk

/-- Two contexts that answer the accesses of a command alike answer the command alike. -/
theorem execute_answers {δ : Type} [Context δ (Value S J)] {R : γ → δ → Prop} {rt : Runtime} {c : Command S}
    {x : γ} {y : δ}
    (hmset : ∀ key value, Answers R now key (.insert (msetEntry value) (.ok .null) : Access S (Value S J)))
    (hget : ∀ key, Answers R now key (getAccess : Access S (Value S J)))
    (hkeyed : ∀ key (a : Access S (Value S J)), keyed rt now (fun c => c.values) c = some (key, a) →
      Answers R now key a) (h : R x y) :
    (execute rt now x c).1 = (execute rt now y c).1 ∧ R (execute rt now x c).2 (execute rt now y c).2 := by
  cases hk : keyed (J := J) rt now (fun c => c.values) c with
  | some p =>
      obtain ⟨key, a⟩ := p
      rw [execute_keyed hk, execute_keyed hk]
      exact hkeyed key a hk x y h
  | none =>
      cases c with
      | mset c =>
          obtain ⟨hreply, hnext⟩ := msetAll_sim (S := S) (sortedPairs c) (fun p _ => hmset p.1 p.2) h
          simp only [execute, executeMSet]
          cases hx : msetAll (S := S) now x (sortedPairs c) with
          | mk r x' =>
              cases hy : msetAll (S := S) now y (sortedPairs c) with
              | mk r' y' =>
                  rw [hx, hy] at hreply hnext
                  simp only at hreply
                  subst hreply
                  cases r <;> exact ⟨rfl, hnext⟩
      | mget c =>
          obtain ⟨hreply, hnext⟩ := mgetAll_sim (S := S) c.keys (fun k _ => hget k) h
          refine ⟨?_, hnext⟩
          simp only [execute, executeMGet, hreply]
      | jsonSet c =>
          have hv : SerdeJson.fromStr (J := J) c.value = none := Option.map_eq_none_iff.mp hk
          simp only [execute, executeJsonSet, hv]
          exact ⟨trivial, h⟩
      | ping | unimplement | eval | multi | exec | multiGroup => exact ⟨rfl, h⟩
      | get | set | lpush | lpop | blpop | hset | hget | hdel | jsonGet | zadd | zscore | zrank | zrange
      | zrem => cases hk

end Any

section Scripts

variable {γ : Type} [Context γ (Value S J)] {I : γ → Prop}

theorem redisCall_keeps {moment : Moment}
    (hI : ∀ ctx key (a : Access S (Value S J)), I ctx → I (Context.access ctx moment.now key a).2)
    (c : Call) {env : CurrentRequestEnv γ S} (h : I env.sessions) : I (redisCall moment env c).2.sessions := by
  cases hcommand : CommandParser.tryFrom (S := S) (.array (c.args.map .bulk)) with
  | error e =>
      simp only [redisCall, hcommand]
      exact h
  | ok command =>
      have hnext : I (execute moment.rt moment.now env.sessions command).2 :=
        execute_keeps (fun _ _ _ hs => hI _ _ _ hs) (fun _ _ hs => hI _ _ _ hs) (fun _ _ _ => hI _ _ _ h) h
      rw [redisCall_eq moment env hcommand]
      split <;> exact hnext

/-- What every access to the locked shards keeps, a script keeps. -/
theorem script_keeps {moments : Nat → Moment}
    (hI : ∀ n ctx key (a : Access S (Value S J)), I ctx → I (Context.access ctx (moments n).now key a).2)
    (script : Script) (n : Nat) {env : CurrentRequestEnv γ S} (h : I env.sessions) :
    I (Script.run moments n script env).2.sessions := by
  induction script generalizing n env with
  | ret frame => exact h
  | fail text => exact h
  | call c next ih => exact ih _ _ (redisCall_keeps (hI n) c h)

end Scripts

theorem answer_keeps {I : Db (Value S J) → Prop}
    (hI : ∀ db now key (a : Access S (Value S J)), I db → I (db.access now key a).2) (rt : Runtime) (now : Nat)
    (queues : Queues) (c : Command S) {db : Db (Value S J)} (h : I db) : I (answer rt now queues db c).2 := by
  cases hk : keyed (J := J) rt now (unserved queues) c with
  | some p =>
      obtain ⟨key, a⟩ := p
      rw [answer_keyed hk]
      exact hI db now key a h
  | none =>
      cases c with
      | lpush c => cases hk
      | get | set | ping | unimplement | eval | lpop | blpop | hset | hget | hdel | mset | mget | multi | exec
      | multiGroup | jsonSet | jsonGet | zadd | zscore | zrank | zrange | zrem =>
          exact execute_keeps (fun _ _ _ hdb => hI _ _ _ _ hdb) (fun _ _ hdb => hI _ _ _ _ hdb)
            (fun _ _ _ => hI _ _ _ _ h) h

end Contexts

section Steps

variable {S J : Type} [Host] [F64 S] [SerdeJson J]

/-- The locks of a script that has failed: its changes are dropped with them. -/
def abandoned {D : Type} (sessions : Sessions D) (i : Fin Host.numShards) : Option (Guard D) :=
  (sessions.lookup i).map (fun node => node.dbStore.guard)

/-- What a script that is run on its own leaves: its result and its locked shards. -/
def scriptRun (db : Db (Value S J)) (keys : List Str) (moments : Nat → Moment) (script : Script) :
    Except String Frame × CurrentRequestEnv (Sessions (Value S J)) S :=
  Script.run moments 0 script (initLuaPre db keys)

/-- One step of a database: a command of a client whatever clients wait, a command of the
recovery, a script that ends well or badly, or an eviction. -/
inductive Step : Db (Value S J) → Db (Value S J) → Prop
  | normal {db : Db (Value S J)} (rt : Runtime) (now : Nat) (queues : Queues) {c : Command S}
      (hc : Parsed c) : Step db (answer rt now queues db c).2
  | recovery {db : Db (Value S J)} (rt : Runtime) (now : Nat) {c : Command S} (hc : Parsed c) :
      Step db (execute rt now db c).2
  | commit {db : Db (Value S J)} {keys : List Str} {moments : Nat → Moment} {script : Script} {frame : Frame}
      {env : CurrentRequestEnv (Sessions (Value S J)) S}
      {drained : Fin Host.numShards → List (Str × ChangeOp (Value S J))}
      (h : scriptRun db keys moments script = (.ok frame, env))
      (hd : ∀ i node, env.sessions.lookup i = some node → Drains node.differMap (drained i)) :
      Step db (release db (committed env.sessions drained))
  | rollback {db : Db (Value S J)} {keys : List Str} {moments : Nat → Moment} {script : Script} {text : String}
      {env : CurrentRequestEnv (Sessions (Value S J)) S}
      (h : scriptRun db keys moments script = (.error text, env)) :
      Step db (release db (abandoned env.sessions))
  | evictionTtl {db : Db (Value S J)} (now sample : Nat) (i : Fin Host.numShards) :
      Step db (db.unlock i (evictionTtl now sample (db.lock i)))
  | evictionMemory {db : Db (Value S J)} (i : Fin Host.numShards) :
      Step db (db.unlock i (evictionMemory (db.lock i)))

/-- The databases that come out of an empty one. -/
def Reachable (db : Db (Value S J)) : Prop :=
  ∃ configType, Relation.ReflTransGen Step (Db.new configType) db

/-- What a script sees for a key, nothing where it has not locked the shard. -/
def seen (sessions : Sessions (Value S J)) (now : Nat) (key : Str) : Option (ValueEntry (Value S J)) :=
  (sight sessions key).bind (fun cell => cell.view now)

/-- A condition on a command, on what it does with the entry of its key, and on the entry
that it finds. -/
abbrev Condition (S J : Type) := Command S → Access S (Value S J) → Option (ValueEntry (Value S J)) → Prop

/-- A command on one key meets the condition where it is executed. -/
def Meets (Q : Condition S J) (rt : Runtime) (now : Nat) (values : LPushCommand → List Bytes) (c : Command S)
    (found : Str → Access S (Value S J) → Option (ValueEntry (Value S J))) : Prop :=
  ∀ key a, keyed rt now values c = some (key, a) → Q c a (found key a)

/-- Every call of a script meets the condition. -/
def CallsMeet (Q : Condition S J) (moments : Nat → Moment) (n : Nat) (script : Script)
    (env : CurrentRequestEnv (Sessions (Value S J)) S) : Prop :=
  Script.Calls (fun env moment command => Meets Q moment.rt moment.now (fun c => c.values) command
    (fun key _ => seen env.sessions moment.now key)) moments n script env

/-- A step as above whose commands all meet the condition. What the calls of a script that
fails do is dropped with its locks. -/
inductive GuardedStep (Q : Condition S J) : Db (Value S J) → Db (Value S J) → Prop
  | normal {db : Db (Value S J)} (rt : Runtime) (now : Nat) (queues : Queues) {c : Command S} (hc : Parsed c)
      (hq : Meets Q rt now (unserved queues) c (fun key => finds now (db.entry key))) :
      GuardedStep Q db (answer rt now queues db c).2
  | recovery {db : Db (Value S J)} (rt : Runtime) (now : Nat) {c : Command S} (hc : Parsed c)
      (hq : Meets Q rt now (fun c => c.values) c (fun key => finds now (db.entry key))) :
      GuardedStep Q db (execute rt now db c).2
  | commit {db : Db (Value S J)} {keys : List Str} {moments : Nat → Moment} {script : Script} {frame : Frame}
      {env : CurrentRequestEnv (Sessions (Value S J)) S}
      {drained : Fin Host.numShards → List (Str × ChangeOp (Value S J))}
      (h : scriptRun db keys moments script = (.ok frame, env))
      (hd : ∀ i node, env.sessions.lookup i = some node → Drains node.differMap (drained i))
      (hq : CallsMeet Q moments 0 script (initLuaPre db keys)) :
      GuardedStep Q db (release db (committed env.sessions drained))
  | rollback {db : Db (Value S J)} {keys : List Str} {moments : Nat → Moment} {script : Script} {text : String}
      {env : CurrentRequestEnv (Sessions (Value S J)) S}
      (h : scriptRun db keys moments script = (.error text, env)) :
      GuardedStep Q db (release db (abandoned env.sessions))
  | evictionTtl {db : Db (Value S J)} (now sample : Nat) (i : Fin Host.numShards) :
      GuardedStep Q db (db.unlock i (evictionTtl now sample (db.lock i)))
  | evictionMemory {db : Db (Value S J)} (i : Fin Host.numShards) :
      GuardedStep Q db (db.unlock i (evictionMemory (db.lock i)))

theorem callsMeet_true (script : Script) (moments : Nat → Moment) (n : Nat)
    (env : CurrentRequestEnv (Sessions (Value S J)) S) : CallsMeet (fun _ _ _ => True) moments n script env := by
  induction script generalizing n env with
  | ret frame => trivial
  | fail text => trivial
  | call c next ih => exact ⟨fun _ _ _ _ _ => trivial, ih _ _ _⟩

theorem Step.guarded {db db' : Db (Value S J)} (h : Step db db') : GuardedStep (fun _ _ _ => True) db db' := by
  cases h with
  | normal rt now queues hc => exact .normal rt now queues hc (fun _ _ _ => trivial)
  | recovery rt now hc => exact .recovery rt now hc (fun _ _ _ => trivial)
  | commit hrun hd => exact .commit hrun hd (callsMeet_true _ _ _ _)
  | rollback hrun => exact .rollback hrun
  | evictionTtl now sample i => exact .evictionTtl now sample i
  | evictionMemory i => exact .evictionMemory i

end Steps

section Invariants

variable {S J : Type} [Host] [F64 S] [SerdeJson J] {P : ValueEntry (Value S J) → Prop} {Q : Condition S J}

/-- Under the condition the commands put back entries of `P` for entries of `P`. -/
structure Preserves (P : ValueEntry (Value S J) → Prop) (Q : Condition S J) : Prop where
  mset : ∀ value, P (msetEntry value)
  keyed : ∀ {rt : Runtime} {now : Nat} {values : LPushCommand → List Bytes} {c : Command S} {key : Str}
    {a : Access S (Value S J)} {found : Option (ValueEntry (Value S J))}, Parsed c →
    Expiry.keyed rt now values c = some (key, a) → Q c a found → Within P found → Restores P found a

def AllIn (P : ValueEntry (Value S J) → Prop) (db : Db (Value S J)) : Prop := ∀ k, Within P (db.entry k)

omit [F64 S] [SerdeJson J] in
theorem AllIn.access {db : Db (Value S J)} (h : AllIn P db) {now : Nat} {key : Str} {a : Access S (Value S J)}
    (ha : Restores P (finds now (db.entry key) a) a) : AllIn P (db.access now key a).2 := by
  intro k
  rw [(db.access_spec now key a).2 k]
  split
  · exact ha.onCell (h key)
  · exact h k

theorem AllIn.execute (hp : Preserves P Q) {db : Db (Value S J)} (h : AllIn P db) {rt : Runtime} {now : Nat}
    {c : Command S} (hc : Parsed c)
    (hq : Meets Q rt now (fun c => c.values) c (fun key => finds now (db.entry key))) :
    AllIn P (Executor.execute rt now db c).2 := by
  refine execute_keeps (fun db key value hdb => hdb.access (hp.mset value)) (fun db key hdb => hdb.access trivial) ?_ h
  intro key a hk
  exact h.access (hp.keyed hc hk (hq key a hk) ((h key).finds now a))

theorem AllIn.answer (hp : Preserves P Q) {db : Db (Value S J)} (h : AllIn P db) {rt : Runtime} {now : Nat}
    {queues : Queues} {c : Command S} (hc : Parsed c)
    (hq : Meets Q rt now (unserved queues) c (fun key => finds now (db.entry key))) :
    AllIn P (Expiry.answer rt now queues db c).2 := by
  cases hk : Expiry.keyed (J := J) rt now (unserved queues) c with
  | some p =>
      obtain ⟨key, a⟩ := p
      rw [answer_keyed hk]
      exact h.access (hp.keyed hc hk (hq key a hk) ((h key).finds now a))
  | none =>
      cases c with
      | lpush c => cases hk
      | get | set | ping | unimplement | eval | lpop | blpop | hset | hget | hdel | mset | mget | multi | exec
      | multiGroup | jsonSet | jsonGet | zadd | zscore | zrank | zrange | zrem => exact h.execute hp hc hq

/-- So is all that a script has written or will find below. -/
def SessionsIn (P : ValueEntry (Value S J) → Prop) (sessions : Sessions (Value S J)) : Prop :=
  ∃ o, Reflects sessions o ∧ ∀ k, CellWithin P (o.cells k)

omit [F64 S] [SerdeJson J] in
theorem SessionsIn.seen {sessions : Sessions (Value S J)} (h : SessionsIn P sessions) (now : Nat) (key : Str) :
    Within P (seen sessions now key) := by
  obtain ⟨o, hr, hcells⟩ := h
  rw [Collections.seen, reflects_sight hr, overlaySight]
  split
  · exact (hcells key).view now
  · exact within_none

omit [F64 S] [SerdeJson J] in
theorem SessionsIn.access {sessions : Sessions (Value S J)} (h : SessionsIn P sessions) {now : Nat} {key : Str}
    {a : Access S (Value S J)} (ha : Restores P (Collections.seen sessions now key) a) :
    SessionsIn P (sessions.access now key a).2 := by
  obtain ⟨o, hr, hcells⟩ := h
  refine ⟨_, (Reflects.simulates now key a sessions o hr).2, fun k => ?_⟩
  rw [Collections.seen, reflects_sight hr, overlaySight] at ha
  simp only [Context.access]
  split
  · next hd =>
    rw [if_pos hd, Option.bind_some] at ha
    simp only [Function.update_apply]
    split
    · exact ha.onLua key (hcells key)
    · exact hcells k
  · exact hcells k

theorem SessionsIn.redisCall (hp : Preserves P Q) {env : CurrentRequestEnv (Sessions (Value S J)) S}
    (h : SessionsIn P env.sessions) {moment : Moment} {c : Call}
    (hq : ∀ command, CommandParser.tryFrom (.array (c.args.map .bulk)) = .ok command →
      Meets Q moment.rt moment.now (fun c => c.values) command
        (fun key _ => Collections.seen env.sessions moment.now key)) :
    SessionsIn P (redisCall moment env c).2.sessions := by
  cases hcommand : CommandParser.tryFrom (S := S) (.array (c.args.map .bulk)) with
  | error e =>
      simp only [Lua.redisCall, hcommand]
      exact h
  | ok command =>
      have hnext : SessionsIn P (Executor.execute moment.rt moment.now env.sessions command).2 := by
        refine execute_keeps (fun sessions key value hs => hs.access (hp.mset value))
          (fun sessions key hs => hs.access trivial) ?_ h
        intro key a hk
        exact h.access (hp.keyed (parsed_call hcommand) hk (hq command hcommand key a hk) (h.seen moment.now key))
      rw [redisCall_eq moment env hcommand]
      split <;> exact hnext

theorem SessionsIn.run (hp : Preserves P Q) (script : Script) {env : CurrentRequestEnv (Sessions (Value S J)) S}
    (h : SessionsIn P env.sessions) {moments : Nat → Moment} {n : Nat} (hq : CallsMeet Q moments n script env) :
    SessionsIn P (Script.run moments n script env).2.sessions := by
  induction script generalizing n env with
  | ret frame => exact h
  | fail text => exact h
  | call c next ih => exact ih _ (h.redisCall hp hq.1) hq.2

omit [F64 S] [SerdeJson J] in
theorem AllIn.lockAll {db : Db (Value S J)} (h : AllIn P db) (shards : List (Fin Host.numShards)) :
    SessionsIn P (lockAll db shards) := by
  refine ⟨_, lockAll_reflects db shards, fun k => ?_⟩
  have hchange : ((lockedOverlay shards db.entry).cells k).change = none := by
    simp only [lockedOverlay]
    split <;> rfl
  refine ⟨fun change hc => ?_, ?_⟩
  · rw [hchange] at hc
    cases hc
  · simp only [lockedOverlay]
    split
    · exact h k
    · exact within_none

/-- What the shards hold below the changes of a script is in `P`. -/
def BasesIn (P : ValueEntry (Value S J) → Prop) (sessions : Sessions (Value S J)) : Prop :=
  ∃ o, Reflects sessions o ∧ ∀ k, Within P (o.cells k).base

omit [F64 S] [SerdeJson J] in
theorem SessionsIn.basesIn {sessions : Sessions (Value S J)} (h : SessionsIn P sessions) : BasesIn P sessions := by
  obtain ⟨o, hr, hcells⟩ := h
  exact ⟨o, hr, fun k => (hcells k).base⟩

omit [F64 S] [SerdeJson J] in
theorem BasesIn.access {sessions : Sessions (Value S J)} (h : BasesIn P sessions) (now : Nat) (key : Str)
    (a : Access S (Value S J)) : BasesIn P (sessions.access now key a).2 := by
  obtain ⟨o, hr, hbases⟩ := h
  refine ⟨_, (Reflects.simulates now key a sessions o hr).2, fun k => ?_⟩
  simp only [Context.access]
  split
  · simp only [Function.update_apply]
    split
    · exact (hbases key).run_base a now key
    · exact hbases k
  · exact hbases k

theorem BasesIn.run (script : Script) {env : CurrentRequestEnv (Sessions (Value S J)) S}
    (h : BasesIn P env.sessions) (moments : Nat → Moment) (n : Nat) :
    BasesIn P (Script.run moments n script env).2.sessions :=
  script_keeps (fun n _ key a hs => hs.access (moments n).now key a) script n h

omit [F64 S] [SerdeJson J] in
theorem AllIn.abandon {db : Db (Value S J)} (h : AllIn P db) {sessions : Sessions (Value S J)}
    (hs : BasesIn P sessions) : AllIn P (release db (abandoned sessions)) := by
  obtain ⟨o, hr, hbases⟩ := hs
  intro k
  simp only [Db.entry, release, abandoned]
  cases hl : sessions.lookup (Host.shardIndex k) with
  | none => exact h k
  | some node =>
      have hbase := hbases k
      rw [← hr.cells k node hl] at hbase
      exact hbase

omit [F64 S] [SerdeJson J] in
theorem AllIn.commit {db : Db (Value S J)} (h : AllIn P db) {sessions : Sessions (Value S J)}
    (hs : SessionsIn P sessions) {drained : Fin Host.numShards → List (Str × ChangeOp (Value S J))}
    (hd : ∀ i node, sessions.lookup i = some node → Drains node.differMap (drained i)) :
    AllIn P (release db (committed sessions drained)) := by
  obtain ⟨o, hr, hcells⟩ := hs
  intro k
  rw [release_entry db hr hd]
  split
  · exact (hcells k).committed
  · exact h k

omit [F64 S] [SerdeJson J] in
theorem AllIn.evict {db : Db (Value S J)} (h : AllIn P db) {i : Fin Host.numShards}
    {g : Guard (Value S J)} (he : Evicts (db.lock i) g) : AllIn P (db.unlock i g) := by
  intro k
  rcases entry_evicted db he k with hsame | hnone
  · rw [hsame]
    exact h k
  · rw [hnone]
    exact within_none

theorem AllIn.scriptRun (hp : Preserves P Q) {db : Db (Value S J)} (h : AllIn P db) {keys : List Str}
    {moments : Nat → Moment} {script : Script} (hq : CallsMeet Q moments 0 script (initLuaPre db keys)) :
    SessionsIn P (scriptRun db keys moments script).2.sessions :=
  (h.lockAll (shardIndices keys)).run hp script hq

theorem AllIn.step (hp : Preserves P Q) {db db' : Db (Value S J)} (h : AllIn P db) (hs : GuardedStep Q db db') :
    AllIn P db' := by
  cases hs with
  | normal rt now queues hc hq => exact h.answer hp hc hq
  | recovery rt now hc hq => exact h.execute hp hc hq
  | @commit keys moments script frame env drained hrun hd hq =>
      have hin := h.scriptRun hp hq
      rw [hrun] at hin
      exact h.commit hin hd
  | @rollback keys moments script text env hrun =>
      have hbases : BasesIn P (Collections.scriptRun db keys moments script).2.sessions :=
        BasesIn.run script (h.lockAll (shardIndices keys)).basesIn moments 0
      rw [hrun] at hbases
      exact h.abandon hbases
  | evictionTtl now sample i => exact h.evict (evictionTtl_evicts now sample (db.lock i))
  | evictionMemory i => exact h.evict (evictionMemory_evicts (db.lock i))

/-- Every database that comes out of an empty one by such steps has all its entries in `P`. -/
theorem allIn_run (hp : Preserves P Q) {configType : Eviction.EvictionType} {db : Db (Value S J)}
    (h : Relation.ReflTransGen (GuardedStep Q) (Db.new configType) db) : AllIn P db := by
  induction h with
  | refl =>
      intro k
      rw [Db.entry_new]
      exact within_none
  | tail _ hs ih => exact ih.step hp hs

end Invariants

end RustKv.Collections
