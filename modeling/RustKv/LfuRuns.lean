import RustKv.PolicyCalls

namespace RustKv.Eviction

section Uses

variable {K : Type} [DecidableEq K] {k : K} {calls cs : List (PolicyCall K)}

theorem uses_le_append (h : .delete k ∉ cs) : uses k calls ≤ uses k (calls ++ cs) := by
  induction cs using List.reverseRecOn with
  | nil => rw [List.append_nil]
  | append_singleton cs c ih =>
      rw [List.mem_append, List.mem_singleton, not_or] at h
      have hle := ih h.1
      rw [← List.append_assoc, uses_snoc, if_neg (Ne.symm h.2)]
      split <;> omega

theorem uses_lt_append (h : .delete k ∉ cs) (hk : 0 < uses k calls) (ht : ∃ c ∈ cs, c.touches k = true) :
    uses k calls < uses k (calls ++ cs) := by
  induction cs using List.reverseRecOn with
  | nil =>
      obtain ⟨c, hc, -⟩ := ht
      cases hc
  | append_singleton cs c ih =>
      rw [List.mem_append, List.mem_singleton, not_or] at h
      have hle : uses k calls ≤ uses k (calls ++ cs) := uses_le_append h.1
      rw [← List.append_assoc, uses_snoc, if_neg (Ne.symm h.2)]
      by_cases htouch : c.touches k = true
      · rw [if_pos ⟨htouch, .inr (Nat.lt_of_lt_of_le hk hle)⟩]
        omega
      · rw [if_neg (fun hc => htouch hc.1)]
        apply ih h.1
        obtain ⟨c', hc', ht'⟩ := ht
        rcases List.mem_append.mp hc' with hc' | hc'
        · exact ⟨c', hc', ht'⟩
        · rw [List.mem_singleton.mp hc'] at ht'
          exact absurd ht' htouch

end Uses

end RustKv.Eviction

namespace RustKv.Frequency

open Text Domain CacheStore Eviction EvictionStrategy Executor

section Warms

variable {S D : Type} {s s' s'' : Shard D} {k key : Str} {w w' : Bool} {now : Nat}

/-- The policy is not told that `k` is deleted, and it is told of a use of it if `w`. -/
def Warms (k : Str) (w : Bool) (s s' : Shard D) : Prop :=
  ∃ cs, Plays s cs s' ∧ .delete k ∉ cs ∧ (w = true → ∃ c ∈ cs, c.touches k = true)

theorem Warms.refl (k : Str) (s : Shard D) : Warms k false s s :=
  ⟨[], Plays.refl s, List.not_mem_nil, by rintro ⟨⟩⟩

theorem Warms.weaken (h : Warms k w s s') (hw : w' = true → w = true) : Warms k w' s s' := by
  obtain ⟨cs, hplays, hdelete, htouch⟩ := h
  exact ⟨cs, hplays, hdelete, fun h => htouch (hw h)⟩

theorem Warms.cold (h : Warms k w s s') : Warms k false s s' := h.weaken (by rintro ⟨⟩)

theorem Warms.trans (h : Warms k w s s') (h' : Warms k w' s' s'') : Warms k (w || w') s s'' := by
  obtain ⟨cs, hplays, hdelete, htouch⟩ := h
  obtain ⟨cs', hplays', hdelete', htouch'⟩ := h'
  refine ⟨cs ++ cs', hplays.trans hplays', ?_, ?_⟩
  · rw [List.mem_append, not_or]
    exact ⟨hdelete, hdelete'⟩
  · intro hw
    rcases Bool.or_eq_true_iff.mp hw with hw | hw
    · obtain ⟨c, hc, ht⟩ := htouch hw
      exact ⟨c, List.mem_append_left cs' hc, ht⟩
    · obtain ⟨c, hc, ht⟩ := htouch' hw
      exact ⟨c, List.mem_append_right cs hc, ht⟩

/-- The policy knows every key that is stored. -/
theorem uses_stored {t : EvictionType} {calls : List (PolicyCall Str)} {e : ValueEntry D}
    (hrun : run t calls = some s.node.evicition) (h : s.dbStore.lookup k = some e) : 0 < uses k calls := by
  have hk : k ∈ s.node.dbStore := Finmap.mem_of_lookup_eq_some h
  exact (mem_tracked_run hrun).mp ((s.wf.keys k).mp hk)

theorem Warms.uses {t : EvictionType} {calls : List (PolicyCall Str)} (h : Warms k w s s')
    (hrun : run t calls = some s.node.evicition) (hk : 0 < uses k calls) :
    ∃ calls', run t calls' = some s'.node.evicition ∧ uses k calls + w.toNat ≤ uses k calls' := by
  obtain ⟨cs, hplays, hdelete, htouch⟩ := h
  refine ⟨calls ++ cs, hplays t calls hrun, ?_⟩
  cases w with
  | false => exact uses_le_append hdelete
  | true => exact uses_lt_append hdelete hk (htouch rfl)

theorem Sheds.warms (h : Sheds s s') (hk : s'.dbStore.lookup k ≠ none) :
    Warms k false s s' := by
  obtain ⟨cs, hplays, hdelete⟩ := h
  exact ⟨cs, hplays, hdelete k hk, by rintro ⟨⟩⟩

theorem warms_insert (g : Guard D) (key : Str) (value : ValueEntry D) :
    Warms k (decide (key = k)) g.shard (DirectCacheNode.insertGuard g key value).shard := by
  refine ⟨_, insertGuard_plays g key value, by simp, ?_⟩
  intro hw
  exact ⟨.write key, List.mem_singleton.mpr rfl, hw⟩

theorem warms_remove (g : Guard D) (hk : k ≠ key) :
    Warms k false g.shard (DirectCacheNode.removeGuard g key).2.shard := by
  refine ⟨_, removeGuard_plays g key, ?_, by rintro ⟨⟩⟩
  intro hmem
  exact hk (delete_mem_removeCalls.mp hmem).1

/-- A lookup under a write lock: an expired entry would be deleted. -/
theorem warms_select (g : Guard D) (now : Nat) (key : Str)
    (h : key = k → ∀ e, g.shard.dbStore.lookup k = some e → e.isExpired now = false) :
    Warms k false g.shard (DirectCacheNode.select (.writeguard g) now key).2.guard.shard := by
  refine ⟨_, select_plays g now key, ?_, by rintro ⟨⟩⟩
  intro hmem
  obtain ⟨rfl, e, he, hexp⟩ := delete_mem_selectCalls.mp hmem
  rw [h rfl e he] at hexp
  cases hexp

theorem accessCalls_other (a : Access S D) (now : Nat) (entry : Option (ValueEntry D)) (hk : k ≠ key) :
    .delete k ∉ accessCalls now key entry a := by
  have hremove (entry : Option (ValueEntry D)) : .delete k ∉ removeCalls key entry :=
    fun hmem => hk (delete_mem_removeCalls.mp hmem).1
  have hselect : .delete k ∉ selectCalls now key entry :=
    fun hmem => hk (delete_mem_selectCalls.mp hmem).1
  have hput (entry : Option (ValueEntry D)) (put : PutBack D) : .delete k ∉ putCalls key entry put := by
    cases put with
    | nothing => exact List.not_mem_nil
    | insert value => simp [putCalls]
    | delete => exact hremove entry
  cases a with
  | take f =>
      rw [accessCalls, List.mem_append, not_or]
      exact ⟨hremove entry, hput none _⟩
  | select f =>
      rw [accessCalls, List.mem_append, not_or]
      exact ⟨hselect, hput _ _⟩
  | insert value done => simp [accessCalls]
  | read f =>
      cases entry with
      | none => exact List.not_mem_nil
      | some e =>
          rw [accessCalls, readCalls]
          split <;> simp

/-- A command that does not take the entry out leaves it to the policy to count the use. -/
theorem accessCalls_own {a : Access S D} (key : Str) (ha : ∀ f, a ≠ .take f) {e : ValueEntry D}
    (hlive : e.isExpired now = false) (hstays : (a.onCell now (some e)).2 ≠ none) :
    .delete key ∉ accessCalls now key (some e) a ∧
      ∃ c ∈ accessCalls now key (some e) a, c.touches key = true := by
  have hself : unlessExpired now (some e) = some e := unlessExpired_eq_self (by rintro _ ⟨⟩; exact hlive)
  cases a with
  | take f => exact absurd rfl (ha f)
  | insert value done => simp [accessCalls, PolicyCall.touches]
  | read f => simp [accessCalls, readCalls, hlive, PolicyCall.touches]
  | select f =>
      simp only [Access.onCell, hself] at hstays
      simp only [accessCalls, selectCalls, hlive, hself]
      cases hput : (f (some e)).2 with
      | nothing | insert value => simp [putCalls, PolicyCall.touches]
      | delete =>
          rw [hput] at hstays
          exact absurd rfl hstays

variable [Host]

/-- The key has an entry that has not expired. -/
def Live (now : Nat) (db : Db D) (k : Str) : Prop := ∃ e, db.entry k = some e ∧ e.isExpired now = false

theorem access_warms_other (db : Db D) (now : Nat) (a : Access S D) (hk : k ≠ key) :
    Warms k false (db.shards (Host.shardIndex k)) ((db.access now key a).2.shards (Host.shardIndex k)) := by
  refine ⟨_, access_plays db now key a (Host.shardIndex k), ?_, by rintro ⟨⟩⟩
  split
  · exact accessCalls_other a now _ hk
  · exact List.not_mem_nil

theorem access_warms {db : Db D} {a : Access S D} (hlive : Live now db k)
    (ha : k = key → ∀ f, a ≠ .take f) (hstays : (db.access now key a).2.entry k ≠ none) :
    Warms k (decide (k = key)) (db.shards (Host.shardIndex k))
      ((db.access now key a).2.shards (Host.shardIndex k)) := by
  by_cases hk : k = key
  · subst hk
    obtain ⟨e, he, hexp⟩ := hlive
    have hplays := access_plays db now k a (Host.shardIndex k)
    rw [(db.access_spec now k a).2 k, if_pos rfl, he] at hstays
    rw [if_pos rfl, he] at hplays
    obtain ⟨hdelete, htouch⟩ := accessCalls_own k (ha rfl) hexp hstays
    exact ⟨_, hplays, hdelete, fun _ => htouch⟩
  · exact (access_warms_other db now a hk).weaken (fun hw => absurd (of_decide_eq_true hw) hk)

/-- An entry is replaced in its place, whether it has expired or not. -/
theorem insert_warms (db : Db D) (now : Nat) (key : Str) (value : ValueEntry D) (done : Done S) :
    Warms k (decide (k = key)) (db.shards (Host.shardIndex k))
      ((db.access now key (.insert value done)).2.shards (Host.shardIndex k)) := by
  by_cases hk : k = key
  · subst hk
    have hplays := access_plays db now k (.insert value done) (Host.shardIndex k)
    rw [if_pos rfl] at hplays
    refine ⟨_, hplays, by simp [accessCalls], fun _ => ?_⟩
    simp [accessCalls, PolicyCall.touches]
  · exact (access_warms_other db now _ hk).weaken (fun hw => absurd (of_decide_eq_true hw) hk)

end Warms

section Commands

open Protocol RustKv.Types Expiry Zset RustKv.Normal

variable {S J : Type} [Host] [F64 S] [SerdeJson J] {db : Db (Value S J)} {k : Str} {now : Nat}

/-- The command takes the entry of the key out of the store, to put another one back. -/
def Takes (rt : Runtime) (now : Nat) (values : LPushCommand → List Bytes) (c : Command S) (k : Str) : Prop :=
  ∃ f, keyed (J := J) rt now values c = some (k, .take f)

/-- The command has written the key, and goes to the log. -/
def wrote (k : Str) (c : Command S) (done : Done S) : Bool := done.aof.isSome && (touched c).contains k

omit [F64 S] [SerdeJson J] in
theorem msetAll_warms (now : Nat) (k : Str) (pairs : List (Str × Bytes)) (db : Db (Value S J)) :
    Warms k ((pairs.map Prod.fst).contains k) (db.shards (Host.shardIndex k))
      ((msetAll (S := S) now db pairs).2.shards (Host.shardIndex k)) := by
  induction pairs generalizing db with
  | nil => exact Warms.refl k _
  | cons p pairs ih =>
      obtain ⟨key, value⟩ := p
      have hfirst := insert_warms (S := S) (k := k) db now key (msetEntry value) (.ok .null)
      exact (hfirst.trans (ih _)).weaken (by simp)

omit [F64 S] [SerdeJson J] in
theorem mgetAll_warms (keys : List Str) (hlive : Live now db k) :
    Warms k false (db.shards (Host.shardIndex k))
      ((mgetAll (S := S) now db keys).2.shards (Host.shardIndex k)) := by
  refine (Collections.mgetAll_keeps (S := S) (J := J) (I := fun db' => Live now db' k ∧
    Warms k false (db.shards (Host.shardIndex k)) (db'.shards (Host.shardIndex k))) ?_ keys
      ⟨hlive, Warms.refl k _⟩).2
  rintro db' key ⟨⟨e, he, hexp⟩, hwarms⟩
  have hentry : (db'.access now key (getAccess : Access S (Value S J))).2.entry k = some e := by
    rw [(db'.access_spec now key (getAccess : Access S (Value S J))).2 k]
    split
    · next hk =>
      subst hk
      exact he
    · exact he
  have hstays : (db'.access now key (getAccess : Access S (Value S J))).2.entry k ≠ none := by
    rw [hentry]
    exact Option.some_ne_none e
  have hget := access_warms (S := S) ⟨e, he, hexp⟩ (fun _ _ => by rintro ⟨⟩) hstays
  exact ⟨⟨e, hentry, hexp⟩, (hwarms.trans hget).cold⟩

theorem execute_warms (rt : Runtime) {c : Command S} (hlive : Live now db k)
    (ht : ¬ Takes (J := J) rt now (fun c => c.values) c k) (hstays : (execute rt now db c).2.entry k ≠ none) :
    Warms k (wrote k c (execute rt now db c).1) (db.shards (Host.shardIndex k))
      ((execute rt now db c).2.shards (Host.shardIndex k)) := by
  cases hk : keyed (J := J) rt now (fun c => c.values) c with
  | some p =>
      obtain ⟨key, a⟩ := p
      rw [execute_keyed hk] at hstays ⊢
      have ha : k = key → ∀ f, a ≠ .take f := by
        rintro rfl f rfl
        exact ht ⟨f, hk⟩
      refine (access_warms hlive ha hstays).weaken ?_
      rw [wrote, touched_of_keyed hk]
      simp
  | none =>
      cases c with
      | mset c =>
          have hall := msetAll_warms (S := S) now k (sortedPairs c) db
          have hkeys : (touched (S := S) (.mset c)).contains k = true →
              ((sortedPairs c).map Prod.fst).contains k = true := by
            rw [List.contains_iff_mem, List.contains_iff_mem]
            exact ((List.mergeSort_perm c.keysAndValues _).map Prod.fst).mem_iff.mpr
          simp only [execute, executeMSet]
          cases hx : msetAll (S := S) now db (sortedPairs c) with
          | mk r db' =>
              rw [hx] at hall
              cases r with
              | ok u => exact hall.weaken (fun hw => hkeys (Bool.and_eq_true_iff.mp hw).2)
              | error e => exact hall.weaken (fun hw => hkeys (Bool.and_eq_true_iff.mp hw).2)
      | mget c => exact mgetAll_warms c.keys hlive
      | jsonSet c =>
          have hv : SerdeJson.fromStr (J := J) c.value = none := Option.map_eq_none_iff.mp hk
          simp only [execute, executeJsonSet, hv]
          exact Warms.refl k _
      | ping | unimplement | eval | multi | exec | multiGroup => exact Warms.refl k _
      | get | set | lpush | lpop | blpop | hset | hget | hdel | jsonGet | zadd | zscore | zrank | zrange
      | zrem => cases hk

theorem answer_warms (rt : Runtime) (queues : Queues) {c : Command S} (hlive : Live now db k)
    (ht : ¬ Takes (J := J) rt now (unserved queues) c k) (hstays : (answer rt now queues db c).2.entry k ≠ none) :
    Warms k (wrote k c (answer rt now queues db c).1) (db.shards (Host.shardIndex k))
      ((answer rt now queues db c).2.shards (Host.shardIndex k)) := by
  cases c with
  | lpush c =>
      refine (access_warms hlive ?_ hstays).weaken ?_
      · rintro rfl f ha
        exact ht ⟨f, congrArg (fun a => some (c.key, a)) ha⟩
      · simp [wrote, touched]
  | get | set | ping | unimplement | eval | lpop | blpop | hset | hget | hdel | mset | mget | multi | exec
  | multiGroup | jsonSet | jsonGet | zadd | zscore | zrank | zrange | zrem => exact execute_warms rt hlive ht hstays

end Commands

section Commit

open RustKv.Types

variable {S J : Type} {k : Str}

theorem applyChange_warms {change : Str × ChangeOp (Value S J)} (h : change ≠ (k, .delete))
    (g : Guard (Value S J)) :
    ∃ g', LuaCacheNode.applyChange (.writeguard g) change = .writeguard g' ∧
      Warms k (decide (change.1 = k)) g.shard g'.shard := by
  obtain ⟨key, c⟩ := change
  cases c with
  | update value => exact ⟨_, rfl, warms_insert g key value⟩
  | delete =>
      have hk : k ≠ key := by
        rintro rfl
        exact h rfl
      refine ⟨_, rfl, (warms_remove g hk).weaken ?_⟩
      intro hw
      exact absurd (of_decide_eq_true hw).symm hk

theorem commit_warms (drained : List (Str × ChangeOp (Value S J))) (h : (k, .delete) ∉ drained)
    (g : Guard (Value S J)) :
    ∃ g', drained.foldl LuaCacheNode.applyChange (.writeguard g) = .writeguard g' ∧
      Warms k ((drained.map Prod.fst).contains k) g.shard g'.shard := by
  induction drained generalizing g with
  | nil => exact ⟨g, rfl, Warms.refl k _⟩
  | cons change drained ih =>
      rw [List.mem_cons, not_or] at h
      obtain ⟨g₁, hg₁, hwarms₁⟩ := applyChange_warms (Ne.symm h.1) g
      obtain ⟨g₂, hg₂, hwarms₂⟩ := ih h.2 g₁
      refine ⟨g₂, by rw [List.foldl_cons, hg₁, hg₂], (hwarms₁.trans hwarms₂).weaken ?_⟩
      simp [eq_comm (a := k)]

end Commit

section Runs

open Protocol RustKv.Types Expiry Zset RustKv.Normal RequestReading Lua Collections

variable {S J : Type} [Host] [F64 S] [SerdeJson J] {t : EvictionType} {db db' : Db (Value S J)} {k : Str}

/-- The frequency that is recorded for a key. -/
def recorded (db : Db (Value S J)) (k : Str) : Option Nat :=
  (db.shards (Host.shardIndex k)).node.evicition.freq k

/-- The script has an entry for the key that it commits. -/
def updates (sessions : Sessions (Value S J)) (k : Str) : Bool :=
  match sessions.lookup (Host.shardIndex k) with
  | some node =>
      match node.differMap.lookup k with
      | some (.update _) => true
      | _ => false
  | none => false

/-- A step of the database while the key is there, with whether it writes the key. No
command takes the entry of the key out of the store, other than in a script. -/
inductive Turn (k : Str) : Db (Value S J) → Bool → Db (Value S J) → Prop
  | normal {db : Db (Value S J)} (rt : Runtime) (now : Nat) (queues : Queues) {c : Command S} (hc : Parsed c)
      (hlive : Live now db k) (ht : ¬ Takes (J := J) rt now (unserved queues) c k) :
      Turn k db (wrote k c (answer rt now queues db c).1) (answer rt now queues db c).2
  | recovery {db : Db (Value S J)} (rt : Runtime) (now : Nat) {c : Command S} (hc : Parsed c)
      (hlive : Live now db k) (ht : ¬ Takes (J := J) rt now (fun c => c.values) c k) :
      Turn k db (wrote k c (execute rt now db c).1) (execute rt now db c).2
  | commit {db : Db (Value S J)} {keys : List Str} {moments : Nat → Moment} {script : Script} {frame : Frame}
      {env : CurrentRequestEnv (Sessions (Value S J)) S}
      {drained : Fin Host.numShards → List (Str × ChangeOp (Value S J))}
      (hlive : ∀ n, Live (moments n).now db k) (h : scriptRun db keys moments script = (.ok frame, env))
      (hd : ∀ i node, env.sessions.lookup i = some node → Drains node.differMap (drained i)) :
      Turn k db (updates env.sessions k) (release db (committed env.sessions drained))
  | rollback {db : Db (Value S J)} {keys : List Str} {moments : Nat → Moment} {script : Script} {text : String}
      {env : CurrentRequestEnv (Sessions (Value S J)) S} (hlive : ∀ n, Live (moments n).now db k)
      (h : scriptRun db keys moments script = (.error text, env)) :
      Turn k db false (release db (abandoned env.sessions))
  | evictionTtl {db : Db (Value S J)} (now sample : Nat) (i : Fin Host.numShards) :
      Turn k db false (db.unlock i (evictionTtl now sample (db.lock i)))
  | evictionMemory {db : Db (Value S J)} (i : Fin Host.numShards) :
      Turn k db false (db.unlock i (evictionMemory (db.lock i)))

theorem Turn.step {w : Bool} (h : Turn k db w db') : Step db db' := by
  cases h with
  | normal rt now queues hc => exact .normal rt now queues hc
  | recovery rt now hc => exact .recovery rt now hc
  | commit hlive h hd => exact .commit h hd
  | rollback hlive h => exact .rollback h
  | evictionTtl now sample i => exact .evictionTtl now sample i
  | evictionMemory i => exact .evictionMemory i

/-- The key stays, and is written `n` times on the way. -/
inductive Run (k : Str) : Db (Value S J) → Nat → Db (Value S J) → Prop
  | start {db : Db (Value S J)} (h : db.entry k ≠ none) : Run k db 0 db
  | turn {db db' db'' : Db (Value S J)} {n : Nat} {w : Bool} (hrun : Run k db n db') (h : Turn k db' w db'')
      (hstays : db''.entry k ≠ none) : Run k db (n + w.toNat) db''

theorem Run.reaches {n : Nat} (h : Run k db n db') : Relation.ReflTransGen Step db db' := by
  induction h with
  | start => exact .refl
  | turn _ h _ ih => exact ih.tail h.step

/-- A script looks the key up, and does not find that it has expired. -/
theorem scriptRun_warms {moments : Nat → Moment} (hlive : ∀ n, Live (moments n).now db k) (keys : List Str)
    (script : Script) {node : LuaCacheNode (Value S J)}
    (hnode : (scriptRun db keys moments script).2.sessions.lookup (Host.shardIndex k) = some node) :
    ∃ g, node.dbStore = .writeguard g ∧ Warms k false (db.shards (Host.shardIndex k)) g.shard := by
  obtain ⟨e, he, -⟩ := hlive 0
  have hexp (n : Nat) : e.isExpired (moments n).now = false := by
    obtain ⟨e', he', hexp⟩ := hlive n
    cases he.symm.trans he'
    exact hexp
  refine Exists.imp (fun g hg => ⟨hg.1, hg.2.2⟩) (scriptRun_base (I := fun store => ∃ g, store = .writeguard g ∧
    g.shard.dbStore.lookup k = some e ∧ Warms k false (db.shards (Host.shardIndex k)) g.shard)
      ?_ ⟨_, rfl, he, Warms.refl k _⟩ keys script hnode)
  rintro n key - _ ⟨g, rfl, hlookup, hwarms⟩
  have hselect := warms_select (k := k) g (moments n).now key ?_
  · obtain ⟨g', hsel, hlookup'⟩ := select_writeguard g (moments n).now key
    rw [hsel] at hselect ⊢
    refine ⟨g', rfl, ?_, hwarms.trans hselect⟩
    rw [hlookup']
    split
    · next hk =>
      subst hk
      rw [live, hlookup]
      simp [Option.filter, hexp n]
    · exact hlookup
  · rintro - e' he'
    cases hlookup.symm.trans he'
    exact hexp n

omit [F64 S] [SerdeJson J] in
theorem unlock_warms {i : Fin Host.numShards} {g : Guard (Value S J)} (h : Sheds (db.shards i) g.shard)
    (hstays : (db.unlock i g).entry k ≠ none) :
    Warms k false (db.shards (Host.shardIndex k)) ((db.unlock i g).shards (Host.shardIndex k)) := by
  simp only [Db.entry, Db.unlock] at hstays ⊢
  by_cases hi : Host.shardIndex k = i
  · subst hi
    rw [Function.update_self] at hstays ⊢
    exact h.warms hstays
  · rw [Function.update_of_ne hi]
    exact Warms.refl k _

omit [Host] [F64 S] [SerdeJson J] in
theorem commit_node_warms {node : LuaCacheNode (Value S J)} {g : Guard (Value S J)}
    (hg : node.dbStore = .writeguard g) {drained : List (Str × ChangeOp (Value S J))}
    (hd : Drains node.differMap drained)
    (hstays : (node.commit drained).dbStore.guard.shard.dbStore.lookup k ≠ none) :
    Warms k ((node.differMap.lookup k).isSome) g.shard (node.commit drained).dbStore.guard.shard := by
  have hdelete : (k, .delete) ∉ drained := by
    intro hmem
    obtain ⟨g', hg', hlookup⟩ := commit_lookup hg hd
    rw [hg'] at hstays
    refine hstays ((hlookup k).trans ?_)
    rw [(hd.2 k .delete).mp hmem]
  obtain ⟨g', hg', hwarms⟩ := commit_warms drained hdelete g
  rw [LuaCacheNode.commit, hg, hg']
  apply hwarms.weaken
  intro hw
  obtain ⟨c, hc⟩ := Option.isSome_iff_exists.mp hw
  rw [List.contains_iff_mem]
  exact List.mem_map.mpr ⟨(k, c), (hd.2 k c).mpr hc, rfl⟩

theorem Turn.warms {w : Bool} (h : Turn k db w db') (hstays : db'.entry k ≠ none) :
    Warms k w (db.shards (Host.shardIndex k)) (db'.shards (Host.shardIndex k)) := by
  cases h with
  | normal rt now queues hc hlive ht => exact answer_warms rt queues hlive ht hstays
  | recovery rt now hc hlive ht => exact execute_warms rt hlive ht hstays
  | @commit keys moments script frame env drained hlive hrun hd =>
      simp only [Db.entry, Lua.release, committed] at hstays ⊢
      rw [updates]
      cases hnode : env.sessions.lookup (Host.shardIndex k) with
      | none => exact Warms.refl k _
      | some node =>
          rw [hnode] at hstays
          obtain ⟨g, hg, hwarms⟩ := scriptRun_warms hlive keys script (by rw [hrun]; exact hnode)
          refine (hwarms.trans (commit_node_warms hg (hd _ node hnode) hstays)).weaken ?_
          intro hw
          simp only at hw
          split at hw
          · next v hc => rw [hc]; rfl
          · cases hw
  | @rollback keys moments script text env hlive hrun =>
      simp only [Lua.release, abandoned]
      cases hnode : env.sessions.lookup (Host.shardIndex k) with
      | none => exact Warms.refl k _
      | some node =>
          obtain ⟨g, hg, hwarms⟩ := scriptRun_warms hlive keys script (by rw [hrun]; exact hnode)
          simp only [Option.map_some, hg]
          exact hwarms
  | evictionTtl now sample i => exact unlock_warms (evictionTtl_sheds now sample (db.lock i)) hstays
  | evictionMemory i => exact unlock_warms (evictionMemory_sheds (db.lock i)) hstays

theorem Run.uses {n : Nat} {calls : List (PolicyCall Str)} (h : Run k db n db')
    (hcalls : EvictionStrategy.run t calls = some (db.shards (Host.shardIndex k)).node.evicition) :
    0 < uses k calls ∧ ∃ calls',
      EvictionStrategy.run t calls' = some (db'.shards (Host.shardIndex k)).node.evicition ∧
      Eviction.uses k calls + n ≤ Eviction.uses k calls' := by
  induction h with
  | start hk =>
      obtain ⟨e, he⟩ := Option.ne_none_iff_exists'.mp hk
      exact ⟨uses_stored hcalls he, calls, hcalls, Nat.le_refl _⟩
  | turn _ hturn hstays ih =>
      obtain ⟨hpos, calls₁, hcalls₁, hle⟩ := ih
      obtain ⟨calls₂, hcalls₂, hle₂⟩ := (hturn.warms hstays).uses hcalls₁ (by omega)
      exact ⟨hpos, calls₂, hcalls₂, by omega⟩

/-- Along a run in which the key stays and is not taken out, LFU counts every write of it. -/
theorem lfu_run_counts {start : Db (Value S J)} {m n : Nat}
    (h : Relation.ReflTransGen Step (Db.new .lfu) start) (hbefore : Run k start m db) (hrun : Run k db n db') :
    ∃ f f', recorded db k = some f ∧ recorded db' k = some f' ∧ f ≤ f' ∧ min 255 (f + n) ≤ f' := by
  have hpoliced : Policed .lfu db := policed_run (h.trans hbefore.reaches)
  obtain ⟨calls, hcalls⟩ := hpoliced (Host.shardIndex k)
  obtain ⟨hpos, calls', hcalls', hle⟩ := hrun.uses hcalls
  refine ⟨min 255 (uses k calls), min 255 (uses k calls'), ?_, ?_, by omega, by omega⟩
  · rw [recorded, run_freq hcalls, if_pos ⟨rfl, hpos⟩]
  · rw [recorded, run_freq hcalls', if_pos ⟨rfl, by omega⟩]

omit [F64 S] [SerdeJson J] in
/-- A command that takes the entry out and puts one back starts the key anew. -/
theorem recorded_taken (h : Policed .lfu db) {e : ValueEntry (Value S J)} (he : db.entry k = some e) (now : Nat)
    {f : Option (ValueEntry (Value S J)) → Done S × PutBack (Value S J)}
    (hstays : (db.access now k (.take f)).2.entry k ≠ none) :
    recorded (db.access now k (.take f)).2 k = some 1 := by
  obtain ⟨calls, hcalls⟩ := h (Host.shardIndex k)
  have hplays := access_plays db now k (.take f) (Host.shardIndex k) .lfu calls hcalls
  rw [(db.access_spec now k (.take f)).2 k, if_pos rfl, he] at hstays
  rw [if_pos rfl, he] at hplays
  simp only [Access.onCell] at hstays
  simp only [accessCalls, removeCalls] at hplays
  cases hput : (f (some e)).2 with
  | nothing | delete =>
      rw [hput] at hstays
      exact absurd rfl hstays
  | insert value =>
      rw [hput] at hplays
      have huses : uses k (calls ++ ([.delete k] ++ [.write k])) = 1 := by
        rw [← List.append_assoc, uses_write, if_pos rfl, uses_delete, if_pos rfl]
      rw [recorded, run_freq hplays]
      simp only [putCalls, huses]
      rfl

end Runs

section Sample

open Protocol RustKv.Types Expiry Zset RustKv.Normal RequestReading Collections

attribute [local instance] singleShard wholeScore flatJson

def hotKey : Str := Str.ofAscii (ascii ['k']) ascii_k

def sampleRequest (words : List Bytes) : Frame := .array (words.map .bulk)

theorem parsed_sample {c : Command UInt64} (words : List Bytes) (h : Fits (sampleRequest words))
    (hc : CommandParser.tryFrom (sampleRequest words) = .ok c) : Parsed c :=
  ⟨_, _, _, FrameRoundTrip.parseFrame_append h [], hc⟩

def hotField : Str := Str.ofAscii (ascii ['f']) (by decide)

/-- HSET k f v. -/
def sampleHSet : Command UInt64 := .hset ⟨hotKey, [(hotField, ascii ['v'])]⟩

/-- HGET k f. -/
def sampleHGet : Command UInt64 := .hget ⟨hotKey, hotField⟩

/-- SET k v. -/
def sampleSet : Command UInt64 := .set ⟨hotKey, ascii ['v'], none, none⟩

theorem sampleHSet_parsed : Parsed sampleHSet := by
  refine parsed_sample [ascii ['H', 'S', 'E', 'T'], ascii ['k'], ascii ['f'], ascii ['v']] ?_ rfl
  simp [sampleRequest, Fits, FitsAll, ascii]

theorem sampleHGet_parsed : Parsed sampleHGet := by
  refine parsed_sample [ascii ['H', 'G', 'E', 'T'], ascii ['k'], ascii ['f']] ?_ rfl
  simp [sampleRequest, Fits, FitsAll, ascii]

theorem sampleSet_parsed : Parsed sampleSet := by
  refine parsed_sample [ascii ['S', 'E', 'T'], ascii ['k'], ascii ['v']] ?_ rfl
  simp [sampleRequest, Fits, FitsAll, ascii]

def afterCommand (db : Db (Value UInt64 Str)) (c : Command UInt64) : Done UInt64 × Db (Value UInt64 Str) :=
  answer ⟨[], 0, 0⟩ 0 ∅ db c

theorem afterCommand_hset (db : Db (Value UInt64 Str)) : afterCommand db sampleHSet =
    db.access 0 hotKey (.take (hsetTaken ⟨[], 0, 0⟩ ⟨hotKey, [(hotField, ascii ['v'])]⟩)) := rfl

/-- A hash that has been written and read. -/
def readHash : Db (Value UInt64 Str) :=
  (afterCommand (afterCommand (Db.new .lfu) sampleHSet).2 sampleHGet).2

theorem readHash_reached : Relation.ReflTransGen Step (Db.new .lfu) readHash :=
  .tail (.single (.normal ⟨[], 0, 0⟩ 0 ∅ sampleHSet_parsed)) (.normal ⟨[], 0, 0⟩ 0 ∅ sampleHGet_parsed)

theorem readHash_entry : readHash.entry hotKey =
    some (newEntry (.hash ((∅ : HashMap).insert hotField (.string (ascii ['v']))) 0 2) none) := rfl

theorem readHash_hset : (afterCommand readHash sampleHSet).1 = .logged (.integer 0) sampleHSet := by
  rw [afterCommand_hset, (readHash.access_spec 0 hotKey _).1, readHash_entry]
  simp [Access.onCell, hsetTaken, newEntry, hsetOnto, hsetAll, sampleHSet]

/-- HSET on the hash that is there starts its frequency anew. -/
theorem hset_resets_frequency :
    Relation.ReflTransGen Step (Db.new .lfu) readHash ∧ Live 0 readHash hotKey ∧
    recorded readHash hotKey = some 2 ∧
    (afterCommand readHash sampleHSet).1.reply = .ok (.integer 0) ∧
    wrote hotKey sampleHSet (afterCommand readHash sampleHSet).1 = true ∧
    Live 0 (afterCommand readHash sampleHSet).2 hotKey ∧
    recorded (afterCommand readHash sampleHSet).2 hotKey = some 1 := by
  have hbefore : Live 0 readHash hotKey := ⟨_, rfl, rfl⟩
  have hafter : Live 0 (afterCommand readHash sampleHSet).2 hotKey := by
    rw [afterCommand_hset]
    have hentry := (readHash.access_spec 0 hotKey
      (.take (hsetTaken (S := UInt64) ⟨[], 0, 0⟩ ⟨hotKey, [(hotField, ascii ['v'])]⟩))).2 hotKey
    rw [if_pos rfl, readHash_entry] at hentry
    exact ⟨_, hentry, rfl⟩
  refine ⟨readHash_reached, hbefore, by decide +kernel, ?_, ?_, hafter, ?_⟩
  · rw [readHash_hset]
    rfl
  · rw [readHash_hset]
    rfl
  · obtain ⟨e, he, -⟩ := hafter
    rw [afterCommand_hset] at he ⊢
    refine recorded_taken (policed_run readHash_reached) readHash_entry 0 ?_
    rw [he]
    exact Option.some_ne_none e

/-- A string that has been written once. -/
def writtenString : Db (Value UInt64 Str) := (afterCommand (Db.new .lfu) sampleSet).2

theorem writtenString_reached : Relation.ReflTransGen Step (Db.new .lfu) writtenString :=
  .single (.normal ⟨[], 0, 0⟩ 0 ∅ sampleSet_parsed)

theorem writtenString_stored : writtenString.entry hotKey ≠ none := by
  rintro ⟨⟩

theorem writtenString_run : Run hotKey writtenString 1 (afterCommand writtenString sampleSet).2 := by
  refine .turn (.start writtenString_stored) (.normal ⟨[], 0, 0⟩ 0 ∅ sampleSet_parsed ⟨_, rfl, rfl⟩ ?_) ?_
  · rintro ⟨f, ⟨⟩⟩
  · rintro ⟨⟩

theorem set_counts_sample :
    Relation.ReflTransGen Step (Db.new .lfu) writtenString ∧
    Run hotKey writtenString 1 (afterCommand writtenString sampleSet).2 ∧
    ∃ f f', recorded writtenString hotKey = some f ∧
      recorded (afterCommand writtenString sampleSet).2 hotKey = some f' ∧ f ≤ f' ∧ min 255 (f + 1) ≤ f' :=
  ⟨writtenString_reached, writtenString_run,
    lfu_run_counts writtenString_reached (.start writtenString_stored) writtenString_run⟩

end Sample

end RustKv.Frequency
