import RustKv.CommandSteps

namespace RustKv.Clones

open Text Protocol Domain CacheStore Zset RustKv.Types Executor RequestReading Expiry RustKv.Normal Lua
  Collections

section Values

variable {S J T : Type}

/-- A clone of a list or of the nodes of a sorted set has no room to spare. That of a
hash table has as many buckets. -/
def cloneValue : Value S J → Value S J
  | .list deque _ elementsHeap => .list deque (UInt64.ofNat deque.length) elementsHeap
  | .zset zset size =>
      .zset { zset with nodesCapacity := UInt64.ofNat zset.zsl.list.nodes.length } size
  | .simple el => .simple el
  | .hash map capacity elementsHeap => .hash map capacity elementsHeap
  | .json root size => .json root size

/-- The size is copied as it is. -/
def cloneEntry (e : ValueEntry (Value S J)) : ValueEntry (Value S J) := { e with data := cloneValue e.data }

/-- A script that takes an entry from the shard gets a clone of it. -/
def cloning : Access T (Value S J) → Access T (Value S J)
  | .take f => .take (fun entry => f (entry.map cloneEntry))
  | .select f => .select f
  | .insert value done => .insert value done
  | .read f => .read f

end Values

structure CloningNode (S J : Type) where
  node : LuaCacheNode (Value S J)

section Nodes

variable {S J T : Type}

def CloningNode.take (n : CloningNode S J) (now : Nat) (key : Str) :
    Option (ValueEntry (Value S J)) × CloningNode S J :=
  let (entry, node) := n.node.take now key
  match n.node.differMap.lookup key with
  | some _ => (entry, ⟨node⟩)
  | none => (entry.map cloneEntry, ⟨node⟩)

instance : KvOperator (CloningNode S J) (Value S J) where
  insert n now key value := ⟨n.node.insert now key value⟩
  select n now key := ((n.node.select now key).1, ⟨(n.node.select now key).2⟩)
  take := CloningNode.take
  delete n now key := ⟨n.node.delete now key⟩

/-- What an access does that finds these changes of the script at its key. -/
def through (change : Option (ChangeOp (Value S J))) (a : Access T (Value S J)) : Access T (Value S J) :=
  match change with
  | some _ => a
  | none => cloning a

theorem putBack_cloning (put : PutBack (Value S J)) (now : Nat) (key : Str) (node : LuaCacheNode (Value S J)) :
    put.run now key (CloningNode.mk node) = ⟨put.run now key node⟩ := by
  cases put <;> rfl

theorem run_cloning (a : Access T (Value S J)) (now : Nat) (key : Str) (node : LuaCacheNode (Value S J)) :
    a.run now key (CloningNode.mk node) =
      (((through (node.differMap.lookup key) a).run now key node).1,
        ⟨((through (node.differMap.lookup key) a).run now key node).2⟩) := by
  cases a with
  | take f =>
      simp only [Access.run, KvOperator.take, CloningNode.take]
      cases hl : node.differMap.lookup key <;> simp only [through, cloning, putBack_cloning]
  | select f =>
      have hthrough (change : Option (ChangeOp (Value S J))) : through change (.select f) = .select f := by
        cases change <;> rfl
      simp only [hthrough, Access.run, KvOperator.select, putBack_cloning]
  | insert value done =>
      cases node.differMap.lookup key <;> rfl
  | read f =>
      cases node.differMap.lookup key <;> rfl

end Nodes

structure CloningSessions (S J : Type) [Host] where
  sessions : Sessions (Value S J)

section Sessions

variable {S J T : Type} [Host]

def CloningSessions.access (s : CloningSessions S J) (now : Nat) (key : Str) (a : Access T (Value S J)) :
    Done T × CloningSessions S J :=
  let i := Host.shardIndex key
  match s.sessions.lookup i with
  | some node =>
      let (done, node) := a.run now key (CloningNode.mk node)
      (done, ⟨s.sessions.insert i node.node⟩)
  | none => (⟨.error (undeclared i), none, false⟩, s)

instance : Context (CloningSessions S J) (Value S J) := ⟨CloningSessions.access⟩

/-- What the script has done to the key itself. -/
def ownChange (sessions : Sessions (Value S J)) (key : Str) : Option (ChangeOp (Value S J)) :=
  (sight sessions key).bind LuaCell.change

/-- An access with clones is one without them that clones what it takes from the shard. -/
theorem access_cloning (s : CloningSessions S J) (now : Nat) (key : Str) (a : Access T (Value S J)) :
    s.access now key a = ((s.sessions.access now key (through (ownChange s.sessions key) a)).1,
      ⟨(s.sessions.access now key (through (ownChange s.sessions key) a)).2⟩) := by
  cases hl : s.sessions.lookup (Host.shardIndex key) with
  | none => simp only [CloningSessions.access, Sessions.access, hl]
  | some node =>
      have hown : ownChange s.sessions key = node.differMap.lookup key := by simp [ownChange, sight, hl, nodeCell]
      simp only [CloningSessions.access, Sessions.access, hl, hown, run_cloning]

end Sessions

section Steps

variable {S J : Type} [Host] [F64 S] [SerdeJson J]

/-- The entry that the script clones if it takes the key. -/
def shared (sessions : Sessions (Value S J)) (now : Nat) (key : Str) : Option (ValueEntry (Value S J)) :=
  match ownChange sessions key with
  | some _ => none
  | none => seen sessions now key

def scriptRun (db : Db (Value S J)) (keys : List Str) (moments : Nat → Moment) (script : Script) :
    Except String Frame × CurrentRequestEnv (CloningSessions S J) S :=
  Script.run moments 0 script ⟨⟨lockAll db (shardIndices keys)⟩, []⟩

/-- A call meets `Q` at the entry that it finds, and `R` at the one of which it gets a clone. -/
def CallMeets (Q R : Condition S J) (env : CurrentRequestEnv (CloningSessions S J) S) (moment : Moment)
    (command : Command S) : Prop :=
  Meets Q moment.rt moment.now (fun c => c.values) command
    (fun key _ => seen env.sessions.sessions moment.now key) ∧
  Meets R moment.rt moment.now (fun c => c.values) command
    (fun key _ => shared env.sessions.sessions moment.now key)

/-- One step of a database whose commands all meet `Q`. In a script that ends well they
meet `R` where they clone an entry of the shard. -/
inductive Step (Q R : Condition S J) : Db (Value S J) → Db (Value S J) → Prop
  | normal {db : Db (Value S J)} (rt : Runtime) (now : Nat) (queues : Queues) {c : Command S} (hc : Parsed c)
      (hq : Meets Q rt now (unserved queues) c (fun key => finds now (db.entry key))) :
      Step Q R db (answer rt now queues db c).2
  | recovery {db : Db (Value S J)} (rt : Runtime) (now : Nat) {c : Command S} (hc : Parsed c)
      (hq : Meets Q rt now (fun c => c.values) c (fun key => finds now (db.entry key))) :
      Step Q R db (execute rt now db c).2
  | commit {db : Db (Value S J)} {keys : List Str} {moments : Nat → Moment} {script : Script} {frame : Frame}
      {env : CurrentRequestEnv (CloningSessions S J) S}
      {drained : Fin Host.numShards → List (Str × ChangeOp (Value S J))}
      (h : scriptRun db keys moments script = (.ok frame, env))
      (hd : ∀ i node, env.sessions.sessions.lookup i = some node → Drains node.differMap (drained i))
      (hq : Script.Calls (CallMeets Q R) moments 0 script ⟨⟨lockAll db (shardIndices keys)⟩, []⟩) :
      Step Q R db (release db (committed env.sessions.sessions drained))
  | rollback {db : Db (Value S J)} {keys : List Str} {moments : Nat → Moment} {script : Script} {text : String}
      {env : CurrentRequestEnv (CloningSessions S J) S}
      (h : scriptRun db keys moments script = (.error text, env)) :
      Step Q R db (release db (abandoned env.sessions.sessions))
  | evictionTtl {db : Db (Value S J)} (now sample : Nat) (i : Fin Host.numShards) :
      Step Q R db (db.unlock i (evictionTtl now sample (db.lock i)))
  | evictionMemory {db : Db (Value S J)} (i : Fin Host.numShards) :
      Step Q R db (db.unlock i (evictionMemory (db.lock i)))

theorem Step.free {Q R : Condition S J} {db db' : Db (Value S J)} (h : Step Q R db db') :
    Step (fun _ _ _ => True) (fun _ _ _ => True) db db' := by
  have hcalls (moments : Nat → Moment) (script : Script) (n : Nat)
      (env : CurrentRequestEnv (CloningSessions S J) S) :
      Script.Calls (CallMeets (fun _ _ _ => True) (fun _ _ _ => True)) moments n script env := by
    induction script generalizing n env with
    | ret frame => trivial
    | fail text => trivial
    | call c next ih => exact ⟨fun _ _ => ⟨fun _ _ _ => trivial, fun _ _ _ => trivial⟩, ih _ _ _⟩
  cases h with
  | normal rt now queues hc => exact .normal rt now queues hc (fun _ _ _ => trivial)
  | recovery rt now hc => exact .recovery rt now hc (fun _ _ _ => trivial)
  | commit hrun hd => exact .commit hrun hd (hcalls _ _ _ _)
  | rollback hrun => exact .rollback hrun
  | evictionTtl now sample i => exact .evictionTtl now sample i
  | evictionMemory i => exact .evictionMemory i

def Reachable (db : Db (Value S J)) : Prop :=
  ∃ configType, Relation.ReflTransGen (Step (fun _ _ _ => True) (fun _ _ _ => True)) (Db.new configType) db

variable {P : ValueEntry (Value S J) → Prop} {Q R : Condition S J}

/-- Under the conditions the commands put back entries of `P` for entries of `P`, and for
clones of such entries. -/
structure Preserves (P : ValueEntry (Value S J) → Prop) (Q R : Condition S J) : Prop extends
    Collections.Preserves P Q where
  cloned : ∀ {rt : Runtime} {now : Nat} {c : Command S} {key : Str} {a : Access S (Value S J)}
    {found : Option (ValueEntry (Value S J))}, Parsed c → Expiry.keyed rt now (fun c => c.values) c = some (key, a) →
    Q c a found → R c a found → Within P found → Restores P found (cloning a)

omit [F64 S] [SerdeJson J] in
theorem access_in {s : CloningSessions S J} (h : SessionsIn P s.sessions) {now : Nat} {key : Str}
    {a : Access S (Value S J)}
    (ha : Restores P (seen s.sessions now key) (through (ownChange s.sessions key) a)) :
    SessionsIn P (Context.access s now key a).2.sessions := by
  change SessionsIn P (s.access now key a).2.sessions
  rw [access_cloning]
  exact h.access ha

theorem Preserves.through (hp : Preserves P Q R) {s : CloningSessions S J} (h : SessionsIn P s.sessions)
    {rt : Runtime} {now : Nat} {c : Command S} (hc : Parsed c)
    (hq : Meets Q rt now (fun c => c.values) c (fun key _ => seen s.sessions now key))
    (hr : Meets R rt now (fun c => c.values) c (fun key _ => shared s.sessions now key)) {key : Str}
    {a : Access S (Value S J)} (hk : keyed rt now (fun c => c.values) c = some (key, a)) :
    Restores P (seen s.sessions now key) (Clones.through (ownChange s.sessions key) a) := by
  have hfound := h.seen now key
  have hshared : R c a (shared s.sessions now key) := hr key a hk
  cases hown : ownChange s.sessions key with
  | some change => exact hp.keyed hc hk (hq key a hk) hfound
  | none =>
      simp only [shared, hown] at hshared
      exact hp.cloned hc hk (hq key a hk) hshared hfound

theorem redisCall_in (hp : Preserves P Q R) {env : CurrentRequestEnv (CloningSessions S J) S}
    (h : SessionsIn P env.sessions.sessions) {moment : Moment} {c : Call}
    (hq : ∀ command, CommandParser.tryFrom (.array (c.args.map .bulk)) = .ok command → CallMeets Q R env moment command) :
    SessionsIn P (redisCall moment env c).2.sessions.sessions := by
  cases hcommand : CommandParser.tryFrom (S := S) (.array (c.args.map .bulk)) with
  | error e =>
      simp only [redisCall, hcommand]
      exact h
  | ok command =>
      obtain ⟨hq, hr⟩ := hq command hcommand
      have hmset (change : Option (ChangeOp (Value S J))) (value : Bytes) (found : Option (ValueEntry (Value S J))) :
          Restores P found (through change (.insert (msetEntry value) (.ok .null) : Access S (Value S J))) := by
        cases change <;> exact hp.mset value
      have hget (change : Option (ChangeOp (Value S J))) (found : Option (ValueEntry (Value S J))) :
          Restores P found (through change (getAccess : Access S (Value S J))) := by
        cases change <;> trivial
      have hnext : SessionsIn P (execute moment.rt moment.now env.sessions command).2.sessions :=
        execute_keeps (I := fun s : CloningSessions S J => SessionsIn P s.sessions)
          (fun _ _ value hs => access_in hs (hmset _ value _)) (fun _ _ hs => access_in hs (hget _ _))
          (fun _ _ hk => access_in h (hp.through h (parsed_call hcommand) hq hr hk)) h
      rw [redisCall_eq moment env hcommand]
      split <;> exact hnext

theorem run_in (hp : Preserves P Q R) (script : Script) {env : CurrentRequestEnv (CloningSessions S J) S}
    (h : SessionsIn P env.sessions.sessions) {moments : Nat → Moment} {n : Nat}
    (hq : Script.Calls (CallMeets Q R) moments n script env) :
    SessionsIn P (Script.run moments n script env).2.sessions.sessions := by
  induction script generalizing n env with
  | ret frame => exact h
  | fail text => exact h
  | call c next ih => exact ih _ (redisCall_in hp h hq.1) hq.2

/-- What an access without clones keeps, whatever it does, a script with clones keeps. -/
theorem cloning_keeps {I : Sessions (Value S J) → Prop} {moments : Nat → Moment}
    (hI : ∀ n sessions key (a : Access S (Value S J)), I sessions → I (sessions.access (moments n).now key a).2)
    {db : Db (Value S J)} {keys : List Str} (script : Script) (h : I (lockAll db (shardIndices keys))) :
    I (scriptRun db keys moments script).2.sessions.sessions := by
  refine script_keeps (I := fun s : CloningSessions S J => I s.sessions) (fun n s key a hs => ?_) script 0 h
  change I (s.access (moments n).now key a).2.sessions
  rw [access_cloning]
  exact hI n s.sessions key _ hs

theorem step_in (hp : Preserves P Q R) {db db' : Db (Value S J)} (h : AllIn P db) (hs : Step Q R db db') :
    AllIn P db' := by
  have hlocked (keys : List Str) : SessionsIn P (lockAll db (shardIndices keys)) := h.lockAll _
  cases hs with
  | normal rt now queues hc hq => exact h.answer hp.toPreserves hc hq
  | recovery rt now hc hq => exact h.execute hp.toPreserves hc hq
  | @commit keys moments script frame env drained hrun hd hq =>
      have hin : SessionsIn P (scriptRun db keys moments script).2.sessions.sessions :=
        run_in hp script (hlocked keys) hq
      rw [hrun] at hin
      exact h.commit hin hd
  | @rollback keys moments script text env hrun =>
      have hbases : BasesIn P (scriptRun db keys moments script).2.sessions.sessions :=
        cloning_keeps (fun n _ key a hb => hb.access (moments n).now key a) script (hlocked keys).basesIn
      rw [hrun] at hbases
      exact h.abandon hbases
  | evictionTtl now sample i => exact h.evict (evictionTtl_evicts now sample (db.lock i))
  | evictionMemory i => exact h.evict (evictionMemory_evicts (db.lock i))

/-- Every database that comes out of an empty one by such steps has all its entries in `P`. -/
theorem run_all_in (hp : Preserves P Q R) {configType : Eviction.EvictionType} {db : Db (Value S J)}
    (h : Relation.ReflTransGen (Step Q R) (Db.new configType) db) : AllIn P db := by
  induction h with
  | refl =>
      intro k
      rw [Db.entry_new]
      exact within_none
  | tail _ hs ih => exact step_in hp ih hs

end Steps

end RustKv.Clones
