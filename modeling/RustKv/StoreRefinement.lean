import RustKv.Clones
import RustKv.KeyspaceRuns
import RustKv.NanScores

namespace RustKv.Abstract

open Text Protocol Domain CommandParser CacheStore Zset RustKv.Types Executor Expiry RustKv.Normal Lua
  Collections Traces

section Store

variable {S J : Type} [Host] [LinearOrder S] [F64 S] [SerdeJson J] {P : S → Prop} {n n' now : Nat}

section Databases

variable {db : Db (Value S J)} {m : Keyspace S J}

def openAt (now : Nat) : Setting := settingAt (fun _ => none) now now

/-- A database for its clients: each key holds the item that its entry is. -/
def Pictures (P : S → Prop) (n : Nat) (db : Db (Value S J)) (m : Keyspace S J) : Prop :=
  ∀ k, Option.Rel (Depicts P n) (db.entry k) (m k)

omit [F64 S] [SerdeJson J] in
theorem Pictures.access (h : Pictures P n db m) (hn : n ≤ n') {a : Access S (Value S J)}
    {f : Option (Item S J) → Answer S J} (ha : Agrees P n n' now a f) (key : Str) :
    (db.access now key a).1 = (m.onKey (openAt now) key f).1 ∧
      Pictures P n' (db.access now key a).2 (m.onKey (openAt now) key f).2 := by
  obtain ⟨hdone, hentry⟩ := db.access_spec now key a
  obtain ⟨hagrees, hnext⟩ := ha _ _ (h key)
  refine ⟨hdone.trans hagrees, fun k => ?_⟩
  simp only [Keyspace.onKey, openAt, settingAt]
  rw [hentry, Function.update_apply]
  split
  · exact hnext
  · exact depicts_mono (h k) hn

omit [F64 S] [SerdeJson J] in
theorem pictures_tracks : Tracks P (Pictures (J := J) P) (fun _ => none) now now where
  mono hn h k := depicts_mono (h k) hn
  access key hn ha h := h.access hn ha key

theorem Pictures.answer (h : Pictures P n db m) (cmp : Compares P) (now : Nat) (rt : Runtime) (queues : Queues)
    {c : Command S} (hc : Regular P c) (hn : n < 2 ^ 63) :
    (answer rt now queues db c).1 = (m.execute (openAt now) (unserved queues) c).1 ∧
      Pictures P (n + 1) (answer rt now queues db c).2 (m.execute (openAt now) (unserved queues) c).2 := by
  cases hk : keyed (J := J) rt now (unserved queues) c with
  | some p =>
      obtain ⟨key, a⟩ := p
      obtain ⟨f, hf, hagrees⟩ := served_agrees (fun _ => none) now cmp hc hn hk
      unfold Keyspace.execute
      rw [answer_keyed hk, openAt, hf]
      exact h.access (Nat.le_succ n) hagrees key
  | none =>
      have hsame : m.execute (openAt now) (unserved queues) c = m.execute (openAt now) LPushCommand.values c := by
        cases c with
        | lpush c => cases hk
        | get | set | ping | unimplement | eval | lpop | blpop | hset | hget | hdel | mset | mget | multi | exec
        | multiGroup | jsonSet | jsonGet | zadd | zscore | zrank | zrange | zrem => rfl
      have hanswer : Expiry.answer rt now queues db c = execute rt now db c := by
        cases c with
        | lpush c => cases hk
        | get | set | ping | unimplement | eval | lpop | blpop | hset | hget | hdel | mset | mget | multi | exec
        | multiGroup | jsonSet | jsonGet | zadd | zscore | zrank | zrange | zrem => rfl
      rw [hsame, hanswer]
      exact pictures_tracks.execute rt cmp hc hn h

end Databases

section Drafts

def refusal (keys : List Str) (key : Str) : Option KvError :=
  if (shardIndices keys).contains (Host.shardIndex key) then none else some (undeclared (Host.shardIndex key))

def scriptAt (keys : List Str) (now : Nat) : Setting := settingAt (refusal keys) 0 now

/-- The overlay of a script for its calls: `d` is what they have made of the live items of `m`. -/
structure Drafts (P : S → Prop) (keys : List Str) (now : Nat) (base : Cells (Value S J)) (m : Keyspace S J)
    (n : Nat) (o : Overlay (Value S J)) (d : Keyspace S J) : Prop where
  declared : ∀ i, o.declared i = decide (i ∈ shardIndices keys)
  seen : ∀ k, Host.shardIndex k ∈ shardIndices keys → Option.Rel (Depicts P n) ((o.cells k).view now) (d k)
  unwritten : ∀ k, (Host.shardIndex k ∈ shardIndices keys → (o.cells k).change = none) → d k = live now (m k)
  below : ∀ k, Host.shardIndex k ∈ shardIndices keys → (o.cells k).base = base k ∨
    ((o.cells k).base = none ∧ unlessExpired now (base k) = none)

variable {keys : List Str} {base : Cells (Value S J)} {m d : Keyspace S J} {o : Overlay (Value S J)}

omit [Host] [LinearOrder S] [F64 S] [SerdeJson J] in
/-- Whatever a script does, it leaves below its changes what was there, but for an expired entry. -/
theorem run_below {c : LuaCell (Value S J)} {e : Option (ValueEntry (Value S J))}
    (h : c.base = e ∨ (c.base = none ∧ unlessExpired now e = none)) (a : Access S (Value S J)) (key : Str) :
    (a.run now key c).2.base = e ∨ ((a.run now key c).2.base = none ∧ unlessExpired now e = none) := by
  by_cases hlive : unlessExpired now c.base = c.base
  · rw [LuaCell.run_base hlive]
    exact h
  · have hexpired : unlessExpired now c.base = none := (unlessExpired_cases now c.base).resolve_left hlive
    rcases h with hbase | ⟨hbase, hnone⟩
    · rw [hbase] at hexpired
      have hwithin : Within (fun x => e = some x) (a.run now key c).2.base :=
        Within.run_base (by rw [hbase]; exact fun x hx => hx) a now key
      cases hb : (a.run now key c).2.base with
      | none => exact .inr ⟨rfl, hexpired⟩
      | some x => exact .inl (hwithin x hb).symm
    · rw [hbase] at hlive
      exact absurd rfl hlive

omit [Host] [LinearOrder S] [F64 S] [SerdeJson J] in
theorem view_leaves {c c' : LuaCell (Value S J)} {e : Option (ValueEntry (Value S J))}
    (h : LuaCell.Leaves now c c' e) : c'.view now = e := by
  rcases h with ⟨change, hchange, hvalue⟩ | ⟨hnone, rfl, rfl⟩
  · rw [view_change hchange, hvalue]
  · rw [view_none (by rw [select_change]; exact hnone), view_none hnone, LuaCell.select, hnone]
    exact unlessExpired_idem _

omit [F64 S] [SerdeJson J] in
theorem Drafts.mono (h : Drafts P keys now base m n o d) (hn : n ≤ n') : Drafts P keys now base m n' o d where
  declared := h.declared
  seen k hk := depicts_mono (h.seen k hk) hn
  unwritten := h.unwritten
  below := h.below

omit [F64 S] [SerdeJson J] in
theorem Drafts.access (h : Drafts P keys now base m n o d) (hn : n ≤ n') {a : Access S (Value S J)}
    {f : Option (Item S J) → Answer S J} (ha : Agrees P n n' 0 a f) (key : Str) :
    (Context.access o now key a).1 = (d.onKey (scriptAt keys now) key f).1 ∧
      Drafts P keys now base m n' (Context.access o now key a).2 (d.onKey (scriptAt keys now) key f).2 := by
  simp only [Context.access, Keyspace.onKey, scriptAt, settingAt, refusal, h.declared, decide_eq_true_eq,
    List.contains_iff_mem]
  by_cases hkey : Host.shardIndex key ∈ shardIndices keys
  · simp only [if_pos hkey]
    obtain ⟨hdone, hleaves⟩ := LuaCell.run_view a now key (o.cells key)
    obtain ⟨hagrees, hnext⟩ := ha _ _ (h.seen key hkey)
    refine ⟨hdone.trans hagrees, h.declared, fun k hk => ?_, fun k hk => ?_, fun k hk => ?_⟩
    · simp only [Function.update_apply]
      split
      · rw [view_leaves hleaves]
        exact hnext
      · exact depicts_mono (h.seen k hk) hn
    · simp only [Function.update_apply] at hk ⊢
      split
      · next he =>
          -- the script has not written the key, so the command left what it found
          subst he
          rw [if_pos rfl] at hk
          rcases hleaves with ⟨change, hchange, -⟩ | ⟨hnone, -, hvalue⟩
          · rw [hk hkey] at hchange
            cases hchange
          · rw [hvalue] at hnext
            rw [← h.unwritten k (fun _ => hnone)]
            exact (depicts_unique (depicts_mono (h.seen k hkey) hn) hnext).symm
      · next he =>
          refine h.unwritten k (fun hd => ?_)
          have hchange := hk hd
          rwa [if_neg he] at hchange
    · simp only [Function.update_apply]
      split
      · next he =>
          subst he
          exact run_below (h.below k hk) a k
      · exact h.below k hk
  · simp only [if_neg hkey]
    exact ⟨trivial, h.mono hn⟩

omit [Host] [F64 S] [SerdeJson J] in
theorem Depicts.clone {e : ValueEntry (Value S J)} {x : Item S J} (h : Depicts P n e x) :
    Depicts P n (Clones.cloneEntry e) x := by
  cases h with
  | text => exact .text _ _ _
  | list => exact .list _ _ _ _ _
  | hash _ _ _ _ _ _ shows => exact .hash _ _ _ _ _ _ shows
  | sorted z _ _ _ indexed small =>
      exact .sorted { z with nodesCapacity := _ } _ _ _ ⟨indexed.within, indexed.indexes⟩ small
  | json => exact .json _ _ _ _

omit [Host] [F64 S] [SerdeJson J] in
theorem depicts_clone {e : Option (ValueEntry (Value S J))} {x : Option (Item S J)}
    (h : Option.Rel (Depicts P n) e x) : Option.Rel (Depicts P n) (e.map Clones.cloneEntry) x := by
  cases h with
  | none => exact .none
  | some h => exact .some h.clone

omit [Host] [F64 S] [SerdeJson J] in
/-- What a command makes of a clone is what it makes of the entry. -/
theorem Agrees.through {time : Nat} {a : Access S (Value S J)} {f : Option (Item S J) → Answer S J}
    (h : Agrees P n n' time a f) (change : Option (ChangeOp (Value S J))) :
    Agrees P n n' time (Clones.through change a) f := by
  cases change with
  | some change => exact h
  | none =>
      cases a with
      | take g => exact fun e x hx => h _ x (depicts_clone hx)
      | select g => exact h
      | insert value done => exact h
      | read g => exact h

omit [F64 S] [SerdeJson J] in
theorem drafts_tracks : Tracks P
    (fun n (s : Clones.CloningSessions S J) d => ∃ o, Reflects s.sessions o ∧ Drafts P keys now base m n o d)
    (refusal keys) 0 now where
  mono hn h := by
    obtain ⟨o, hr, hd⟩ := h
    exact ⟨o, hr, hd.mono hn⟩
  access {n n' s d a f} key hn ha h := by
    obtain ⟨o, hr, hd⟩ := h
    have hthrough := ha.through (Clones.ownChange s.sessions key)
    obtain ⟨hdone, hr'⟩ := Reflects.simulates now _ (Clones.through (Clones.ownChange s.sessions key) a) _ o hr
    obtain ⟨hdone', hd'⟩ := hd.access hn hthrough key
    change (s.access now key a).1 = _ ∧ ∃ o, Reflects (s.access now key a).2.sessions o ∧ _
    rw [Clones.access_cloning]
    exact ⟨hdone.trans hdone', _, hr', hd'⟩

omit [F64 S] [SerdeJson J] in
theorem drafts_start {db : Db (Value S J)} (h : Pictures P n db m) (keys : List Str) (now : Nat) :
    Drafts P keys now db.entry m n (lockedOverlay (shardIndices keys) db.entry) (fun k => live now (m k)) where
  declared _ := rfl
  seen k hk := by
    simp only [lockedOverlay, if_pos hk]
    exact depicts_live (h k) now
  unwritten _ _ := rfl
  below k hk := by
    simp only [lockedOverlay, if_pos hk]
    exact .inl trivial

/-- What a script that has committed leaves: what its calls made of the key, or what the key
held where they made nothing of it. -/
def Commits (now : Nat) (m d m' : Keyspace S J) : Prop := ∀ k, m' k = d k ∨ (d k = live now (m k) ∧ m' k = m k)

/-- Items may go that are over. -/
def Sweeps (now : Nat) (m m' : Keyspace S J) : Prop := ∀ k, m' k = m k ∨ (live now (m k) = none ∧ m' k = none)

omit [F64 S] [SerdeJson J] in
theorem Drafts.commit {db : Db (Value S J)} (h : Drafts P keys now db.entry m n o d) (hdb : Pictures P n db m)
    {sessions : Sessions (Value S J)} (hr : Reflects sessions o)
    {drained : Fin Host.numShards → List (Str × ChangeOp (Value S J))}
    (hdrained : ∀ i node, sessions.lookup i = some node → Drains node.differMap (drained i)) :
    ∃ m', Commits now m d m' ∧ Pictures P n (release db (committed sessions drained)) m' := by
  have hkey : ∀ k, ∃ x, (x = d k ∨ (d k = live now (m k) ∧ x = m k)) ∧
      Option.Rel (Depicts P n) ((release db (committed sessions drained)).entry k) x := by
    intro k
    rw [release_entry db hr hdrained, h.declared]
    simp only [decide_eq_true_eq]
    by_cases hk : Host.shardIndex k ∈ shardIndices keys
    · rw [if_pos hk]
      cases hchange : (o.cells k).change with
      | some change =>
          refine ⟨d k, .inl rfl, ?_⟩
          have hseen := h.seen k hk
          rw [view_change hchange] at hseen
          rw [LuaCell.committed, hchange]
          exact hseen
      | none =>
          have hd := h.unwritten k (fun _ => hchange)
          rw [LuaCell.committed, hchange]
          rcases h.below k hk with hbase | ⟨hbase, hexpired⟩
          · exact ⟨m k, .inr ⟨hd, rfl⟩, by rw [hbase]; exact hdb k⟩
          · have hlive := depicts_live (hdb k) now
            rw [hexpired] at hlive
            exact ⟨d k, .inl rfl, by rw [hbase, hd]; exact hlive⟩
    · rw [if_neg hk]
      exact ⟨m k, .inr ⟨h.unwritten k (fun hd => absurd hd hk), rfl⟩, hdb k⟩
  choose m' hm' hentry using hkey
  exact ⟨m', hm', hentry⟩

omit [F64 S] [SerdeJson J] in
theorem Pictures.sweep {db db' : Db (Value S J)} (h : Pictures P n db m)
    (hdb : ∀ k, db'.entry k = db.entry k ∨ (db'.entry k = none ∧ unlessExpired now (db.entry k) = none)) :
    ∃ m', Sweeps now m m' ∧ Pictures P n db' m' := by
  have hkey : ∀ k, ∃ x, (x = m k ∨ (live now (m k) = none ∧ x = none)) ∧
      Option.Rel (Depicts P n) (db'.entry k) x := by
    intro k
    rcases hdb k with hsame | ⟨hnone, hexpired⟩
    · exact ⟨m k, .inl rfl, by rw [hsame]; exact h k⟩
    · exact ⟨none, .inr ⟨live_none (h k) hexpired, rfl⟩, by rw [hnone]; exact .none⟩
  choose m' hm' hentry using hkey
  exact ⟨m', hm', hentry⟩

omit [F64 S] [SerdeJson J] in
theorem Drafts.rollback {db : Db (Value S J)} (h : Drafts P keys now db.entry m n o d) (hdb : Pictures P n db m)
    {sessions : Sessions (Value S J)} (hr : Reflects sessions o) :
    ∃ m', Sweeps now m m' ∧ Pictures P n (release db (abandoned sessions)) m' := by
  refine hdb.sweep (fun k => ?_)
  simp only [Db.entry, release, abandoned]
  cases hl : sessions.lookup (Host.shardIndex k) with
  | none => exact .inl rfl
  | some node =>
      have hk : Host.shardIndex k ∈ shardIndices keys := by
        have hdeclared := hr.declared (Host.shardIndex k)
        rw [h.declared, hl] at hdeclared
        exact of_decide_eq_true hdeclared
      have hbelow := h.below k hk
      rw [← hr.cells k node hl] at hbelow
      exact hbelow

end Drafts

section Steps

/-- What is seen of a step of a store: a command and what it gives back, with the values of
an LPUSH that were left to push; a script with the commands it called, those it logged and
its result; a round of the TTL sweep; an eviction. -/
inductive Observation (S : Type) [Host]
  | command (now : Nat) (values : LPushCommand → List Bytes) (c : Command S) (done : Done S)
  | script (now : Nat) (keys : List Str) (script : Script) (calls logged : List (Command S))
      (result : Except String Frame)
  | swept (now : Nat)
  | evicted

def Observation.commands : Observation S → List (Command S)
  | .command _ _ c _ => [c]
  | .script _ _ _ calls _ _ => calls
  | .swept _ | .evicted => []

def calls (db : Db (Value S J)) (keys : List Str) (moments : Nat → Moment) (script : Script) : List (Command S) :=
  called moments 0 script ⟨Clones.CloningSessions.mk (lockAll db (shardIndices keys)), []⟩

/-- A step of the store: the shards with their policies, locks and sizes. A script takes
clones from them, and while it runs its clock stands still. -/
inductive Happens : Db (Value S J) → Observation S → Db (Value S J) → Prop
  | normal (db : Db (Value S J)) (rt : Runtime) (now : Nat) (queues : Queues) {c : Command S}
      (hc : ∀ e, c ≠ .eval e) :
      Happens db (.command now (unserved queues) c (answer rt now queues db c).1) (answer rt now queues db c).2
  | recovery (db : Db (Value S J)) (rt : Runtime) (now : Nat) (c : Command S) :
      Happens db (.command now LPushCommand.values c (execute rt now db c).1) (execute rt now db c).2
  | commit {db : Db (Value S J)} {now : Nat} {keys : List Str} {moments : Nat → Moment} {script : Script}
      {frame : Frame} {env : CurrentRequestEnv (Clones.CloningSessions S J) S}
      {drained : Fin Host.numShards → List (Str × ChangeOp (Value S J))}
      (hmoments : ∀ i, (moments i).now = now) (h : Clones.scriptRun db keys moments script = (.ok frame, env))
      (hd : ∀ i node, env.sessions.sessions.lookup i = some node → Drains node.differMap (drained i)) :
      Happens db (.script now keys script (calls db keys moments script) env.luaAofBuffer (.ok frame))
        (release db (committed env.sessions.sessions drained))
  | rollback {db : Db (Value S J)} {now : Nat} {keys : List Str} {moments : Nat → Moment} {script : Script}
      {text : String} {env : CurrentRequestEnv (Clones.CloningSessions S J) S}
      (hmoments : ∀ i, (moments i).now = now) (h : Clones.scriptRun db keys moments script = (.error text, env)) :
      Happens db (.script now keys script (calls db keys moments script) env.luaAofBuffer (.error text))
        (release db (abandoned env.sessions.sessions))
  | evictionTtl (db : Db (Value S J)) (now sample : Nat) (i : Fin Host.numShards) :
      Happens db (.swept now) (db.unlock i (evictionTtl now sample (db.lock i)))
  | evictionMemory (db : Db (Value S J)) (i : Fin Host.numShards) :
      Happens db .evicted (db.unlock i (evictionMemory (db.lock i)))

inductive Means : Keyspace S J → Observation S → Keyspace S J → Prop
  | command (m : Keyspace S J) (now : Nat) (values : LPushCommand → List Bytes) (c : Command S) :
      Means m (.command now values c (m.execute (openAt now) values c).1) (m.execute (openAt now) values c).2
  | commit {m m' : Keyspace S J} {now : Nat} {keys : List Str} {script : Script} {calls : List (Command S)}
      {draft : Except String Frame × List (Command S) × Keyspace S J} {frame : Frame}
      (h : Keyspace.runScript (fun k => live now (m k)) (scriptAt keys now) script [] = draft)
      (hframe : draft.1 = .ok frame) (hm : Commits now m draft.2.2 m') :
      Means m (.script now keys script calls draft.2.1 (.ok frame)) m'
  | rollback {m m' : Keyspace S J} {now : Nat} {keys : List Str} {script : Script} {calls : List (Command S)}
      {draft : Except String Frame × List (Command S) × Keyspace S J} {text : String}
      (h : Keyspace.runScript (fun k => live now (m k)) (scriptAt keys now) script [] = draft)
      (htext : draft.1 = .error text) (hm : Sweeps now m m') :
      Means m (.script now keys script calls draft.2.1 (.error text)) m'
  | swept {m m' : Keyspace S J} {now : Nat} (hm : Sweeps now m m') : Means m (.swept now) m'
  | evicted (m : Keyspace S J) (gone : Option Str) :
      Means m .evicted (fun k => if gone = some k then none else m k)

variable {db db' : Db (Value S J)} {m : Keyspace S J}

omit [Host] [LinearOrder S] [F64 S] [SerdeJson J] in
theorem evictionTtl_sweeps (now sample : Nat) (g : Guard (Value S J)) (k : Str) :
    (evictionTtl now sample g).shard.dbStore.lookup k = g.shard.dbStore.lookup k ∨
      ((evictionTtl now sample g).shard.dbStore.lookup k = none ∧
        unlessExpired now (g.shard.dbStore.lookup k) = none) := by
  unfold evictionTtl
  split
  · exact .inl rfl
  · split
    · exact .inl rfl
    · next key _ =>
        obtain ⟨g', hsel, hlookup⟩ := select_writeguard g now key
        have hlive : CacheStore.live now g.shard.dbStore key = unlessExpired now (g.shard.dbStore.lookup key) := rfl
        rw [hlive] at hsel hlookup
        rw [hsel]
        cases hv : unlessExpired now (g.shard.dbStore.lookup key) with
        | none =>
            simp only [DirectCacheNode.guard]
            rw [hlookup, hv]
            split
            · next he => exact .inr ⟨rfl, by rw [he, hv]⟩
            · exact .inl rfl
        | some value =>
            -- a value that is found has not expired
            have hself := (unlessExpired_cases now (g.shard.dbStore.lookup key)).resolve_right (by simp [hv])
            have hunexpired : value.isExpired now = false := by
              by_contra hexp
              rw [hv] at hself
              rw [← hself, unlessExpired_eq_none (Bool.not_eq_false _ ▸ hexp)] at hv
              cases hv
            simp only [hunexpired, Bool.false_eq_true, if_false, DirectCacheNode.guard]
            rw [hlookup, hself]
            split
            · next he => exact .inl (by rw [he])
            · exact .inl rfl

omit [LinearOrder S] [F64 S] [SerdeJson J] in
theorem entry_swept (db : Db (Value S J)) (now sample : Nat) (i : Fin Host.numShards) (k : Str) :
    (db.unlock i (evictionTtl now sample (db.lock i))).entry k = db.entry k ∨
      ((db.unlock i (evictionTtl now sample (db.lock i))).entry k = none ∧
        unlessExpired now (db.entry k) = none) := by
  simp only [Db.entry, Db.unlock]
  by_cases hi : Host.shardIndex k = i
  · rw [hi, Function.update_self]
    exact evictionTtl_sweeps now sample (db.lock i) k
  · rw [Function.update_of_ne hi]
    exact .inl rfl

omit [LinearOrder S] [F64 S] [SerdeJson J] in
theorem entry_evictedMemory (db : Db (Value S J)) (i : Fin Host.numShards) :
    ∃ gone : Option Str, (∀ key ∈ gone, Host.shardIndex key = i) ∧
      ∀ k, (db.unlock i (evictionMemory (db.lock i))).entry k = if gone = some k then none else db.entry k := by
  have hstore := popVictim_dbStore (db.lock i).shard
  cases hp : Normal.popVictim (db.lock i).shard with
  | mk v shard =>
      rw [hp] at hstore
      have hguard : ∃ gone : Option Str, ∀ k, (evictionMemory (db.lock i)).shard.dbStore.lookup k =
          if gone = some k then none else (db.shards i).dbStore.lookup k := by
        simp only [evictionMemory, hp]
        cases v with
        | none => exact ⟨none, fun k => by rw [hstore]; rfl⟩
        | some key =>
            refine ⟨some key, fun k => ?_⟩
            refine (removeGuard_lookup _ key k).trans ?_
            simp only [hstore, Option.some.injEq, eq_comm (a := key)]
            rfl
      obtain ⟨gone, hgone⟩ := hguard
      refine ⟨gone.filter (fun key => Host.shardIndex key = i), fun key hkey => ?_, fun k => ?_⟩
      · exact of_decide_eq_true (Option.filter_eq_some_iff.mp hkey).2
      · simp only [Db.entry, Db.unlock, Option.filter_eq_some_iff, decide_eq_true_eq]
        by_cases hi : Host.shardIndex k = i
        · rw [hi, Function.update_self, hgone]
          simp
        · rw [Function.update_of_ne hi]
          simp [hi]

/-- Each step of the store is a step of the keyspace that it pictures, and is seen alike. -/
theorem Pictures.step (cmp : Compares P) (h : Pictures P n db m) {o : Observation S} (hs : Happens db o db')
    (hc : ∀ c ∈ o.commands, Regular P c) (hn : n + o.commands.length < 2 ^ 63) :
    ∃ m', Means m o m' ∧ Pictures P (n + o.commands.length) db' m' := by
  cases hs with
  | normal rt now queues hne =>
      obtain ⟨hdone, hnext⟩ := h.answer cmp now rt queues (hc _ (List.mem_singleton_self _))
        (lt_of_le_of_lt (Nat.le_add_right n _) hn)
      refine ⟨_, ?_, hnext⟩
      rw [hdone]
      exact .command m now _ _
  | recovery rt now c =>
      obtain ⟨hdone, hnext⟩ := pictures_tracks.execute rt cmp (hc c (List.mem_singleton_self c))
        (lt_of_le_of_lt (Nat.le_add_right n _) hn) h
      refine ⟨_, ?_, hnext⟩
      rw [hdone]
      exact .command m now _ c
  | @commit now keys moments script frame env drained hmoments hrun hd =>
      obtain ⟨hresult, hlogged, o, hr, hdraft⟩ := drafts_tracks.runScript cmp hmoments script hc hn
        ⟨_, lockAll_reflects db (shardIndices keys), drafts_start h keys now⟩
      rw [show Script.run moments 0 script ⟨Clones.CloningSessions.mk (lockAll db (shardIndices keys)), []⟩ = _ from hrun] at hresult hlogged hr
      obtain ⟨m', hm, hnext⟩ := hdraft.commit (fun k => depicts_mono (h k) (Nat.le_add_right n _)) hr hd
      refine ⟨m', ?_, hnext⟩
      rw [hlogged]
      exact .commit rfl hresult.symm hm
  | @rollback now keys moments script text env hmoments hrun =>
      obtain ⟨hresult, hlogged, o, hr, hdraft⟩ := drafts_tracks.runScript cmp hmoments script hc hn
        ⟨_, lockAll_reflects db (shardIndices keys), drafts_start h keys now⟩
      rw [show Script.run moments 0 script ⟨Clones.CloningSessions.mk (lockAll db (shardIndices keys)), []⟩ = _ from hrun] at hresult hlogged hr
      obtain ⟨m', hm, hnext⟩ := hdraft.rollback (fun k => depicts_mono (h k) (Nat.le_add_right n _)) hr
      refine ⟨m', ?_, hnext⟩
      rw [hlogged]
      exact .rollback rfl hresult.symm hm
  | evictionTtl now sample i =>
      obtain ⟨m', hm, hnext⟩ := h.sweep (entry_swept db now sample i)
      exact ⟨m', .swept hm, hnext⟩
  | evictionMemory i =>
      obtain ⟨gone, -, hgone⟩ := entry_evictedMemory db i
      refine ⟨_, .evicted m gone, fun k => ?_⟩
      rw [hgone]
      split
      · exact .none
      · exact h k

structure Request (S : Type) where
  now : Nat
  queues : Queues
  command : Command S

/-- What a server gives back to its clients; `rts i` is what the i-th request draws. -/
def replies (rts : Nat → Runtime) (db : Db (Value S J)) : Nat → List (Request S) → List (Done S)
  | _, [] => []
  | i, r :: requests =>
      let (done, db) := answer (rts i) r.now r.queues db r.command
      done :: replies rts db (i + 1) requests

def Keyspace.replies (readNumber : Bytes → Option Int) (m : Keyspace S J) : List (Request S) → List (Done S)
  | [] => []
  | r :: requests =>
      let (done, m) := m.execute ⟨readNumber, fun _ => none, r.now, r.now⟩ (unserved r.queues) r.command
      done :: Keyspace.replies readNumber m requests

theorem Pictures.replies (cmp : Compares P) (rts : Nat → Runtime) (requests : List (Request S))
    (h : Pictures P n db m) (hc : ∀ r ∈ requests, Regular P r.command) (hn : n + requests.length < 2 ^ 63)
    (i : Nat) : replies rts db i requests = m.replies Host.lexicalParse requests := by
  induction requests generalizing n db m i with
  | nil => rfl
  | cons r requests ih =>
      rw [List.length_cons] at hn
      obtain ⟨hdone, hnext⟩ := h.answer cmp r.now (rts i) r.queues (hc r (by simp)) (by omega)
      have hrest := ih hnext (fun r hr => hc r (List.mem_cons_of_mem _ hr)) (by omega) (i + 1)
      simp only [Abstract.replies, Keyspace.replies]
      rw [hdone, hrest]
      rfl

end Steps

end Store

section Configurations

variable {S : Type} [LinearOrder S] [F64 S] {P : S → Prop}

def repliesOn (J : Type) [SerdeJson J] (host : Host) (configType : Eviction.EvictionType) (rts : Nat → Runtime)
    (requests : List (Request S)) : List (Done S) :=
  replies rts (Db.new configType : Db (Value S J)) 0 requests

variable {J : Type} [SerdeJson J]

/-- How many shards there are, which key is in which, which policy they have, what an entry
costs and what is drawn at random: as long as nothing is evicted, no reply and no record
tells. -/
theorem configuration_unobservable (cmp : Compares P) (host host' : Host)
    (hread : host.lexicalParse = host'.lexicalParse) (configType configType' : Eviction.EvictionType)
    (rts rts' : Nat → Runtime) {requests : List (Request S)}
    (hc : ∀ r ∈ requests, Regular P r.command ∧ ∀ e, r.command ≠ .eval e) (hn : requests.length < 2 ^ 63) :
    repliesOn J host configType rts requests = repliesOn J host' configType' rts' requests := by
  have hall (host : Host) (configType : Eviction.EvictionType) (rts : Nat → Runtime) :
      repliesOn J host configType rts requests =
        Keyspace.replies (J := J) host.lexicalParse (fun _ => none) requests := by
    have hstart : Pictures (J := J) P 0 (Db.new configType) (fun _ => none) := by
      intro k
      rw [Db.entry_new]
      exact .none
    exact hstart.replies cmp rts requests (fun r hr => (hc r hr).1) (by omega) 0
  rw [hall host, hall host', hread]

end Configurations

section Sample

attribute [local instance] singleShard flatJson wholeNumbers

def drawn : Runtime := ⟨[], 0, 0⟩

def ranked : Command (WithNan UInt64) := .zrank ⟨setKey, ascii ['b']⟩

def itemsKey : Str := Str.ofAscii (ascii ['y']) (by decide)

/-- LPUSH y x -/
def pushed : Command (WithNan UInt64) := .lpush ⟨itemsKey, [ascii ['x']]⟩

/-- The same from a script. -/
def callPush : Call where
  args := [ascii ['L', 'P', 'U', 'S', 'H'], itemsKey.bytes, ascii ['x']]
  fits := by simp [Fits, FitsAll, ascii, itemsKey, Str.ofAscii]

def sampleRequests : List (Request (WithNan UInt64)) := [⟨0, ∅, .zadd addOne⟩, ⟨0, ∅, ranked⟩]

theorem sampleRequests_regular : ∀ r ∈ sampleRequests, Regular WithNan.IsNumber r.command ∧
    ∀ e, r.command ≠ .eval e := by
  simp [sampleRequests, Regular, ranked, addOne, WithNan.IsNumber]

theorem configuration_unobservable_sample :
    repliesOn Str singleShard .lru (fun _ => drawn) sampleRequests =
      repliesOn Str twoShards .lfu (fun _ => ⟨[true], 8, 8⟩) sampleRequests :=
  configuration_unobservable WithNan.compares_numbers singleShard twoShards rfl .lru .lfu _ _ sampleRequests_regular
    (by decide)

end Sample

end RustKv.Abstract
