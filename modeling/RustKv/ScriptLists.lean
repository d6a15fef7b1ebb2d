import RustKv.ClientLocks
import RustKv.CommandSteps
import RustKv.LogicalValue

namespace RustKv.Clients

open Text Protocol Domain CacheStore Zset RustKv.Types Executor Expiry SampleVec
open Collections (Within CellWithin PutsBack Keeps Restores within_none within_some)

section Lists

variable {S J : Type}

/-- The key has a list with an element. -/
def Stocked (e : Option (ValueEntry (Value S J))) : Prop := ∃ x xs, logicalOf e = some (.list (x :: xs))

theorem stocked_of_unlessExpired {now : Nat} {e : Option (ValueEntry (Value S J))}
    (h : Stocked (unlessExpired now e)) : Stocked e := by
  rcases unlessExpired_cases now e with he | he
  · rwa [he] at h
  · rw [he] at h
    obtain ⟨x, xs, h⟩ := h
    cases h

def Unstocked (e : ValueEntry (Value S J)) : Prop := ¬ Stocked (some e)

theorem within_unstocked {e : Option (ValueEntry (Value S J))} : Within Unstocked e ↔ ¬ Stocked e := by
  cases e with
  | none =>
      refine ⟨fun _ h => ?_, fun _ => within_none⟩
      obtain ⟨x, xs, h⟩ := h
      cases h
  | some e => exact ⟨fun h => h e rfl, fun h => within_some h⟩

theorem unstocked_of_data {e : ValueEntry (Value S J)}
    (h : ∀ item deque a b, e.data ≠ .list (item :: deque) a b) : Unstocked e := by
  rintro ⟨x, xs, hx⟩
  obtain ⟨v, expires, n⟩ := e
  cases v with
  | list deque a b =>
      cases hx
      exact h x xs a b rfl
  | simple | hash | zset | json => cases hx

variable [Host]

theorem simpleValue_unstocked (value : Bytes) (expiresAt : Option Nat) :
    Unstocked (newEntry (simpleValue value : Value S J) expiresAt) := by
  refine unstocked_of_data fun item deque a b hdata => ?_
  unfold simpleValue newEntry at hdata
  dsimp only at hdata
  split at hdata <;> cases hdata

theorem unstocked_set (now : Nat) (c : SetCommand) : Keeps Unstocked (setAccess (S := S) (J := J) now c) := by
  have hentry : Unstocked (setEntry (S := S) (J := J) now c) := simpleValue_unstocked c.value _
  unfold setAccess
  split
  · intro entry _
    simp only
    split
    · trivial
    · trivial
    · exact hentry
  · exact hentry

theorem unstocked_lpop (c : LPopCommand) : Keeps Unstocked (.take (lpopTaken c) : Access S (Value S J)) := by
  intro entry h
  cases entry with
  | none => trivial
  | some e =>
      have he : Unstocked e := h e rfl
      simp only [lpopTaken]
      split
      · next item deque a b hdata =>
        exact absurd ⟨item, deque, by simp [logicalOf, hdata, logical]⟩ he
      · trivial
      · exact he

theorem unstocked_blpop (c : BLPopCommand) : Keeps Unstocked (.take (blpopTaken c) : Access S (Value S J)) := by
  intro entry h
  cases entry with
  | none => trivial
  | some e =>
      have he : Unstocked e := h e rfl
      simp only [blpopTaken]
      split
      · next item deque a b hdata =>
        exact absurd ⟨item, deque, by simp [logicalOf, hdata, logical]⟩ he
      · exact unstocked_of_data (by rintro _ _ _ _ ⟨⟩)
      · exact he

theorem unstocked_hset (rt : Runtime) (c : HSetCommand) :
    Keeps Unstocked (.take (hsetTaken rt c) : Access S (Value S J)) := by
  have honto (map : HashMap) (size : UInt64) (x : Option Nat) :
      PutsBack Unstocked (hsetOnto (S := S) (J := J) rt c map size x).2 := unstocked_of_data (by rintro _ _ _ _ ⟨⟩)
  intro entry h
  cases entry with
  | none => exact honto _ _ _
  | some e =>
      simp only [hsetTaken]
      split
      · exact honto _ _ _
      · exact h e rfl

theorem unstocked_hdel (c : HDelCommand) : Keeps Unstocked (.take (hdelTaken c) : Access S (Value S J)) := by
  intro entry h
  cases entry with
  | none => trivial
  | some e =>
      simp only [hdelTaken]
      split
      · simp only
        split
        · trivial
        · exact unstocked_of_data (by rintro _ _ _ _ ⟨⟩)
      · exact h e rfl

variable [F64 S]

theorem unstocked_zadd (rt : Runtime) (c : ZAddCommand S) :
    Keeps Unstocked (.take (zaddTaken rt c) : Access S (Value S J)) := by
  intro entry h
  cases entry with
  | none => exact unstocked_of_data (by rintro _ _ _ _ ⟨⟩)
  | some e =>
      simp only [zaddTaken]
      split
      · exact unstocked_of_data (by rintro _ _ _ _ ⟨⟩)
      · exact h e rfl

theorem unstocked_zrem (c : ZRemCommand) : Keeps Unstocked (.take (zremTaken c) : Access S (Value S J)) := by
  intro entry h
  cases entry with
  | none => trivial
  | some e =>
      simp only [zremTaken]
      split
      · split
        · split
          · trivial
          · exact unstocked_of_data (by rintro _ _ _ _ ⟨⟩)
        · exact unstocked_of_data (by rintro _ _ _ _ ⟨⟩)
      · exact h e rfl

omit [F64 S] in
theorem unstocked_jsonSet [SerdeJson J] (c : JsonSetCommand) (v : J) :
    Keeps Unstocked (.take (jsonSetTaken c v) : Access S (Value S J)) := by
  intro entry h
  cases entry with
  | none =>
      simp only [jsonSetTaken]
      split
      · exact unstocked_of_data (by rintro _ _ _ _ ⟨⟩)
      · trivial
  | some e =>
      simp only [jsonSetTaken]
      split
      · split
        · exact unstocked_of_data (by rintro _ _ _ _ ⟨⟩)
        · split <;> exact unstocked_of_data (by rintro _ _ _ _ ⟨⟩)
      · exact h e rfl

variable [SerdeJson J]

/-- Only LPUSH gives a list its first element. -/
theorem keyed_unstocked {rt : Runtime} {now : Nat} {values : LPushCommand → List Bytes} {c : Command S}
    (hc : ∀ p, c ≠ .lpush p) {key : Str} {a : Access S (Value S J)}
    (hk : keyed rt now values c = some (key, a)) : Keeps Unstocked a := by
  cases c with
  | set c => cases hk; exact unstocked_set now c
  | lpush c => exact absurd rfl (hc c)
  | lpop c => cases hk; exact unstocked_lpop c
  | blpop c => cases hk; exact unstocked_blpop c
  | hset c => cases hk; exact unstocked_hset rt c
  | hdel c => cases hk; exact unstocked_hdel c
  | zadd c => cases hk; exact unstocked_zadd rt c
  | zrem c => cases hk; exact unstocked_zrem c
  | jsonSet c =>
      obtain ⟨v, -, hp⟩ := Option.map_eq_some_iff.mp hk
      cases hp
      exact unstocked_jsonSet c v
  | get | hget | jsonGet | zscore | zrank | zrange => cases hk; exact trivial
  | mset | mget | ping | unimplement | eval | multi | exec | multiGroup => cases hk

omit [F64 S] [SerdeJson J] in
/-- An LPUSH on a shard that is locked ends well, also where it finds another type. -/
theorem lpush_replies {σ : Type} [KvOperator σ (Value S J)] (rt : Runtime) (c : LPushCommand)
    (values : List Bytes) (now : Nat) (key : Str) (map : σ) :
    ∃ frame, ((lpushAccess rt c values : Access S (Value S J)).run now key map).1.reply = .ok frame := by
  unfold lpushAccess
  split
  · exact ⟨_, rfl⟩
  · change ∃ frame, (lpushTaken (S := S) rt c values (KvOperator.take map now key).1).1.reply = .ok frame
    unfold lpushTaken
    split
    · split
      · exact ⟨_, rfl⟩
      · exact ⟨_, rfl⟩
    · exact ⟨_, rfl⟩

end Lists

section Scripts

variable {S J : Type} [Host] {K K' pushed pushed' : Str → Prop} {sessions : Sessions (Value S J)}

/-- The script has executed an LPUSH on the key. -/
def Pushes (luaAofBuffer : List (Command S)) (k : Str) : Prop := ∃ p, .lpush p ∈ luaAofBuffer ∧ p.key = k

/-- Under the keys of `K` a script has no list with elements: none below its changes, and
none among them but under a key to which it has pushed. -/
structure Hushed (K pushed : Str → Prop) (sessions : Sessions (Value S J)) : Prop where
  writes : ∀ i node, sessions.lookup i = some node → Writes node
  base : ∀ k node, sessions.lookup (Host.shardIndex k) = some node → K k → Within Unstocked (nodeCell node k).base
  cell : ∀ k node, sessions.lookup (Host.shardIndex k) = some node → K k → ¬ pushed k →
    CellWithin Unstocked (nodeCell node k)

theorem hushed_empty : Hushed K pushed (∅ : Sessions (Value S J)) := by
  refine ⟨fun i node h => ?_, fun k node h => ?_, fun k node h => ?_⟩ <;> cases h

theorem Hushed.mono (h : Hushed K pushed sessions)
    (hK : ∀ k, (sessions.lookup (Host.shardIndex k)).isSome → K' k → K k)
    (hpushed : ∀ k, K' k → ¬ pushed' k → ¬ pushed k) : Hushed K' pushed' sessions where
  writes := h.writes
  base k node hn hk := h.base k node hn (hK k (by simp [hn]) hk)
  cell k node hn hk hp := h.cell k node hn (hK k (by simp [hn]) hk) (hpushed k hk hp)

/-- One more shard is locked. -/
theorem Hushed.lock (h : Hushed K pushed sessions) (shard : Fin Host.numShards) (s : Shard (Value S J))
    (hs : ∀ k, Host.shardIndex k = shard → K k → ¬ Stocked (s.dbStore.lookup k)) :
    Hushed K pushed (sessions.insert shard (Lua.lockWriteLua s)) := by
  have hbase (k : Str) (hk : Host.shardIndex k = shard) (hK : K k) :
      CellWithin Unstocked (nodeCell (Lua.lockWriteLua s) k) := by
    refine ⟨fun change hc => ?_, within_unstocked.mpr (hs k hk hK)⟩
    cases hc
  refine ⟨fun i node hn => ?_, fun k node hn hk => ?_, fun k node hn hk hp => ?_⟩
  · rw [lookup_insert_ite] at hn
    split at hn
    · cases hn
      exact ⟨_, rfl⟩
    · exact h.writes i node hn
  · rw [lookup_insert_ite] at hn
    split at hn
    · next he =>
      cases hn
      exact (hbase k he hk).base
    · exact h.base k node hn hk
  · rw [lookup_insert_ite] at hn
    split at hn
    · next he =>
      cases hn
      exact hbase k he hk
    · exact h.cell k node hn hk hp

theorem Hushed.access (h : Hushed K pushed sessions) {now : Nat} {key : Str} {a : Access S (Value S J)}
    (ha : K key → ¬ pushed key → ∀ found, Within Unstocked found → Restores Unstocked found a) :
    Hushed K pushed (sessions.access now key a).2 := by
  have hnode (i : Fin Host.numShards) (node' : LuaCacheNode (Value S J))
      (hn : (sessions.access now key a).2.lookup i = some node') :
      Writes node' ∧ ∃ node, sessions.lookup i = some node ∧
        ∀ k, nodeCell node' k = nodeCell node k ∨
          k = key ∧ nodeCell node' k = (a.run now key (nodeCell node key)).2 := by
    rw [Sessions.access_lookup] at hn
    split at hn
    · obtain ⟨node, hnode, rfl⟩ := Option.map_eq_some_iff.mp hn
      obtain ⟨-, hw, hcell⟩ := run_cell a (h.writes i node hnode) now key
      refine ⟨hw, node, hnode, fun k => ?_⟩
      rw [hcell, Function.update_apply]
      split
      · next he => exact .inr ⟨he, rfl⟩
      · exact .inl rfl
    · exact ⟨h.writes i node' hn, node', hn, fun k => .inl rfl⟩
  refine ⟨fun i node' hn => (hnode i node' hn).1, fun k node' hn hk => ?_, fun k node' hn hk hp => ?_⟩
  · obtain ⟨-, node, hold, hcell⟩ := hnode _ node' hn
    rcases hcell k with he | ⟨rfl, he⟩
    · rw [he]
      exact h.base k node hold hk
    · rw [he]
      exact (h.base k node hold hk).run_base a now k
  · obtain ⟨-, node, hold, hcell⟩ := hnode _ node' hn
    rcases hcell k with he | ⟨rfl, he⟩
    · rw [he]
      exact h.cell k node hold hk hp
    · rw [he]
      have hc := h.cell k node hold hk hp
      exact (ha hk hp _ (hc.view now)).onLua k hc

variable [F64 S] [SerdeJson J]

theorem Hushed.execute (h : Hushed K pushed sessions) {rt : Runtime} {now : Nat} {c : Command S}
    (hc : ∀ p, c = .lpush p → K p.key → pushed p.key) :
    Hushed K pushed (Executor.execute rt now sessions c).2 := by
  refine Collections.execute_keeps
    (fun _ _ value hs => hs.access fun _ _ _ _ => simpleValue_unstocked value none)
    (fun _ _ hs => hs.access fun _ _ _ _ => trivial) (fun key a hk => h.access fun hK hp found hfound => ?_) h
  by_cases hpush : ∃ p, c = .lpush p
  · obtain ⟨p, rfl⟩ := hpush
    cases hk
    exact absurd (hc p rfl hK) hp
  · exact (keyed_unstocked (fun p hp => hpush ⟨p, hp⟩) hk).restores hfound

/-- A call of a script. -/
theorem Hushed.redisCall {env : Lua.CurrentRequestEnv (Sessions (Value S J)) S}
    (h : Hushed K (Pushes env.luaAofBuffer) env.sessions) (moment : Lua.Moment) (c : Lua.Call) :
    Hushed K (Pushes (Lua.redisCall moment env c).2.luaAofBuffer) (Lua.redisCall moment env c).2.sessions := by
  cases hcommand : CommandParser.tryFrom (S := S) (.array (c.args.map .bulk)) with
  | error e =>
      simp only [Lua.redisCall, hcommand]
      exact h
  | ok command =>
      rw [Lua.redisCall_eq moment env hcommand]
      split
      · next frame hreply =>
        refine Hushed.execute (h.mono (fun _ _ hk => hk) fun k _ hp hpushes => hp ?_) fun p hp _ => ?_
        · exact hpushes.imp fun p hp => ⟨List.mem_append_left _ hp.1, hp.2⟩
        · exact ⟨p, by simp [hp], rfl⟩
      · next e hreply =>
        by_cases hpush : ∃ p, command = .lpush p
        · obtain ⟨p, rfl⟩ := hpush
          -- only a shard that the script has not locked makes an LPUSH fail
          cases hl : env.sessions.lookup (Host.shardIndex p.key) with
          | none =>
              have hsame : (Executor.execute moment.rt moment.now env.sessions (.lpush p)).2 = env.sessions := by
                simp only [Executor.execute, Context.access, Sessions.access, hl]
              rw [hsame]
              exact h
          | some node =>
              obtain ⟨frame, hframe⟩ := lpush_replies (S := S) moment.rt p p.values moment.now p.key node
              simp only [Executor.execute, Context.access, Sessions.access, hl] at hreply
              rw [hframe] at hreply
              cases hreply
        · exact h.execute fun p hp => absurd ⟨p, hp⟩ hpush

omit [F64 S] [SerdeJson J] in
/-- A shard is committed. -/
theorem Hushed.commit {shard : Fin Host.numShards} {shards : List (Fin Host.numShards)}
    (h : Hushed K (fun k => Host.shardIndex k ∉ shard :: shards) sessions) {node : LuaCacheNode (Value S J)}
    (hn : sessions.lookup shard = some node) {drained : List (Str × ChangeOp (Value S J))}
    (hd : Drains node.differMap drained) :
    Hushed K (fun k => Host.shardIndex k ∉ shards) (sessions.insert shard (node.commit drained)) := by
  obtain ⟨hw, hcommit⟩ := commit_cell (h.writes shard node hn) hd
  have hcell (k : Str) (hk : Host.shardIndex k = shard) (hK : K k) :
      CellWithin Unstocked (nodeCell (node.commit drained) k) := by
    have hold := h.cell k node (hk ▸ hn) hK (by simp [hk])
    refine ⟨fun change hc => ?_, ?_⟩
    · rw [nodeCell, LuaCacheNode.commit, Finmap.lookup_empty] at hc
      cases hc
    · rw [(hcommit k).1]
      exact hold.committed
  refine ⟨fun i node' hn' => ?_, fun k node' hn' hK => ?_, fun k node' hn' hK hp => ?_⟩
  · rw [lookup_insert_ite] at hn'
    split at hn'
    · cases hn'
      exact hw
    · exact h.writes i node' hn'
  · rw [lookup_insert_ite] at hn'
    split at hn'
    · next hk =>
      cases hn'
      exact (hcell k hk hK).base
    · exact h.base k node' hn' hK
  · rw [lookup_insert_ite] at hn'
    split at hn'
    · next hk =>
      cases hn'
      exact hcell k hk hK
    · exact h.cell k node' hn' hK fun hnot => hp fun hmem => hnot (List.mem_cons_of_mem _ hmem)

omit [F64 S] [SerdeJson J] in
/-- The lock of a shard is dropped. -/
theorem Hushed.erase (h : Hushed K pushed sessions) (shard : Fin Host.numShards) :
    Hushed K pushed (sessions.erase shard) := by
  have hsub (i : Fin Host.numShards) (node : LuaCacheNode (Value S J))
      (hn : (sessions.erase shard).lookup i = some node) : sessions.lookup i = some node := by
    rw [lookup_erase_ite] at hn
    split at hn
    · cases hn
    · exact hn
  exact ⟨fun i node hn => h.writes i node (hsub i node hn), fun k node hn => h.base k node (hsub _ node hn),
    fun k node hn => h.cell k node (hsub _ node hn)⟩

end Scripts

end RustKv.Clients
