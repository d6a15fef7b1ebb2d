import RustKv.CommandSteps
import RustKv.Depiction
import RustKv.Traces

namespace RustKv.Abstract

open Text Protocol Domain CommandParser CacheStore Zset RustKv.Types Executor Expiry RustKv.Normal Lua
  Collections Traces

variable {S J : Type} [Host] [LinearOrder S] [F64 S] [SerdeJson J] {P : S → Prop} {n n' time now : Nat}
  {refuses : Str → Option KvError} {rt : Runtime} {values : LPushCommand → List Bytes}

def Regular (P : S → Prop) : Command S → Prop
  | .zadd c => P c.score
  | .zrange c => IsIsize c.start ∧ IsIsize c.stop
  | _ => True

section Commands

omit [Host] [F64 S] [SerdeJson J] in
theorem Agrees.mono {a : Access S (Value S J)} {f : Option (Item S J) → Answer S J}
    (h : Agrees P n n time a f) : Agrees P n (n + 1) time a f := by
  intro e x hx
  obtain ⟨hdone, hnext⟩ := h e x hx
  exact ⟨hdone, depicts_mono hnext (Nat.le_succ n)⟩

/-- A command on one key does to the entry what its meaning does to the item. -/
theorem served_agrees (refuses : Str → Option KvError) (time : Nat) (cmp : Compares P) {c : Command S}
    (hc : Regular P c) (hn : n < 2 ^ 63) {key : Str} {a : Access S (Value S J)} (hk : keyed rt now values c = some (key, a)) :
    ∃ f, served (settingAt refuses time now) values c = some (key, f) ∧ Agrees P n (n + 1) time a f := by
  cases c with
  | get c => cases hk; exact ⟨_, rfl, agrees_get.mono⟩
  | set c => cases hk; exact ⟨_, rfl, (agrees_set c).mono⟩
  | lpush c => cases hk; exact ⟨_, rfl, (agrees_lpush rt c (values c)).mono⟩
  | lpop c => cases hk; exact ⟨_, rfl, (agrees_lpop c).mono⟩
  | blpop c => cases hk; exact ⟨_, rfl, (agrees_blpop c).mono⟩
  | hset c => cases hk; exact ⟨_, rfl, (agrees_hset rt c).mono⟩
  | hget c => cases hk; exact ⟨_, rfl, (agrees_hget c).mono⟩
  | hdel c => cases hk; exact ⟨_, rfl, (agrees_hdel c).mono⟩
  | jsonSet c =>
      obtain ⟨v, hv, hp⟩ := Option.map_eq_some_iff.mp hk
      cases hp
      refine ⟨jsonSet c v, ?_, (agrees_jsonSet c v).mono⟩
      simp only [served, hv, Option.map_some]
  | jsonGet c => cases hk; exact ⟨_, rfl, (agrees_jsonGet c).mono⟩
  | zadd c => cases hk; exact ⟨_, rfl, agrees_zadd cmp rt hc⟩
  | zscore c => cases hk; exact ⟨_, rfl, (agrees_zscore c).mono⟩
  | zrank c => cases hk; exact ⟨_, rfl, (agrees_zrank cmp c hn).mono⟩
  | zrange c => cases hk; exact ⟨_, rfl, (agrees_zrange hc.1 hc.2 hn).mono⟩
  | zrem c => cases hk; exact ⟨_, rfl, (agrees_zrem cmp c hn).mono⟩
  | mset | mget | ping | unimplement | eval | multi | exec | multiGroup => cases hk

theorem served_none {env : Setting} {c : Command S} (hk : keyed (J := J) rt now values c = none) :
    served (J := J) env values c = none := by
  cases c with
  | jsonSet c =>
      have hv : SerdeJson.fromStr (J := J) c.value = none := Option.map_eq_none_iff.mp hk
      simp only [served, hv, Option.map_none]
  | mset | mget | ping | unimplement | eval | multi | exec | multiGroup => rfl
  | get | set | lpush | lpop | blpop | hset | hget | hdel | jsonGet | zadd | zscore | zrank | zrange
  | zrem => cases hk

end Commands

section Contexts

variable {γ : Type} [Context γ (Value S J)] {R : Nat → γ → Keyspace S J → Prop} {ctx : γ} {m : Keyspace S J}

/-- A context whose accesses do to the items of a keyspace what their meanings do. -/
structure Tracks (P : S → Prop) (R : Nat → γ → Keyspace S J → Prop) (refuses : Str → Option KvError)
    (time now : Nat) : Prop where
  mono : ∀ {n n' ctx m}, n ≤ n' → R n ctx m → R n' ctx m
  access : ∀ {n n' ctx m} {a : Access S (Value S J)} {f : Option (Item S J) → Answer S J} (key : Str),
    n ≤ n' → Agrees P n n' time a f → R n ctx m →
    (Context.access ctx now key a).1 = (m.onKey (settingAt refuses time now) key f).1 ∧
      R n' (Context.access ctx now key a).2 (m.onKey (settingAt refuses time now) key f).2

omit [F64 S] [SerdeJson J] in
theorem Tracks.msetAll (h : Tracks P R refuses time now) (pairs : List (Str × Bytes)) (hR : R n ctx m) :
    (msetAll (S := S) now ctx pairs).1 = (m.msetAll (settingAt refuses time now) pairs).1 ∧
      R n (msetAll (S := S) now ctx pairs).2 (m.msetAll (settingAt refuses time now) pairs).2 := by
  induction pairs generalizing ctx m with
  | nil => exact ⟨rfl, hR⟩
  | cons p pairs ih =>
      obtain ⟨key, value⟩ := p
      have hmset : Agrees (J := J) P n n time (.insert (msetEntry value) (.ok .null) : Access S _)
          (fun _ => (.ok .null, some (msetItem (settingAt refuses time now) value))) := agrees_mset value
      obtain ⟨hdone, hnext⟩ := h.access key (le_refl n) hmset hR
      simp only [Executor.msetAll, Keyspace.msetAll]
      cases hx : Context.access ctx now key (.insert (msetEntry value) (.ok .null) : Access S _) with
      | mk done ctx' =>
          rw [hx] at hdone hnext
          simp only [Keyspace.onKey, settingAt] at hdone hnext ⊢
          cases hrefuses : refuses key with
          | some e =>
              rw [hrefuses] at hdone hnext
              simp only at hdone hnext
              subst hdone
              exact ⟨rfl, hnext⟩
          | none =>
              rw [hrefuses] at hdone hnext
              simp only at hdone hnext
              subst hdone
              exact ih hnext

omit [F64 S] [SerdeJson J] in
theorem Tracks.mgetAll (h : Tracks P R refuses time now) (keys : List Str) (hR : R n ctx m) :
    (mgetAll (S := S) now ctx keys).1 = m.mgetAll (settingAt refuses time now) keys ∧
      R n (mgetAll (S := S) now ctx keys).2 m := by
  induction keys generalizing ctx with
  | nil => exact ⟨rfl, hR⟩
  | cons key keys ih =>
      have hget : Agrees (J := J) P n n time getAccess (get (settingAt refuses time now)) := agrees_get
      obtain ⟨hdone, hnext⟩ := h.access key (le_refl n) hget hR
      simp only [Executor.mgetAll, Keyspace.mgetAll]
      cases hx : Context.access ctx now key (getAccess : Access S _) with
      | mk done ctx' =>
          rw [hx] at hdone hnext
          simp only [Keyspace.onKey, settingAt] at hdone hnext ⊢
          cases hrefuses : refuses key with
          | some e =>
              rw [hrefuses] at hdone hnext
              simp only at hdone hnext
              subst hdone
              exact ⟨rfl, hnext⟩
          | none =>
              rw [hrefuses] at hdone hnext
              simp only [get, Function.update_eq_self] at hdone hnext
              subst hdone
              obtain ⟨hreply, hlast⟩ := ih hnext
              simp only [Done.ok]
              cases hy : Executor.mgetAll (S := S) now ctx' keys with
              | mk reply ctx'' =>
                  rw [hy] at hreply hlast
                  simp only at hreply
                  simp only [settingAt] at hreply
                  rw [← hreply]
                  cases reply <;> exact ⟨rfl, hlast⟩

/-- A command does in such a context what it means. -/
theorem Tracks.execute (h : Tracks P R refuses time now) (rt : Runtime) (cmp : Compares P) {c : Command S}
    (hc : Regular P c) (hn : n < 2 ^ 63) (hR : R n ctx m) :
    (execute rt now ctx c).1 = (m.execute (settingAt refuses time now) LPushCommand.values c).1 ∧
      R (n + 1) (execute rt now ctx c).2 (m.execute (settingAt refuses time now) LPushCommand.values c).2 := by
  have hnext := h.mono (Nat.le_succ n) hR
  cases hk : keyed (J := J) rt now LPushCommand.values c with
  | some p =>
      obtain ⟨key, a⟩ := p
      obtain ⟨f, hf, hagrees⟩ := served_agrees refuses time cmp hc hn hk
      unfold Keyspace.execute
      rw [execute_keyed hk, hf]
      exact h.access key (Nat.le_succ n) hagrees hR
  | none =>
      unfold Keyspace.execute
      rw [served_none hk]
      cases c with
      | mset c =>
          obtain ⟨hreply, hlast⟩ := h.msetAll (sortedPairs c) hR
          simp only [Executor.execute, executeMSet]
          cases hx : Executor.msetAll (S := S) now ctx (sortedPairs c) with
          | mk reply ctx' =>
              cases hy : m.msetAll (settingAt refuses time now) (sortedPairs c) with
              | mk reply' m' =>
                  rw [hx, hy] at hreply hlast
                  simp only at hreply
                  subst hreply
                  cases reply <;> exact ⟨rfl, h.mono (Nat.le_succ n) hlast⟩
      | mget c =>
          obtain ⟨hreply, hlast⟩ := h.mgetAll c.keys hR
          simp only [Executor.execute, executeMGet, hreply]
          exact ⟨trivial, h.mono (Nat.le_succ n) hlast⟩
      | jsonSet c =>
          have hv : SerdeJson.fromStr (J := J) c.value = none := Option.map_eq_none_iff.mp hk
          simp only [Executor.execute, executeJsonSet, hv]
          exact ⟨trivial, hnext⟩
      | ping | unimplement | eval | multi | exec | multiGroup => exact ⟨rfl, hnext⟩
      | get | set | lpush | lpop | blpop | hset | hget | hdel | jsonGet | zadd | zscore | zrank | zrange
      | zrem => cases hk

def called (moments : Nat → Moment) : Nat → Script → CurrentRequestEnv γ S → List (Command S)
  | _, .ret _, _ => []
  | _, .fail _, _ => []
  | i, .call c next, env =>
      (tryFrom (.array (c.args.map .bulk))).toOption.toList ++
        called moments (i + 1) (next (redisCall (moments i) env c).1) (redisCall (moments i) env c).2

theorem Tracks.redisCall (h : Tracks P R refuses time now) (cmp : Compares P) {moment : Moment}
    (hmoment : moment.now = now) {env : CurrentRequestEnv γ S} {c : Call}
    (hc : ∀ command ∈ (tryFrom (S := S) (.array (c.args.map .bulk))).toOption, Regular P command)
    (hn : n < 2 ^ 63) (hR : R n env.sessions m) :
    (redisCall moment env c).1 = (m.redisCall (settingAt refuses time now) env.luaAofBuffer c).1 ∧
      (redisCall moment env c).2.luaAofBuffer =
        (m.redisCall (settingAt refuses time now) env.luaAofBuffer c).2.1 ∧
      R (n + (tryFrom (S := S) (.array (c.args.map .bulk))).toOption.toList.length)
        (redisCall moment env c).2.sessions
        (m.redisCall (settingAt refuses time now) env.luaAofBuffer c).2.2 := by
  subst hmoment
  cases hcommand : tryFrom (S := S) (.array (c.args.map .bulk)) with
  | error e =>
      simp only [Lua.redisCall, Keyspace.redisCall, hcommand]
      exact ⟨trivial, trivial, hR⟩
  | ok command =>
      obtain ⟨hdone, hnext⟩ := h.execute moment.rt cmp (hc command (by rw [hcommand]; rfl)) hn hR
      simp only [Lua.redisCall, Keyspace.redisCall, hcommand]
      cases hx : Executor.execute moment.rt moment.now env.sessions command with
      | mk done sessions =>
          cases hy : m.execute (settingAt refuses time moment.now) LPushCommand.values command with
          | mk done' m' =>
              rw [hx, hy] at hdone hnext
              simp only at hdone
              subst hdone
              obtain ⟨reply, aof, waits⟩ := done
              cases reply <;> exact ⟨rfl, rfl, hnext⟩

/-- A script does in such a context what it means, while the clock stands still. -/
theorem Tracks.runScript (h : Tracks P R refuses time now) (cmp : Compares P) {moments : Nat → Moment}
    (hmoments : ∀ i, (moments i).now = now) (script : Script) {i : Nat} {env : CurrentRequestEnv γ S}
    (hc : ∀ c ∈ called moments i script env, Regular P c)
    (hn : n + (called moments i script env).length < 2 ^ 63) (hR : R n env.sessions m) :
    (Script.run moments i script env).1 =
        (m.runScript (settingAt refuses time now) script env.luaAofBuffer).1 ∧
      (Script.run moments i script env).2.luaAofBuffer =
        (m.runScript (settingAt refuses time now) script env.luaAofBuffer).2.1 ∧
      R (n + (called moments i script env).length) (Script.run moments i script env).2.sessions
        (m.runScript (settingAt refuses time now) script env.luaAofBuffer).2.2 := by
  induction script generalizing n i env m with
  | ret frame => exact ⟨rfl, rfl, hR⟩
  | fail text => exact ⟨rfl, rfl, hR⟩
  | call c next ih =>
      simp only [called, List.length_append, ← Nat.add_assoc] at hc hn ⊢
      obtain ⟨hresult, hbuffer, hnext⟩ := h.redisCall cmp (hmoments i) (c := c)
        (fun command hm => hc command (List.mem_append_left _ (Option.mem_toList.mpr hm))) (by omega) hR
      obtain ⟨hlast, hlogged, hend⟩ := ih _ (fun command hm => hc command (List.mem_append_right _ hm)) hn hnext
      simp only [Script.run, Keyspace.runScript]
      rw [← hresult, ← hbuffer]
      exact ⟨hlast, hlogged, hend⟩

end Contexts

end RustKv.Abstract
