import RustKv.Runs
import RustKv.ScriptSteps

namespace RustKv.Isolation

open Runs Text Protocol Domain CacheStore Zset RustKv.Types Executor Expiry Lua RwLocks

section Clients

variable {S J : Type} [Host] [F64 S] [SerdeJson J] {db db' : Db (Value S J)} {x : Client S J}

/-- What a client stands for when requests that take effect at once have made the data
`db`: a script has made its calls so far on it, and a script that has returned has left
its result there. -/
def Client.Follows (db : Db (Value S J)) : Client S J → Prop
  | .waiting c started key a | .locked c started key a =>
      keyed started.rt started.now (fun c => c.values) c = some (key, a)
  | .locking keys _ shards sessions => ∃ locked, (∀ r, r ∈ shardIndices keys ↔ r ∈ locked ∨ r ∈ shards) ∧
      Reflects sessions (lockedOverlay locked db.entry)
  | .calling keys start moments script env => ∃ o : CurrentRequestEnv (Overlay (Value S J)) S,
      Script.after moments start ⟨lockedOverlay (shardIndices keys) db.entry, []⟩ = some (script, o) ∧ Shows env o
  | .ending _ shards sessions => ∀ k node, sessions.lookup (Host.shardIndex k) = some node →
      Writes node ∧ (Host.shardIndex k ∈ shards → db.entry k = (nodeCell node k).committed) ∧
        (Host.shardIndex k ∉ shards → db.entry k = (nodeCell node k).base)
  | _ => True

/-- The client has a guard of the shard and will give the shard the data that is there
already for everybody else. -/
def Client.Settles (r : Fin Host.numShards) : Client S J → Prop
  | .ending _ _ sessions => (sessions.lookup r).isSome
  | _ => False

/-- The request of the client that has taken effect and has not been answered. -/
def Client.pending : Client S J → List (Served S)
  | .done served _ | .ending served _ _ => [served].filter Served.kept
  | _ => []

omit [F64 S] [SerdeJson J] in
theorem Client.Settles.held {r : Fin Host.numShards} (h : x.Settles r) : x.held r = some .write := by
  cases x with
  | ending served shards sessions =>
      rw [Client.Settles] at h
      simp only [Client.held, h, if_true]
  | idle | waiting | locked | done | locking | calling => exact h.elim

theorem Client.Follows.transfer (h : x.Follows db)
    (hdb : ∀ k, x.held (Host.shardIndex k) = some .write → db'.entry k = db.entry k) : x.Follows db' := by
  cases x with
  | idle | waiting | locked | done => exact h
  | locking keys script shards sessions =>
      obtain ⟨locked, hlocked, hreflects⟩ := h
      refine ⟨locked, hlocked, ?_⟩
      have hsame : lockedOverlay locked db'.entry = lockedOverlay locked db.entry := by
        refine lockedOverlay_congr (fun _ => Iff.rfl) (fun k hk => hdb k ?_)
        have hd := hreflects.declared (Host.shardIndex k)
        simp only [lockedOverlay, hk, decide_true] at hd
        simp only [Client.held, ← hd, if_true]
      rwa [hsame]
  | calling keys start moments script env =>
      obtain ⟨o, hafter, hshows⟩ := h
      refine ⟨o, ?_, hshows⟩
      have hsame : lockedOverlay (shardIndices keys) db'.entry = lockedOverlay (shardIndices keys) db.entry := by
        refine lockedOverlay_congr (fun _ => Iff.rfl) (fun k hk => hdb k ?_)
        have hd := hshows.sessions.declared (Host.shardIndex k)
        rw [after_declared hafter] at hd
        simp only [lockedOverlay, hk, decide_true] at hd
        simp only [Client.held, ← hd, if_true]
      rwa [hsame]
  | ending served shards sessions =>
      intro k node hk
      rw [hdb k (by simp only [Client.held, hk, Option.isSome_some, if_true])]
      exact h k node hk

end Clients

section Shards

variable {D : Type}

theorem onCell_reads {S : Type} {a : Access S D} (h : a.reads = true) (now : Nat) (e : Option (ValueEntry D)) :
    (a.onCell now e).2 = e := by
  cases a with
  | read f => rfl
  | take | select | insert => cases h

end Shards

section Machines

variable {I S J : Type} [Host] [DecidableEq I] [F64 S] [SerdeJson J] {start db db' : Db (Value S J)}
  {m m' : Machine I S J} {history history' : List (I × Served S)} {i : I} {w x : Client S J}

def answers (i : I) (replies : List (I × Served S)) : List (I × Served S) :=
  replies.filter (fun p => decide (p.1 = i) && p.2.kept)

/-- The requests that have taken effect so far did so one after the other: `db` is the
data they have made, `history` their order. -/
structure Serializes (start : Db (Value S J)) (m : Machine I S J) (history : List (I × Served S))
    (db : Db (Value S J)) : Prop where
  serial : Serial start history db
  exclusive : Exclusive m.held
  follows : ∀ i, (m.clients i).Follows db
  data : ∀ k, (∀ i, ¬ (m.clients i).Settles (Host.shardIndex k)) → db.entry k = m.db.entry k
  order : ∀ i, history.filter (fun p => decide (p.1 = i)) =
    answers i m.replies ++ (m.clients i).pending.map (fun served => (i, served))

theorem Serializes.client (h : Serializes start m history db) (hi : m.clients i = w) : w.Follows db := by
  have hfollows := h.follows i
  rwa [hi] at hfollows

theorem Serializes.data_others (h : Serializes start m history db) (hi : m.clients i = w) {k : Str}
    (hw : ¬ w.Settles (Host.shardIndex k))
    (hall : ∀ j, j ≠ i → ¬ (m.clients j).Settles (Host.shardIndex k)) : db.entry k = m.db.entry k := by
  refine h.data k (fun j hs => ?_)
  by_cases hj : j = i
  · rw [hj, hi] at hs
    exact hw hs
  · exact hall j hj hs

theorem Serializes.update (h : Serializes start m history db) (hi : m.clients i = w)
    (hclients : m'.clients = Function.update m.clients i x) (hserial : Serial start history' db')
    (hheld : ∀ r mode, x.held r = some mode → w.held r = some mode ∨ Free m.held mode r)
    (hx : x.Follows db') (hdb : ∀ k, db'.entry k = db.entry k ∨ w.held (Host.shardIndex k) = some .write)
    (hdata : ∀ k, ¬ x.Settles (Host.shardIndex k) → (∀ j, j ≠ i → ¬ (m.clients j).Settles (Host.shardIndex k)) →
      db'.entry k = m'.db.entry k)
    (hothers : ∀ j, j ≠ i → history'.filter (fun p => decide (p.1 = j)) = history.filter (fun p => decide (p.1 = j)) ∧
      answers j m'.replies = answers j m.replies)
    (hself : history'.filter (fun p => decide (p.1 = i)) =
      answers i m'.replies ++ x.pending.map (fun served => (i, served))) :
    Serializes start m' history' db' := by
  have hself' : m'.clients i = x := by rw [hclients, Function.update_self]
  have hother (j : I) (hj : j ≠ i) : m'.clients j = m.clients j := by rw [hclients, Function.update_of_ne hj]
  have hbefore (r : Fin Host.numShards) : m.held i r = w.held r := by rw [Machine.held, hi]
  refine ⟨hserial, h.exclusive.update (i := i) ?_ ?_, fun j => ?_, fun k hk => ?_, fun j => ?_⟩
  · intro j hj
    funext r
    rw [Machine.held, hother j hj]
    rfl
  · intro r mode hr
    rw [Machine.held, hself'] at hr
    rw [hbefore]
    exact hheld r mode hr
  · by_cases hj : j = i
    · rw [hj, hself']
      exact hx
    · rw [hother j hj]
      refine (h.follows j).transfer (fun k hk => ?_)
      rcases hdb k with hsame | hwrite
      · exact hsame
      · have hnone := h.exclusive j i (Host.shardIndex k) hj hk
        rw [hbefore, hwrite] at hnone
        cases hnone
  · refine hdata k (fun hs => hk i (hself' ▸ hs)) (fun j hj hs => hk j ?_)
    rw [hother j hj]
    exact hs
  · by_cases hj : j = i
    · rw [hj, hself']
      exact hself
    · rw [hother j hj, (hothers j hj).1, (hothers j hj).2]
      exact h.order j

theorem Serializes.quiet (h : Serializes start m history db) (hi : m.clients i = w)
    (hclients : m'.clients = Function.update m.clients i x) (hdb : m'.db = m.db)
    (hreplies : m'.replies = m.replies)
    (hheld : ∀ r mode, x.held r = some mode → w.held r = some mode ∨ Free m.held mode r)
    (hx : x.Follows db) (hsettles : ∀ r, w.Settles r → x.Settles r) (hpending : x.pending = w.pending) :
    Serializes start m' history db := by
  refine h.update hi hclients h.serial hheld hx (fun k => .inl rfl) (fun k hk hall => ?_) (fun j _ => ?_) ?_
  · rw [hdb]
    exact h.data_others hi (fun hs => hk (hsettles _ hs)) hall
  · rw [hreplies]
    exact ⟨rfl, rfl⟩
  · rw [hreplies, hpending, ← hi]
    exact h.order i

theorem Serializes.effect (h : Serializes start m history db) {served : Served S} (hi : m.clients i = w)
    (hclients : m'.clients = Function.update m.clients i x) (hreplies : m'.replies = m.replies)
    (halone : Alone db served db')
    (hheld : ∀ r mode, x.held r = some mode → w.held r = some mode ∨ Free m.held mode r)
    (hx : x.Follows db') (hdb : ∀ k, db'.entry k = db.entry k ∨ w.held (Host.shardIndex k) = some .write)
    (hdata : ∀ k, ¬ x.Settles (Host.shardIndex k) → (∀ j, j ≠ i → ¬ (m.clients j).Settles (Host.shardIndex k)) →
      db'.entry k = m'.db.entry k)
    (hbefore : w.pending = []) (hpending : x.pending = [served]) :
    Serializes start m' (history ++ [(i, served)]) db' := by
  refine h.update hi hclients (h.serial.snoc halone) hheld hx hdb hdata (fun j hj => ?_) ?_
  · rw [hreplies, List.filter_append, List.filter_singleton, decide_eq_false (Ne.symm hj)]
    exact ⟨List.append_nil _, rfl⟩
  · have hold := h.order i
    rw [hi, hbefore, List.map_nil, List.append_nil] at hold
    rw [hreplies, hpending, List.filter_append, hold, List.filter_singleton, decide_eq_true rfl]
    rfl

theorem Serializes.reply (h : Serializes start m history db) {served : Served S} (hi : m.clients i = w)
    (hsettles : ∀ r, ¬ w.Settles r) (hpending : w.pending = [served].filter Served.kept) :
    Serializes start (m.reply i served) history db := by
  refine h.update hi rfl h.serial (by rintro r mode ⟨⟩) trivial (fun k => .inl rfl) (fun k _ hall => ?_)
    (fun j hj => ?_) ?_
  · exact h.data_others hi (hsettles _) hall
  · refine ⟨rfl, ?_⟩
    change answers j (m.replies ++ [(i, served)]) = _
    rw [answers, List.filter_append, List.filter_singleton, decide_eq_false (Ne.symm hj)]
    exact List.append_nil _
  · have hold := h.order i
    rw [hi, hpending] at hold
    rw [hold]
    change _ = answers i (m.replies ++ [(i, served)]) ++ []
    rw [List.append_nil, answers, answers, List.filter_append]
    simp only [List.filter_singleton, decide_true, Bool.true_and]
    cases served.kept <;> rfl

theorem keyed_refused {rt : Runtime} {now : Nat} {c : Command S} (hc : single c = true)
    (ha : keyed (J := J) rt now (fun c => c.values) c = none) (db : Db (Value S J)) :
    execute rt now db c = (.err "Invalid JSON value", db) := by
  cases c with
  | jsonSet c =>
      have hv : SerdeJson.fromStr (J := J) c.value = none := Option.map_eq_none_iff.mp ha
      simp only [execute, executeJsonSet, hv]
  | get | set | hset | hget | hdel | lpop | zadd | zrem | zscore | jsonGet => cases ha
  | ping | unimplement | eval | lpush | blpop | mset | mget | multi | exec | multiGroup | zrank | zrange => cases hc

theorem Serializes.refuse (h : Serializes start m history db) {c : Command S} {rt : Runtime}
    (hi : m.clients i = .idle) (hc : single c = true)
    (ha : keyed (J := J) rt m.now (fun c => c.values) c = none) :
    ∃ history' db', Serializes start { m.set i (.done ⟨.command c, [⟨rt, m.now⟩],
      (execute rt m.now m.db c).1.reply⟩ none) with db := (execute rt m.now m.db c).2 } history' db' := by
  have halone : Alone db ⟨.command c, [⟨rt, m.now⟩], (execute rt m.now db c).1.reply⟩
      (execute rt m.now db c).2 := .refuse ha
  rw [keyed_refused hc ha] at halone ⊢
  refine ⟨_, _, h.effect hi rfl rfl halone (by rintro r mode ⟨⟩) trivial (fun k => .inl rfl)
    (fun k _ hall => ?_) rfl rfl⟩
  exact h.data_others hi id hall

/-- Nobody settles a shard that a client has locked, or could lock. -/
theorem Serializes.data_locked (h : Serializes start m history db) (hi : m.clients i = w) {k : Str} {mode : Mode}
    (hheld : w.held (Host.shardIndex k) = some mode) (hw : ¬ w.Settles (Host.shardIndex k)) :
    db.entry k = m.db.entry k := by
  refine h.data_others hi hw (fun j hj hs => ?_)
  have hnone := h.exclusive j i (Host.shardIndex k) hj hs.held
  rw [Machine.held, hi, hheld] at hnone
  cases hnone

theorem Serializes.access (h : Serializes start m history db) {c : Command S} {started : Moment} {key : Str}
    {a : Access S (Value S J)} (hi : m.clients i = .locked c started key a) :
    ∃ history' db', Serializes start { m.set i (.done ⟨.command c, [started, ⟨started.rt, m.now⟩],
      (m.db.access m.now key a).1.reply⟩ (some (key, lockMode a))) with
        db := (m.db.access m.now key a).2 } history' db' := by
  have hkeyed : keyed started.rt started.now (fun c => c.values) c = some (key, a) := h.client hi
  have hheld : (Client.locked c started key a).held (Host.shardIndex key) = some (lockMode a) := by
    rw [Client.held, if_pos rfl]
  have hkey : db.entry key = m.db.entry key := h.data_locked hi hheld id
  obtain ⟨hdone, hentry⟩ := m.db.access_spec m.now key a
  obtain ⟨hdone', hentry'⟩ := db.access_spec m.now key a
  rw [hkey] at hdone' hentry'
  have halone : Alone db ⟨.command c, [started, ⟨started.rt, m.now⟩], (db.access m.now key a).1.reply⟩
      (db.access m.now key a).2 := .command hkeyed
  rw [hdone', ← hdone] at halone
  refine ⟨_, _, h.effect hi rfl rfl halone (fun r mode hr => .inl hr) trivial (fun k => ?_)
    (fun k _ hall => ?_) rfl rfl⟩
  · by_cases hk : k = key
    · cases hreads : a.reads with
      | true =>
          refine .inl ?_
          rw [hentry', if_pos hk, onCell_reads hreads, hk, hkey]
      | false =>
          refine .inr ?_
          rw [hk, hheld, lockMode, hreads]
          rfl
    · exact .inl (by rw [hentry', if_neg hk])
  · change (db.access m.now key a).2.entry k = (m.db.access m.now key a).2.entry k
    rw [hentry, hentry']
    split
    · rfl
    · exact h.data_others hi id hall

theorem Serializes.lockShard (h : Serializes start m history db) {keys : List Str} {script : Script}
    {shard : Fin Host.numShards} {shards : List (Fin Host.numShards)} {sessions : Sessions (Value S J)}
    (hi : m.clients i = .locking keys script (shard :: shards) sessions) (hfree : Free m.held .write shard) :
    Serializes start (m.set i (.locking keys script shards
      (sessions.insert shard (lockWriteLua (m.db.shards shard))))) history db := by
  obtain ⟨locked, hlocked, hreflects⟩ := h.client hi
  refine h.quiet hi rfl rfl rfl (fun r mode hr => ?_)
    ⟨shard :: locked, fun r => ?_, reflects_lock hreflects ?_⟩ (fun r hs => hs) rfl
  · by_cases hrs : r = shard
    · subst hrs
      rw [Client.held, Finmap.lookup_insert] at hr
      cases hr
      exact .inr hfree
    · rw [Client.held, Finmap.lookup_insert_of_ne _ hrs] at hr
      exact .inl hr
  · rw [hlocked]
    simp only [List.mem_cons]
    tauto
  · rintro k rfl
    refine (h.data k (fun j hs => ?_)).symm
    cases (hfree j .write hs.held).1

theorem Serializes.run (h : Serializes start m history db) {keys : List Str} {script : Script}
    {sessions : Sessions (Value S J)} (hi : m.clients i = .locking keys script [] sessions) :
    Serializes start (m.set i (.calling keys script [] script ⟨sessions, []⟩)) history db := by
  obtain ⟨locked, hlocked, hreflects⟩ := h.client hi
  have hsame : lockedOverlay (shardIndices keys) db.entry = lockedOverlay locked db.entry := by
    refine lockedOverlay_congr (fun r => ?_) (fun _ _ => rfl)
    rw [hlocked, or_iff_left List.not_mem_nil]
  refine h.quiet hi rfl rfl rfl (fun r mode hr => .inl hr) ⟨_, rfl, ?_, rfl⟩ (fun r hs => hs) rfl
  rwa [hsame]

theorem Serializes.call (h : Serializes start m history db) {keys : List Str} {script : Script}
    {moments : List Moment} {c : Call} {next : Except LuaError Frame → Script}
    {env : CurrentRequestEnv (Sessions (Value S J)) S} (moment : Moment)
    (hi : m.clients i = .calling keys script moments (.call c next) env) :
    Serializes start (m.set i (.calling keys script (moments ++ [moment])
      (next (redisCall moment env c).1) (redisCall moment env c).2)) history db := by
  obtain ⟨o, hafter, hshows⟩ := h.client hi
  obtain ⟨hresult, hshows'⟩ := hshows.call moment c
  refine h.quiet hi rfl rfl rfl (fun r mode hr => ?_) ⟨_, ?_, hshows'⟩ (fun r hs => hs) rfl
  · rw [Client.held, ← hshows'.sessions.declared, redisCall_declared, hshows.sessions.declared] at hr
    exact .inl hr
  · rw [after_snoc hafter moment, hresult]

theorem Serializes.succeed (h : Serializes start m history db) {keys : List Str} {script : Script}
    {moments : List Moment} {frame : Frame} {env : CurrentRequestEnv (Sessions (Value S J)) S}
    {shards : List (Fin Host.numShards)} (hi : m.clients i = .calling keys script moments (.ret frame) env)
    (hs : ∀ shard, shard ∈ shards ↔ shard ∈ env.sessions) :
    ∃ history' db', Serializes start (m.set i (.ending ⟨.eval keys script, moments, .ok frame⟩ shards
      env.sessions)) history' db' := by
  obtain ⟨o, hafter, hshows⟩ := h.client hi
  have hheld (r : Fin Host.numShards) : (Client.calling keys script moments (.ret frame) env).held r =
      if o.sessions.declared r then some .write else none := by
    rw [Client.held, hshows.sessions.declared]
  -- the serial run makes the same calls, so it ends with the same overlay
  have hlocked : Shows (initLuaPre db keys) ⟨lockedOverlay (shardIndices keys) db.entry, []⟩ :=
    ⟨lockAll_reflects db (shardIndices keys), rfl⟩
  obtain ⟨env', hafter', hshows'⟩ := hlocked.after hafter
  obtain ⟨ms, hrun, hcalls⟩ := run_of_after hafter'
  choose drained hdrained using fun r : Fin Host.numShards =>
    exists_drains (((env'.sessions.lookup r).map LuaCacheNode.differMap).getD ∅)
  have hd (r : Fin Host.numShards) (node : LuaCacheNode (Value S J)) (hr : env'.sessions.lookup r = some node) :
      Drains node.differMap (drained r) := by
    have hr' := hdrained r
    rwa [hr] at hr'
  have hentry := release_entry db hshows'.sessions hd
  have halone := Alone.script hrun hd
  rw [hcalls] at halone
  refine ⟨_, _, h.effect hi rfl rfl halone (fun r mode hr => .inl hr) (fun k node hk => ?_) (fun k => ?_)
    (fun k hk hall => ?_) rfl rfl⟩
  · have hmem : Host.shardIndex k ∈ shards := by
      rw [hs, ← Finmap.lookup_isSome, hk]
      rfl
    have hdeclared : o.sessions.declared (Host.shardIndex k) = true := by
      rw [hshows.sessions.declared, hk]
      rfl
    refine ⟨hshows.sessions.writes _ node hk, fun _ => ?_, fun hnot => absurd hmem hnot⟩
    rw [hentry, if_pos hdeclared, hshows.sessions.cells k node hk]
  · rw [hentry, hheld]
    split
    · exact .inr rfl
    · exact .inl rfl
  · rw [Client.Settles, ← hshows.sessions.declared] at hk
    rw [hentry, if_neg hk]
    exact h.data_others hi id hall

/-- A script that fails leaves the data as it is, when its lookups have removed no
expired entry. -/
theorem Serializes.fail (h : Serializes start m history db) {keys : List Str} {script : Script}
    {moments : List Moment} {text : String} {env : CurrentRequestEnv (Sessions (Value S J)) S}
    (hi : m.clients i = .calling keys script moments (.fail text) env)
    (hclean : ∀ k node, env.sessions.lookup (Host.shardIndex k) = some node →
      node.dbStore.store.lookup k = m.db.entry k) :
    Serializes start (m.set i (.ending ⟨.eval keys script, moments, .error (scriptError text)⟩ []
      env.sessions)) history db := by
  obtain ⟨o, -, hshows⟩ := h.client hi
  refine h.quiet hi rfl rfl rfl (fun r mode hr => .inl hr) (fun k node hk => ?_) (fun r hs => hs.elim) rfl
  have hheld : (Client.calling keys script moments (.fail text) env).held (Host.shardIndex k) = some .write := by
    rw [Client.held, hk]
    rfl
  refine ⟨hshows.sessions.writes _ node hk, fun hmem => absurd hmem List.not_mem_nil, fun _ => ?_⟩
  rw [h.data_locked hi hheld id, ← hclean k node hk]
  rfl

theorem Serializes.commit (h : Serializes start m history db) {served : Served S} {shard : Fin Host.numShards}
    {shards : List (Fin Host.numShards)} {sessions : Sessions (Value S J)} {node : LuaCacheNode (Value S J)}
    {drained : List (Str × ChangeOp (Value S J))} (hi : m.clients i = .ending served (shard :: shards) sessions)
    (hn : sessions.lookup shard = some node) (hd : Drains node.differMap drained) :
    Serializes start (m.set i (.ending served shards (sessions.insert shard (node.commit drained)))) history db := by
  have hfollows := h.client hi
  have hsome (r : Fin Host.numShards) :
      ((sessions.insert shard (node.commit drained)).lookup r).isSome = (sessions.lookup r).isSome := by
    by_cases hr : r = shard
    · rw [hr, Finmap.lookup_insert, hn]
      rfl
    · rw [Finmap.lookup_insert_of_ne _ hr]
  refine h.quiet hi rfl rfl rfl (fun r mode hr => ?_) (fun k node' hk => ?_) (fun r hs => ?_) rfl
  · rw [Client.held, hsome] at hr
    exact .inl hr
  · by_cases hr : Host.shardIndex k = shard
    · subst hr
      rw [Finmap.lookup_insert] at hk
      cases hk
      obtain ⟨hwrites, hentry, -⟩ := hfollows k node hn
      obtain ⟨hwrites', hcell⟩ := commit_cell hwrites hd
      rw [hentry List.mem_cons_self, (hcell k).1, (hcell k).2]
      exact ⟨hwrites', fun _ => rfl, fun _ => rfl⟩
    · rw [Finmap.lookup_insert_of_ne _ hr] at hk
      have hmem : Host.shardIndex k ∈ shard :: shards ↔ Host.shardIndex k ∈ shards := by
        rw [List.mem_cons, or_iff_right hr]
      have hold := hfollows k node' hk
      simpa only [hmem] using hold
  · rw [Client.Settles, hsome]
    exact hs

theorem Serializes.release (h : Serializes start m history db) {served : Served S} {shard : Fin Host.numShards}
    {sessions : Sessions (Value S J)} {node : LuaCacheNode (Value S J)}
    (hi : m.clients i = .ending served [] sessions) (hn : sessions.lookup shard = some node)
    (hclients : m'.clients = Function.update m.clients i (.ending served [] (sessions.erase shard)))
    (hshards : m'.db.shards = Function.update m.db.shards shard node.dbStore.guard.shard)
    (hreplies : m'.replies = m.replies) : Serializes start m' history db := by
  have hfollows := h.client hi
  have hsome {r : Fin Host.numShards} {node' : LuaCacheNode (Value S J)}
      (hr : (sessions.erase shard).lookup r = some node') : sessions.lookup r = some node' := by
    by_cases hrs : r = shard
    · rw [hrs, Finmap.lookup_erase] at hr
      cases hr
    · rwa [Finmap.lookup_erase_ne hrs] at hr
  refine h.update hi hclients h.serial (fun r mode hr => ?_) (fun k node' hk => hfollows k node' (hsome hk))
    (fun k => .inl rfl) (fun k hk hall => ?_) (fun j _ => ?_) ?_
  · refine .inl ?_
    rw [Client.held] at hr
    cases hl : (sessions.erase shard).lookup r with
    | none =>
        rw [hl] at hr
        cases hr
    | some node' =>
        rw [hl] at hr
        rw [Client.held, hsome hl]
        exact hr
  · by_cases hr : Host.shardIndex k = shard
    · subst hr
      obtain ⟨-, -, hentry⟩ := hfollows k node hn
      rw [hentry List.not_mem_nil, Db.entry, hshards, Function.update_self]
      rfl
    · have hsame : m'.db.entry k = m.db.entry k := by
        rw [Db.entry, Db.entry, hshards, Function.update_of_ne hr]
      rw [hsame]
      refine h.data_others hi (fun hs => hk ?_) hall
      rw [Client.Settles, Finmap.lookup_erase_ne hr]
      exact hs
  · rw [hreplies]
    exact ⟨rfl, rfl⟩
  · rw [hreplies, h.order i, hi]
    rfl

/-- No script that fails has removed an expired entry. -/
def Clean (m : Machine I S J) : Label I S → Prop
  | .go i => ∀ keys script moments text env, m.clients i = .calling keys script moments (.fail text) env →
      ∀ k node, env.sessions.lookup (Host.shardIndex k) = some node → node.dbStore.store.lookup k = m.db.entry k
  | _ => True

theorem Serializes.step (h : Serializes start m history db) {l : Label I S} (hl : Clean m l) (hs : Step m l m') :
    ∃ history' db', Serializes start m' history' db' := by
  cases hs with
  | start hi hc ha =>
      exact ⟨history, db, h.quiet hi rfl rfl rfl (by rintro r mode ⟨⟩) ha (fun r hs => hs) rfl⟩
  | refuse hi hc ha => exact h.refuse hi hc ha
  | @lock i c started key a hi hfree =>
      have hkeyed : keyed started.rt started.now (fun c => c.values) c = some (key, a) := h.client hi
      refine ⟨history, db, h.quiet hi rfl rfl rfl (fun r mode hr => .inr ?_) hkeyed (fun r hs => hs) rfl⟩
      rw [Client.held] at hr
      split at hr
      · next heq =>
          cases hr
          rw [heq]
          exact hfree
      · cases hr
  | access hi => exact h.access hi
  | unlock hi =>
      exact ⟨history, db, h.reply hi (fun r hs => hs) rfl⟩
  | eval hi =>
      exact ⟨history, db, h.quiet hi rfl rfl rfl (by rintro r mode ⟨⟩)
        ⟨[], fun r => (or_iff_right List.not_mem_nil).symm, reflects_empty _⟩ (fun r hs => hs) rfl⟩
  | lockShard hi hfree => exact ⟨history, db, h.lockShard hi hfree⟩
  | run hi => exact ⟨history, db, h.run hi⟩
  | call rt hi => exact ⟨history, db, h.call _ hi⟩
  | succeed hi _ hs => exact h.succeed hi hs
  | fail hi => exact ⟨history, db, h.fail hi (hl _ _ _ _ _ hi)⟩
  | commit hi hn hd => exact ⟨history, db, h.commit hi hn hd⟩
  | release shard hi hn => exact ⟨history, db, h.release hi hn rfl rfl rfl⟩
  | finish hi hs =>
      refine ⟨history, db, h.reply hi (fun r hr => ?_) rfl⟩
      rw [hs] at hr
      cases hr
  | tick => exact ⟨history, db, h.serial, h.exclusive, h.follows, h.data, h.order⟩

structure AtRest (m : Machine I S J) : Prop where
  idle : ∀ i, m.clients i = .idle
  replies : m.replies = []

theorem AtRest.serializes (h : AtRest m) : Serializes m.db m [] m.db where
  serial := .nil
  exclusive i j r _ hw := by
    rw [Machine.held, h.idle] at hw
    cases hw
  follows i := by
    rw [h.idle]
    trivial
  data _ _ := rfl
  order i := by
    rw [h.idle, h.replies]
    rfl

/-- Scripts and commands run as if one after the other, and scripts that fail as if
never, when no script that fails has removed an expired entry. -/
theorem isolated (h : AtRest m) (hrun : Reaches Step Clean m m') (hidle : ∀ i, m'.clients i = .idle) :
    ∃ history db, Serial m.db history db ∧ (∀ k, db.entry k = m'.db.entry k) ∧
      ∀ i, history.filter (fun p => decide (p.1 = i)) = answers i m'.replies := by
  obtain ⟨history, db, hinv⟩ : ∃ history db, Serializes m.db m' history db := by
    refine hrun.invariant (I := fun m₁ => ∃ history db, Serializes m.db m₁ history db) ?_ ⟨[], m.db, h.serializes⟩
    rintro m₁ l m₂ ⟨history, db, hm⟩ hl hs
    exact hm.step hl hs
  refine ⟨history, db, hinv.serial, fun k => ?_, fun i => ?_⟩
  · refine hinv.data k (fun i hs => ?_)
    rw [hidle] at hs
    exact hs
  · rw [hinv.order, hidle]
    exact List.append_nil _

def Anything (_ : Machine I S J) (_ : Label I S) : Prop := True

end Machines

section Inversion

variable {I S J : Type} [Host] [F64 S] [SerdeJson J] {start db db' : Db (Value S J)}

theorem serial_nil (h : Serial start ([] : List (I × Served S)) db) : db = start := by
  generalize hh : ([] : List (I × Served S)) = history at h
  cases h with
  | nil => rfl
  | snoc => simp at hh

theorem serial_snoc {history : List (I × Served S)} {i : I} {served : Served S}
    (h : Serial start (history ++ [(i, served)]) db') : ∃ db, Serial start history db ∧ Alone db served db' := by
  generalize hh : history ++ [(i, served)] = history' at h
  cases h with
  | nil => simp at hh
  | snoc h hs =>
      obtain ⟨rfl, heq⟩ := List.append_inj' hh rfl
      cases heq
      exact ⟨_, h, hs⟩

theorem alone_command {c : Command S} {m₁ m₂ : Moment} {reply : Except KvError Frame}
    (h : Alone db ⟨.command c, [m₁, m₂], reply⟩ db') : ∃ key a,
      keyed m₁.rt m₁.now (fun c => c.values) c = some (key, a) ∧ (db.access m₂.now key a).1.reply = reply ∧
        db' = (db.access m₂.now key a).2 := by
  generalize hs : (⟨.command c, [m₁, m₂], reply⟩ : Served S) = served at h
  cases h with
  | command ha =>
      cases hs
      exact ⟨_, _, ha, rfl, rfl⟩
  | refuse | script => cases hs

omit [Host] in
/-- With one client that counts, the history is what it was answered. -/
theorem history_eq {S : Type} {history answered : List (Fin 2 × Served S)}
    (h₀ : history.filter (fun p => decide (p.1 = 0)) = answered)
    (h₁ : history.filter (fun p => decide (p.1 = 1)) = []) : history = answered := by
  rw [← h₀]
  refine (List.filter_eq_self.mpr (fun p hp => ?_)).symm
  have hne := List.filter_eq_nil_iff.mp h₁ p hp
  have hcases : p.1 = 0 ∨ p.1 = 1 := by omega
  rcases hcases with h | h
  · exact decide_eq_true h
  · exact absurd (decide_eq_true h) hne

omit [F64 S] [SerdeJson J] in
theorem free_of_idle {m : Machine (Fin 2) S J} {mode : Mode} {r : Fin Host.numShards}
    (h₀ : m.held 0 r = none) (h₁ : m.held 1 r = none) : Free m.held mode r := by
  intro j mode' hj
  have hnone : ∀ j, m.held j r = none := Fin.forall_fin_two.mpr ⟨h₀, h₁⟩
  rw [hnone] at hj
  cases hj

end Inversion

section Sample

attribute [local instance] singleShard wholeScore flatJson

def sampleKey : Str := Str.ofAscii (ascii ['k']) ascii_k

/-- SET k v PX 1 -/
def sampleSet : Command UInt64 := .set ⟨sampleKey, ascii ['v'], some (.px 1), none⟩

/-- HSET k k v -/
def sampleHSet : Command UInt64 := .hset ⟨sampleKey, [(sampleKey, ascii ['v'])]⟩

/-- redis.call("GET", "k") -/
def sampleGet : Call where
  args := [ascii ['G', 'E', 'T'], sampleKey.bytes]
  fits := by simp [Fits, FitsAll, ascii, sampleKey, Str.ofAscii]

def sampleFail : Script := .call sampleGet (fun _ => .fail "")

def sampleMachine : Machine (Fin 2) UInt64 Str where
  db := Db.new .lru
  now := 0
  clients _ := .idle
  replies := []

theorem sampleMachine_atRest : AtRest sampleMachine := ⟨fun _ => rfl, rfl⟩

theorem sample_shards : shardIndices [sampleKey] = [0] := by
  simp only [shardIndices, List.map_cons, List.map_nil, List.mergeSort_singleton]
  rfl

/-- What client 0 is answered. -/
def sampleServed : List (Fin 2 × Served UInt64) :=
  [(0, ⟨.command sampleSet, [⟨⟨[], 0, 0⟩, 0⟩, ⟨⟨[], 0, 0⟩, 0⟩], .ok okFrame⟩)] ++
    [(0, ⟨.command sampleHSet, [⟨⟨[], 0, 0⟩, 5⟩, ⟨⟨[], 0, 0⟩, 5⟩], .ok (.integer 1)⟩)]

theorem sampleServed_not_serial (db : Db (Value UInt64 Str)) : ¬ Serial sampleMachine.db sampleServed db := by
  intro h
  obtain ⟨db₁, h, hhset⟩ := serial_snoc h
  obtain ⟨db₀, h, hset⟩ := serial_snoc (show Serial _ ([] ++ [_]) _ from h)
  obtain rfl := serial_nil h
  obtain ⟨key, a, hk, -, rfl⟩ := alone_command hset
  cases hk
  obtain ⟨key, a, hk, hreply, -⟩ := alone_command hhset
  cases hk
  cases hreply

/-- The string has expired when a script that fails looks it up: then HSET finds no
string any more, which it would find had the script not run. -/
theorem failed_script_shows : AtRest sampleMachine ∧ ∃ m', Reaches Step Anything sampleMachine m' ∧
    (∀ i, m'.clients i = .idle) ∧ ∀ history db, Serial sampleMachine.db history db →
      ¬ ∀ i, history.filter (fun p => decide (p.1 = i)) = answers i m'.replies := by
  refine ⟨sampleMachine_atRest, ?_⟩
  have h0 : Reaches Step Anything sampleMachine sampleMachine := .refl
  have h1 := h0.next (e := .start 0 (.command sampleSet)) trivial
    (.start rfl rfl (show keyed ⟨[], 0, 0⟩ 0 (fun c => c.values) sampleSet = some (_, _) from rfl))
  have h2 := h1.next (e := .go 0) trivial (.lock rfl (free_of_idle rfl rfl))
  have h3 := h2.next (e := .go 0) trivial (.access rfl)
  have h4 := h3.next (e := .go 0) trivial (.unlock rfl)
  have h5 := h4.next (e := .tick 5) trivial .tick
  have h6 := h5.next (e := .start 1 (.eval [sampleKey] sampleFail)) trivial (.eval rfl)
  rw [sample_shards] at h6
  have h7 := h6.next (e := .go 1) trivial (.lockShard rfl (free_of_idle rfl rfl))
  have h8 := h7.next (e := .go 1) trivial (.run rfl)
  have h9 := h8.next (e := .go 1) trivial (.call ⟨[], 0, 0⟩ rfl)
  have h10 := h9.next (e := .go 1) trivial (.fail rfl)
  have h11 := h10.next (e := .go 1) trivial (.release 0 rfl rfl)
  have h12 := h11.next (e := .go 1) trivial (.finish rfl rfl)
  have h13 := h12.next (e := .start 0 (.command sampleHSet)) trivial
    (.start rfl rfl (show keyed ⟨[], 0, 0⟩ 5 (fun c => c.values) sampleHSet = some (_, _) from rfl))
  have h14 := h13.next (e := .go 0) trivial (.lock rfl (free_of_idle rfl rfl))
  have h15 := h14.next (e := .go 0) trivial (.access rfl)
  have h16 := h15.next (e := .go 0) trivial (.unlock rfl)
  refine ⟨_, h16, Fin.forall_fin_two.mpr ⟨rfl, rfl⟩, fun history db hserial hall => ?_⟩
  have hhistory : history = sampleServed := history_eq (hall 0) (hall 1)
  rw [hhistory] at hserial
  exact sampleServed_not_serial db hserial

end Sample

section Sample

attribute [local instance] twoShards wholeScore flatJson

def nearShard : Fin Host.numShards := ⟨0, Nat.two_pos⟩

def farShard : Fin Host.numShards := ⟨1, Nat.one_lt_two⟩

/-- redis.call("SET", "k", "v") -/
def callSet : Call where
  args := [ascii ['S', 'E', 'T'], sampleKey.bytes, ascii ['v']]
  fits := by simp [Fits, FitsAll, ascii, sampleKey, Str.ofAscii]

/-- redis.call("LPUSH", "m", "x") -/
def callPush : Call where
  args := [ascii ['L', 'P', 'U', 'S', 'H'], farKey.bytes, ascii ['x']]
  fits := by simp [Fits, FitsAll, ascii, farKey, Str.ofAscii]

/-- A script that returns when it has written both shards. -/
def sampleWrite : Script := .call callSet (fun _ => .call callPush (fun _ => .ret .null))

/-- LPOP m -/
def samplePop : Command UInt64 := .lpop ⟨farKey⟩

theorem write_shards : shardIndices [sampleKey, farKey] = [nearShard, farShard] := by
  have hsorted : ([sampleKey, farKey].map Host.shardIndex).mergeSort (fun i j => decide (i ≤ j)) =
      [sampleKey, farKey].map Host.shardIndex := by
    apply List.mergeSort_of_pairwise
    decide
  rw [shardIndices, hsorted]
  rfl

theorem mem_both {sessions : Sessions (Value UInt64 Str)} {near far : LuaCacheNode (Value UInt64 Str)}
    (hnear : sessions.lookup nearShard = some near) (hfar : sessions.lookup farShard = some far)
    (shard : Fin Host.numShards) : shard ∈ [farShard, nearShard] ↔ shard ∈ sessions := by
  have hcases : shard = nearShard ∨ shard = farShard := by
    revert shard
    decide
  rcases hcases with rfl | rfl
  · exact iff_of_true (List.mem_cons_of_mem _ List.mem_cons_self) (Finmap.mem_of_lookup_eq_some hnear)
  · exact iff_of_true List.mem_cons_self (Finmap.mem_of_lookup_eq_some hfar)

def freshMachine : Machine (Fin 2) UInt64 Str := ⟨Db.new .lru, 0, fun _ => .idle, []⟩

theorem freshMachine_atRest : AtRest freshMachine := ⟨fun _ => rfl, rfl⟩

/-- LPOP m starts before the script has the lock of m and pops what the script has pushed. -/
theorem isolated_read : ∃ m', Reaches Step Clean freshMachine m' ∧
    (answers 0 m'.replies).map (fun p => p.2.reply) = [.ok (.bulk (ascii ['x']))] ∧
    ∃ history db, Serial freshMachine.db history db ∧ (∀ k, db.entry k = m'.db.entry k) ∧
      ∀ i, history.filter (fun p => decide (p.1 = i)) = answers i m'.replies := by
  have h0 : Reaches Step Clean freshMachine freshMachine := .refl
  have h1 := h0.next (e := .start 0 (.command samplePop)) trivial
    (.start rfl rfl (show keyed ⟨[], 0, 0⟩ 0 (fun c => c.values) samplePop = some (_, _) from rfl))
  have h2 := h1.next (e := .start 1 (.eval [sampleKey, farKey] sampleWrite)) trivial (.eval rfl)
  rw [write_shards] at h2
  have h3 := h2.next (e := .go 1) (by rintro _ _ _ _ _ ⟨⟩) (.lockShard rfl (free_of_idle rfl rfl))
  have h4 := h3.next (e := .go 1) (by rintro _ _ _ _ _ ⟨⟩) (.lockShard rfl (free_of_idle rfl rfl))
  have h5 := h4.next (e := .go 1) (by rintro _ _ _ _ _ ⟨⟩) (.run rfl)
  have h6 := h5.next (e := .go 1) (by rintro _ _ _ _ _ ⟨⟩) (.call ⟨[], 0, 0⟩ rfl)
  have h7 := h6.next (e := .tick 5) trivial .tick
  have h8 := h7.next (e := .go 1) (by rintro _ _ _ _ _ ⟨⟩) (.call ⟨[], 5, 0⟩ rfl)
  have h9 := h8.next (e := .go 1) (by rintro _ _ _ _ _ ⟨⟩)
    (.succeed rfl (show [farShard, nearShard].Nodup by decide) (mem_both rfl rfl))
  have h10 := h9.next (e := .go 1) (by rintro _ _ _ _ _ ⟨⟩) (.commit rfl rfl (drains_empty.insert rfl _))
  have h11 := h10.next (e := .go 1) (by rintro _ _ _ _ _ ⟨⟩) (.commit rfl rfl (drains_empty.insert rfl _))
  have h12 := h11.next (e := .go 1) (by rintro _ _ _ _ _ ⟨⟩) (.release farShard rfl rfl)
  have h13 := h12.next (e := .go 0) (by rintro _ _ _ _ _ ⟨⟩) (.lock rfl (free_of_idle rfl rfl))
  have h14 := h13.next (e := .go 1) (by rintro _ _ _ _ _ ⟨⟩) (.release nearShard rfl rfl)
  have h15 := h14.next (e := .go 0) (by rintro _ _ _ _ _ ⟨⟩) (.access rfl)
  have h16 := h15.next (e := .go 1) (by rintro _ _ _ _ _ ⟨⟩) (.finish rfl rfl)
  have h17 := h16.next (e := .go 0) (by rintro _ _ _ _ _ ⟨⟩) (.unlock rfl)
  exact ⟨_, h17, rfl, isolated freshMachine_atRest h17 (Fin.forall_fin_two.mpr ⟨rfl, rfl⟩)⟩

end Sample

end RustKv.Isolation
