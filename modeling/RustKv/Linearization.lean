import RustKv.ScriptTurns

namespace RustKv.Isolation

open Text Protocol Domain CommandParser CacheStore Zset RustKv.Types Executor Expiry Lua RwLocks Abstract Traces

section Clients

variable {S J : Type} [Host] [LinearOrder S] [F64 S] [SerdeJson J] {P : S → Prop} {n n' : Nat}
  {cells cells' : Cells (Value S J)} {data data' : Keyspace S J} {x : Client S J} {s : Status S}

/-- What a client of the server is as a client of the atomic store, where `cells` are the
entries that the requests which have taken effect so far have made. -/
def Client.Stands (P : S → Prop) (n : Nat) (cells : Cells (Value S J)) (data : Keyspace S J) (s : Status S) :
    Client S J → Prop
  | .idle => s = .idle
  | .waiting c started key a | .locked c started key a =>
      keyed started.rt started.now (fun c => c.values) c = some (key, a) ∧ Regular P c ∧
        ∃ clock, s = .asked (.command c) started.now clock
  | .done served _ => s = .answered served.request served.reply
  | .locking keys script shards sessions => (∃ started clock, s = .asked (.eval keys script) started clock) ∧
      ∃ locked, (∀ r, r ∈ shardIndices keys ↔ r ∈ locked ∨ r ∈ shards) ∧
        Reflects sessions (lockedOverlay locked cells)
  | .calling keys start _ script env => ∃ started clock held o, s = .asked (.eval keys start) started clock ∧
      Relation.ReflTransGen (Turn (within keys data) keys clock) (start, fun _ => none) (script, held) ∧
      Reflects env.sessions o ∧ Drafted P n keys clock cells held o
  | .ending served shards sessions => s = .answered served.request served.reply ∧
      ∀ k node, sessions.lookup (Host.shardIndex k) = some node →
        Writes node ∧ (Host.shardIndex k ∈ shards → cells k = (nodeCell node k).committed) ∧
          (Host.shardIndex k ∉ shards → cells k = (nodeCell node k).base)

/-- What others do to the shards that a client has not locked to write does not matter to it. -/
theorem Client.Stands.transfer (h : x.Stands P n cells data s) (hn : n ≤ n')
    (hkeep : ∀ k, x.held (Host.shardIndex k) = some .write → cells' k = cells k ∧ data' k = data k) :
    x.Stands P n' cells' data' s := by
  cases x with
  | idle | waiting | locked | done => exact h
  | locking keys script shards sessions =>
      obtain ⟨hs, locked, hlocked, hreflects⟩ := h
      refine ⟨hs, locked, hlocked, ?_⟩
      have hsame : lockedOverlay locked cells' = lockedOverlay locked cells := by
        refine lockedOverlay_congr (fun _ => Iff.rfl) (fun k hk => (hkeep k ?_).1)
        have hd := hreflects.declared (Host.shardIndex k)
        simp only [lockedOverlay, hk, decide_true] at hd
        simp only [Client.held, ← hd, if_true]
      rwa [hsame]
  | calling keys start moments script env =>
      obtain ⟨started, clock, held, o, hs, hrun, hreflects, hdrafted⟩ := h
      have hall (k : Str) (hk : Host.shardIndex k ∈ shardIndices keys) : cells' k = cells k ∧ data' k = data k := by
        refine hkeep k ?_
        have hd := hreflects.declared (Host.shardIndex k)
        rw [hdrafted.declared, decide_eq_true hk] at hd
        simp only [Client.held, ← hd, if_true]
      refine ⟨started, clock, held, o, hs, ?_, hreflects, hdrafted.mono hn (List.Subset.refl _)
        (fun k hk => (hall k hk).1)⟩
      rwa [within_congr (fun k hk => (hall k hk).2)]
  | ending served shards sessions =>
      refine ⟨h.1, fun k node hk => ?_⟩
      rw [(hkeep k (by simp only [Client.held, hk, Option.isSome_some, if_true])).1]
      exact h.2 k node hk

theorem Client.Stands.tick (h : x.Stands P n cells data s) (now : Nat) :
    x.Stands P n cells data (s.tick now) := by
  cases x with
  | idle =>
      obtain rfl : s = .idle := h
      rfl
  | waiting | locked =>
      obtain ⟨hkeyed, hregular, clock, rfl⟩ := h
      exact ⟨hkeyed, hregular, _, rfl⟩
  | done served guard =>
      obtain rfl : s = .answered served.request served.reply := h
      rfl
  | locking =>
      obtain ⟨⟨started, clock, rfl⟩, hlocked⟩ := h
      exact ⟨⟨started, _, rfl⟩, hlocked⟩
  | calling =>
      obtain ⟨started, clock, held, o, rfl, hrun, hreflects, hdrafted⟩ := h
      have hsub : clock ⊆ now :: clock := List.subset_cons_self now clock
      exact ⟨started, _, held, o, rfl, hrun.lift id (fun _ _ ht => ht.mono hsub), hreflects,
        hdrafted.mono le_rfl hsub (fun _ _ => rfl)⟩
  | ending =>
      obtain ⟨rfl, hnodes⟩ := h
      exact ⟨rfl, hnodes⟩

end Clients

section Machines

variable {I S J : Type} [Host]

/-- The commands on one key or on none that the clients of `Step` leave out. -/
def other : Command S → Bool
  | .zrank _ | .zrange _ | .ping _ | .unimplement _ | .multi | .exec | .multiGroup _ => true
  | _ => false

def Machine.shows (m : Machine I S J) : Label I S → Event I S
  | .start i request => .start i request
  | .tick now => .tick now
  | .go i =>
      match m.clients i with
      | .done served _ => .reply i served.request served.reply
      | .ending served [] sessions => if sessions.keys = ∅ then .reply i served.request served.reply else .nothing
      | .calling _ _ _ (.call c _) _ => .call c
      | _ => .nothing

variable [DecidableEq I] [F64 S] [SerdeJson J]

/-- A step of the server: of a client, of the clock, or of one of the background tasks,
which lock one shard at a time. -/
inductive Busy : Machine I S J → Event I S → Machine I S J → Prop
  | client {m m' : Machine I S J} {l : Label I S} (h : Step m l m') : Busy m (m.shows l) m'
  | start {m : Machine I S J} {i : I} {c : Command S} {rt : Runtime} {key : Str} {a : Access S (Value S J)}
      (h : m.clients i = .idle) (hc : other c = true) (ha : keyed rt m.now (fun c => c.values) c = some (key, a)) :
      Busy m (.start i (.command c)) (m.set i (.waiting c ⟨rt, m.now⟩ key a))
  | refuse {m : Machine I S J} {i : I} {c : Command S} {rt : Runtime} (h : m.clients i = .idle)
      (hc : other c = true) (ha : keyed (J := J) rt m.now (fun c => c.values) c = none) :
      Busy m (.start i (.command c)) { m.set i (.done ⟨.command c, [⟨rt, m.now⟩],
          (execute rt m.now m.db c).1.reply⟩ none) with db := (execute rt m.now m.db c).2 }
  | evictionTtl {m : Machine I S J} (shard : Fin Host.numShards) (sample : Nat)
      (hfree : Free m.held .write shard) :
      Busy m .evictionTtl { m with db := m.db.unlock shard (Normal.evictionTtl m.now sample (m.db.lock shard)) }
  | evictionMemory {m : Machine I S J} (shard : Fin Host.numShards) (hfree : Free m.held .write shard) :
      Busy m .evictionMemory { m with db := m.db.unlock shard (Normal.evictionMemory (m.db.lock shard)) }

def Event.Regular (P : S → Prop) : Event I S → Prop
  | .start _ (.command c) => Abstract.Regular P c
  | .call c => ∀ command ∈ (tryFrom (S := S) (.array (c.args.map .bulk))).toOption, Abstract.Regular P command
  | _ => True

variable [LinearOrder S] {P : S → Prop} {n n' : Nat} {m m' : Machine I S J} {a a' : Atomic I S J}
  {cells cells' : Cells (Value S J)} {i : I} {w x : Client S J} {s : Status S}

/-- The server as an atomic store. `cells` are the entries that the requests which have taken
effect have made: those of the store, but where a script has yet to leave its own. -/
structure Linear (P : S → Prop) (n : Nat) (cells : Cells (Value S J)) (m : Machine I S J) (a : Atomic I S J) :
    Prop where
  exclusive : Exclusive m.held
  now : a.now = m.now
  pictures : ∀ k, Option.Rel (Depicts P n) (cells k) (a.data k)
  data : ∀ k, (∀ i, ¬ (m.clients i).Settles (Host.shardIndex k)) → cells k = m.db.entry k
  clients : ∀ i, (m.clients i).Stands P n cells a.data (a.clients i)
  clock : ∀ i request started clock, a.clients i = .asked request started clock → a.now ∈ clock

omit [DecidableEq I] in
theorem Linear.data_others (h : Linear P n cells m a) (hi : m.clients i = w) {k : Str}
    (hw : ¬ w.Settles (Host.shardIndex k))
    (hall : ∀ j, j ≠ i → ¬ (m.clients j).Settles (Host.shardIndex k)) : cells k = m.db.entry k := by
  refine h.data k (fun j hs => ?_)
  by_cases hj : j = i
  · rw [hj, hi] at hs
    exact hw hs
  · exact hall j hj hs

/-- What a step of one client has to show. -/
theorem Linear.update (h : Linear P n cells m a) (hi : m.clients i = w) (hn : n ≤ n')
    (hclients : m'.clients = Function.update m.clients i x) (hnow : m'.now = m.now)
    (ha : a'.clients = Function.update a.clients i s) (hanow : a'.now = a.now)
    (hheld : ∀ r mode, x.held r = some mode → w.held r = some mode ∨ Free m.held mode r)
    (hpictures : ∀ k, Option.Rel (Depicts P n') (cells' k) (a'.data k))
    (hx : x.Stands P n' cells' a'.data s)
    (hkeep : ∀ k, (cells' k = cells k ∧ a'.data k = a.data k) ∨ w.held (Host.shardIndex k) = some .write)
    (hdata : ∀ k, ¬ x.Settles (Host.shardIndex k) → (∀ j, j ≠ i → ¬ (m.clients j).Settles (Host.shardIndex k)) →
      cells' k = m'.db.entry k)
    (hclock : ∀ request started clock, s = .asked request started clock → a.now ∈ clock) :
    Linear P n' cells' m' a' := by
  have hself : m'.clients i = x := by rw [hclients, Function.update_self]
  have hother (j : I) (hj : j ≠ i) : m'.clients j = m.clients j := by rw [hclients, Function.update_of_ne hj]
  refine ⟨h.exclusive.update (i := i) ?_ ?_, by rw [hanow, hnow, h.now], hpictures, fun k hk => ?_, fun j => ?_,
    fun j request started clock hasked => ?_⟩
  · intro j hj
    funext r
    rw [Machine.held, hother j hj]
    rfl
  · intro r mode hr
    rw [Machine.held, hself] at hr
    rw [Machine.held, hi]
    exact hheld r mode hr
  · refine hdata k (fun hs => hk i (hself ▸ hs)) (fun j hj hs => hk j ?_)
    rw [hother j hj]
    exact hs
  · rw [ha]
    by_cases hj : j = i
    · rw [hj, hself, Function.update_self]
      exact hx
    · rw [hother j hj, Function.update_of_ne hj]
      refine (h.clients j).transfer hn (fun k hk => ?_)
      rcases hkeep k with hsame | hwrite
      · exact hsame
      · -- two clients cannot both have the shard to write
        have hnone := h.exclusive j i (Host.shardIndex k) hj hk
        rw [Machine.held, hi, hwrite] at hnone
        cases hnone
  · rw [hanow]
    by_cases hj : j = i
    · rw [hj, ha, Function.update_self] at hasked
      exact hclock request started clock hasked
    · rw [ha, Function.update_of_ne hj] at hasked
      exact h.clock j request started clock hasked

theorem Linear.quiet (h : Linear P n cells m a) (hi : m.clients i = w) (hn : n ≤ n')
    (hclients : m'.clients = Function.update m.clients i x) (hnow : m'.now = m.now) (hdb : m'.db = m.db)
    (ha : a'.clients = Function.update a.clients i s) (hanow : a'.now = a.now) (hadata : a'.data = a.data)
    (hheld : ∀ r mode, x.held r = some mode → w.held r = some mode ∨ Free m.held mode r)
    (hx : x.Stands P n' cells a.data s) (hsettles : ∀ r, w.Settles r → x.Settles r)
    (hclock : ∀ request started clock, s = .asked request started clock → a.now ∈ clock) :
    Linear P n' cells m' a' := by
  refine h.update hi hn hclients hnow ha hanow hheld (fun k => ?_) ?_ (fun k => .inl ⟨rfl, by rw [hadata]⟩)
    (fun k hk hall => ?_) hclock
  · rw [hadata]
    exact depicts_mono (h.pictures k) hn
  · rw [hadata]
    exact hx
  · rw [hdb]
    exact h.data_others hi (fun hs => hk (hsettles _ hs)) hall

theorem Linear.silent (h : Linear P n cells m a) (hi : m.clients i = w) (hn : n ≤ n')
    (hclients : m'.clients = Function.update m.clients i x) (hnow : m'.now = m.now) (hdb : m'.db = m.db)
    (hheld : ∀ r mode, x.held r = some mode → w.held r = some mode ∨ Free m.held mode r)
    (hx : x.Stands P n' cells a.data (a.clients i)) (hsettles : ∀ r, w.Settles r → x.Settles r) :
    Linear P n' cells m' a :=
  h.quiet hi hn hclients hnow hdb (Function.update_eq_self i a.clients).symm rfl rfl hheld hx hsettles (h.clock i)

omit [DecidableEq I] in
theorem Linear.client (h : Linear P n cells m a) (hi : m.clients i = w) :
    w.Stands P n cells a.data (a.clients i) := by
  have hstands := h.clients i
  rwa [hi] at hstands

theorem Linear.begin (h : Linear P n cells m a) {c : Command S} {rt : Runtime} {key : Str}
    {access : Access S (Value S J)} (hi : m.clients i = .idle) (hc : Abstract.Regular P c)
    (ha : keyed rt m.now (fun c => c.values) c = some (key, access)) :
    ∃ a', Atomic.Step a (.start i (.command c)) a' ∧
      Linear P (n + 1) cells (m.set i (.waiting c ⟨rt, m.now⟩ key access)) a' := by
  have hidle : a.clients i = .idle := h.client hi
  refine ⟨_, .single (.start hidle), h.quiet hi (Nat.le_succ n) rfl rfl rfl rfl rfl rfl (by rintro r mode ⟨⟩)
    ⟨ha, hc, [a.now], by rw [h.now]⟩ (fun r hs => hs) ?_⟩
  rintro request started clock ⟨⟩
  exact List.mem_singleton_self a.now

omit [DecidableEq I] in
theorem execute_keyless {rt : Runtime} {now : Nat} {c : Command S}
    (hc : single c = true ∨ other c = true) (ha : keyed (J := J) rt now (fun c => c.values) c = none) (time : Nat) :
    ∃ done : Done S, (∀ db : Db (Value S J), execute rt now db c = (done, db)) ∧
      ∀ data : Keyspace S J, data.execute (settingAt (fun _ => none) time now) LPushCommand.values c = (done, data) := by
  cases c with
  | jsonSet c =>
      have hv : SerdeJson.fromStr (J := J) c.value = none := Option.map_eq_none_iff.mp ha
      refine ⟨.err "Invalid JSON value", fun db => ?_, fun data => ?_⟩
      · simp only [execute, executeJsonSet, hv]
      · simp only [Keyspace.execute, served, hv, Option.map_none]
  | ping | unimplement | multi | exec | multiGroup => exact ⟨_, fun _ => rfl, fun _ => rfl⟩
  | get | set | hset | hget | hdel | lpop | zadd | zrem | zscore | jsonGet | zrank | zrange => cases ha
  | eval | lpush | blpop | mset | mget => rcases hc with hc | hc <;> cases hc

theorem Linear.refuse (h : Linear P n cells m a) {c : Command S} {rt : Runtime} (hi : m.clients i = .idle)
    (hc : single c = true ∨ other c = true) (ha : keyed (J := J) rt m.now (fun c => c.values) c = none) :
    ∃ a', Atomic.Step a (.start i (.command c)) a' ∧ Linear P (n + 1) cells
      { m.set i (.done ⟨.command c, [⟨rt, m.now⟩], (execute rt m.now m.db c).1.reply⟩ none) with
        db := (execute rt m.now m.db c).2 } a' := by
  have hidle : a.clients i = .idle := h.client hi
  obtain ⟨done, hdone, hmeans⟩ := execute_keyless hc ha a.now
  have heffect := hmeans a.data
  rw [← h.now] at heffect
  refine ⟨_, .snoc (.start hidle) (.command (i := i) (Function.update_self i _ a.clients) heffect), ?_⟩
  rw [hdone]
  refine h.quiet hi (Nat.le_succ n) rfl rfl rfl (s := .answered (.command c) done.reply) ?_ rfl rfl
    (by rintro r mode ⟨⟩) rfl (fun r hs => hs) (by rintro request started clock ⟨⟩)
  exact Function.update_idem _ _ _

omit [DecidableEq I] in
/-- What is in a shard that a client has locked has been left there. -/
theorem Linear.data_locked (h : Linear P n cells m a) (hi : m.clients i = w) {k : Str} {mode : Mode}
    (hheld : w.held (Host.shardIndex k) = some mode) (hw : ¬ w.Settles (Host.shardIndex k)) :
    cells k = m.db.entry k := by
  refine h.data_others hi hw (fun j hj hs => ?_)
  have hnone := h.exclusive j i (Host.shardIndex k) hj hs.held
  rw [Machine.held, hi, hheld] at hnone
  cases hnone

theorem Linear.access (h : Linear P n cells m a) (cmp : Compares P) (hn : n < 2 ^ 63) {c : Command S}
    {started : Moment} {key : Str} {access : Access S (Value S J)}
    (hi : m.clients i = .locked c started key access) :
    ∃ cells' a', Atomic.Step a .nothing a' ∧ Linear P (n + 1) cells'
      { m.set i (.done ⟨.command c, [started, ⟨started.rt, m.now⟩],
          (m.db.access m.now key access).1.reply⟩ (some (key, lockMode access))) with
        db := (m.db.access m.now key access).2 } a' := by
  obtain ⟨hkeyed, hregular, clock, hasked⟩ := h.client hi
  have hheld : (Client.locked c started key access).held (Host.shardIndex key) = some (lockMode access) := by
    rw [Client.held, if_pos rfl]
  have hkey : cells key = m.db.entry key := h.data_locked hi hheld id
  obtain ⟨f, hf, hagrees⟩ := served_agrees (fun _ => none) a.now cmp hregular hn hkeyed
  obtain ⟨hdone, hnext⟩ := hagrees _ _ (h.pictures key)
  obtain ⟨hdone', hentry⟩ := m.db.access_spec m.now key access
  rw [← hkey, ← h.now] at hdone' hentry
  have heffect : a.data.execute (settingAt (fun _ => none) a.now started.now) LPushCommand.values c =
      ((f (a.data key)).1, Function.update a.data key (f (a.data key)).2) := by
    simp only [Keyspace.execute, hf]
    rfl
  rw [← h.now, hdone', hdone]
  refine ⟨Function.update cells key (access.onCell a.now (cells key)).2, _,
    .snoc .nothing (.command (i := i) hasked heffect), ?_⟩
  refine h.update hi (Nat.le_succ n) rfl rfl rfl rfl (fun r mode hr => .inl hr) (fun k => ?_) rfl (fun k => ?_)
    (fun k _ hall => ?_) (by rintro request started clock ⟨⟩)
  · simp only [Function.update_apply]
    split
    · exact hnext
    · exact depicts_mono (h.pictures k) (Nat.le_succ n)
  · simp only [Function.update_apply]
    by_cases hk : k = key
    · subst hk
      cases hreads : access.reads with
      | false =>
          refine .inr ?_
          rw [hheld, lockMode, hreads]
          rfl
      | true =>
          refine .inl ⟨by rw [if_pos rfl, onCell_reads hreads], ?_⟩
          rw [onCell_reads hreads] at hnext
          rw [if_pos rfl]
          exact (depicts_unique hnext (h.pictures k))
    · exact .inl ⟨if_neg hk, if_neg hk⟩
  · rw [Function.update_apply]
    refine Eq.trans ?_ (hentry k).symm
    split
    · rfl
    · exact h.data_others hi id hall

theorem Linear.answer (h : Linear P n cells m a) {served : Served S} (hi : m.clients i = w)
    (ha : a.clients i = .answered served.request served.reply) (hsettles : ∀ r, ¬ w.Settles r) :
    ∃ a', Atomic.Step a (.reply i served.request served.reply) a' ∧
      Linear P (n + 1) cells (m.reply i served) a' := by
  refine ⟨_, .single (.reply ha), h.quiet hi (Nat.le_succ n) rfl rfl rfl rfl rfl rfl (by rintro r mode ⟨⟩) rfl
    (fun r hs => absurd hs (hsettles r)) ?_⟩
  rintro request started clock ⟨⟩

theorem Linear.lock (h : Linear P n cells m a) {c : Command S} {started : Moment} {key : Str}
    {access : Access S (Value S J)} (hi : m.clients i = .waiting c started key access)
    (hfree : Free m.held (lockMode access) (Host.shardIndex key)) :
    Linear P (n + 1) cells (m.set i (.locked c started key access)) a := by
  refine h.silent hi (Nat.le_succ n) rfl rfl rfl (fun r mode hr => .inr ?_) (h.client hi) (fun r hs => hs)
  rw [Client.held] at hr
  split at hr
  · next heq =>
      cases hr
      rw [heq]
      exact hfree
  · cases hr

theorem Linear.eval (h : Linear P n cells m a) {keys : List Str} {script : Script} (hi : m.clients i = .idle) :
    ∃ a', Atomic.Step a (.start i (.eval keys script)) a' ∧
      Linear P (n + 1) cells (m.set i (.locking keys script (shardIndices keys) ∅)) a' := by
  have hidle : a.clients i = .idle := h.client hi
  refine ⟨_, .single (.start hidle), h.quiet hi (Nat.le_succ n) rfl rfl rfl rfl rfl rfl (by rintro r mode ⟨⟩)
    ⟨⟨_, _, rfl⟩, [], fun r => (or_iff_right List.not_mem_nil).symm, reflects_empty _⟩ (fun r hs => hs) ?_⟩
  rintro request started clock ⟨⟩
  exact List.mem_singleton_self a.now

omit [DecidableEq I] in
/-- What is in a shard that nobody has locked has been left there. -/
theorem Linear.data_free (h : Linear P n cells m a) {k : Str} (hfree : Free m.held .write (Host.shardIndex k)) :
    cells k = m.db.entry k := by
  refine h.data k (fun j hs => ?_)
  cases (hfree j .write hs.held).1

theorem Linear.lockShard (h : Linear P n cells m a) {keys : List Str} {script : Script}
    {shard : Fin Host.numShards} {shards : List (Fin Host.numShards)} {sessions : Sessions (Value S J)}
    (hi : m.clients i = .locking keys script (shard :: shards) sessions) (hfree : Free m.held .write shard) :
    Linear P (n + 1) cells (m.set i (.locking keys script shards
      (sessions.insert shard (lockWriteLua (m.db.shards shard))))) a := by
  obtain ⟨hs, locked, hlocked, hreflects⟩ := h.client hi
  refine h.silent hi (Nat.le_succ n) rfl rfl rfl (fun r mode hr => ?_)
    ⟨hs, shard :: locked, fun r => ?_, reflects_lock hreflects ?_⟩ (fun r hs => hs)
  · by_cases hrs : r = shard
    · subst hrs
      rw [Client.held, Finmap.lookup_insert] at hr
      cases hr
      exact .inr hfree
    · rw [Client.held, Finmap.lookup_insert_of_ne _ hrs] at hr
      exact .inl hr
  · rw [hlocked]
    simp only [List.mem_cons]
    tauto
  · rintro k rfl
    exact (h.data_free hfree).symm

theorem Linear.run (h : Linear P n cells m a) {keys : List Str} {script : Script}
    {sessions : Sessions (Value S J)} (hi : m.clients i = .locking keys script [] sessions) :
    Linear P (n + 1) cells (m.set i (.calling keys script [] script ⟨sessions, []⟩)) a := by
  obtain ⟨⟨started, clock, hs⟩, locked, hlocked, hreflects⟩ := h.client hi
  have hsame : lockedOverlay (shardIndices keys) cells = lockedOverlay locked cells := by
    refine lockedOverlay_congr (fun r => ?_) (fun _ _ => rfl)
    rw [hlocked, or_iff_left List.not_mem_nil]
  rw [← hsame] at hreflects
  exact h.silent hi (Nat.le_succ n) rfl rfl rfl (fun r mode hr => .inl hr)
    ⟨started, clock, _, _, hs, .refl, hreflects, drafted_locked P (n + 1) keys clock cells⟩ (fun r hs => hs)

theorem Linear.call (h : Linear P n cells m a) (cmp : Compares P) (hn : n < 2 ^ 63) {keys : List Str}
    {script : Script} {moments : List Moment} {c : Call} {next : Except LuaError Frame → Script}
    {env : CurrentRequestEnv (Sessions (Value S J)) S} (rt : Runtime)
    (hi : m.clients i = .calling keys script moments (.call c next) env)
    (hc : ∀ command ∈ (tryFrom (S := S) (.array (c.args.map .bulk))).toOption, Abstract.Regular P command) :
    ∃ a', Atomic.Step a (.call c) a' ∧
      Linear P (n + 1) cells (m.set i (.calling keys script (moments ++ [⟨rt, m.now⟩])
        (next (redisCall ⟨rt, m.now⟩ env c).1) (redisCall ⟨rt, m.now⟩ env c).2)) a' := by
  obtain ⟨started, clock, held, o, hs, hrun, hreflects, hdrafted⟩ := h.client hi
  have hnow : m.now ∈ clock := h.now ▸ h.clock i _ started clock hs
  obtain ⟨held', o', hturn, hreflects', hdrafted'⟩ :=
    hdrafted.call cmp h.pictures hreflects ⟨rt, m.now⟩ hnow next hc hn
  refine ⟨a, .single (.call c), h.silent hi (Nat.le_succ n) rfl rfl rfl (fun r mode hr => ?_)
    ⟨started, clock, held', o', hs, hrun.tail hturn, hreflects', hdrafted'⟩ (fun r hs => hs)⟩
  rw [Client.held, ← hreflects'.declared, hdrafted'.declared, ← hdrafted.declared, hreflects.declared] at hr
  exact .inl hr

def left (keys : List Str) (out : LuaCell (Value S J) → Option (ValueEntry (Value S J)))
    (o : Overlay (Value S J)) (cells : Cells (Value S J)) : Cells (Value S J) := fun k =>
  if (shardIndices keys).contains (Host.shardIndex k) then out (o.cells k) else cells k

omit [F64 S] [SerdeJson J] [LinearOrder S] in
theorem left_inside {keys : List Str} {k : Str} (hk : Host.shardIndex k ∈ shardIndices keys)
    (out : LuaCell (Value S J) → Option (ValueEntry (Value S J))) (o : Overlay (Value S J)) :
    left keys out o cells k = out (o.cells k) := if_pos (List.contains_iff_mem.mpr hk)

omit [F64 S] [SerdeJson J] [LinearOrder S] in
theorem left_outside {keys : List Str} {k : Str} (hk : Host.shardIndex k ∉ shardIndices keys)
    (out : LuaCell (Value S J) → Option (ValueEntry (Value S J))) (o : Overlay (Value S J)) :
    left keys out o cells k = cells k := if_neg (fun hc => hk (List.contains_iff_mem.mp hc))

theorem Linear.ends (h : Linear P n cells m a) {keys : List Str} {start script : Script} {moments : List Moment}
    {env : CurrentRequestEnv (Sessions (Value S J)) S} {o : Overlay (Value S J)} {clock : List Nat}
    {held : Held S J} {data : Keyspace S J} {shards : List (Fin Host.numShards)}
    (out : LuaCell (Value S J) → Option (ValueEntry (Value S J))) (served : Served S)
    (hi : m.clients i = .calling keys start moments script env) (hreflects : Reflects env.sessions o)
    (hdrafted : Drafted P n keys clock cells held o)
    (hends : ∀ k, Host.shardIndex k ∈ shardIndices keys →
      (Host.shardIndex k ∈ shards → out (o.cells k) = (o.cells k).committed) ∧
        (Host.shardIndex k ∉ shards → out (o.cells k) = (o.cells k).base))
    (hinside : ∀ k, Host.shardIndex k ∈ shardIndices keys →
      Option.Rel (Depicts P n) (out (o.cells k)) (data k))
    (houtside : ∀ k, Host.shardIndex k ∉ shardIndices keys → data k = a.data k) :
    Linear P (n + 1) (left keys out o cells) (m.set i (.ending served shards env.sessions))
      { a.set i (.answered served.request served.reply) with data := data } := by
  have hdeclared (r : Fin Host.numShards) : (env.sessions.lookup r).isSome = decide (r ∈ shardIndices keys) := by
    rw [← hreflects.declared, hdrafted.declared]
  refine h.update hi (Nat.le_succ n) rfl rfl rfl rfl (fun r mode hr => .inl hr) (fun k => ?_) ⟨rfl, fun k node hk => ?_⟩
    (fun k => ?_) (fun k hk hall => ?_) (by rintro request started clock ⟨⟩)
  · change Option.Rel (Depicts P (n + 1)) (left keys out o cells k) (data k)
    by_cases hin : Host.shardIndex k ∈ shardIndices keys
    · rw [left_inside hin]
      exact depicts_mono (hinside k hin) (Nat.le_succ n)
    · rw [left_outside hin, houtside k hin]
      exact depicts_mono (h.pictures k) (Nat.le_succ n)
  · have hin : Host.shardIndex k ∈ shardIndices keys := by
      have hd := hdeclared (Host.shardIndex k)
      rw [hk] at hd
      exact of_decide_eq_true hd.symm
    rw [left_inside hin, hreflects.cells k node hk]
    exact ⟨hreflects.writes _ node hk, hends k hin⟩
  · by_cases hin : Host.shardIndex k ∈ shardIndices keys
    · refine .inr ?_
      rw [Client.held, hdeclared, decide_eq_true hin]
      rfl
    · exact .inl ⟨left_outside hin out o, houtside k hin⟩
  · have hnot : Host.shardIndex k ∉ shardIndices keys := by
      rw [Client.Settles, hdeclared, decide_eq_true_eq] at hk
      exact hk
    rw [left_outside hnot]
    exact h.data_others hi id hall

/-- A script that returns takes effect when it starts to commit. -/
theorem Linear.succeed (h : Linear P n cells m a) {keys : List Str} {script : Script} {moments : List Moment}
    {frame : Frame} {env : CurrentRequestEnv (Sessions (Value S J)) S} {shards : List (Fin Host.numShards)}
    (hi : m.clients i = .calling keys script moments (.ret frame) env)
    (hs : ∀ shard, shard ∈ shards ↔ shard ∈ env.sessions) :
    ∃ cells' a', Atomic.Step a .nothing a' ∧ Linear P (n + 1) cells'
      (m.set i (.ending ⟨.eval keys script, moments, .ok frame⟩ shards env.sessions)) a' := by
  obtain ⟨started, clock, held, o, hasked, hrun, hreflects, hdrafted⟩ := h.client hi
  refine ⟨_, _, .snoc .nothing (.script hasked hrun), h.ends LuaCell.committed
    ⟨.eval keys script, moments, .ok frame⟩ hi hreflects hdrafted
    (fun k hin => ⟨fun _ => rfl, fun hnot => absurd ?_ hnot⟩)
    (fun k hin => (hdrafted.inside k hin).committed (h.pictures k)) (fun k hnot => ?_)⟩
  · rw [hs, ← Finmap.lookup_isSome, ← hreflects.declared, hdrafted.declared]
    exact decide_eq_true hin
  · rw [Held.over, hdrafted.outside k hnot]
    rfl

/-- Of a script that fails only the removals stay that its lookups have made. -/
theorem Linear.fail (h : Linear P n cells m a) {keys : List Str} {script : Script} {moments : List Moment}
    {text : String} {env : CurrentRequestEnv (Sessions (Value S J)) S}
    (hi : m.clients i = .calling keys script moments (.fail text) env) :
    ∃ cells' a', Atomic.Step a .nothing a' ∧ Linear P (n + 1) cells'
      (m.set i (.ending ⟨.eval keys script, moments, .error (scriptError text)⟩ [] env.sessions)) a' := by
  obtain ⟨started, clock, held, o, hasked, hrun, hreflects, hdrafted⟩ := h.client hi
  have hkey (k : Str) : ∃ x, (x = a.data k ∨ (x = none ∧ ∃ time ∈ clock, live time (a.data k) = none)) ∧
      (Host.shardIndex k ∈ shardIndices keys → Option.Rel (Depicts P n) (o.cells k).base x) ∧
      (Host.shardIndex k ∉ shardIndices keys → x = a.data k) := by
    by_cases hin : Host.shardIndex k ∈ shardIndices keys
    · rcases (hdrafted.inside k hin).base with hbase | ⟨hbase, time, htime, hexpired⟩
      · refine ⟨a.data k, .inl rfl, fun _ => ?_, fun _ => rfl⟩
        rw [hbase]
        exact h.pictures k
      · refine ⟨none, .inr ⟨rfl, time, htime, live_none (h.pictures k) hexpired⟩, fun _ => ?_, absurd hin⟩
        rw [hbase]
        exact .none
    · exact ⟨a.data k, .inl rfl, fun hk => absurd hk hin, fun _ => rfl⟩
  choose data hdata hinside houtside using hkey
  exact ⟨_, _, .snoc .nothing (.fail hasked hrun hdata), h.ends LuaCell.base
    ⟨.eval keys script, moments, .error (scriptError text)⟩ hi hreflects hdrafted
    (fun k _ => ⟨fun hmem => absurd hmem List.not_mem_nil, fun _ => rfl⟩) hinside houtside⟩

theorem Linear.commit (h : Linear P n cells m a) {served : Served S} {shard : Fin Host.numShards}
    {shards : List (Fin Host.numShards)} {sessions : Sessions (Value S J)} {node : LuaCacheNode (Value S J)}
    {drained : List (Str × ChangeOp (Value S J))} (hi : m.clients i = .ending served (shard :: shards) sessions)
    (hnode : sessions.lookup shard = some node) (hd : Drains node.differMap drained) :
    Linear P (n + 1) cells (m.set i (.ending served shards (sessions.insert shard (node.commit drained)))) a := by
  obtain ⟨hs, hnodes⟩ := h.client hi
  have hsome (r : Fin Host.numShards) :
      ((sessions.insert shard (node.commit drained)).lookup r).isSome = (sessions.lookup r).isSome := by
    by_cases hr : r = shard
    · rw [hr, Finmap.lookup_insert, hnode]
      rfl
    · rw [Finmap.lookup_insert_of_ne _ hr]
  refine h.silent hi (Nat.le_succ n) rfl rfl rfl (fun r mode hr => ?_) ⟨hs, fun k node' hk => ?_⟩ (fun r hr => ?_)
  · rw [Client.held, hsome] at hr
    exact .inl hr
  · by_cases hr : Host.shardIndex k = shard
    · subst hr
      rw [Finmap.lookup_insert] at hk
      cases hk
      obtain ⟨hwrites, hentry, -⟩ := hnodes k node hnode
      obtain ⟨hwrites', hcell⟩ := commit_cell hwrites hd
      rw [hentry List.mem_cons_self, (hcell k).1, (hcell k).2]
      exact ⟨hwrites', fun _ => rfl, fun _ => rfl⟩
    · rw [Finmap.lookup_insert_of_ne _ hr] at hk
      have hmem : Host.shardIndex k ∈ shard :: shards ↔ Host.shardIndex k ∈ shards := by
        rw [List.mem_cons, or_iff_right hr]
      have hold := hnodes k node' hk
      simpa only [hmem] using hold
  · rw [Client.Settles, hsome]
    exact hr

theorem Linear.release (h : Linear P n cells m a) {served : Served S} {shard : Fin Host.numShards}
    {sessions : Sessions (Value S J)} {node : LuaCacheNode (Value S J)}
    (hi : m.clients i = .ending served [] sessions) (hnode : sessions.lookup shard = some node)
    (hclients : m'.clients = Function.update m.clients i (.ending served [] (sessions.erase shard)))
    (hshards : m'.db.shards = Function.update m.db.shards shard node.dbStore.guard.shard) (hnow : m'.now = m.now) :
    Linear P (n + 1) cells m' a := by
  obtain ⟨hs, hnodes⟩ := h.client hi
  have hsome {r : Fin Host.numShards} {node' : LuaCacheNode (Value S J)}
      (hr : (sessions.erase shard).lookup r = some node') : sessions.lookup r = some node' := by
    by_cases hrs : r = shard
    · rw [hrs, Finmap.lookup_erase] at hr
      cases hr
    · rwa [Finmap.lookup_erase_ne hrs] at hr
  refine h.update hi (Nat.le_succ n) hclients hnow (Function.update_eq_self i a.clients).symm rfl
    (fun r mode hr => ?_) (fun k => depicts_mono (h.pictures k) (Nat.le_succ n))
    ⟨hs, fun k node' hk => hnodes k node' (hsome hk)⟩ (fun k => .inl ⟨rfl, rfl⟩) (fun k hk hall => ?_) (h.clock i)
  · refine .inl ?_
    rw [Client.held] at hr
    cases hl : (sessions.erase shard).lookup r with
    | none =>
        rw [hl] at hr
        cases hr
    | some node' =>
        rw [hl] at hr
        rw [Client.held, hsome hl]
        exact hr
  · by_cases hr : Host.shardIndex k = shard
    · -- the shard gets what everybody else takes for its content already
      subst hr
      obtain ⟨-, -, hentry⟩ := hnodes k node hnode
      rw [hentry List.not_mem_nil, Db.entry, hshards, Function.update_self]
      rfl
    · have hsame : m'.db.entry k = m.db.entry k := by
        rw [Db.entry, Db.entry, hshards, Function.update_of_ne hr]
      rw [hsame]
      refine h.data_others hi (fun hs => hk ?_) hall
      rw [Client.Settles, Finmap.lookup_erase_ne hr]
      exact hs

omit [DecidableEq I] in
theorem Linear.tick (h : Linear P n cells m a) (now : Nat) :
    Linear P (n + 1) cells { m with now := now }
      { a with now := now, clients := fun i => (a.clients i).tick now } where
  exclusive := h.exclusive
  now := rfl
  pictures k := depicts_mono (h.pictures k) (Nat.le_succ n)
  data := h.data
  clients i := ((h.clients i).transfer (Nat.le_succ n) (fun _ _ => ⟨rfl, rfl⟩)).tick now
  clock i request started clock hasked := by
    simp only at hasked
    cases hi : a.clients i with
    | idle | answered =>
        rw [hi] at hasked
        cases hasked
    | asked request started clock =>
        rw [hi] at hasked
        cases hasked
        exact List.mem_cons_self

omit [DecidableEq I] in
theorem Linear.evict (h : Linear P n cells m a) {shard : Fin Host.numShards} {db : Db (Value S J)}
    {data : Keyspace S J} (hfree : Free m.held .write shard)
    (hinside : ∀ k, Host.shardIndex k = shard → Option.Rel (Depicts P n) (db.entry k) (data k))
    (houtside : ∀ k, Host.shardIndex k ≠ shard → db.entry k = m.db.entry k ∧ data k = a.data k) :
    Linear P (n + 1) (fun k => if Host.shardIndex k = shard then db.entry k else cells k) { m with db := db }
      { a with data := data } where
  exclusive := h.exclusive
  now := h.now
  pictures k := by
    refine depicts_mono ?_ (Nat.le_succ n)
    by_cases hk : Host.shardIndex k = shard
    · rw [if_pos hk]
      exact hinside k hk
    · rw [if_neg hk]
      change Option.Rel (Depicts P n) (cells k) (data k)
      rw [(houtside k hk).2]
      exact h.pictures k
  data k hall := by
    by_cases hk : Host.shardIndex k = shard
    · exact if_pos hk
    · refine (if_neg hk).trans ((h.data k hall).trans (houtside k hk).1.symm)
  clients j := by
    refine (h.clients j).transfer (Nat.le_succ n) (fun k hwrite => ?_)
    have hk : Host.shardIndex k ≠ shard := by
      rintro rfl
      cases (hfree j .write hwrite).1
    exact ⟨if_neg hk, (houtside k hk).2⟩
  clock := h.clock

omit [F64 S] [SerdeJson J] [LinearOrder S] in
theorem entry_unlock_of_ne (db : Db (Value S J)) (guard : Guard (Value S J)) {shard : Fin Host.numShards} {k : Str}
    (hk : Host.shardIndex k ≠ shard) : (db.unlock shard guard).entry k = db.entry k := by
  simp only [Db.entry, Db.unlock, Function.update_of_ne hk]

theorem Linear.evictionTtl (h : Linear P n cells m a) (shard : Fin Host.numShards) (sample : Nat)
    (hfree : Free m.held .write shard) :
    ∃ cells' a', Atomic.Step a .evictionTtl a' ∧ Linear P (n + 1) cells'
      { m with db := m.db.unlock shard (Normal.evictionTtl m.now sample (m.db.lock shard)) } a' := by
  have hkey (k : Str) : ∃ x, (x = a.data k ∨ (live a.now (a.data k) = none ∧ x = none)) ∧
      (Host.shardIndex k = shard → Option.Rel (Depicts P n)
        ((m.db.unlock shard (Normal.evictionTtl m.now sample (m.db.lock shard))).entry k) x) ∧
      (Host.shardIndex k ≠ shard → x = a.data k) := by
    by_cases hk : Host.shardIndex k = shard
    · subst hk
      have hpictures := h.pictures k
      rw [h.data_free hfree] at hpictures
      rcases entry_swept m.db m.now sample (Host.shardIndex k) k with hsame | ⟨hnone, hexpired⟩
      · refine ⟨a.data k, .inl rfl, fun _ => ?_, fun _ => rfl⟩
        rw [hsame]
        exact hpictures
      · refine ⟨none, .inr ⟨?_, rfl⟩, fun _ => ?_, fun hne => absurd rfl hne⟩
        · rw [h.now]
          exact live_none hpictures hexpired
        · rw [hnone]
          exact .none
    · exact ⟨a.data k, .inl rfl, fun hin => absurd hin hk, fun _ => rfl⟩
  choose data hdata hinside houtside using hkey
  exact ⟨_, _, .single (.evictionTtl hdata), h.evict hfree hinside
    (fun k hk => ⟨entry_unlock_of_ne m.db _ hk, houtside k hk⟩)⟩

theorem Linear.evictionMemory (h : Linear P n cells m a) (shard : Fin Host.numShards)
    (hfree : Free m.held .write shard) :
    ∃ cells' a', Atomic.Step a .evictionMemory a' ∧ Linear P (n + 1) cells'
      { m with db := m.db.unlock shard (Normal.evictionMemory (m.db.lock shard)) } a' := by
  obtain ⟨gone, hshard, hentry⟩ := entry_evictedMemory m.db shard
  refine ⟨_, _, .single (.evictionMemory gone), h.evict hfree (fun k hk => ?_)
    (fun k hk => ⟨entry_unlock_of_ne m.db _ hk, if_neg ?_⟩)⟩
  · subst hk
    have hpictures := h.pictures k
    rw [h.data_free hfree] at hpictures
    rw [hentry]
    split
    · exact .none
    · exact hpictures
  · exact fun hgone => hk (hshard k hgone)

/-- Each step of the server is a step of the atomic store, and is seen alike. -/
theorem Linear.step (h : Linear P n cells m a) (cmp : Compares P) (hn : n < 2 ^ 63) {e : Event I S}
    (he : e.Regular P) (hs : Busy m e m') :
    ∃ cells' a', Atomic.Step a e a' ∧ Linear P (n + 1) cells' m' a' := by
  have hquiet {m₁ : Machine I S J} (h₁ : Linear P (n + 1) cells m₁ a) :
      ∃ cells' a', Atomic.Step a .nothing a' ∧ Linear P (n + 1) cells' m₁ a' := ⟨cells, a, .single .nothing, h₁⟩
  cases hs with
  | client hs =>
      cases hs with
      | start hi hc ha => exact ⟨cells, h.begin hi he ha⟩
      | refuse hi hc ha => exact ⟨cells, h.refuse hi (.inl hc) ha⟩
      | lock hi hfree =>
          simp only [Machine.shows, hi]
          exact hquiet (h.lock hi hfree)
      | access hi =>
          simp only [Machine.shows, hi]
          exact h.access cmp hn hi
      | unlock hi =>
          simp only [Machine.shows, hi]
          exact ⟨cells, h.answer hi (h.client hi) (fun r hs => hs)⟩
      | eval hi => exact ⟨cells, h.eval hi⟩
      | lockShard hi hfree =>
          simp only [Machine.shows, hi]
          exact hquiet (h.lockShard hi hfree)
      | run hi =>
          simp only [Machine.shows, hi]
          exact hquiet (h.run hi)
      | call rt hi =>
          simp only [Machine.shows, hi] at he ⊢
          exact ⟨cells, h.call cmp hn rt hi he⟩
      | succeed hi _ hs =>
          simp only [Machine.shows, hi]
          exact h.succeed hi hs
      | fail hi =>
          simp only [Machine.shows, hi]
          exact h.fail hi
      | commit hi hnode hd =>
          simp only [Machine.shows, hi]
          exact hquiet (h.commit hi hnode hd)
      | @release i served sessions node shard hi hnode =>
          have hkeys : sessions.keys ≠ ∅ := by
            refine Finset.ne_empty_of_mem (a := shard) ?_
            exact Finmap.mem_keys.mpr (Finmap.mem_of_lookup_eq_some hnode)
          simp only [Machine.shows, hi, if_neg hkeys]
          exact hquiet (h.release hi hnode rfl rfl rfl)
      | finish hi hs =>
          simp only [Machine.shows, hi, hs, Finmap.keys_empty, if_true]
          refine ⟨cells, h.answer hi (h.client hi).1 (fun r hr => ?_)⟩
          rw [hs] at hr
          cases hr
      | tick => exact ⟨cells, _, .single (.tick _), h.tick _⟩
  | start hi hc ha => exact ⟨cells, h.begin hi he ha⟩
  | refuse hi hc ha => exact ⟨cells, h.refuse hi (.inr hc) ha⟩
  | evictionTtl shard sample hfree => exact h.evictionTtl shard sample hfree
  | evictionMemory shard hfree => exact h.evictionMemory shard hfree

theorem follows_atomic (cmp : Compares P) :
    Follows (fun n (m : Machine I S J) a => ∃ cells, Linear P n cells m a) (fun _ => 1) (2 ^ 63)
      (fun e : Event I S => e.Regular P) Busy Atomic.Step where
  step h he hn hs := by
    obtain ⟨cells, h⟩ := h
    obtain ⟨cells', a', hstep, hnext⟩ := h.step cmp (Nat.lt_of_succ_lt hn) he hs
    exact ⟨a', hstep, cells', hnext⟩

omit [DecidableEq I] in
theorem linear_idle {data : Keyspace S J} (hidle : ∀ i, m.clients i = .idle) (hdata : Pictures P n m.db data) :
    Linear P n m.db.entry m ⟨data, m.now, fun _ => .idle⟩ where
  exclusive i j r _ hw := by
    rw [Machine.held, hidle] at hw
    cases hw
  now := rfl
  pictures := hdata
  data _ _ := rfl
  clients i := by
    rw [hidle]
    rfl
  clock := by rintro i request started clock ⟨⟩

/-- Clients cannot tell the server from an atomic store. In whatever order the tasks go on,
scripts that fail and the background tasks included, there is a run of the atomic store in
which the same is asked and answered in the same order: each request takes effect at once,
between when it comes and when it is answered. When nobody is served any more each key
holds the item that its entry is. -/
theorem linearizable (cmp : Compares P) {data : Keyspace S J} {events : List (Event I S)}
    (hidle : ∀ i, m.clients i = .idle) (hdata : Pictures P n m.db data) (hrun : Trace Busy m events m')
    (hregular : ∀ e ∈ events, e.Regular P) (hn : n + events.length < 2 ^ 63) :
    ∃ a', Trace Atomic.Step ⟨data, m.now, fun _ => .idle⟩ events a' ∧
      ((∀ i, m'.clients i = .idle) → Pictures P (n + events.length) m'.db a'.data) := by
  have hweight : (events.map (fun _ => 1)).sum = events.length := by simp
  obtain ⟨a', hruns, cells, hend⟩ := (follows_atomic cmp).trace hrun ⟨_, linear_idle hidle hdata⟩ hregular
    (by rw [hweight]; exact hn)
  rw [hweight] at hend
  refine ⟨a', hruns, fun hrest k => ?_⟩
  have hcell : cells k = m'.db.entry k := by
    refine hend.data k (fun i hs => ?_)
    rw [hrest] at hs
    exact hs
  rw [← hcell]
  exact hend.pictures k

end Machines

section Sample

attribute [local instance] singleShard flatJson wholeNumbers

/-- SET k v PX 1 -/
def passing : Command (WithNan UInt64) := .set ⟨sampleKey, ascii ['v'], some (.px 1), none⟩

/-- HSET k k v -/
def hashed : Command (WithNan UInt64) := .hset ⟨sampleKey, [(sampleKey, ascii ['v'])]⟩

def restingMachine : Machine Bool (WithNan UInt64) Str where
  db := Db.new .lru
  now := 0
  clients _ := .idle
  replies := []

/-- The script fails when it has looked up the string that is over. -/
def sampleEvents : List (Event Bool (WithNan UInt64)) :=
  [.start false (.command passing), .nothing, .nothing, .reply false (.command passing) (.ok okFrame), .tick 5,
    .start true (.eval [sampleKey] sampleFail), .nothing, .start false (.command hashed), .nothing, .call sampleGet,
    .nothing, .nothing, .reply true (.eval [sampleKey] sampleFail) (.error (scriptError "")), .nothing, .nothing,
    .reply false (.command hashed) (.ok (.integer 1))]

theorem free_of_none {m : Machine Bool (WithNan UInt64) Str} {mode : Mode} {r : Fin Host.numShards}
    (h₀ : m.held false r = none) (h₁ : m.held true r = none) : Free m.held mode r := by
  intro j mode' hj
  have hnone : ∀ j, m.held j r = none := Bool.forall_bool.mpr ⟨h₀, h₁⟩
  rw [hnone] at hj
  cases hj

theorem sampleEvents_run : ∃ m', Trace Busy restingMachine sampleEvents m' ∧ ∀ i, m'.clients i = .idle := by
  refine ⟨?_, ?run, Bool.forall_bool.mpr ⟨?_, ?_⟩⟩
  case run =>
    refine .cons (.client (.start rfl rfl
      (show keyed ⟨[], 0, 0⟩ 0 (fun c => c.values) passing = some (_, _) from rfl))) ?_
    refine .cons (.client (l := .go false) (.lock rfl (free_of_none rfl rfl))) ?_
    refine .cons (.client (l := .go false) (.access rfl)) ?_
    refine .cons (.client (l := .go false) (.unlock rfl)) ?_
    refine .cons (.client .tick) ?_
    refine .cons (.client (.eval rfl)) ?_
    rw [sample_shards]
    refine .cons (.client (l := .go true) (.lockShard rfl (free_of_none rfl rfl))) ?_
    refine .cons (.client (.start rfl rfl
      (show keyed ⟨[], 0, 0⟩ 5 (fun c => c.values) hashed = some (_, _) from rfl))) ?_
    refine .cons (.client (l := .go true) (.run rfl)) ?_
    refine .cons (.client (l := .go true) (.call ⟨[], 0, 0⟩ rfl)) ?_
    refine .cons (.client (l := .go true) (.fail rfl)) ?_
    refine .cons (.client (l := .go true) (.release 0 rfl rfl)) ?_
    refine .cons (.client (l := .go true) (.finish rfl rfl)) ?_
    refine .cons (.client (l := .go false) (.lock rfl (free_of_none rfl rfl))) ?_
    refine .cons (.client (l := .go false) (.access rfl)) ?_
    refine .cons (.client (l := .go false) (.unlock rfl)) ?_
    exact .nil _
  · rfl
  · rfl

theorem sampleEvents_regular : ∀ e ∈ sampleEvents, e.Regular WithNan.IsNumber := by
  have hget : (tryFrom (S := WithNan UInt64) (.array (sampleGet.args.map .bulk))).toOption =
      some (.get ⟨sampleKey⟩) := rfl
  simp [sampleEvents, Event.Regular, Abstract.Regular, passing, hashed, hget]

/-- An atomic store explains a script that fails and has removed what it found to be over. -/
theorem linearizable_sample : ∃ m' a', Trace Busy restingMachine sampleEvents m' ∧
    Trace Atomic.Step ⟨fun _ => none, 0, fun _ => .idle⟩ sampleEvents a' ∧
      Pictures WithNan.IsNumber 16 m'.db a'.data := by
  have hdata : Pictures WithNan.IsNumber 0 restingMachine.db (fun _ => none) := by
    intro k
    rw [restingMachine, Db.entry_new]
    exact .none
  obtain ⟨m', hrun, hrest⟩ := sampleEvents_run
  obtain ⟨a', hsame, hend⟩ := linearizable WithNan.compares_numbers (fun _ => rfl) hdata hrun sampleEvents_regular
    (by decide)
  exact ⟨m', a', hrun, hsame, hend hrest⟩

end Sample

end RustKv.Isolation
