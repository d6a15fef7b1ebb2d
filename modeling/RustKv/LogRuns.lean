import RustKv.ClientLocks
import RustKv.LogOrder
import RustKv.Replay

namespace RustKv.Clients

open Runs Text Protocol Domain CacheStore Zset RustKv.Types Executor AofEncoder AofRoundTrip RequestReading
  Recovery RustKv.Normal

section Runs

variable {I S J : Type} [Host] [DecidableEq I] [F64 S] [SerdeJson J] {m m' : Machine I S J} {i : I}

/-- Nothing in the database has expired. -/
def Unexpired (m : Machine I S J) : Prop := ∀ k x, m.db.entry k = some x → x.isExpired m.now = false

/-- A client changes an entry only when no other client has a change of that entry
that is not in the log. -/
def Alone (m : Machine I S J) (i : I) : Prop :=
  ∀ t key a, m.clients i = .running t → t.next = some (key, a) →
    (m.db.access m.now key a).1.aof ≠ none → ∀ j, j ≠ i → ¬ (m.clients j).Unlogged key

/-- A BLPOP that looks for its list finds an entry. -/
def Served (m : Machine I S J) (i : I) : Prop :=
  ∀ t c code, m.clients i = .running t → t.code = .check c :: code → m.db.entry c.key ≠ none

omit [DecidableEq I] [F64 S] [SerdeJson J] in
theorem Served.waits (h : Served m i) {t : Task S J} {c : BLPopCommand} {code : List (Instr S J)}
    (ht : m.clients i = .running t) (hc : t.code = .check c :: code) :
    (m.db.access m.now c.key (.take (blpopTaken c) : Access S _)).1.waits = false := by
  rw [(m.db.access_spec m.now c.key _).1]
  cases he : m.db.entry c.key with
  | none => exact absurd he (h t c code ht hc)
  | some e =>
      obtain ⟨v, x, n⟩ := e
      cases v with
      | list deque => cases deque <;> rfl
      | simple | hash | zset | json => rfl

/-- The deadline of a SET that is about to be logged can be read back. -/
def Sendable (m : Machine I S J) (i : I) : Prop :=
  ∀ t s code, m.clients i = .running t → t.code = .sendAof :: code → t.command = .set s →
    Loggable m.now t.command

/-- Steps that keep the log in order. -/
def Orderly (m : Machine I S J) : Label I S → Prop
  | .start _ c => Sent c
  | .go i => Unexpired m ∧ Served m i ∧ Sendable m i ∧ Alone m i
  | .tick _ => True
  | _ => False

/-- The log rebuilds the data, from the database `db` on, but for what is not logged yet. -/
structure Ordered (rts : Nat → Runtime) (db : Db (Value S J)) (m : Machine I S J) : Prop where
  filled : ∀ k, Filled (m.db.entry k)
  queues : ∀ k, m.queues k = []
  parsed : ∀ i t, m.clients i = .running t → Parsed t.command
  last : ∀ i t, m.clients i = .running t → LogsLast t.code
  log : ∃ (records : List (LogRecord S)) (r : Recovered S J), (∀ rec ∈ records, rec.Written ∧ rec.Readable) ∧
    m.aof.flatten = log records ∧
    executeAll rts (start db) (records.flatMap LogRecord.commands) = .ok r ∧ InStep m r.db.entry

variable {rts : Nat → Runtime} {db : Db (Value S J)}

theorem InStep.work {r : Cells (Value S J)} (h : InStep m r) {t t' : Task S J} {key : Str}
    {a : Access S (Value S J)} (hfilled : Filled (m.db.entry key)) (hexp : Unexpired m) (hother : Alone m i)
    (ht : m.clients i = .running t) (hclients : m'.clients = Function.update m.clients i (.running t'))
    (hcommand : t'.command = t.command) (hdone : t'.done = (m.db.access m.now key a).1)
    (hnext : t.next = some (key, a))
    (hworks : works t.valuesToPush t.code = (key, a) :: works t'.valuesToPush t'.code)
    (hsend : .sendAof ∈ t'.code ↔ .sendAof ∈ t.code) (hdb : m'.db = (m.db.access m.now key a).2) :
    InStep m' r ∧ Filled (m'.db.entry key) ∧ ∀ k, k ≠ key → m'.db.entry k = m.db.entry k := by
  obtain ⟨hspec, hentry⟩ := m.db.access_spec m.now key a
  have hlive : m'.db.entry = Function.update m.db.entry key (a.onCell m.now (m.db.entry key)).2 := by
    funext k
    rw [hdb, hentry, Function.update_apply]
  have hclear (hd : (a.onCell m.now (m.db.entry key)).1.aof ≠ none) (j : I) (hj : j ≠ i) :
      ¬ (m.clients j).Unlogged key := by
    rw [← hspec] at hd
    exact hother t key a ht hnext hd j hj
  have hstep (hd : (a.onCell m.now (m.db.entry key)).1.aof ≠ none) (hu : ¬ t.Unlogged key) :
      logicalOf (m.db.entry key) = logicalOf (r key) := by
    refine h.same key (fun j hj => ?_)
    by_cases hji : j = i
    · rw [hji, ht, running_unlogged] at hj
      exact hu hj
    · exact hclear hd j hji hj
  obtain ⟨hjob, hunlogged, hfilled', hsilent⟩ := (h.jobs i t ht).work hfilled (hexp key) hcommand
    (hdone.trans hspec) hworks hsend hstep
  have hkept (k : Str) (hk : k = key → (a.onCell m.now (m.db.entry key)).1.aof = none) :
      logicalOf (m'.db.entry k) = logicalOf (m.db.entry k) := by
    rw [hlive]
    by_cases hkey : k = key
    · rw [hkey, Function.update_self]
      exact hsilent (hk hkey)
    · rw [Function.update_of_ne hkey]
  refine ⟨h.update hclients ?_ ?_ ?_, ?_, fun k hk => ?_⟩
  · intro t'' ht''
    cases ht''
    rw [hlive]
    exact hjob
  · intro j hj k hk
    refine ⟨?_, rfl, hkept k ?_⟩
    · rw [running_unlogged, hunlogged]
      rintro (hu | ⟨rfl, hd⟩)
      · exact hj (h.alone j i k hk (by rw [ht, running_unlogged]; exact hu))
      · exact hclear hd j hj hk
    · rintro rfl
      by_contra hd
      exact hclear hd j hj hk
  · intro k hk hothers
    rw [running_unlogged, hunlogged, not_or, not_and_not_right] at hk
    rw [hkept k hk.2]
    refine h.same k (fun j hj => ?_)
    by_cases hji : j = i
    · rw [hji, ht, running_unlogged] at hj
      exact hk.1 hj
    · exact hothers j hji hj
  · rw [hlive, Function.update_self]
    exact hfilled'
  · rw [hlive, Function.update_of_ne hk]

theorem Ordered.send (h : Ordered rts db m) (hlog : Sendable m i) {t t' : Task S J}
    (ht : m.clients i = .running t) (hclients : m'.clients = Function.update m.clients i (.running t'))
    (hcode : ∃ code, t.code = .sendAof :: code) (hworks : works t.valuesToPush t.code = [])
    (hworks' : works t'.valuesToPush t'.code = []) (hsent : .sendAof ∉ t'.code) (hdb : m'.db = m.db)
    (haof : m'.aof = m.aof ++ (t.done.aof.bind (encodeAofCommand m.now)).toList) :
    ∃ (records : List (LogRecord S)) (r : Recovered S J),
      (∀ rec ∈ records, rec.Written ∧ rec.Readable) ∧ m'.aof.flatten = Recovery.log records ∧
      executeAll rts (start db) (records.flatMap LogRecord.commands) = .ok r ∧ InStep m' r.db.entry := by
  obtain ⟨code, hcode⟩ := hcode
  obtain ⟨records, r, hrec, hbytes, hrun, hstep⟩ := h.log
  have hover (r : Cells (Value S J)) : ∀ u, Client.running t' = .running u → Job u r m'.db.entry := by
    rintro u ⟨⟩
    exact .past hsent hworks'
  have hclear (k : Str) : ¬ (Client.running t' : Client S J).Unlogged k := by
    rw [running_unlogged]
    exact fun hu => hsent hu.2.1
  rcases (hstep.jobs i t ht).sends (by simp [hcode]) hworks with hnone | ⟨d, hd, hw, hr, hredo⟩
  · refine ⟨records, r, hrec, ?_, hrun, hstep.steady hclients (hover _) hdb (fun k => ?_)⟩
    · rw [haof, hnone, ← hbytes]
      simp
    · rw [ht, running_unlogged, running_unlogged]
      exact ⟨fun hu => absurd hu.2.1 hsent, fun hu => absurd hu (not_unlogged_of_aof hnone k)⟩
  · have hloggable : Loggable m.now t.command := by
      by_cases hset : ∃ s, t.command = .set s
      · obtain ⟨s, hs⟩ := hset
        exact hlog t s code ht hcode hs
      · exact Parsed.loggable (h.parsed i t ht) (fun s hs => absurd ⟨s, hs⟩ hset)
    obtain ⟨⟨frame, hreply⟩, hvalue⟩ := hredo (rts r.executed.length) m.now
    obtain ⟨r', hr', hentry⟩ := executeCommand_entry r hreply
    obtain ⟨f, hf⟩ := Option.isSome_iff_exists.mp (hw m.now).2
    refine ⟨records ++ [.single m.now d], r', ?_, ?_, ?_, ?_⟩
    · intro rec hmem
      rcases List.mem_append.mp hmem with hmem | hmem
      · exact hrec rec hmem
      · rw [List.mem_singleton.mp hmem]
        exact ⟨hw m.now, hr m.now hloggable⟩
    · rw [haof, hd, List.flatten_append, hbytes]
      simp [Recovery.log, LogRecord.bytes, encodeAofCommand_eq hf]
    · rw [List.flatMap_append, executeAll_append, hrun]
      simp only [List.flatMap_cons, List.flatMap_nil, List.append_nil, LogRecord.commands, executeAll, hr']
    · rw [hentry]
      refine hstep.update hclients (hover _) (fun j hj k hk => ?_) (fun k _ hothers => ?_)
      · refine ⟨hclear k, ?_, by rw [hdb]⟩
        have hu : ¬ t.Unlogged k := by
          rw [← running_unlogged, ← ht]
          exact fun hu => hj (hstep.alone j i k hk hu)
        rw [(hvalue k).2 hu]
      · rw [hdb]
        by_cases hu : t.Unlogged k
        · exact ((hvalue k).1 hu).symm
        · rw [(hvalue k).2 hu]
          refine hstep.same k (fun j hj => ?_)
          by_cases hji : j = i
          · rw [hji, ht, running_unlogged] at hj
            exact hu hj
          · exact hothers j hji hj

theorem Ordered.go (h : Ordered rts db m) (hexp : Unexpired m) (hserved : Served m i) (hlog : Sendable m i)
    (halone : Alone m i) (hs : Step m (.go i) m') : Ordered rts db m' := by
  obtain ⟨hmove, hqueues⟩ := hs.move h.queues (h.last i) (fun _ _ _ ht hc => hserved.waits ht hc)
  have hq : ∀ k, m'.queues k = [] := by
    rw [hqueues]
    exact h.queues
  cases hmove with
  | quiet t t' ht hclients hcommand hdone hworks hsend hlast hdb haof =>
      obtain ⟨records, r, hrec, hbytes, hrun, hstep⟩ := h.log
      refine ⟨by rw [hdb]; exact h.filled, hq, running_update h.parsed hclients ?_,
        running_update h.last hclients ?_, records, r, hrec, by rw [haof, hbytes], hrun, ?_⟩
      · rintro u ⟨⟩
        rw [hcommand]
        exact h.parsed i t ht
      · rintro u ⟨⟩
        exact hlast
      · refine hstep.steady hclients ?_ hdb (fun k => ?_)
        · rintro u ⟨⟩
          rw [hdb]
          exact (hstep.jobs i t ht).congr hcommand hdone hworks hsend (fun _ _ => ⟨rfl, rfl⟩)
        · rw [ht, running_unlogged, running_unlogged]
          exact unlogged_congr hcommand hdone hworks hsend
  | work t t' key a ht hclients hcommand hdone hnext hworks hsend hlast hdb haof =>
      obtain ⟨records, r, hrec, hbytes, hrun, hstep⟩ := h.log
      obtain ⟨hstep', hkey, hothers⟩ := hstep.work (h.filled key) hexp halone ht hclients hcommand hdone
        hnext hworks hsend hdb
      refine ⟨fun k => ?_, hq, running_update h.parsed hclients ?_, running_update h.last hclients ?_,
        records, r, hrec, by rw [haof, hbytes], hrun, hstep'⟩
      · by_cases hk : k = key
        · rw [hk]
          exact hkey
        · rw [hothers k hk]
          exact h.filled k
      · rintro u ⟨⟩
        rw [hcommand]
        exact h.parsed i t ht
      · rintro u ⟨⟩
        exact hlast
  | send t t' ht hclients hcommand hcode hworks hworks' hsent hlast hdb haof =>
      refine ⟨by rw [hdb]; exact h.filled, hq, running_update h.parsed hclients ?_,
        running_update h.last hclients ?_, h.send hlog ht hclients hcode hworks hworks' hsent hdb haof⟩
      · rintro u ⟨⟩
        rw [hcommand]
        exact h.parsed i t ht
      · rintro u ⟨⟩
        exact hlast
  | leave t ht hclients hcode hdb haof =>
      obtain ⟨records, r, hrec, hbytes, hrun, hstep⟩ := h.log
      refine ⟨by rw [hdb]; exact h.filled, hq, running_update h.parsed hclients (fun u hu => by cases hu),
        running_update h.last hclients (fun u hu => by cases hu), records, r, hrec, by rw [haof, hbytes],
        hrun, hstep.steady hclients (fun u hu => by cases hu) hdb (fun k => ?_)⟩
      rw [ht, running_unlogged]
      refine ⟨?_, fun hu => ?_⟩
      · rintro ⟨u, hu, -⟩
        cases hu
      · have hmem := hu.2.1
        rw [hcode] at hmem
        cases hmem

theorem Ordered.step (h : Ordered rts db m) {l : Label I S} (hl : Orderly m l) (hs : Step m l m') :
    Ordered rts db m' := by
  cases l with
  | start i c =>
      cases hs with
      | start hidle hp =>
          obtain ⟨records, r, hrec, hbytes, hrun, hstep⟩ := h.log
          have hstarts := program_starts hl.1 hp
          refine ⟨h.filled, h.queues, running_update h.parsed rfl ?_, running_update h.last rfl ?_,
            records, r, hrec, hbytes, hrun, hstep.steady rfl ?_ rfl (fun k => ?_)⟩
          · rintro u ⟨⟩
            exact hl.1
          · rintro u ⟨⟩
            exact hstarts.last
          · rintro u ⟨⟩
            exact hstarts.job _ _
          · rw [hidle, running_unlogged]
            refine ⟨fun hu => absurd hu (hstarts.clean k), ?_⟩
            rintro ⟨u, hu, -⟩
            cases hu
  | go i => exact h.go hl.1 hl.2.1 hl.2.2.1 hl.2.2.2 hs
  | tick now =>
      cases hs
      obtain ⟨records, r, hrec, hbytes, hrun, hstep⟩ := h.log
      exact ⟨h.filled, h.queues, h.parsed, h.last, records, r, hrec, hbytes, hrun, hstep.jobs, hstep.alone,
        hstep.same⟩
  | receive | elapse | drop | eval | lockScript | call | succeed | fail | commit | release | endScript =>
      exact hl.elim

/-- Before the first command. No command leaves a list without elements. -/
structure Initial (m : Machine I S J) : Prop extends AtRest m where
  aof : m.aof = []
  filled : ∀ k, Filled (m.db.entry k)

/-- Replaying the log of `m'` from the database `db` ends well, with the values that
the keys have in `m'`. -/
def Replays (rts : Nat → Runtime) (db : Db (Value S J)) (m' : Machine I S J) : Prop :=
  ∃ r n, drain rts m'.aof.flatten.length (start db) m'.aof.flatten 0 = .ok (r, none, n) ∧
    ∀ k, logicalOf (r.db.entry k) = logicalOf (m'.db.entry k)

omit [DecidableEq I] in
theorem Initial.ordered (h : Initial m) (rts : Nat → Runtime) : Ordered rts m.db m := by
  refine ⟨h.filled, h.queues, fun i t ht => absurd ht (h.not_running i t),
    fun i t ht => absurd ht (h.not_running i t), [], start m.db, by simp, by rw [h.aof]; rfl, rfl,
    fun i t ht => absurd ht (h.not_running i t), ?_, fun _ _ => rfl⟩
  rintro i j k ⟨t, ht, -⟩
  exact absurd ht (h.not_running i t)

omit [DecidableEq I] in
theorem Ordered.replays (h : Ordered rts db m) (hidle : ∀ i, m.clients i = .idle) : Replays rts db m := by
  obtain ⟨records, r, hrec, hbytes, hrun, hstep⟩ := h.log
  have hw : ∀ rec ∈ records, rec.Written := fun rec hmem => (hrec rec hmem).1
  have hl : ∀ rec ∈ records, rec.Readable := fun rec hmem => (hrec rec hmem).2
  refine ⟨r, (records.flatMap LogRecord.frames).length, ?_, fun k => (hstep.same k (fun i => ?_)).symm⟩
  · rw [hbytes]
    exact drain_log hw hl db hrun
  · rw [hidle]
    rintro ⟨t, ht, -⟩
    cases ht

/-- Where clients change an entry only when no other client's change of it is still on
its way to the log, replaying the log rebuilds the data. -/
theorem log_order_of_alone (h : Initial m) (hrun : Reaches Step Orderly m m')
    (hidle : ∀ i, m'.clients i = .idle) (rts : Nat → Runtime) : Replays rts m.db m' := by
  have hordered : Ordered rts m.db m' :=
    hrun.invariant (fun _ _ _ h hl hs => Ordered.step h hl hs) (h.ordered rts)
  exact hordered.replays hidle

/-- The commands that log before they unlock, without a deadline. -/
def LogsInLock : Command S → Prop
  | .set c => c.expiration = none
  | .hset _ | .hdel _ | .lpop _ | .zadd _ | .zrem _ | .jsonSet _ => True
  | _ => False

/-- Steps of such commands, in any order, when nothing expires. -/
def InLock (m : Machine I S J) : Label I S → Prop
  | .start _ c => Sent c ∧ LogsInLock c
  | .go _ => Unexpired m
  | .tick _ => True
  | _ => False

def Task.InLock (t : Task S J) : Prop :=
  LogsInLock t.command ∧ ∃ key a, accessed t.command = [key] ∧ t.code <:+ underLock key a

omit [Host] [F64 S] [SerdeJson J] in
theorem suffix_underLock {key : Str} {a : Access S (Value S J)} {code : List (Instr S J)}
    (h : code <:+ underLock key a) : code = underLock key a ∨
      code = [.access key a, .sendAof, .unlockShard key] ∨ code = [.sendAof, .unlockShard key] ∨
      code = [.unlockShard key] ∨ code = [] := by
  simpa only [underLock, List.suffix_cons_iff, List.suffix_nil] using h

theorem program_inLock {rt : Runtime} {now : Nat} {c : Command S} {code : List (Instr S J)} {done : Done S}
    (hc : LogsInLock c) (hp : program rt now c = some (code, done)) :
    (⟨c, code, done, [], 0⟩ : Task S J).InLock := by
  cases c with
  | set | lpop | hset | hdel | zadd | zrem =>
      cases hp
      exact ⟨hc, _, _, rfl, List.suffix_refl _⟩
  | jsonSet c =>
      refine ⟨hc, c.key, ?_⟩
      simp only [program] at hp
      split at hp
      · cases hp
        exact ⟨_, rfl, List.suffix_refl _⟩
      · cases hp
        exact ⟨.take (fun _ => (.ok .null, .nothing)), rfl, List.nil_suffix⟩
  | get | ping | unimplement | eval | lpush | blpop | hget | mset | mget | multi | exec | multiGroup
  | jsonGet | zscore | zrank | zrange => exact hc.elim

omit [F64 S] [SerdeJson J] in
/-- A change that is not in the log is one whose shard is locked. -/
theorem Task.InLock.held {t : Task S J} (h : t.InLock) {k : Str} (hk : t.Unlogged k) :
    held t.code = some (Host.shardIndex k) := by
  obtain ⟨-, key, a, hkey, hcode⟩ := h
  obtain ⟨-, hsend, hreached⟩ := hk
  rw [Task.reached, hkey] at hreached
  rcases suffix_underLock hcode with hc | hc | hc | hc | hc <;> rw [hc] at hsend hreached ⊢
  · cases hreached
  · cases hreached
  · obtain rfl : k = key := List.mem_singleton.mp hreached
    rfl
  · simp at hsend
  · cases hsend

omit [F64 S] [SerdeJson J] in
theorem Task.InLock.next {t : Task S J} (h : t.InLock) {key : Str} {a : Access S (Value S J)}
    (hnext : t.next = some (key, a)) : Clients.held t.code = some (Host.shardIndex key) := by
  obtain ⟨-, key', a', -, hcode⟩ := h
  rw [Task.next] at hnext
  rcases suffix_underLock hcode with hc | hc | hc | hc | hc <;> rw [hc] at hnext ⊢ <;> cases hnext
  rfl

omit [DecidableEq I] [SerdeJson J] in
/-- The locks keep clients from changing an entry with an unlogged change. -/
theorem orderly_of_inLock (hlocked : Locked m) (hin : ∀ i t, m.clients i = .running t → t.InLock)
    {l : Label I S} (hl : InLock m l) : Orderly m l := by
  cases l with
  | start i c => exact hl.1
  | go i =>
      refine ⟨hl, fun t c code ht hc => ?_, fun t s code ht hc hset => ?_, ?_⟩
      · obtain ⟨-, key, a, -, hcode⟩ := hin i t ht
        rw [hc] at hcode
        simpa [underLock] using hcode.subset (List.mem_cons_self)
      · have hlogs := (hin i t ht).1
        rw [hset] at hlogs ⊢
        intro e he
        cases hlogs.symm.trans he
      · rintro t key a ht hnext - j hj ⟨t', ht', hk⟩
        have hi := hlocked.holds i (Host.shardIndex key) (by rw [ht]; exact (hin i t ht).next hnext)
        have hj' := hlocked.holds j (Host.shardIndex key) (by rw [ht']; exact (hin j t' ht').held hk)
        exact hj (Option.some.inj (hj'.symm.trans hi))
  | tick now => trivial
  | receive | elapse | drop | eval | lockScript | call | succeed | fail | commit | release | endScript =>
      exact hl.elim

omit [Host] [F64 S] [SerdeJson J] in
theorem Task.InLock.tail {t t' : Task S J} (h : t.InLock) (hcommand : t'.command = t.command)
    (hcode : t'.code <:+ t.code) : t'.InLock := by
  obtain ⟨hlogs, key, a, hkey, hsuffix⟩ := h
  refine ⟨by rw [hcommand]; exact hlogs, key, a, by rw [hcommand, hkey], hcode.trans hsuffix⟩

theorem inLock_step (h : ∀ i t, m.clients i = .running t → t.InLock) {l : Label I S} (hl : InLock m l)
    (hs : Step m l m') : ∀ i t, m'.clients i = .running t → t.InLock := by
  cases l with
  | start i c =>
      cases hs with
      | start hidle hp =>
          refine running_update h rfl ?_
          rintro u ⟨⟩
          exact program_inLock hl.2 hp
  | go i =>
      cases hs with
      | lockShard ht hc | access ht hc | unlockShard ht hc | sendAof ht hc =>
          refine running_update h rfl ?_
          rintro u ⟨⟩
          refine (h i _ ht).tail rfl ?_
          rw [hc]
          exact List.suffix_cons _ _
      | lockQueues ht hc | offerNone ht hc | offerSent ht hc | offerGone ht hc | unlockQueues ht hc
      | push ht hc | check ht hc | register ht hc | await ht hc =>
          obtain ⟨-, key, a, -, hcode⟩ := h i _ ht
          rw [hc] at hcode
          simpa [underLock] using hcode.subset (List.mem_cons_self)
      | finish ht hc => exact running_update h rfl (by rintro u ⟨⟩)
  | tick now =>
      cases hs
      exact h
  | receive | elapse | drop | eval | lockScript | call | succeed | fail | commit | release | endScript =>
      exact hl.elim

/-- Where commands log before they unlock, replaying the log rebuilds the data. -/
theorem log_order_in_lock (h : Initial m) (hrun : Reaches Step InLock m m')
    (hidle : ∀ i, m'.clients i = .idle) (rts : Nat → Runtime) : Replays rts m.db m' := by
  have hstart : Ordered rts m.db m ∧ Locked m ∧ ∀ i t, m.clients i = .running t → t.InLock :=
    ⟨h.ordered rts, h.locked, fun i t ht => absurd ht (h.not_running i t)⟩
  have hinv : Ordered rts m.db m' ∧ Locked m' ∧ ∀ i t, m'.clients i = .running t → t.InLock := by
    refine hrun.invariant (I := fun m' => Ordered rts m.db m' ∧ Locked m' ∧
      ∀ i t, m'.clients i = .running t → t.InLock) (fun m₁ l m₂ hm hl hs => ?_) hstart
    obtain ⟨hordered, hlocked, hin⟩ := hm
    exact ⟨hordered.step (orderly_of_inLock hlocked hin hl) hs, hlocked.step hs, inLock_step hin hl hs⟩
  exact hinv.1.replays hidle

/-- Steps of commands on lists and strings, in any order, when nothing expires and no
BLPOP has to wait. -/
def Racing (m : Machine I S J) : Label I S → Prop
  | .start _ c => Sent c ∧
      match c with
      | .lpush _ | .lpop _ | .blpop _ | .set _ | .mset _ => True
      | _ => False
  | .go i => Unexpired m ∧ Served m i
  | .tick _ => True
  | _ => False

end Runs

section Sample

attribute [local instance] singleShard wholeScore flatJson

theorem sampleMachine_initial : Initial sampleMachine where
  toAtRest := sampleMachine_atRest
  aof := rfl
  filled k := by simp [sampleMachine, Filled, logicalOf, Db.entry_new]

theorem samplePush_sent : Sent (Command.lpush (S := UInt64) samplePush) := by
  refine ⟨parsed_of_aofFrame (show aofFrame 0 (Command.lpush (S := UInt64) samplePush) = some _ from rfl)
    (by simp [Loggable, samplePush]) ?_, by rintro e ⟨⟩⟩
  simp [Fits, FitsAll, ascii, samplePush, sampleKey, Str.ofAscii]

theorem samplePop_sent : Sent (Command.lpop (S := UInt64) ⟨sampleKey⟩) := by
  refine ⟨parsed_of_aofFrame (show aofFrame 0 (Command.lpop (S := UInt64) ⟨sampleKey⟩) = some _ from rfl)
    trivial ?_, by rintro e ⟨⟩⟩
  simp [Fits, FitsAll, ascii, sampleKey, Str.ofAscii]

def sampleList (db : Db (Value UInt64 Str)) : Db (Value UInt64 Str) :=
  (db.access 0 sampleKey (lpushAccess ⟨[], 0, 0⟩ samplePush [ascii ['a']] : Access UInt64 _)).2

def samplePopped (db : Db (Value UInt64 Str)) : Db (Value UInt64 Str) :=
  (db.access 0 sampleKey (.take (lpopTaken ⟨sampleKey⟩) : Access UInt64 _)).2

theorem unexpired_of_timeless {m : Machine (Fin 2) UInt64 Str} (h : Timeless m.db.entry) : Unexpired m := by
  intro k x hx
  rw [ValueEntry.isExpired, h k x hx]

theorem new_timeless : Timeless (Db.new .lru : Db (Value UInt64 Str)).entry := by
  intro k x hx
  rw [Db.entry_new] at hx
  cases hx

theorem access_timeless {db : Db (Value UInt64 Str)} (h : Timeless db.entry) {a : Access UInt64 (Value UInt64 Str)}
    (ha : ∀ x, (a.onCell 0 (db.entry sampleKey)).2 = some x → x.expiresAt = none) :
    Timeless (db.access 0 sampleKey a).2.entry := by
  intro k x hx
  rw [(db.access_spec 0 sampleKey a).2] at hx
  split at hx
  · exact ha x hx
  · exact h k x hx

theorem sampleList_timeless : Timeless (sampleList (Db.new .lru)).entry := by
  refine access_timeless new_timeless ?_
  rintro x ⟨⟩
  rfl

theorem samplePopped_timeless : Timeless (samplePopped (sampleList (Db.new .lru))).entry := by
  refine access_timeless sampleList_timeless ?_
  rintro x ⟨⟩

theorem not_check {m : Machine (Fin 2) UInt64 Str} {i : Fin 2} {t : Task UInt64 Str}
    (ht : m.clients i = .running t) (hx : ∀ c, t.code.head? ≠ some (.check c)) : Served m i := by
  intro u c code hu hc
  rw [ht] at hu
  cases hu
  exact absurd (by rw [hc]; rfl) (hx c)

theorem racing_go {m : Machine (Fin 2) UInt64 Str} {i : Fin 2} {t : Task UInt64 Str}
    (hdb : Timeless m.db.entry) (ht : m.clients i = .running t)
    (hx : ∀ c, t.code.head? ≠ some (.check c)) : Racing m (.go i) :=
  ⟨unexpired_of_timeless hdb, not_check ht hx⟩

/-- The record of an LPOP before that of the LPUSH whose item it has taken. -/
def sampleLate : List (LogRecord UInt64) := [.single 0 (.lpop ⟨sampleKey⟩), .single 0 (.lpush samplePush)]

theorem sampleLate_written : ∀ rec ∈ sampleLate, rec.Written ∧ rec.Readable := by
  simp only [sampleLate, List.mem_cons, List.not_mem_nil, or_false]
  rintro rec (rfl | rfl)
  · exact ⟨⟨samplePop_sent.1, rfl⟩, trivial⟩
  · exact ⟨⟨samplePush_sent.1, rfl⟩, by simp [LogRecord.Readable, Loggable, samplePush]⟩

/-- An LPUSH that has unlocked its shard logs after the LPOP that takes its item. -/
theorem push_logged_late : Initial sampleMachine ∧ ∃ m', Reaches Step Racing sampleMachine m' ∧
    (∀ i, m'.clients i = .idle) ∧ ¬ Replays sampleRuntime sampleMachine.db m' := by
  refine ⟨sampleMachine_initial, ?_⟩
  have h0 : Reaches Step Racing sampleMachine sampleMachine := .refl
  have h1 := h0.next (e := .start 0 (.lpush samplePush)) ⟨samplePush_sent, trivial⟩
    (.start rfl (show program ⟨[], 0, 0⟩ 0 (Command.lpush samplePush) = some (_, _) from rfl))
  have h2 := h1.next (e := .go 0) (racing_go new_timeless rfl (by rintro c ⟨⟩))
    (.lockQueues rfl rfl rfl)
  have h3 := h2.next (e := .go 0) (racing_go new_timeless rfl (by rintro c ⟨⟩))
    (.offerNone rfl rfl rfl)
  have h4 := h3.next (e := .go 0) (racing_go new_timeless rfl (by rintro c ⟨⟩))
    (.unlockQueues rfl rfl)
  have h5 := h4.next (e := .go 0) (racing_go new_timeless rfl (by rintro c ⟨⟩))
    (.lockShard rfl rfl rfl)
  have h6 := h5.next (e := .go 0) (racing_go new_timeless rfl (by rintro c ⟨⟩))
    (.push rfl rfl)
  have h7 := h6.next (e := .go 0) (racing_go sampleList_timeless rfl (by rintro c ⟨⟩))
    (.unlockShard rfl rfl)
  have h8 := h7.next (e := .start 1 (.lpop ⟨sampleKey⟩)) ⟨samplePop_sent, trivial⟩
    (.start rfl (show program ⟨[], 0, 0⟩ 0 (Command.lpop ⟨sampleKey⟩) = some (_, _) from rfl))
  have h9 := h8.next (e := .go 1) (racing_go sampleList_timeless rfl (by rintro c ⟨⟩))
    (.lockShard rfl rfl rfl)
  have h10 := h9.next (e := .go 1) (racing_go sampleList_timeless rfl (by rintro c ⟨⟩))
    (.access rfl rfl)
  have h11 := h10.next (e := .go 1) (racing_go samplePopped_timeless rfl (by rintro c ⟨⟩))
    (.sendAof rfl rfl)
  have h12 := h11.next (e := .go 1) (racing_go samplePopped_timeless rfl (by rintro c ⟨⟩))
    (.unlockShard rfl rfl)
  have h13 := h12.next (e := .go 1) (racing_go samplePopped_timeless rfl (by rintro c ⟨⟩))
    (.finish rfl rfl)
  have h14 := h13.next (e := .go 0) (racing_go samplePopped_timeless rfl (by rintro c ⟨⟩))
    (.sendAof rfl rfl)
  have h15 := h14.next (e := .go 0) (racing_go samplePopped_timeless rfl (by rintro c ⟨⟩))
    (.finish rfl rfl)
  obtain ⟨m', hm', hidle, haof, hdb⟩ : ∃ m', Reaches Step Racing sampleMachine m' ∧
      (∀ i, m'.clients i = .idle) ∧ m'.aof.flatten = log sampleLate ∧
      m'.db = samplePopped (sampleList (Db.new .lru)) := by
    refine ⟨_, h15, fun i => ?_, rfl, rfl⟩
    match i with
    | 0 => rfl
    | 1 => rfl
  refine ⟨m', hm', hidle, ?_⟩
  rintro ⟨r, n, hd, hsame⟩
  rw [haof, drain_log (fun rec hmem => (sampleLate_written rec hmem).1)
    (fun rec hmem => (sampleLate_written rec hmem).2) _ rfl] at hd
  cases hd
  have hkey := hsame sampleKey
  rw [hdb] at hkey
  cases hkey

theorem orderly_go {m : Machine (Fin 2) UInt64 Str} {i j : Fin 2} {t : Task UInt64 Str}
    (hdb : Timeless m.db.entry) (ht : m.clients i = .running t) (hothers : ∀ l, l ≠ i → l = j)
    (hlogged : ∀ k, ¬ (m.clients j).Unlogged k) (hx : ∀ c, t.code.head? ≠ some (.check c))
    (hset : ∀ s, t.command ≠ .set s) : Orderly m (.go i) := by
  refine ⟨unexpired_of_timeless hdb, not_check ht hx, fun u s code hu hc hs => ?_, fun u key a _ _ _ l hl => ?_⟩
  · rw [ht] at hu
    cases hu
    exact absurd hs (hset s)
  · rw [hothers l hl]
    exact hlogged key

theorem not_unlogged {t : Task UInt64 Str} (h : t.done.aof = none ∨ Instr.sendAof ∉ t.code) (k : Str) :
    ¬ (Client.running t).Unlogged k := by
  rintro ⟨u, hu, haof, hsend, -⟩
  cases hu
  rcases h with h | h
  · rw [h] at haof
    cases haof
  · exact h hsend

theorem others_zero (l : Fin 2) (hl : l ≠ 0) : l = 1 := by omega

theorem others_one (l : Fin 2) (hl : l ≠ 1) : l = 0 := by omega

/-- LPUSH k a by one client and LPOP k by another, which starts before the item is there and takes
it when the LPUSH is in the log. -/
theorem log_order_of_alone_push : ∃ m', Reaches Step Orderly sampleMachine m' ∧
    m'.aof.flatten = log [.single 0 (.lpush samplePush), .single 0 (.lpop (S := UInt64) ⟨sampleKey⟩)] ∧
    Replays sampleRuntime sampleMachine.db m' := by
  have h0 : Reaches Step Orderly sampleMachine sampleMachine := .refl
  have h1 := h0.next (e := .start 0 (.lpush samplePush)) samplePush_sent
    (.start rfl (show program ⟨[], 0, 0⟩ 0 (Command.lpush samplePush) = some (_, _) from rfl))
  have h2 := h1.next (e := .start 1 (.lpop ⟨sampleKey⟩)) samplePop_sent
    (.start rfl (show program ⟨[], 0, 0⟩ 0 (Command.lpop ⟨sampleKey⟩) = some (_, _) from rfl))
  have h3 := h2.next (e := .go 0) (orderly_go new_timeless rfl others_zero (not_unlogged (.inl rfl))
    (by rintro c ⟨⟩) (by rintro s ⟨⟩)) (.lockQueues rfl rfl rfl)
  have h4 := h3.next (e := .go 0) (orderly_go new_timeless rfl others_zero (not_unlogged (.inl rfl))
    (by rintro c ⟨⟩) (by rintro s ⟨⟩)) (.offerNone rfl rfl rfl)
  have h5 := h4.next (e := .go 0) (orderly_go new_timeless rfl others_zero (not_unlogged (.inl rfl))
    (by rintro c ⟨⟩) (by rintro s ⟨⟩)) (.unlockQueues rfl rfl)
  have h6 := h5.next (e := .go 0) (orderly_go new_timeless rfl others_zero (not_unlogged (.inl rfl))
    (by rintro c ⟨⟩) (by rintro s ⟨⟩)) (.lockShard rfl rfl rfl)
  have h7 := h6.next (e := .go 0) (orderly_go new_timeless rfl others_zero (not_unlogged (.inl rfl))
    (by rintro c ⟨⟩) (by rintro s ⟨⟩)) (.push rfl rfl)
  have h8 := h7.next (e := .go 0) (orderly_go sampleList_timeless rfl others_zero (not_unlogged (.inl rfl))
    (by rintro c ⟨⟩) (by rintro s ⟨⟩)) (.unlockShard rfl rfl)
  have h9 := h8.next (e := .go 0) (orderly_go sampleList_timeless rfl others_zero (not_unlogged (.inl rfl))
    (by rintro c ⟨⟩) (by rintro s ⟨⟩)) (.sendAof rfl rfl)
  have h10 := h9.next (e := .go 1) (orderly_go sampleList_timeless rfl others_one (not_unlogged (.inr nofun))
    (by rintro c ⟨⟩) (by rintro s ⟨⟩)) (.lockShard rfl rfl rfl)
  have h11 := h10.next (e := .go 1) (orderly_go sampleList_timeless rfl others_one (not_unlogged (.inr nofun))
    (by rintro c ⟨⟩) (by rintro s ⟨⟩)) (.access rfl rfl)
  have h12 := h11.next (e := .go 1) (orderly_go samplePopped_timeless rfl others_one (not_unlogged (.inr nofun))
    (by rintro c ⟨⟩) (by rintro s ⟨⟩)) (.sendAof rfl rfl)
  have h13 := h12.next (e := .go 0) (orderly_go samplePopped_timeless rfl others_zero
    (not_unlogged (.inr (by simp))) (by rintro c ⟨⟩) (by rintro s ⟨⟩)) (.finish rfl rfl)
  have h14 := h13.next (e := .go 1) (orderly_go samplePopped_timeless rfl others_one
    (by rintro k ⟨u, hu, -⟩; cases hu) (by rintro c ⟨⟩) (by rintro s ⟨⟩)) (.unlockShard rfl rfl)
  have h15 := h14.next (e := .go 1) (orderly_go samplePopped_timeless rfl others_one
    (by rintro k ⟨u, hu, -⟩; cases hu) (by rintro c ⟨⟩) (by rintro s ⟨⟩)) (.finish rfl rfl)
  refine ⟨_, h15, rfl, log_order_of_alone sampleMachine_initial h15 (fun i => ?_) sampleRuntime⟩
  match i with
  | 0 => rfl
  | 1 => rfl

/-- SET k w -/
def sampleRewrite : SetCommand := ⟨sampleKey, ascii ['w'], none, none⟩

theorem sampleRewrite_sent : Sent (Command.set (S := UInt64) sampleRewrite) := by
  refine ⟨parsed_of_aofFrame (show aofFrame 0 (Command.set (S := UInt64) sampleRewrite) = some _ from rfl)
    (fun e he => by cases he) ?_, by rintro e ⟨⟩⟩
  simp [Fits, FitsAll, ascii, sampleKey, sampleRewrite, Str.ofAscii]

theorem set_timeless {db : Db (Value UInt64 Str)} (h : Timeless db.entry) (value : Bytes) :
    Timeless (db.access 0 sampleKey (setAccess 0 ⟨sampleKey, value, none, none⟩ :
      Access UInt64 (Value UInt64 Str))).2.entry := by
  refine access_timeless h ?_
  rintro x ⟨⟩
  rfl

/-- SET k v and SET k w by two clients. The second is the first to get the lock. -/
theorem log_order_in_lock_set : ∃ m', Reaches Step InLock sampleMachine m' ∧
    m'.aof.flatten = log [.single 0 (.set (S := UInt64) sampleRewrite), .single 0 (.set sampleSet)] ∧
    Replays sampleRuntime sampleMachine.db m' := by
  have hw := unexpired_of_timeless (m := { sampleMachine with db := _ }) (set_timeless new_timeless (ascii ['w']))
  have hv := unexpired_of_timeless (m := { sampleMachine with db := _ })
    (set_timeless (set_timeless new_timeless (ascii ['w'])) (ascii ['v']))
  have h0 : Reaches Step InLock sampleMachine sampleMachine := .refl
  have h1 := h0.next (e := .start 0 (.set sampleSet)) ⟨sample_sent, rfl⟩
    (.start rfl (show program ⟨[], 0, 0⟩ 0 (Command.set sampleSet) = some (_, _) from rfl))
  have h2 := h1.next (e := .start 1 (.set sampleRewrite)) ⟨sampleRewrite_sent, rfl⟩
    (.start rfl (show program ⟨[], 0, 0⟩ 0 (Command.set sampleRewrite) = some (_, _) from rfl))
  have h3 := h2.next (e := .go 1) (unexpired_of_timeless new_timeless) (.lockShard rfl rfl rfl)
  have h4 := h3.next (e := .go 1) (unexpired_of_timeless new_timeless) (.access rfl rfl)
  have h5 := h4.next (e := .go 1) hw (.sendAof rfl rfl)
  have h6 := h5.next (e := .go 1) hw (.unlockShard rfl rfl)
  have h7 := h6.next (e := .go 0) hw (.lockShard rfl rfl rfl)
  have h8 := h7.next (e := .go 1) hw (.finish rfl rfl)
  have h9 := h8.next (e := .go 0) hw (.access rfl rfl)
  have h10 := h9.next (e := .go 0) hv (.sendAof rfl rfl)
  have h11 := h10.next (e := .go 0) hv (.unlockShard rfl rfl)
  have h12 := h11.next (e := .go 0) hv (.finish rfl rfl)
  refine ⟨_, h12, rfl, log_order_in_lock sampleMachine_initial h12 (fun i => ?_) sampleRuntime⟩
  match i with
  | 0 => rfl
  | 1 => rfl

end Sample

end RustKv.Clients
