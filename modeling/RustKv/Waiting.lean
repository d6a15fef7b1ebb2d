import RustKv.Runs
import RustKv.ScriptLists

namespace RustKv.Clients

open Runs Text Protocol Domain CacheStore Zset RustKv.Types Executor AofEncoder

section Lists

variable {S J : Type} [Host]

def OnList : Command S → Prop
  | .lpush _ | .lpop _ | .blpop _ => True
  | _ => False

def blpopCode (c : BLPopCommand) : List (Instr S J) :=
  [.lockShard c.key, .check c, .unlockShard c.key, .sendAof]

def lpushCode (rt : Runtime) (c : LPushCommand) : List (Instr S J) :=
  .lockQueues :: c.values.map (.offer c.key) ++ pushCode rt c

/-- A task of a list command, with what is left of its program. -/
inductive Task.Lists (t : Task S J) : Prop
  | lpop (c : LPopCommand) (hcommand : t.command = .lpop c)
      (hcode : t.code <:+ underLock c.key (.take (lpopTaken c)))
  | blpop (c : BLPopCommand) (hcommand : t.command = .blpop c) (hcode : t.code <:+ blpopCode c)
  | wait (c : BLPopCommand) (hcommand : t.command = .blpop c) (hcode : t.code <:+ waitCode c)
  | lpush (rt : Runtime) (c : LPushCommand) (hcommand : t.command = .lpush c)
      (hcode : t.code <:+ lpushCode rt c)

variable {t t' : Task S J}

theorem Task.Lists.tail (h : t.Lists) (hcommand : t'.command = t.command) (hcode : t'.code <:+ t.code) :
    t'.Lists := by
  cases h with
  | lpop c hc hs => exact .lpop c (hcommand.trans hc) (hcode.trans hs)
  | blpop c hc hs => exact .blpop c (hcommand.trans hc) (hcode.trans hs)
  | wait c hc hs => exact .wait c (hcommand.trans hc) (hcode.trans hs)
  | lpush rt c hc hs => exact .lpush rt c (hcommand.trans hc) (hcode.trans hs)

theorem program_lists [F64 S] [SerdeJson J] {rt : Runtime} {now : Nat} {c : Command S}
    {code : List (Instr S J)} {done : Done S} (hc : OnList c) (hp : program rt now c = some (code, done)) :
    (⟨c, code, done, [], 0⟩ : Task S J).Lists := by
  cases c with
  | lpush c =>
      cases hp
      exact .lpush rt c rfl (List.suffix_refl _)
  | lpop c =>
      cases hp
      exact .lpop c rfl (List.suffix_refl _)
  | blpop c =>
      cases hp
      exact .blpop c rfl (List.suffix_refl _)
  | get | set | ping | unimplement | eval | hset | hget | hdel | mset | mget | multi | exec | multiGroup
  | jsonSet | jsonGet | zadd | zscore | zrank | zrange | zrem => exact hc.elim

omit [Host] in
theorem mem_lpushCode {rt : Runtime} {c : LPushCommand} {x : Instr S J} :
    x ∈ lpushCode rt c ↔ x = .lockQueues ∨ (∃ item ∈ c.values, x = .offer c.key item) ∨
      x = .unlockQueues ∨ x = .lockShard c.key ∨ x = .push rt c ∨ x = .unlockShard c.key ∨ x = .sendAof := by
  simp [lpushCode, pushCode, eq_comm]

theorem Task.Lists.access (h : t.Lists) {key : Str} {a : Access S (Value S J)}
    (hmem : .access key a ∈ t.code) : ∃ c, t.command = .lpop c ∧ key = c.key ∧ a = .take (lpopTaken c) := by
  cases h with
  | lpop c hc hs => exact ⟨c, hc, by simpa [underLock] using hs.subset hmem⟩
  | blpop c hc hs => simpa [blpopCode] using hs.subset hmem
  | wait c hc hs => simpa [waitCode] using hs.subset hmem
  | lpush rt c hc hs => simpa using mem_lpushCode.mp (hs.subset hmem)

theorem Task.Lists.check (h : t.Lists) {c : BLPopCommand} (hmem : .check c ∈ t.code) :
    t.command = .blpop c ∧ t.code <:+ blpopCode c := by
  cases h with
  | lpop c' hc hs => simpa [underLock] using hs.subset hmem
  | blpop c' hc hs =>
      obtain rfl : c = c' := by simpa [blpopCode] using hs.subset hmem
      exact ⟨hc, hs⟩
  | wait c' hc hs => simpa [waitCode] using hs.subset hmem
  | lpush rt c' hc hs => simpa using mem_lpushCode.mp (hs.subset hmem)

theorem Task.Lists.register (h : t.Lists) {c : BLPopCommand} (hmem : .register c ∈ t.code) :
    t.command = .blpop c ∧ t.code <:+ waitCode c ∧ held t.code = some (Host.shardIndex c.key) := by
  cases h with
  | lpop c' hc hs => simpa [underLock] using hs.subset hmem
  | blpop c' hc hs => simpa [blpopCode] using hs.subset hmem
  | wait c' hc hs =>
      obtain rfl : c = c' := by simpa [waitCode] using hs.subset hmem
      refine ⟨hc, hs, ?_⟩
      simp only [waitCode, List.suffix_cons_iff, List.suffix_nil] at hs
      rcases hs with hs | hs | hs | hs | hs | hs
      · rw [hs]
        rfl
      · rw [hs]
        rfl
      all_goals simp [hs] at hmem
  | lpush rt c' hc hs => simpa using mem_lpushCode.mp (hs.subset hmem)

theorem Task.Lists.push (h : t.Lists) {rt : Runtime} {c : LPushCommand} (hmem : .push rt c ∈ t.code) :
    t.command = .lpush c ∧ t.code <:+ lpushCode rt c := by
  cases h with
  | lpop c' hc hs => simpa [underLock] using hs.subset hmem
  | blpop c' hc hs => simpa [blpopCode] using hs.subset hmem
  | wait c' hc hs => simpa [waitCode] using hs.subset hmem
  | lpush rt' c' hc hs =>
      obtain ⟨rfl, rfl⟩ : rt = rt' ∧ c = c' := by simpa using mem_lpushCode.mp (hs.subset hmem)
      exact ⟨hc, hs⟩

theorem Task.Lists.offer (h : t.Lists) {key : Str} {item : Bytes} (hmem : .offer key item ∈ t.code) :
    ∃ rt c, t.command = .lpush c ∧ key = c.key ∧ t.code <:+ lpushCode rt c := by
  cases h with
  | lpop c' hc hs => simpa [underLock] using hs.subset hmem
  | blpop c' hc hs => simpa [blpopCode] using hs.subset hmem
  | wait c' hc hs => simpa [waitCode] using hs.subset hmem
  | lpush rt c hc hs =>
      obtain ⟨_, -, rfl, rfl⟩ : ∃ item' ∈ c.values, key = c.key ∧ item = item' := by
        simpa using mem_lpushCode.mp (hs.subset hmem)
      exact ⟨rt, c, hc, rfl, hs⟩

theorem Task.Lists.after_access (h : t.Lists) {key : Str} {a : Access S (Value S J)} {code : List (Instr S J)}
    (hc : t.code = .access key a :: code) : code = [.sendAof, .unlockShard key] := by
  cases h with
  | lpop c hcommand hs =>
      rw [hc] at hs
      simp only [underLock, List.suffix_cons_iff, List.suffix_nil] at hs
      rcases hs with hs | hs | hs | hs | hs <;> cases hs
      rfl
  | blpop c hcommand hs =>
      rw [hc] at hs
      simpa [blpopCode] using hs.subset List.mem_cons_self
  | wait c hcommand hs =>
      rw [hc] at hs
      simpa [waitCode] using hs.subset List.mem_cons_self
  | lpush rt c hcommand hs =>
      rw [hc] at hs
      simpa using mem_lpushCode.mp (hs.subset List.mem_cons_self)

theorem Task.Lists.after_check (h : t.Lists) {c : BLPopCommand} {code : List (Instr S J)}
    (hc : t.code = .check c :: code) : code = [.unlockShard c.key, .sendAof] := by
  have hs := (h.check (by rw [hc]; exact List.mem_cons_self)).2
  rw [hc] at hs
  simp only [blpopCode, List.suffix_cons_iff, List.suffix_nil] at hs
  rcases hs with hs | hs | hs | hs | hs <;> cases hs
  rfl

theorem Task.Lists.after_register (h : t.Lists) {c : BLPopCommand} {code : List (Instr S J)}
    (hc : t.code = .register c :: code) : code = [.unlockQueues, .unlockShard c.key, .await c] := by
  have hs := (h.register (by rw [hc]; exact List.mem_cons_self)).2.1
  rw [hc] at hs
  simp only [waitCode, List.suffix_cons_iff, List.suffix_nil] at hs
  rcases hs with hs | hs | hs | hs | hs | hs <;> cases hs
  rfl

theorem Task.Lists.await (h : t.Lists) {c : BLPopCommand} (hmem : .await c ∈ t.code) :
    t.command = .blpop c ∧ t.code <:+ waitCode c := by
  cases h with
  | lpop c' hc hs => simpa [underLock] using hs.subset hmem
  | blpop c' hc hs => simpa [blpopCode] using hs.subset hmem
  | wait c' hc hs =>
      obtain rfl : c = c' := by simpa [waitCode] using hs.subset hmem
      exact ⟨hc, hs⟩
  | lpush rt c' hc hs => simpa using mem_lpushCode.mp (hs.subset hmem)

theorem Task.Lists.after_await (h : t.Lists) {c : BLPopCommand} {code : List (Instr S J)}
    (hc : t.code = .await c :: code) : code = [] := by
  have hs := (h.await (by rw [hc]; exact List.mem_cons_self)).2
  rw [hc] at hs
  simp only [waitCode, List.suffix_cons_iff, List.suffix_nil] at hs
  rcases hs with hs | hs | hs | hs | hs | hs <;> cases hs
  rfl

/-- A list command starts without a reply and without a ticket. -/
theorem program_before [F64 S] [SerdeJson J] {rt : Runtime} {now : Nat} {c : Command S}
    {code : List (Instr S J)} {done : Done S} (hc : OnList c) (hp : program rt now c = some (code, done)) :
    done.reply = .ok .null ∧ ∀ b, .await b ∉ code := by
  have hlists := program_lists hc hp
  have hdone : done.reply = .ok .null := by
    cases c with
    | lpush c | lpop c | blpop c =>
        cases hp
        rfl
    | get | set | ping | unimplement | eval | hset | hget | hdel | mset | mget | multi | exec | multiGroup
    | jsonSet | jsonGet | zadd | zscore | zrank | zrange | zrem => exact hc.elim
  refine ⟨hdone, fun b hmem => ?_⟩
  cases (hlists.await hmem).1
  cases hp
  simp at hmem

theorem lpop_stocked {c : LPopCommand} {now : Nat} {e : Option (ValueEntry (Value S J))}
    (h : Stocked ((Access.take (lpopTaken c) : Access S _).onCell now e).2) : Stocked e := by
  rcases e with _ | ⟨v, x, n⟩
  · exact h
  · cases v with
    | list deque =>
        cases deque with
        | nil =>
            obtain ⟨x, xs, h⟩ := h
            cases h
        | cons item list => exact ⟨item, list, rfl⟩
    | simple | hash | zset | json => exact h

theorem blpop_stocked {c : BLPopCommand} {now : Nat} {e : Option (ValueEntry (Value S J))}
    (h : Stocked ((Access.take (blpopTaken c) : Access S _).onCell now e).2) : Stocked e := by
  rcases e with _ | ⟨v, x, n⟩
  · exact h
  · cases v with
    | list deque =>
        cases deque with
        | nil => exact h
        | cons item list => exact ⟨item, list, rfl⟩
    | simple | hash | zset | json => exact h

theorem lpush_stocked {rt : Runtime} {c : LPushCommand} {now : Nat} {e : Option (ValueEntry (Value S J))}
    (h : Stocked ((lpushAccess rt c [] : Access S _).onCell now e).2) : Stocked e :=
  stocked_of_unlessExpired h

end Lists

section Machines

variable {I S J : Type} [Host] [DecidableEq I] {m m' : Machine I S J} {i : I} {x : Client S J}

/-- A client with its receiver waits in the queue of the key. -/
def Awaited (m : Machine I S J) (k : Str) : Prop := ∃ n ∈ m.queues k, m.channels n = .pending

/-- An LPUSH that found no waiting client for some item of its key. -/
def Client.Pushing (x : Client S J) (k : Str) : Prop :=
  ∃ t rt c, x = .running t ∧ .push rt c ∈ t.code ∧ c.key = k ∧ t.valuesToPush ≠ []

/-- A BLPOP that is about to register. -/
def Client.Registering (x : Client S J) (k : Str) : Prop :=
  ∃ t c, x = .running t ∧ .register c ∈ t.code ∧ c.key = k

/-- Of a script, for keys of `K`: it has no list with elements but under keys it has pushed to,
and once it commits none that is still to be committed. -/
def Client.Hushed (K : Str → Prop) : Client S J → Prop
  | .script (.locking _) env => Clients.Hushed K (Pushes env.luaAofBuffer) env.sessions
  | .script (.committing shards) env => Clients.Hushed K (fun k => Host.shardIndex k ∉ shards) env.sessions
  | .idle | .running _ | .waiting _ _ | .elapsed _ _ => True

/-- Nobody waits for a list that has an element, and nobody is about to. -/
structure Alert (m : Machine I S J) : Prop where
  lists : ∀ i t, m.clients i = .running t → t.Lists
  awaited : ∀ k, Awaited m k → ¬ Stocked (m.db.entry k)
  pushing : ∀ i k, (m.clients i).Pushing k → ¬ Awaited m k
  registering : ∀ i k, (m.clients i).Registering k → ¬ Stocked (m.db.entry k)
  scripts : ∀ i, (m.clients i).Hushed (Awaited m)

omit [DecidableEq I] in
/-- Scripts have nothing to fear from clients that stop to wait, nor from those that wait for
keys of other shards. -/
theorem Client.Hushed.mono {K K' : Str → Prop} (h : x.Hushed K)
    (hK : ∀ k, Host.shardIndex k ∈ x.holds → K' k → K k) : x.Hushed K' := by
  cases x with
  | script phase env =>
      have hmem (k : Str) (hk : (env.sessions.lookup (Host.shardIndex k)).isSome) : K' k → K k :=
        hK k (Finmap.lookup_isSome.mp hk)
      cases phase with
      | locking | committing => exact Clients.Hushed.mono h hmem (fun _ _ hp => hp)
  | idle | running | waiting | elapsed => trivial

theorem hushed_update (h : ∀ j, (m.clients j).Hushed (Awaited m))
    (hclients : m'.clients = Function.update m.clients i x) (hqueues : ∀ k, Awaited m' k → Awaited m k)
    (hx : x.Hushed (Awaited m')) : ∀ j, (m'.clients j).Hushed (Awaited m') := by
  intro j
  rw [hclients, Function.update_apply]
  split
  · exact hx
  · exact (h j).mono (fun k _ => hqueues k)

theorem Alert.calm (h : Alert m) (hclients : m'.clients = Function.update m.clients i x)
    (hlists : ∀ t, x = .running t → t.Lists) (hqueues : ∀ k, Awaited m' k → Awaited m k)
    (hdb : ∀ k, Stocked (m'.db.entry k) → Stocked (m.db.entry k))
    (hpushing : ∀ k, x.Pushing k → (m.clients i).Pushing k ∨ ¬ Awaited m' k)
    (hregistering : ∀ k, x.Registering k → (m.clients i).Registering k ∨ ¬ Stocked (m'.db.entry k))
    (hscripts : x.Hushed (Awaited m')) : Alert m' := by
  refine ⟨running_update h.lists hclients hlists, fun k hk hs => ?_, fun j k hj hk => ?_,
    fun j k hj hs => ?_, hushed_update h.scripts hclients hqueues hscripts⟩
  · exact h.awaited k (hqueues k hk) (hdb k hs)
  · rw [hclients, Function.update_apply] at hj
    split at hj
    · rcases hpushing k hj with hj | hn
      · exact h.pushing i k hj (hqueues k hk)
      · exact hn hk
    · exact h.pushing j k hj (hqueues k hk)
  · rw [hclients, Function.update_apply] at hj
    split at hj
    · rcases hregistering k hj with hj | hn
      · exact h.registering i k hj (hdb k hs)
      · exact hn hs
    · exact h.registering j k hj (hdb k hs)

section Going

variable {t t' : Task S J} {j : I} {k : Str}

theorem pushing_of_go (ht : m.clients i = .running t)
    (hclients : m'.clients = Function.update m.clients i (.running t')) (hcode : t'.code <:+ t.code)
    (hvalues : t'.valuesToPush = t.valuesToPush) (h : (m'.clients j).Pushing k) :
    (m.clients j).Pushing k := by
  rw [hclients, Function.update_apply] at h
  split at h
  · next hj =>
      obtain ⟨u, rt, c, hu, hmem, hkey, hne⟩ := h
      cases hu
      exact ⟨t, rt, c, hj ▸ ht, hcode.subset hmem, hkey, hvalues ▸ hne⟩
  · exact h

theorem registering_of_go (ht : m.clients i = .running t)
    (hclients : m'.clients = Function.update m.clients i (.running t')) (hcode : t'.code <:+ t.code)
    (h : (m'.clients j).Registering k) : (m.clients j).Registering k := by
  rw [hclients, Function.update_apply] at h
  split at h
  · next hj =>
      obtain ⟨u, c, hu, hmem, hkey⟩ := h
      cases hu
      exact ⟨t, c, hj ▸ ht, hcode.subset hmem, hkey⟩
  · exact h

theorem lists_of_go (h : Alert m) (ht : m.clients i = .running t)
    (hclients : m'.clients = Function.update m.clients i (.running t')) (hcommand : t'.command = t.command)
    (hcode : t'.code <:+ t.code) : ∀ j t, m'.clients j = .running t → t.Lists := by
  refine running_update h.lists hclients ?_
  rintro u ⟨⟩
  exact (h.lists i t ht).tail hcommand hcode

theorem Alert.go (h : Alert m) (ht : m.clients i = .running t)
    (hclients : m'.clients = Function.update m.clients i (.running t')) (hcommand : t'.command = t.command)
    (hcode : t'.code <:+ t.code) (hvalues : t'.valuesToPush = t.valuesToPush)
    (hqueues : ∀ k, Awaited m' k → Awaited m k)
    (hdb : ∀ k, Stocked (m'.db.entry k) → Stocked (m.db.entry k)) : Alert m' where
  lists := lists_of_go h ht hclients hcommand hcode
  awaited k hk hs := h.awaited k (hqueues k hk) (hdb k hs)
  pushing j k hj hk := h.pushing j k (pushing_of_go ht hclients hcode hvalues hj) (hqueues k hk)
  registering j k hj hs := h.registering j k (registering_of_go ht hclients hcode hj) (hdb k hs)
  scripts := hushed_update h.scripts hclients hqueues trivial

end Going

theorem Alert.plain (h : Alert m) (hclients : m'.clients = Function.update m.clients i x)
    (hlists : ∀ t, x = .running t → t.Lists) (hpushing : ∀ k, ¬ x.Pushing k)
    (hregistering : ∀ k, ¬ x.Registering k) (hscripts : x.Hushed (Awaited m'))
    (hqueues : ∀ k, Awaited m' k → Awaited m k) (hdb : m'.db = m.db) : Alert m' := by
  refine h.calm hclients hlists hqueues (fun k hk => ?_) (fun k hk => absurd hk (hpushing k))
    (fun k hk => absurd hk (hregistering k)) hscripts
  rwa [hdb] at hk

theorem Alert.leave (h : Alert m) (hclients : m'.clients = Function.update m.clients i x)
    (hx : ∀ t, x ≠ .running t) (hscripts : x.Hushed (Awaited m'))
    (hqueues : ∀ k, Awaited m' k → Awaited m k) (hdb : m'.db = m.db) : Alert m' := by
  refine h.plain hclients (fun t ht => absurd ht (hx t)) ?_ ?_ hscripts hqueues hdb
  · rintro k ⟨t, -, -, ht, -⟩
    exact hx t ht
  · rintro k ⟨t, -, ht, -⟩
    exact hx t ht

omit [DecidableEq I] in
theorem awaited_close {n : Nat} {c : Channel} (hc : c ≠ .pending) (hqueues : m'.queues = m.queues)
    (hchannels : m'.channels = Function.update m.channels n c) (k : Str) (h : Awaited m' k) : Awaited m k := by
  obtain ⟨n', hmem, hn'⟩ := h
  rw [hqueues] at hmem
  rw [hchannels, Function.update_apply] at hn'
  split at hn'
  · exact absurd hn' hc
  · exact ⟨n', hmem, hn'⟩

omit [DecidableEq I] in
theorem stocked_access {now : Nat} {key : Str} {a : Access S (Value S J)}
    (ha : ∀ e, Stocked (a.onCell now e).2 → Stocked e) (hdb : m'.db = (m.db.access now key a).2) (k : Str)
    (h : Stocked (m'.db.entry k)) : Stocked (m.db.entry k) := by
  rw [hdb, (m.db.access_spec now key a).2] at h
  split at h
  · next hk =>
      rw [hk]
      exact ha _ h
  · exact h

omit [DecidableEq I] in
theorem Locked.unique (h : Locked m) {j : I} {shard : Fin Host.numShards} (hi : shard ∈ (m.clients i).holds)
    (hj : shard ∈ (m.clients j).holds) : i = j :=
  Option.some.inj ((h.holds i shard hi).symm.trans (h.holds j shard hj))

omit [DecidableEq I] in
/-- A client that is about to register has the lock of the shard. -/
theorem Alert.holds (h : Alert m) {k : Str} (hk : (m.clients i).Registering k) :
    Host.shardIndex k ∈ (m.clients i).holds := by
  obtain ⟨t, c, ht, hmem, rfl⟩ := hk
  rw [ht]
  exact ((h.lists i t ht).register hmem).2.2

variable [F64 S] [SerdeJson J]

/-- Steps that leave nobody waiting for a list with elements: no BLPOP registers while an
LPUSH has items for the key that found nobody waiting, and no script ends well that has
called LPUSH on a key for which a client waits. -/
def Attentive (m : Machine I S J) : Label I S → Prop
  | .start _ c => OnList c
  | .go i => ∀ t c code, m.clients i = .running t → t.code = .register c :: code →
      ∀ j, ¬ (m.clients j).Pushing c.key
  | .succeed i => ∀ phase env, m.clients i = .script phase env →
      ∀ k, Pushes env.luaAofBuffer k → ¬ Awaited m k
  | _ => True

omit [F64 S] [SerdeJson J] in
theorem accessed_clients (m : Machine I S J) (i : I) (t : Task S J) (code : List (Instr S J)) (key : Str)
    (a : Access S (Value S J)) : (m.accessed i t code key a).clients = Function.update m.clients i
      (.running { t with code := code, done := (m.db.access m.now key a).1 }) := rfl

omit [F64 S] [SerdeJson J] in
theorem Alert.push (h : Alert m) (hlocked : Locked m) {t : Task S J} {rt : Runtime} {c : LPushCommand}
    {code : List (Instr S J)} (ht : m.clients i = .running t) (hc : t.code = .push rt c :: code) :
    Alert (m.accessed i t code c.key (lpushAccess rt c t.valuesToPush)) := by
  have hcode : code <:+ t.code := by
    rw [hc]
    exact List.suffix_cons _ _
  by_cases hvalues : t.valuesToPush = []
  · rw [hvalues]
    exact h.go ht rfl rfl hcode rfl (fun _ hk => hk) (stocked_access (fun _ he => lpush_stocked he) rfl)
  · have hpush : (m.clients i).Pushing c.key := ⟨t, rt, c, ht, by rw [hc]; simp, rfl, hvalues⟩
    have hother (k : Str) (hk : k ≠ c.key) :
        (m.accessed i t code c.key (lpushAccess rt c t.valuesToPush)).db.entry k = m.db.entry k := by
      rw [Machine.accessed, (m.db.access_spec _ _ _).2, if_neg hk]
    have hi : Host.shardIndex c.key ∈ (m.clients i).holds := by
      have hg := hlocked.guarded i t ht
      rw [hc] at hg
      rw [ht]
      change held t.code = _
      rw [hc]
      exact hg.1
    refine ⟨lists_of_go h ht rfl rfl hcode, fun k hk => ?_, fun j k hj => ?_, fun j k hj => ?_,
      hushed_update h.scripts rfl (fun _ hk => hk) trivial⟩
    · by_cases hkey : k = c.key
      · rw [hkey] at hk
        exact absurd hk (h.pushing i c.key hpush)
      · rw [hother k hkey]
        exact h.awaited k hk
    · exact h.pushing j k (pushing_of_go ht (accessed_clients ..) hcode rfl hj)
    · have hj' := registering_of_go ht rfl hcode hj
      have hkey : k ≠ c.key := by
        rintro rfl
        have hji := hlocked.unique (h.holds hj') hi
        subst hji
        obtain ⟨u, c', hu, hmem, -⟩ := hj'
        have hwait := ((h.lists j u hu).register hmem).2.1
        rw [ht] at hu
        cases hu
        rw [hc] at hwait
        simpa [waitCode] using hwait.subset List.mem_cons_self
      rw [hother k hkey]
      exact h.registering j k hj'

omit [F64 S] [SerdeJson J] in
theorem Alert.register (h : Alert m) (hlocked : Locked m) {t : Task S J} {c : BLPopCommand} {code : List (Instr S J)}
    (hpushing : ∀ j, ¬ (m.clients j).Pushing c.key) (ht : m.clients i = .running t)
    (hc : t.code = .register c :: code)
    (hclients : m'.clients = Function.update m.clients i (.running { t with code := code, ticket := m.tickets }))
    (hdb : m'.db = m.db) (hqueues : ∀ k, k ≠ c.key → Awaited m' k → Awaited m k) : Alert m' := by
  have hcode : code <:+ t.code := by
    rw [hc]
    exact List.suffix_cons _ _
  have hself : (m.clients i).Registering c.key := ⟨t, c, ht, by rw [hc]; simp, rfl⟩
  refine ⟨lists_of_go h ht hclients rfl hcode, fun k hk => ?_, fun j k hj hk => ?_, fun j k hj => ?_, fun j => ?_⟩
  · rw [hdb]
    by_cases hkey : k = c.key
    · rw [hkey]
      exact h.registering i c.key hself
    · exact h.awaited k (hqueues k hkey hk)
  · have hj' := pushing_of_go ht hclients hcode rfl hj
    by_cases hkey : k = c.key
    · rw [hkey] at hj'
      exact hpushing j hj'
    · exact h.pushing j k hj' (hqueues k hkey hk)
  · rw [hdb]
    exact h.registering j k (registering_of_go ht hclients hcode hj)
  · rw [hclients, Function.update_apply]
    split
    · trivial
    · next hne =>
      -- nobody else has the shard of the key
      refine (h.scripts j).mono fun k hk => hqueues k ?_
      rintro rfl
      exact hne (hlocked.unique hk (h.holds hself))

omit [F64 S] [SerdeJson J] in
theorem Alert.check (h : Alert m) {t : Task S J} {c : BLPopCommand} {code : List (Instr S J)}
    (ht : m.clients i = .running t) (hc : t.code = .check c :: code) :
    Alert (m.accessed i t
      (if (m.db.access m.now c.key (.take (blpopTaken c) : Access S _)).1.waits then waitCode c else code)
      c.key (.take (blpopTaken c))) := by
  have hstocked (code' : List (Instr S J)) (k : Str)
      (hk : Stocked ((m.accessed i t code' c.key (.take (blpopTaken c))).db.entry k)) :
      Stocked (m.db.entry k) :=
    stocked_access (fun _ he => blpop_stocked he) rfl k hk
  obtain ⟨hdone, hentry⟩ := m.db.access_spec m.now c.key (.take (blpopTaken c) : Access S _)
  have hmem : Instr.check c ∈ t.code := by
    rw [hc]
    simp
  cases hw : (m.db.access m.now c.key (.take (blpopTaken c) : Access S _)).1.waits with
  | false =>
      refine h.go ht rfl rfl ?_ rfl (fun _ hk => hk) (hstocked _)
      rw [hc]
      exact List.suffix_cons _ _
  | true =>
      refine h.calm rfl ?_ (fun _ hk => hk) (hstocked _) (fun k hk => ?_) (fun k hk => .inr ?_) trivial
      · rintro u ⟨⟩
        exact .wait c ((h.lists i t ht).check hmem).1 (List.suffix_refl _)
      · obtain ⟨u, rt, c', hu, hmem', -⟩ := hk
        cases hu
        simp [waitCode] at hmem'
      · obtain ⟨u, c', hu, hmem', rfl⟩ := hk
        cases hu
        obtain rfl : c' = c := by simpa [waitCode] using hmem'
        rw [hdone] at hw
        rw [Machine.accessed, hentry, if_pos rfl, (blpop_waits hw).2]
        rintro ⟨x, xs, hx⟩
        cases hx

omit [F64 S] [SerdeJson J] in
theorem Alert.release (h : Alert m) (hlocked : Locked m) {shard : Fin Host.numShards}
    {env : Lua.CurrentRequestEnv (Sessions (Value S J)) S} {node : LuaCacheNode (Value S J)}
    (hi : m.clients i = .script (.committing []) env) (hn : env.sessions.lookup shard = some node)
    (hclients : m'.clients = Function.update m.clients i
      (.script (.committing []) { env with sessions := env.sessions.erase shard }))
    (hqueues : m'.queues = m.queues) (hchannels : m'.channels = m.channels)
    (hshards : m'.db.shards = Function.update m.db.shards shard node.dbStore.guard.shard) : Alert m' := by
  have hawaited (k : Str) : Awaited m' k ↔ Awaited m k := by
    rw [Awaited, Awaited, hqueues, hchannels]
  have hentry (k : Str) (hk : Host.shardIndex k ≠ shard) : m'.db.entry k = m.db.entry k := by
    rw [Db.entry, Db.entry, hshards, Function.update_of_ne hk]
  have hhushed : Hushed (Awaited m) (fun k => Host.shardIndex k ∉ ([] : List (Fin Host.numShards)))
      env.sessions := by
    have hscript := h.scripts i
    rw [hi] at hscript
    exact hscript
  have hlists : ∀ j t, m'.clients j = .running t → t.Lists :=
    running_update h.lists hclients (by rintro t ⟨⟩)
  refine ⟨hlists, fun k hk => ?_, fun j k hj => ?_, fun j k hj => ?_, ?_⟩
  · rw [hawaited] at hk
    by_cases hshard : Host.shardIndex k = shard
    · have hbase := hhushed.base k node (hshard ▸ hn) hk
      obtain ⟨g, hg⟩ := hhushed.writes shard node hn
      rw [Db.entry, hshards, hshard, Function.update_self]
      rw [nodeCell, hg] at hbase
      rw [hg]
      exact within_unstocked.mp hbase
    · rw [hentry k hshard]
      exact h.awaited k hk
  · rw [hawaited]
    rw [hclients, Function.update_apply] at hj
    split at hj
    · obtain ⟨t, -, -, ht, -⟩ := hj
      cases ht
    · exact h.pushing j k hj
  · rw [hclients, Function.update_apply] at hj
    split at hj
    · obtain ⟨t, -, ht, -⟩ := hj
      cases ht
    · next hne =>
        rw [hentry k]
        · exact h.registering j k hj
        · intro hshard
          refine hne (hlocked.unique (h.holds hj) ?_)
          rw [hi, hshard]
          exact Finmap.mem_of_lookup_eq_some hn
  · refine hushed_update h.scripts hclients (fun k => (hawaited k).mp) ?_
    exact Hushed.mono (hhushed.erase shard) (fun k _ => (hawaited k).mp) (fun _ _ hp => hp)

omit [F64 S] [SerdeJson J] in
theorem Alert.offerNone (h : Alert m) {t : Task S J} {key : Str} {item : Bytes} {code : List (Instr S J)}
    (ht : m.clients i = .running t) (hc : t.code = .offer key item :: code) (hq : m.queues key = []) :
    Alert (m.run i { t with valuesToPush := t.valuesToPush ++ [item] } code) := by
  have hcode : code <:+ t.code := by
    rw [hc]
    exact List.suffix_cons _ _
  obtain ⟨rt, c, -, rfl, hsuffix⟩ := (h.lists i t ht).offer (by rw [hc]; exact List.mem_cons_self)
  refine h.calm rfl ?_ (fun _ hk => hk) (fun _ hk => hk) (fun k hk => .inr ?_) (fun k hk => .inl ?_) trivial
  · rintro u ⟨⟩
    exact (h.lists i t ht).tail rfl hcode
  · obtain ⟨u, rt', c', hu, hmem, rfl, -⟩ := hk
    cases hu
    obtain ⟨rfl, rfl⟩ : rt' = rt ∧ c' = c := by
      simpa using mem_lpushCode.mp (hsuffix.subset (hcode.subset hmem))
    rintro ⟨n, hn, -⟩
    change n ∈ m.queues c'.key at hn
    rw [hq] at hn
    cases hn
  · obtain ⟨u, c', hu, hmem, hkey⟩ := hk
    cases hu
    exact ⟨t, c', ht, hcode.subset hmem, hkey⟩

omit [DecidableEq I] [F64 S] [SerdeJson J] in
theorem mem_pop {n n' : Nat} {key k : Str} {queue : List Nat} (hq : m.queues key = n :: queue)
    (h : n' ∈ Function.update m.queues key queue k) : n' ∈ m.queues k := by
  rw [Function.update_apply] at h
  split at h
  · next hk =>
      rw [hk, hq]
      exact List.mem_cons_of_mem n h
  · exact h

def Ticketed (m : Machine I S J) : Prop := ∀ k, ∀ n ∈ m.queues k, n < m.tickets

theorem Ticketed.step (h : Ticketed m) {l : Label I S} (hs : Step m l m') : Ticketed m' := by
  cases hs with
  | offerSent ht hc hq | offerGone ht hc hq => exact fun k n hn => h k n (mem_pop hq hn)
  | @register i t c code ht hc =>
      intro k n hn
      change n ∈ Function.update m.queues c.key (m.queues c.key ++ [m.tickets]) k at hn
      rw [Function.update_apply] at hn
      split at hn
      · rcases List.mem_append.mp hn with hn | hn
        · exact Nat.lt_succ_of_lt (h _ n hn)
        · rw [List.mem_singleton.mp hn]
          exact Nat.lt_succ_self _
      · exact Nat.lt_succ_of_lt (h k n hn)
  | start | lockShard | access | unlockShard | sendAof | lockQueues | offerNone | unlockQueues | push | check
  | await | finish | receive | elapse | drop | tick | eval | lockScript | call | succeed | fail | commit
  | release | endScript => exact h

theorem Alert.step (h : Alert m) (hlocked : Locked m) (htickets : Ticketed m) {l : Label I S}
    (hl : Attentive m l) (hs : Step m l m') : Alert m' := by
  cases hs with
  | start hidle hp =>
      refine h.plain rfl ?_ ?_ ?_ trivial (fun _ hk => hk) rfl
      · rintro u ⟨⟩
        exact program_lists hl hp
      · rintro k ⟨u, rt, c, hu, -, -, hne⟩
        cases hu
        exact hne rfl
      · rintro k ⟨u, c, hu, hmem, -⟩
        cases hu
        have hw := ((program_lists hl hp).register hmem).2.2
        rw [(program_guarded hp).2] at hw
        cases hw
  | lockShard ht hc | unlockShard ht hc | sendAof ht hc | lockQueues ht hc | unlockQueues ht hc =>
      refine h.go ht rfl rfl ?_ rfl (fun _ hk => hk) (fun _ hk => hk)
      rw [hc]
      exact List.suffix_cons _ _
  | access ht hc =>
      obtain ⟨c, -, rfl, rfl⟩ := (h.lists _ _ ht).access (by rw [hc]; exact List.mem_cons_self)
      refine h.go ht rfl rfl ?_ rfl (fun _ hk => hk) (stocked_access (fun _ he => lpop_stocked he) rfl)
      rw [hc]
      exact List.suffix_cons _ _
  | offerNone ht hc hq => exact h.offerNone ht hc hq
  | offerSent ht hc hq hn =>
      refine h.go ht rfl rfl ?_ rfl (fun k hk => ?_) (fun _ hk => hk)
      · rw [hc]
        exact List.suffix_cons _ _
      · obtain ⟨n', hmem, hn'⟩ := hk
        refine ⟨n', mem_pop hq hmem, ?_⟩
        change Function.update m.channels _ _ n' = _ at hn'
        rw [Function.update_apply] at hn'
        split at hn'
        · cases hn'
        · exact hn'
  | @offerGone i t key item code n queue ht hc hq hn =>
      have hawaited (k : Str) (hk : Awaited { m with queues := Function.update m.queues key queue } k) :
          Awaited m k :=
        hk.imp (fun n' hn' => ⟨mem_pop hq hn'.1, hn'.2⟩)
      exact ⟨h.lists, fun k hk => h.awaited k (hawaited k hk), fun j k hj hk => h.pushing j k hj (hawaited k hk),
        h.registering, fun j => (h.scripts j).mono (fun k _ => hawaited k)⟩
  | push ht hc => exact h.push hlocked ht hc
  | check ht hc => exact h.check ht hc
  | @register i t c code ht hc =>
      refine h.register hlocked (hl t c code ht hc) ht hc rfl rfl (fun k hk ha => ?_)
      obtain ⟨n, hmem, hn⟩ := ha
      change n ∈ Function.update m.queues c.key _ k at hmem
      rw [Function.update_of_ne hk] at hmem
      refine ⟨n, hmem, ?_⟩
      change Function.update m.channels m.tickets _ n = _ at hn
      rwa [Function.update_of_ne (htickets k n hmem).ne] at hn
  | await ht hc | finish ht hc | elapse ht | endScript ht =>
      exact h.leave rfl (by rintro t ⟨⟩) trivial (fun _ hk => hk) rfl
  | eval ht => exact h.leave rfl (by rintro t ⟨⟩) hushed_empty (fun _ hk => hk) rfl
  | @lockScript i shard shards env ht hfree =>
      have hscript := h.scripts i
      rw [ht] at hscript
      refine h.leave rfl (by rintro t ⟨⟩) (Hushed.lock hscript shard _ fun k hk hawaited => ?_) (fun _ hk => hk) rfl
      rw [← hk]
      exact h.awaited k hawaited
  | @call i env rt c ht =>
      have hscript := h.scripts i
      rw [ht] at hscript
      exact h.leave rfl (by rintro t ⟨⟩) (Hushed.redisCall hscript _ c) (fun _ hk => hk) rfl
  | @succeed i env shards ht hs =>
      have hscript := h.scripts i
      rw [ht] at hscript
      refine h.leave rfl (by rintro t ⟨⟩) ?_ (fun _ hk => hk) rfl
      exact Hushed.mono hscript (fun _ _ hk => hk) (fun k hk _ hp => hl _ env ht k hp hk)
  | @fail i env ht =>
      have hscript := h.scripts i
      rw [ht] at hscript
      refine h.leave rfl (by rintro t ⟨⟩) ?_ (fun _ hk => hk) rfl
      exact Hushed.mono hscript (fun _ _ hk => hk) (fun k _ hp => absurd (List.not_mem_nil) hp)
  | @commit i shard shards env node drained ht hn hd =>
      have hscript := h.scripts i
      rw [ht] at hscript
      exact h.leave rfl (by rintro t ⟨⟩) (Hushed.commit hscript hn hd) (fun _ hk => hk) rfl
  | receive ht hn =>
      refine h.plain rfl ?_ ?_ ?_ trivial (awaited_close (by rintro ⟨⟩) rfl rfl) rfl
      · rintro u ⟨⟩
        exact .blpop _ rfl ⟨[_, _, _], rfl⟩
      · rintro k ⟨u, rt, c, hu, -, -, hne⟩
        cases hu
        exact hne rfl
      · rintro k ⟨u, c, hu, hmem, -⟩
        cases hu
        simp at hmem
  | drop ht => exact h.leave rfl (by rintro t ⟨⟩) trivial (awaited_close (by rintro ⟨⟩) rfl rfl) rfl
  | tick => exact ⟨h.lists, h.awaited, h.pushing, h.registering, h.scripts⟩
  | release ht hn => exact h.release hlocked ht hn rfl rfl rfl rfl

omit [DecidableEq I] [F64 S] [SerdeJson J] in
theorem AtRest.alert (h : AtRest m) : Alert m := by
  refine ⟨fun i t ht => absurd ht (h.not_running i t), ?_, ?_, ?_, fun i => ?_⟩
  · rintro k ⟨n, hn, -⟩
    rw [h.queues] at hn
    cases hn
  · rintro i k ⟨t, -, -, ht, -⟩
    exact absurd ht (h.not_running i t)
  · rintro i k ⟨t, -, ht, -⟩
    exact absurd ht (h.not_running i t)
  · rw [h.idle]
    trivial

/-- Nobody sleeps on a list with elements. -/
theorem nobody_sleeps (h : AtRest m) (hrun : Reaches Step Attentive m m') (k : Str) :
    ¬ (Stocked (m'.db.entry k) ∧ Awaited m' k) := by
  have hstart : Alert m ∧ Locked m ∧ Ticketed m := by
    refine ⟨h.alert, h.locked, fun k n hn => ?_⟩
    rw [h.queues] at hn
    cases hn
  have hinv : Alert m' ∧ Locked m' ∧ Ticketed m' := by
    refine hrun.invariant (I := fun m => Alert m ∧ Locked m ∧ Ticketed m) (fun m₁ l m₂ hm hl hs => ?_) hstart
    obtain ⟨halert, hlocked, htickets⟩ := hm
    exact ⟨halert.step hlocked htickets hl hs, hlocked.step hs, htickets.step hs⟩
  rintro ⟨hs, ha⟩
  exact hinv.1.awaited k ha hs

/-- Steps of list commands and of scripts, in any order. -/
def OnLists (_ : Machine I S J) : Label I S → Prop
  | .start _ c => OnList c
  | _ => True

end Machines

section Sample

attribute [local instance] singleShard wholeScore flatJson

/-- BLPOP k 0. -/
def sampleWait : BLPopCommand := ⟨sampleKey, 0⟩

theorem attentive_go {m : Machine (Fin 2) UInt64 Str} {i : Fin 2} {t : Task UInt64 Str}
    (ht : m.clients i = .running t) (hx : ∀ c, t.code.head? ≠ some (.register c)) : Attentive m (.go i) := by
  intro u c code hu hc
  rw [ht] at hu
  cases hu
  exact absurd (by rw [hc]; rfl) (hx c)

theorem nobody_pushes {m : Machine (Fin 2) UInt64 Str} {t u : Task UInt64 Str}
    (h0 : m.clients 0 = .running t) (h1 : m.clients 1 = .running u) (ht : t.valuesToPush = [])
    (hu : u.valuesToPush = []) (k : Str) (j : Fin 2) : ¬ (m.clients j).Pushing k := by
  rintro ⟨v, rt, c, hv, -, -, hne⟩
  match j with
  | 0 =>
      rw [h0] at hv
      cases hv
      exact hne ht
  | 1 =>
      rw [h1] at hv
      cases hv
      exact hne hu

/-- LPUSH k a b. -/
def samplePair : LPushCommand := ⟨sampleKey, [ascii ['a'], ascii ['b']]⟩

/-- A BLPOP registers between the start of an LPUSH of two items and its look at the queue. It
gets the first, and the second goes to the list. -/
theorem nobody_sleeps_push : ∃ m', Reaches Step Attentive sampleMachine m' ∧
    m'.clients 1 = .waiting sampleWait 0 ∧ m'.channels 0 = .full (ascii ['a']) ∧
    Stocked (m'.db.entry sampleKey) ∧ ¬ (Stocked (m'.db.entry sampleKey) ∧ Awaited m' sampleKey) := by
  have h0 : Reaches Step Attentive sampleMachine sampleMachine := .refl
  have h1 := h0.next (e := .start 1 (.blpop sampleWait)) trivial
    (.start rfl (show program ⟨[], 0, 0⟩ 0 (Command.blpop sampleWait) = some (_, _) from rfl))
  have h2 := h1.next (e := .go 1) (attentive_go rfl (by rintro c ⟨⟩)) (.lockShard rfl rfl rfl)
  have h3 := h2.next (e := .start 0 (.lpush samplePair)) trivial
    (.start rfl (show program ⟨[], 0, 0⟩ 0 (Command.lpush samplePair) = some (_, _) from rfl))
  have h4 := h3.next (e := .go 1) (attentive_go rfl (by rintro c ⟨⟩)) (.check rfl rfl)
  have h5 := h4.next (e := .go 1) (attentive_go rfl (by rintro c ⟨⟩)) (.lockQueues rfl rfl rfl)
  have h6 := h5.next (e := .go 1) (fun _ c _ _ _ => nobody_pushes rfl rfl rfl rfl c.key) (.register rfl rfl)
  have h7 := h6.next (e := .go 1) (attentive_go rfl (by rintro c ⟨⟩)) (.unlockQueues rfl rfl)
  have h8 := h7.next (e := .go 0) (attentive_go rfl (by rintro c ⟨⟩)) (.lockQueues rfl rfl rfl)
  have h9 := h8.next (e := .go 1) (attentive_go rfl (by rintro c ⟨⟩)) (.unlockShard rfl rfl)
  have h10 := h9.next (e := .go 0) (attentive_go rfl (by rintro c ⟨⟩)) (.offerSent rfl rfl rfl rfl)
  have h11 := h10.next (e := .go 0) (attentive_go rfl (by rintro c ⟨⟩)) (.offerNone rfl rfl rfl)
  have h12 := h11.next (e := .go 1) (attentive_go rfl (by rintro c ⟨⟩)) (.await rfl rfl)
  have h13 := h12.next (e := .go 0) (attentive_go rfl (by rintro c ⟨⟩)) (.unlockQueues rfl rfl)
  have h14 := h13.next (e := .go 0) (attentive_go rfl (by rintro c ⟨⟩)) (.lockShard rfl rfl rfl)
  have h15 := h14.next (e := .go 0) (attentive_go rfl (by rintro c ⟨⟩)) (.push rfl rfl)
  exact ⟨_, h15, rfl, rfl, ⟨_, _, rfl⟩, nobody_sleeps sampleMachine_atRest h15 sampleKey⟩

/-- The BLPOP registers between the two halves of the LPUSH and goes to sleep. -/
theorem sleeper_missed : AtRest sampleMachine ∧ ∃ m', Reaches Step OnLists sampleMachine m' ∧
    m'.clients 0 = .idle ∧ m'.clients 1 = .waiting sampleWait 0 ∧
    Stocked (m'.db.entry sampleKey) ∧ Awaited m' sampleKey := by
  refine ⟨sampleMachine_atRest, ?_⟩
  have h0 : Reaches Step OnLists sampleMachine sampleMachine := .refl
  have h1 := h0.next (e := .start 0 (.lpush samplePush)) trivial
    (.start rfl (show program ⟨[], 0, 0⟩ 0 (Command.lpush samplePush) = some (_, _) from rfl))
  have h2 := h1.next (e := .go 0) trivial (.lockQueues rfl rfl rfl)
  have h3 := h2.next (e := .go 0) trivial (.offerNone rfl rfl rfl)
  have h4 := h3.next (e := .go 0) trivial (.unlockQueues rfl rfl)
  have h5 := h4.next (e := .start 1 (.blpop sampleWait)) trivial
    (.start rfl (show program ⟨[], 0, 0⟩ 0 (Command.blpop sampleWait) = some (_, _) from rfl))
  have h6 := h5.next (e := .go 1) trivial (.lockShard rfl rfl rfl)
  have h7 := h6.next (e := .go 1) trivial (.check rfl rfl)
  have h8 := h7.next (e := .go 1) trivial (.lockQueues rfl rfl rfl)
  have h9 := h8.next (e := .go 1) trivial (.register rfl rfl)
  have h10 := h9.next (e := .go 1) trivial (.unlockQueues rfl rfl)
  have h11 := h10.next (e := .go 1) trivial (.unlockShard rfl rfl)
  have h12 := h11.next (e := .go 1) trivial (.await rfl rfl)
  have h13 := h12.next (e := .go 0) trivial (.lockShard rfl rfl rfl)
  have h14 := h13.next (e := .go 0) trivial (.push rfl rfl)
  have h15 := h14.next (e := .go 0) trivial (.unlockShard rfl rfl)
  have h16 := h15.next (e := .go 0) trivial (.sendAof rfl rfl)
  have h17 := h16.next (e := .go 0) trivial (.finish rfl rfl)
  exact ⟨_, h17, rfl, rfl, ⟨_, _, rfl⟩, 0, List.mem_singleton.mpr rfl, rfl⟩

end Sample

end RustKv.Clients
