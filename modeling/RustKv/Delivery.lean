import Mathlib.Algebra.BigOperators.Group.Finset.Basic
import RustKv.Receivers

namespace RustKv.Clients

open Runs Text Protocol Domain CacheStore Zset RustKv.Types Executor AofEncoder

section Carried

variable {S J : Type}

/-- The items that an LPUSH will push when it finds no more waiting clients. -/
def carried (values : List Bytes) : List (Instr S J) → List Bytes
  | [] => []
  | .push _ _ :: _ => values
  | .offer _ item :: code => carried (values ++ [item]) code
  | _ :: code => carried values code

theorem carried_offers (key : Str) (items values : List Bytes) (code : List (Instr S J)) :
    carried values (items.map (.offer key) ++ code) = carried (values ++ items) code := by
  induction items generalizing values with
  | nil => rw [List.append_nil]; rfl
  | cons item items ih =>
      refine (ih _).trans ?_
      rw [List.append_assoc]
      rfl

theorem carried_eq {rt : Runtime} {c : LPushCommand} {code : List (Instr S J)} (h : .push rt c ∈ code) :
    ∃ rest, ∀ values, carried values code = values ++ rest := by
  induction code with
  | nil => cases h
  | cons x code ih =>
      cases x with
      | push rt' c' => exact ⟨[], fun values => (List.append_nil values).symm⟩
      | offer key item =>
          obtain ⟨rest, hrest⟩ := ih (by simpa using h)
          refine ⟨item :: rest, fun values => (hrest _).trans ?_⟩
          rw [List.append_assoc]
          rfl
      | lockShard | access | unlockShard | sendAof | lockQueues | unlockQueues | check | register | await =>
          exact ih (by simpa using h)

theorem carried_append {rt : Runtime} {c : LPushCommand} {code : List (Instr S J)}
    (h : .push rt c ∈ code) (values : List Bytes) (item : Bytes) :
    (↑(carried (values ++ [item]) code) : Multiset Bytes) = {item} + ↑(carried values code) := by
  obtain ⟨rest, hrest⟩ := carried_eq h
  simp only [hrest, ← Multiset.coe_add, Multiset.coe_singleton]
  rw [add_right_comm, add_comm]

theorem push_of_offer {rt : Runtime} {c : LPushCommand} {key : Str} {item : Bytes} {code : List (Instr S J)}
    (h : .offer key item :: code <:+ lpushCode rt c) : .push rt c ∈ code := by
  have hsuffix : pushCode rt c <:+ lpushCode (S := S) (J := J) rt c := List.suffix_append _ _
  rcases List.suffix_or_suffix_of_suffix h hsuffix with hs | hs
  · simpa [pushCode] using hs.subset List.mem_cons_self
  · rcases List.suffix_cons_iff.mp hs with hs | hs
    · cases hs
    · exact hs.subset (by simp [pushCode])

/-- What a task has taken from the list of the key and not replied with, or has not
pushed to it yet. -/
def Task.carries (k : Str) (t : Task S J) : Multiset Bytes :=
  match t.command with
  | .lpush c => if c.key = k then ↑(carried t.valuesToPush t.code) else 0
  | c => received k c t.done.reply

theorem received_null (k : Str) (c : Command S) : received k c (.ok .null) = 0 := by
  cases c <;> rfl

theorem received_lpop_ne {k : Str} {c : LPopCommand} (h : c.key ≠ k) (reply : Except KvError Frame) :
    received k (Command.lpop (S := S) c) reply = 0 := by
  rcases reply with e | frame
  · rfl
  · cases frame <;> simp [received, h]

theorem received_blpop_ne {k : Str} {c : BLPopCommand} (h : c.key ≠ k) (reply : Except KvError Frame) :
    received k (Command.blpop (S := S) c) reply = 0 := by
  unfold received
  split <;> simp_all

theorem Task.carries_congr {t t' : Task S J} (k : Str) (hcommand : t'.command = t.command)
    (hreply : t'.done.reply = t.done.reply)
    (hcarried : carried t'.valuesToPush t'.code = carried t.valuesToPush t.code) :
    t'.carries k = t.carries k := by
  rw [Task.carries, Task.carries, hcommand, hreply, hcarried]

theorem Task.carries_over {t : Task S J} (k : Str) (h : t.code = []) :
    t.carries k = received k t.command t.done.reply := by
  unfold Task.carries
  rw [h]
  cases t.command with
  | lpush c => simp [carried, received]
  | _ => rfl

variable [Host]

def Client.carries (k : Str) : Client S J → Multiset Bytes
  | .running t => t.carries k
  | _ => 0

def Client.given (k : Str) : Client S J → Multiset Bytes
  | .running t => Clients.given k t.command
  | _ => 0

def Channel.items : Channel → Multiset Bytes
  | .full item => {item}
  | _ => 0

omit [Host] in
@[simp]
theorem Channel.items_pending : Channel.pending.items = 0 := rfl

omit [Host] in
@[simp]
theorem Channel.items_full (item : Bytes) : (Channel.full item).items = {item} := rfl

omit [Host] in
@[simp]
theorem Channel.items_closed : Channel.closed.items = 0 := rfl

end Carried

section Machines

variable {I S J : Type} [Host] {m m' : Machine I S J} {i : I} {x : Client S J} {k : Str}

/-- The items on their way to waiting clients. -/
def inFlight (k : Str) (m : Machine I S J) : Multiset Bytes :=
  ∑ n ∈ Finset.range m.tickets, if m.channelKeys n = k then (m.channels n).items else 0

/-- The items that replies have brought from the list of the key. -/
def delivered (k : Str) (m : Machine I S J) : Multiset Bytes :=
  (m.replies.map (fun r => received k r.2.1 r.2.2)).sum

/-- The items of the LPUSH commands that have ended. -/
def pushed (k : Str) (m : Machine I S J) : Multiset Bytes := (m.replies.map (fun r => given k r.2.1)).sum

variable [Fintype I]

/-- Every item of the key is in one place. -/
def Balanced (k : Str) (start : Multiset Bytes) (m : Machine I S J) : Prop :=
  items (m.db.entry k) + delivered k m + inFlight k m + ∑ i, (m.clients i).carries k =
    start + pushed k m + ∑ i, (m.clients i).given k

omit [Fintype I] in
theorem inFlight_update {n : Nat} {c : Channel} (hn : n < m.tickets) (htickets : m'.tickets = m.tickets)
    (hkeys : m'.channelKeys = m.channelKeys) (hchannels : m'.channels = Function.update m.channels n c) :
    (if m.channelKeys n = k then (m.channels n).items else 0) + inFlight k m' =
      (if m.channelKeys n = k then c.items else 0) + inFlight k m := by
  have hmem : n ∈ Finset.range m.tickets := Finset.mem_range.mpr hn
  have hrest : ∑ n' ∈ (Finset.range m.tickets).erase n,
        (if m.channelKeys n' = k then (Function.update m.channels n c n').items else 0) =
      ∑ n' ∈ (Finset.range m.tickets).erase n, (if m.channelKeys n' = k then (m.channels n').items else 0) := by
    refine Finset.sum_congr rfl (fun n' hn' => ?_)
    rw [Function.update_of_ne (Finset.ne_of_mem_erase hn')]
  rw [inFlight, inFlight, htickets, hkeys, hchannels, ← Finset.add_sum_erase _ _ hmem,
    ← Finset.add_sum_erase _ (fun n' => if m.channelKeys n' = k then (m.channels n').items else 0) hmem,
    Function.update_self, hrest, add_left_comm]

omit [Fintype I] in
theorem inFlight_register (key : Str) (htickets : m'.tickets = m.tickets + 1)
    (hkeys : m'.channelKeys = Function.update m.channelKeys m.tickets key)
    (hchannels : m'.channels = Function.update m.channels m.tickets .pending) : inFlight k m' = inFlight k m := by
  rw [inFlight, inFlight, htickets, Finset.sum_range_succ, hkeys, hchannels, Function.update_self,
    Function.update_self, Channel.items_pending, ite_self, add_zero]
  refine Finset.sum_congr rfl (fun n hn => ?_)
  have hne : n ≠ m.tickets := (Finset.mem_range.mp hn).ne
  rw [Function.update_of_ne hne, Function.update_of_ne hne]

omit [Fintype I] in
theorem inFlight_close {n : Nat} (hn : (m.channels n).items = 0) (htickets : m'.tickets = m.tickets)
    (hkeys : m'.channelKeys = m.channelKeys) (hchannels : m'.channels = Function.update m.channels n .closed) :
    inFlight k m' = inFlight k m := by
  rw [inFlight, inFlight, htickets, hkeys, hchannels]
  refine Finset.sum_congr rfl (fun n' _ => ?_)
  by_cases heq : n' = n
  · rw [heq, Function.update_self, hn]
    rfl
  · rw [Function.update_of_ne heq]

variable [DecidableEq I]

theorem sum_update (f : Client S J → Multiset Bytes) (clients : I → Client S J) (i : I) (x : Client S J) :
    f (clients i) + ∑ j, f (Function.update clients i x j) = f x + ∑ j, f (clients j) := by
  rw [← Finset.add_sum_erase _ (fun j => f (clients j)) (Finset.mem_univ i),
    ← Finset.add_sum_erase _ (fun j => f (Function.update clients i x j)) (Finset.mem_univ i),
    Function.update_self]
  have hrest : ∑ j ∈ Finset.univ.erase i, f (Function.update clients i x j) =
      ∑ j ∈ Finset.univ.erase i, f (clients j) := by
    refine Finset.sum_congr rfl (fun j hj => ?_)
    rw [Function.update_of_ne (Finset.ne_of_mem_erase hj)]
  rw [hrest, add_left_comm]

/-- A step of one client keeps the balance when it does so for what the client has. -/
theorem Balanced.update {start : Multiset Bytes} (h : Balanced k start m)
    (hclients : m'.clients = Function.update m.clients i x)
    (hlocal : items (m'.db.entry k) + delivered k m' + inFlight k m' + x.carries k +
        (pushed k m + (m.clients i).given k) =
      items (m.db.entry k) + delivered k m + inFlight k m + (m.clients i).carries k +
        (pushed k m' + x.given k)) : Balanced k start m' := by
  have hcarries := sum_update (fun y => y.carries k) m.clients i x
  have hgiven := sum_update (fun y => y.given k) m.clients i x
  rw [← hclients] at hcarries hgiven
  refine Multiset.ext.mpr (fun v => ?_)
  have h1 := congrArg (Multiset.count v) h
  have h2 := congrArg (Multiset.count v) hlocal
  have h3 := congrArg (Multiset.count v) hcarries
  have h4 := congrArg (Multiset.count v) hgiven
  simp only [Multiset.count_add] at h1 h2 h3 h4 ⊢
  omega

theorem Balanced.pass {start : Multiset Bytes} (h : Balanced k start m)
    (hclients : m'.clients = Function.update m.clients i x) (hreplies : m'.replies = m.replies)
    (hpass : items (m'.db.entry k) + inFlight k m' + x.carries k =
      items (m.db.entry k) + inFlight k m + (m.clients i).carries k)
    (hgiven : x.given k = (m.clients i).given k) : Balanced k start m' := by
  have hdelivered : delivered k m' = delivered k m := by rw [delivered, delivered, hreplies]
  have hpushed : pushed k m' = pushed k m := by rw [pushed, pushed, hreplies]
  refine h.update hclients ?_
  rw [hdelivered, hpushed, hgiven]
  refine congrArg (· + _) ?_
  calc items (m'.db.entry k) + delivered k m + inFlight k m' + x.carries k
      = items (m'.db.entry k) + inFlight k m' + x.carries k + delivered k m := by ac_rfl
    _ = items (m.db.entry k) + inFlight k m + (m.clients i).carries k + delivered k m := by rw [hpass]
    _ = items (m.db.entry k) + delivered k m + inFlight k m + (m.clients i).carries k := by ac_rfl

omit [Fintype I] in
theorem items_accessed (t : Task S J) (code : List (Instr S J)) {key : Str} (a : Access S (Value S J))
    (hk : key ≠ k) : items ((m.accessed i t code key a).db.entry k) = items (m.db.entry k) := by
  rw [Machine.accessed, (m.db.access_spec m.now key a).2, if_neg hk.symm]

theorem Balanced.push {start : Multiset Bytes} (h : Balanced k start m) (hp : Posted k m) {t : Task S J}
    {rt : Runtime} {c : LPushCommand} {code : List (Instr S J)} (ht : m.clients i = .running t)
    (hc : t.code = .push rt c :: code) :
    Balanced k start (m.accessed i t code c.key (lpushAccess rt c t.valuesToPush)) := by
  obtain ⟨hcommand, hs⟩ := (hp.lists i t ht).push (by rw [hc]; exact List.mem_cons_self)
  rw [hc] at hs
  refine h.pass rfl rfl ?_ (by rw [ht]; rfl)
  rw [ht]
  simp only [Client.carries, Task.carries, hcommand, hc, carried, code_after_push hs]
  by_cases hkey : c.key = k
  · subst hkey
    obtain ⟨-, hitems⟩ := lpush_items hp.plain m.now rt c t.valuesToPush
    rw [Machine.accessed, (m.db.access_spec m.now c.key _).2, if_pos rfl, hitems]
    simp only [if_true, Multiset.coe_nil, add_zero]
    rw [add_comm (↑t.valuesToPush : Multiset Bytes), add_right_comm]
    rfl
  · rw [items_accessed _ _ _ hkey, if_neg hkey, if_neg hkey]
    rfl

theorem Balanced.lpop {start : Multiset Bytes} (h : Balanced k start m) (hp : Posted k m) {t : Task S J}
    {c : LPopCommand} {code : List (Instr S J)} (ht : m.clients i = .running t)
    (hcommand : t.command = .lpop c) (hc : t.code = .access c.key (.take (lpopTaken c)) :: code) :
    Balanced k start (m.accessed i t code c.key (.take (lpopTaken c))) := by
  have hreply := hp.early i t ht (.access c.key (.take (lpopTaken c)))
    (by rw [hc]; exact List.mem_cons_self) trivial
  refine h.pass rfl rfl ?_ (by rw [ht]; rfl)
  rw [ht]
  simp only [Client.carries, Task.carries, hcommand, hreply, received_null]
  by_cases hkey : c.key = k
  · subst hkey
    obtain ⟨hdone, hentry⟩ := m.db.access_spec m.now c.key (.take (lpopTaken c) : Access S _)
    obtain ⟨-, hitems⟩ := lpop_items hp.plain m.now c
    rw [Machine.accessed, hdone, hentry, if_pos rfl, hitems, add_zero, add_right_comm,
      add_comm (items ((Access.take (lpopTaken c) : Access S _).onCell m.now (m.db.entry c.key)).2)]
    rfl
  · rw [items_accessed _ _ _ hkey, received_lpop_ne hkey]
    rfl

theorem Balanced.blpop {start : Multiset Bytes} (h : Balanced k start m) (hp : Posted k m) {t : Task S J}
    {c : BLPopCommand} {code : List (Instr S J)} (ht : m.clients i = .running t)
    (hc : t.code = .check c :: code) (code' : List (Instr S J)) :
    Balanced k start (m.accessed i t code' c.key (.take (blpopTaken c))) := by
  have hmem : Instr.check c ∈ t.code := by
    rw [hc]
    exact List.mem_cons_self
  have hreply := hp.early i t ht _ hmem trivial
  have hcommand := ((hp.lists i t ht).check hmem).1
  refine h.pass rfl rfl ?_ (by rw [ht]; rfl)
  rw [ht]
  simp only [Client.carries, Task.carries, hcommand, hreply, received_null]
  by_cases hkey : c.key = k
  · subst hkey
    obtain ⟨hdone, hentry⟩ := m.db.access_spec m.now c.key (.take (blpopTaken c) : Access S _)
    obtain ⟨-, hitems⟩ := blpop_items hp.plain m.now c
    rw [Machine.accessed, hdone, hentry, if_pos rfl, hitems, add_zero, add_right_comm,
      add_comm (items ((Access.take (blpopTaken c) : Access S _).onCell m.now (m.db.entry c.key)).2)]
    rfl
  · rw [items_accessed _ _ _ hkey, received_blpop_ne hkey]
    rfl

theorem Balanced.quiet {start : Multiset Bytes} (h : Balanced k start m) {t t' : Task S J}
    (ht : m.clients i = .running t) (hclients : m'.clients = Function.update m.clients i (.running t'))
    (hdb : m'.db = m.db) (hflight : inFlight k m' = inFlight k m) (hreplies : m'.replies = m.replies)
    (hcommand : t'.command = t.command) (hcarries : t'.carries k = t.carries k) : Balanced k start m' := by
  refine h.pass hclients hreplies ?_ ?_
  · rw [ht, hdb, hflight]
    exact congrArg (_ + ·) hcarries
  · rw [ht]
    exact congrArg (Clients.given k) hcommand

theorem Balanced.send {start : Multiset Bytes} (h : Balanced k start m) (hp : Posted k m) {t : Task S J}
    {key : Str} {item : Bytes} {code : List (Instr S J)} {n : Nat} {queue : List Nat}
    (ht : m.clients i = .running t) (hc : t.code = .offer key item :: code) (hq : m.queues key = n :: queue)
    (hn : m.channels n = .pending)
    (hclients : m'.clients = Function.update m.clients i (.running { t with code := code }))
    (hdb : m'.db = m.db) (htickets : m'.tickets = m.tickets) (hkeys : m'.channelKeys = m.channelKeys)
    (hchannels : m'.channels = Function.update m.channels n (.full item)) (hreplies : m'.replies = m.replies) :
    Balanced k start m' := by
  obtain ⟨rt, c, hcommand, rfl, hs⟩ := (hp.lists i t ht).offer (by rw [hc]; exact List.mem_cons_self)
  rw [hc] at hs
  obtain ⟨hlt, hkey⟩ := hp.queues c.key n (by rw [hq]; exact List.mem_cons_self)
  have hflight := inFlight_update (k := k) hlt htickets hkeys hchannels
  rw [hn, hkey] at hflight
  refine h.pass hclients hreplies ?_ (by rw [ht]; rfl)
  rw [ht, hdb]
  by_cases hk : c.key = k
  · rw [if_pos hk, if_pos hk, Channel.items_pending, Channel.items_full, zero_add] at hflight
    simp only [Client.carries, Task.carries, hcommand, hc, carried, if_pos hk,
      carried_append (push_of_offer hs), hflight]
    ac_rfl
  · rw [if_neg hk, if_neg hk, zero_add, zero_add] at hflight
    simp only [Client.carries, Task.carries, hcommand, if_neg hk, hflight]

theorem Balanced.receive {start : Multiset Bytes} (h : Balanced k start m) (hp : Posted k m)
    {c : BLPopCommand} {n : Nat} {item : Bytes} {t : Task S J} (ht : m.clients i = .waiting c n)
    (hn : m.channels n = .full item) (hcommand : t.command = .blpop c)
    (hreply : t.done.reply = .ok (.array [.bulk c.key.bytes, .bulk item]))
    (hclients : m'.clients = Function.update m.clients i (.running t))
    (hdb : m'.db = m.db) (htickets : m'.tickets = m.tickets) (hkeys : m'.channelKeys = m.channelKeys)
    (hchannels : m'.channels = Function.update m.channels n .closed) (hreplies : m'.replies = m.replies) :
    Balanced k start m' := by
  obtain ⟨hlt, hkey⟩ := hp.owns i n c (by rw [ht]; exact .waiting)
  have hflight := inFlight_update (k := k) hlt htickets hkeys hchannels
  rw [hn, hkey, Channel.items_full, Channel.items_closed, ite_self, zero_add] at hflight
  refine h.pass hclients hreplies ?_ ?_
  · rw [ht, hdb, ← hflight]
    simp only [Client.carries, Task.carries, hcommand, hreply, received, add_zero]
    ac_rfl
  · rw [ht]
    simp only [Client.given, hcommand, given]

theorem Balanced.reply {start : Multiset Bytes} (h : Balanced k start m) {c : Command S}
    {reply : Except KvError Frame} (hclients : m'.clients = Function.update m.clients i .idle)
    (hreplies : m'.replies = m.replies ++ [(i, c, reply)]) (hdb : m'.db = m.db)
    (hflight : inFlight k m' = inFlight k m) (hcarries : (m.clients i).carries k = received k c reply)
    (hgiven : (m.clients i).given k = given k c) : Balanced k start m' := by
  have hdelivered : delivered k m' = delivered k m + received k c reply := by
    simp [delivered, hreplies]
  have hpushed : pushed k m' = pushed k m + given k c := by
    simp [pushed, hreplies]
  refine h.update hclients ?_
  rw [hdelivered, hpushed, hdb, hflight, hcarries, hgiven]
  simp only [Client.carries, Client.given, add_zero]
  ac_rfl

omit [Fintype I] [DecidableEq I] in
theorem program_carries [F64 S] [SerdeJson J] {rt : Runtime} {now : Nat} {c : Command S}
    {code : List (Instr S J)} {done : Done S} (hc : OnList c) (hp : program rt now c = some (code, done)) :
    (⟨c, code, done, [], 0⟩ : Task S J).carries k = given k c := by
  cases c with
  | lpush c =>
      cases hp
      have hcarried : carried [] (lpushCode (S := S) (J := J) rt c) = c.values := carried_offers c.key c.values [] _
      exact congrArg (fun values : List Bytes => if c.key = k then (↑values : Multiset Bytes) else 0) hcarried
  | lpop c =>
      cases hp
      exact received_null k (.lpop (S := S) c)
  | blpop c =>
      cases hp
      exact received_null k (.blpop (S := S) c)
  | get | set | ping | unimplement | eval | hset | hget | hdel | mset | mget | multi | exec | multiGroup
  | jsonSet | jsonGet | zadd | zscore | zrank | zrange | zrem => exact hc.elim

theorem Balanced.step {start : Multiset Bytes} [F64 S] [SerdeJson J] (h : Balanced k start m)
    (hp : Posted k m) {l : Label I S} (hl : Caught m l) (hs : Step m l m') : Balanced k start m' := by
  cases hs with
  | @start i c rt code done hidle hc =>
      refine h.update rfl ?_
      rw [hidle]
      simp only [Client.carries, Client.given, program_carries hl hc, add_zero]
      rw [add_assoc, add_comm (given k c)]
      rfl
  | lockShard ht hc | unlockShard ht hc | sendAof ht hc | lockQueues ht hc | unlockQueues ht hc
  | offerNone ht hc =>
      exact h.quiet ht rfl rfl rfl rfl rfl (Task.carries_congr k rfl rfl (by rw [hc]; rfl))
  | access ht hc =>
      obtain ⟨c, hcommand, rfl, rfl⟩ := (hp.lists _ _ ht).access (by rw [hc]; exact List.mem_cons_self)
      exact h.lpop hp ht hcommand hc
  | push ht hc => exact h.push hp ht hc
  | check ht hc => exact h.blpop hp ht hc _
  | offerSent ht hc hq hn => exact h.send hp ht hc hq hn rfl rfl rfl rfl rfl rfl
  | offerGone | tick => exact h
  | @register i t c code ht hc =>
      refine h.quiet ht rfl rfl ?_ rfl rfl (Task.carries_congr k rfl rfl (by rw [hc]; rfl))
      exact inFlight_register c.key rfl rfl rfl
  | @await i t c code ht hc =>
      have hmem : Instr.await c ∈ t.code := by
        rw [hc]
        exact List.mem_cons_self
      obtain ⟨hcommand, -⟩ := (hp.lists i t ht).await hmem
      refine h.pass rfl rfl ?_ ?_
      · rw [ht]
        simp only [Client.carries, Task.carries, hcommand, hp.early i t ht _ hmem trivial, received_null]
        rfl
      · rw [ht]
        simp only [Client.given, hcommand, given]
  | finish ht hc =>
      refine h.reply rfl rfl rfl rfl ?_ ?_
      · rw [ht]
        exact Task.carries_over k hc
      · rw [ht]
        rfl
  | receive ht hn => exact h.receive hp ht hn rfl rfl rfl rfl rfl rfl rfl rfl
  | elapse ht hn =>
      refine h.pass rfl rfl ?_ ?_
      · rw [ht]
        rfl
      · rw [ht]
        rfl
  | @drop i c n ht =>
      refine h.reply rfl rfl rfl ?_ ?_ ?_
      · refine inFlight_close ?_ rfl rfl rfl
        have hfull := hp.elapsed i c n ht
        cases hn : m.channels n with
        | full item => exact absurd hn (hfull item)
        | pending | closed => rfl
      · rw [ht]
        rfl
      · rw [ht]
        rfl
  | eval | lockScript | call | succeed | fail | commit | release | endScript => exact hl.elim

/-- A server that has served nobody yet. -/
structure Fresh (m : Machine I S J) : Prop extends AtRest m where
  channels : ∀ n, m.channels n = .closed
  replies : m.replies = []

omit [Fintype I] [DecidableEq I] in
theorem Fresh.posted (h : Fresh m) (hplain : PlainList (m.db.entry k)) : Posted k m where
  lists i t ht := absurd ht (h.not_running i t)
  early i t ht := absurd ht (h.not_running i t)
  plain := hplain
  queues key n hn := by
    rw [h.queues] at hn
    cases hn
  owns i n c hi := by
    rw [h.idle] at hi
    cases hi
  owned n hn := absurd (h.channels n) hn
  elapsed i c n hi := by
    rw [h.idle] at hi
    cases hi

omit [Fintype I] [DecidableEq I] in
theorem inFlight_closed (h : ∀ n, m.channels n = .closed) : inFlight k m = 0 := by
  refine Finset.sum_eq_zero (fun n _ => ?_)
  rw [h, Channel.items_closed, ite_self]

omit [DecidableEq I] in
theorem sum_idle (f : Client S J → Multiset Bytes) (hf : f .idle = 0) (h : ∀ i, m.clients i = .idle) :
    ∑ i, f (m.clients i) = 0 := by
  refine Finset.sum_eq_zero (fun i _ => ?_)
  rw [h, hf]

omit [DecidableEq I] in
/-- With every client idle there is nothing between the list and the replies. -/
theorem balanced_iff {start : Multiset Bytes} (hidle : ∀ i, m.clients i = .idle)
    (hchannels : ∀ n, m.channels n = .closed) :
    Balanced k start m ↔ items (m.db.entry k) + delivered k m = start + pushed k m := by
  rw [Balanced, inFlight_closed hchannels, sum_idle (fun x => x.carries k) rfl hidle,
    sum_idle (fun x => x.given k) rfl hidle, add_zero, add_zero, add_zero]

omit [DecidableEq I] in
theorem Fresh.balanced (h : Fresh m) : Balanced k (items (m.db.entry k)) m := by
  rw [balanced_iff h.idle h.channels, delivered, pushed, h.replies]
  rfl

omit [Fintype I] [DecidableEq I] in
theorem Posted.closed (h : Posted k m) (hidle : ∀ i, m.clients i = .idle) (n : Nat) : m.channels n = .closed := by
  by_contra hn
  obtain ⟨i, c, hi⟩ := h.owned n hn
  rw [hidle] at hi
  cases hi

variable [F64 S] [SerdeJson J]

/-- Every item of an LPUSH is in the list or in one reply, when no item is sent to a
BLPOP that has given up and still has its receiver. -/
theorem delivered_once (h : Fresh m) (hplain : PlainList (m.db.entry k)) (hrun : Reaches Step Caught m m')
    (hidle : ∀ i, m'.clients i = .idle) :
    items (m'.db.entry k) + delivered k m' = items (m.db.entry k) + pushed k m' := by
  have hinv : Posted k m' ∧ Balanced k (items (m.db.entry k)) m' := by
    refine hrun.invariant (I := fun m₁ => Posted k m₁ ∧ Balanced k (items (m.db.entry k)) m₁)
      (fun m₁ l m₂ hm hl hs => ?_) ⟨h.posted hplain, h.balanced⟩
    exact ⟨hm.1.step hl hs, hm.2.step hm.1 hl hs⟩
  exact (balanced_iff hidle (hinv.1.closed hidle)).mp hinv.2

def Listing (_ : Machine I S J) : Label I S → Prop
  | .start _ c => OnList c
  | .go _ | .receive _ | .elapse _ | .drop _ | .tick _ => True
  | _ => False

end Machines

section Sample

attribute [local instance] singleShard wholeScore flatJson

theorem sampleMachine_fresh : Fresh sampleMachine := ⟨sampleMachine_atRest, fun _ => rfl, rfl⟩

theorem caught_go {m : Machine (Fin 2) UInt64 Str} {i : Fin 2} {t : Task UInt64 Str}
    (ht : m.clients i = .running t)
    (hx : (∀ key item, t.code.head? ≠ some (.offer key item)) ∨ ∀ j c n, m.clients j ≠ .elapsed c n) :
    Caught m (.go i) := by
  intro u key item code n queue hu hc _ j c
  rw [ht] at hu
  cases hu
  rcases hx with hx | hx
  · exact absurd (by rw [hc]; rfl) (hx key item)
  · exact hx j c n

/-- BLPOP k 0 waits, LPUSH k a serves it. -/
theorem delivered_once_wait : ∃ m', Reaches Step Caught sampleMachine m' ∧
    delivered sampleKey m' = {[97]} ∧ items (m'.db.entry sampleKey) + delivered sampleKey m' =
      items (sampleMachine.db.entry sampleKey) + pushed sampleKey m' := by
  have h0 : Reaches Step Caught sampleMachine sampleMachine := .refl
  have h1 := h0.next (e := .start 1 (.blpop sampleWait)) trivial
    (.start rfl (show program ⟨[], 0, 0⟩ 0 (Command.blpop sampleWait) = some (_, _) from rfl))
  have h2 := h1.next (e := .go 1) (caught_go rfl (.inl (by rintro _ _ ⟨⟩))) (.lockShard rfl rfl rfl)
  have h3 := h2.next (e := .go 1) (caught_go rfl (.inl (by rintro _ _ ⟨⟩))) (.check rfl rfl)
  have h4 := h3.next (e := .go 1) (caught_go rfl (.inl (by rintro _ _ ⟨⟩))) (.lockQueues rfl rfl rfl)
  have h5 := h4.next (e := .go 1) (caught_go rfl (.inl (by rintro _ _ ⟨⟩))) (.register rfl rfl)
  have h6 := h5.next (e := .go 1) (caught_go rfl (.inl (by rintro _ _ ⟨⟩))) (.unlockQueues rfl rfl)
  have h7 := h6.next (e := .go 1) (caught_go rfl (.inl (by rintro _ _ ⟨⟩))) (.unlockShard rfl rfl)
  have h8 := h7.next (e := .go 1) (caught_go rfl (.inl (by rintro _ _ ⟨⟩))) (.await rfl rfl)
  have h9 := h8.next (e := .start 0 (.lpush samplePush)) trivial
    (.start rfl (show program ⟨[], 0, 0⟩ 0 (Command.lpush samplePush) = some (_, _) from rfl))
  have h10 := h9.next (e := .go 0) (caught_go rfl (.inl (by rintro _ _ ⟨⟩))) (.lockQueues rfl rfl rfl)
  have h11 := h10.next (e := .go 0) (caught_go rfl (.inr (Fin.forall_fin_two.mpr
    ⟨by rintro _ _ ⟨⟩, by rintro _ _ ⟨⟩⟩))) (.offerSent rfl rfl rfl rfl)
  have h12 := h11.next (e := .receive 1) trivial (.receive rfl rfl)
  have h13 := h12.next (e := .go 1) (caught_go rfl (.inl (by rintro _ _ ⟨⟩))) (.sendAof rfl rfl)
  have h14 := h13.next (e := .go 1) (caught_go rfl (.inl (by rintro _ _ ⟨⟩))) (.finish rfl rfl)
  have h15 := h14.next (e := .go 0) (caught_go rfl (.inl (by rintro _ _ ⟨⟩))) (.unlockQueues rfl rfl)
  have h16 := h15.next (e := .go 0) (caught_go rfl (.inl (by rintro _ _ ⟨⟩))) (.lockShard rfl rfl rfl)
  have h17 := h16.next (e := .go 0) (caught_go rfl (.inl (by rintro _ _ ⟨⟩))) (.push rfl rfl)
  have h18 := h17.next (e := .go 0) (caught_go rfl (.inl (by rintro _ _ ⟨⟩))) (.unlockShard rfl rfl)
  have h19 := h18.next (e := .go 0) (caught_go rfl (.inl (by rintro _ _ ⟨⟩))) (.sendAof rfl rfl)
  have h20 := h19.next (e := .go 0) (caught_go rfl (.inl (by rintro _ _ ⟨⟩))) (.finish rfl rfl)
  refine ⟨_, h20, by decide, delivered_once sampleMachine_fresh ?_ h20 ?_⟩
  · rintro x ⟨⟩
  · exact Fin.forall_fin_two.mpr ⟨rfl, rfl⟩

/-- BLPOP k 1 has given up and still has its receiver when LPUSH k a sends to it. -/
theorem item_lost : Fresh sampleMachine ∧ PlainList (sampleMachine.db.entry sampleKey) ∧
    ∃ m', Reaches Step Listing sampleMachine m' ∧ (∀ i, m'.clients i = .idle) ∧
      items (m'.db.entry sampleKey) = 0 ∧ delivered sampleKey m' = 0 ∧ pushed sampleKey m' = {[97]} := by
  refine ⟨sampleMachine_fresh, by rintro x ⟨⟩, ?_⟩
  have h0 : Reaches Step Listing sampleMachine sampleMachine := .refl
  have h1 := h0.next (e := .start 1 (.blpop ⟨sampleKey, 1⟩)) trivial
    (.start rfl (show program ⟨[], 0, 0⟩ 0 (Command.blpop ⟨sampleKey, 1⟩) = some (_, _) from rfl))
  have h2 := h1.next (e := .go 1) trivial (.lockShard rfl rfl rfl)
  have h3 := h2.next (e := .go 1) trivial (.check rfl rfl)
  have h4 := h3.next (e := .go 1) trivial (.lockQueues rfl rfl rfl)
  have h5 := h4.next (e := .go 1) trivial (.register rfl rfl)
  have h6 := h5.next (e := .go 1) trivial (.unlockQueues rfl rfl)
  have h7 := h6.next (e := .go 1) trivial (.unlockShard rfl rfl)
  have h8 := h7.next (e := .go 1) trivial (.await rfl rfl)
  have h9 := h8.next (e := .elapse 1) trivial (.elapse rfl rfl (by decide))
  have h10 := h9.next (e := .start 0 (.lpush samplePush)) trivial
    (.start rfl (show program ⟨[], 0, 0⟩ 0 (Command.lpush samplePush) = some (_, _) from rfl))
  have h11 := h10.next (e := .go 0) trivial (.lockQueues rfl rfl rfl)
  have h12 := h11.next (e := .go 0) trivial (.offerSent rfl rfl rfl rfl)
  have h13 := h12.next (e := .drop 1) trivial (.drop rfl)
  have h14 := h13.next (e := .go 0) trivial (.unlockQueues rfl rfl)
  have h15 := h14.next (e := .go 0) trivial (.lockShard rfl rfl rfl)
  have h16 := h15.next (e := .go 0) trivial (.push rfl rfl)
  have h17 := h16.next (e := .go 0) trivial (.unlockShard rfl rfl)
  have h18 := h17.next (e := .go 0) trivial (.sendAof rfl rfl)
  have h19 := h18.next (e := .go 0) trivial (.finish rfl rfl)
  exact ⟨_, h19, Fin.forall_fin_two.mpr ⟨rfl, rfl⟩, rfl, rfl, rfl⟩

end Sample

end RustKv.Clients
