import RustKv.Replay

namespace RustKv.Normal

open Runs Text Protocol Domain CacheStore Zset RustKv.Types Executor AofEncoder AofRoundTrip
  RequestReading Recovery

section Queues

/-- How many clients wait at a key. -/
def waiting (queues : Queues) (key : Str) : Nat := ((queues.lookup key).getD []).count .waiting

theorem noWaiting_iff {queues : Queues} {key : Str} : NoWaiting queues key ↔ waiting queues key = 0 := by
  rw [waiting, List.count_eq_zero, NoWaiting]
  constructor
  · intro h hmem
    cases hq : queues.lookup key with
    | none =>
        rw [hq] at hmem
        cases hmem
    | some waiters =>
        rw [hq] at hmem
        cases h waiters hq .waiting hmem
  · intro h waiters hq w hw
    cases w with
    | gone => rfl
    | waiting =>
        rw [hq] at h
        exact absurd hw h

theorem count_dropWhile (waiters : List Waiter) :
    (waiters.dropWhile (fun w => decide (w = .gone))).count .waiting = waiters.count .waiting := by
  induction waiters with
  | nil => rfl
  | cons w waiters ih =>
      cases w with
      | gone =>
          rw [List.dropWhile_cons_of_pos (by rfl), ih]
          rfl
      | waiting => rfl

theorem serve_count (waiters : List Waiter) (items : List Bytes) :
    (serve waiters items).1.count .waiting ≤ waiters.count .waiting := by
  induction items generalizing waiters with
  | nil => exact le_rfl
  | cons item items ih =>
      have hdrop := count_dropWhile waiters
      simp only [serve]
      split
      · next w rest hw =>
          rw [hw] at hdrop
          exact (ih rest).trans (hdrop ▸ List.count_le_count_cons)
      · exact (ih []).trans (Nat.zero_le _)

theorem serve_all {waiters : List Waiter} {items : List Bytes} (h : items.length ≤ waiters.count .waiting) :
    (serve waiters items).2 = (items, []) := by
  induction items generalizing waiters with
  | nil => rfl
  | cons item items ih =>
      have hdrop := count_dropWhile waiters
      rw [List.length_cons] at h
      cases hw : waiters.dropWhile (fun w => decide (w = .gone)) with
      | nil =>
          rw [hw, List.count_nil] at hdrop
          omega
      | cons w rest =>
          have hrest : items.length ≤ rest.count .waiting := by
            have hle : (w :: rest).count .waiting ≤ rest.count .waiting + 1 := by
              rw [List.count_cons]
              split <;> omega
            rw [hw] at hdrop
            omega
          simp only [serve, hw, ih hrest]

theorem handOff_all {queues : Queues} {c : LPushCommand} (h : c.values.length ≤ waiting queues c.key) :
    (handOff queues c).2 = (c.values, []) := by
  unfold handOff
  unfold waiting at h
  cases hq : queues.lookup c.key with
  | none =>
      rw [hq] at h
      rw [List.length_eq_zero_iff.mp (Nat.le_zero.mp h)]
  | some waiters =>
      rw [hq, Option.getD_some] at h
      simp only [serve_all h]

theorem waiting_insert (queues : Queues) (key : Str) (waiters : List Waiter) (k : Str) :
    waiting (queues.insert key waiters) k = if k = key then waiters.count .waiting else waiting queues k := by
  unfold waiting
  split
  · next hk => rw [hk, Finmap.lookup_insert, Option.getD_some]
  · next hk => rw [Finmap.lookup_insert_of_ne queues hk]

theorem waiting_erase (queues : Queues) (key k : Str) :
    waiting (queues.erase key) k = if k = key then 0 else waiting queues k := by
  unfold waiting
  split
  · next hk =>
      rw [hk, Finmap.lookup_erase]
      rfl
  · next hk => rw [Finmap.lookup_erase_ne hk]

theorem waiting_handOff (queues : Queues) (c : LPushCommand) (k : Str) :
    waiting (handOff queues c).1 k ≤ waiting queues k := by
  unfold handOff
  cases hq : queues.lookup c.key with
  | none => exact le_rfl
  | some waiters =>
      have hold : waiting queues c.key = waiters.count .waiting := by rw [waiting, hq, Option.getD_some]
      simp only
      split
      · rw [waiting_erase]
        split
        · exact Nat.zero_le _
        · exact le_rfl
      · rw [waiting_insert]
        split
        · next hk =>
            rw [hk, hold]
            exact serve_count waiters c.values
        · exact le_rfl

theorem count_set_gone (waiters : List Waiter) (i : Nat) :
    (waiters.set i .gone).count .waiting ≤ waiters.count .waiting := by
  induction waiters generalizing i with
  | nil => exact le_rfl
  | cons w waiters ih =>
      cases i with
      | zero =>
          rw [List.set_cons_zero, List.count_cons_of_ne (by decide)]
          exact List.count_le_count_cons
      | succ i =>
          rw [List.set_cons_succ, List.count_cons, List.count_cons]
          exact Nat.add_le_add_right (ih i) _

end Queues

section Handover

variable {S J : Type} [Host] [F64 S] [SerdeJson J] {s s' : Server S J}

/-- The server when nothing is on its way to a client. -/
def Server.settled (s : Server S J) : Server S J := { s with handed := [] }

/-- An event of a run of list commands. An LPUSH finds a waiting client for each of
its items, or it finds none and no client that got an item of its key has still to
log it. -/
def Whole (s : Server S J) : Event S → Prop
  | .command _ (.lpush c) => Parsed (Command.lpush (S := S) c) ∧
      (c.values.length ≤ waiting s.blockingQueues c.key ∨
        waiting s.blockingQueues c.key = 0 ∧ ∀ p ∈ s.handed, p.1 ≠ c.key)
  | .command _ (.lpop c) => Parsed (Command.lpop (S := S) c)
  | .command _ (.blpop c) => Parsed (Command.blpop (S := S) c)
  | .timeout _ _ | .wake _ | .tick _ => True
  | _ => False

/-- The log builds the entries of the server, and there is no entry where a client
waits or has still to log what it got. -/
structure Handing (s : Server S J) : Prop where
  log : Recoverable ∅ s.settled
  timeless : Timeless s.db.entry
  awaited : ∀ key, waiting s.blockingQueues key ≠ 0 → s.db.entry key = none
  handed : ∀ p ∈ s.handed, s.db.entry p.1 = none ∧ Parsed (Command.lpop (S := S) ⟨p.1⟩)

theorem Recoverable.congr {stale : Set Str} (h : Recoverable stale s) (hidle : s'.handed = [])
    (hentry : s'.db.entry = s.db.entry) (haof : s'.aof = s.aof) : Recoverable stale s' := by
  refine ⟨hidle, ?_, ?_⟩
  · rw [hentry]
    exact h.filled
  · rw [hentry, haof]
    exact h.log

theorem Handing.keep (h : Handing s) (hentry : s'.db.entry = s.db.entry) (haof : s'.aof = s.aof)
    (hwait : ∀ key, waiting s'.blockingQueues key ≤ waiting s.blockingQueues key)
    (hhanded : ∀ p ∈ s'.handed, s.db.entry p.1 = none ∧ Parsed (Command.lpop (S := S) ⟨p.1⟩)) :
    Handing s' where
  log := h.log.congr rfl hentry haof
  timeless := by
    rw [hentry]
    exact h.timeless
  awaited key hkey := by
    rw [hentry]
    exact h.awaited key (fun hz => hkey (Nat.le_zero.mp (hz ▸ hwait key)))
  handed p hp := by
    rw [hentry]
    exact hhanded p hp

theorem Handing.command (h : Handing s) {rt : Runtime} {c : Command S} (hsent : Sent c)
    (hc : Unawaited s.blockingQueues c) (hset : ∀ d, c = .set d → d.expiration = none)
    (hwait : ∀ key, waiting (s.execute rt c).blockingQueues key ≠ 0 → (s.execute rt c).db.entry key = none)
    (hhanded : ∀ p ∈ s.handed, (s.execute rt c).db.entry p.1 = none) : Handing (s.execute rt c) := by
  have hplain : Plain s.settled (.command rt c) := ⟨hsent, hc, hset⟩
  obtain ⟨hentry, haof, -, hsame⟩ := s.execute_entry rt hc
  obtain ⟨hentry', haof', -⟩ := s.settled.execute_entry rt (c := c) hc
  obtain ⟨hlog, htimeless⟩ := hplain.step h.log h.timeless
  refine ⟨hlog.congr rfl ?_ ?_, ?_, hwait, fun p hp => ?_⟩
  · exact hentry.trans hentry'.symm
  · exact haof.trans haof'.symm
  · rw [hentry]
    exact execute_timeless hsent.1 hset rt s.now h.timeless
  · rw [hsame] at hp
    exact ⟨hhanded p hp, (h.handed p hp).2⟩

theorem Handing.lpop (h : Handing s) (rt : Runtime) {c : LPopCommand} (hc : Parsed (Command.lpop (S := S) c)) :
    Handing (s.execute rt (.lpop c)) := by
  have hentry := (s.execute_entry rt (c := .lpop c) trivial).1
  have hnone (key : Str) (hkey : s.db.entry key = none) : (s.execute rt (.lpop c)).db.entry key = none := by
    rw [hentry]
    change Function.update s.db.entry c.key _ key = none
    rw [Function.update_apply]
    split
    · next heq => rw [← heq, hkey]; rfl
    · exact hkey
  exact h.command ⟨hc, by rintro e ⟨⟩⟩ trivial (by rintro d ⟨⟩) (fun key hkey => hnone key (h.awaited key hkey))
    (fun p hp => hnone p.1 (h.handed p hp).1)

theorem Handing.blpop (h : Handing s) (rt : Runtime) {c : BLPopCommand}
    (hc : Parsed (Command.blpop (S := S) c)) : Handing (s.execute rt (.blpop c)) := by
  obtain ⟨hdone, hentry⟩ := s.db.access_spec s.now c.key (.take (blpopTaken c) : Access S _)
  have hnone (key : Str) (hkey : s.db.entry key = none) : (s.execute rt (.blpop c)).db.entry key = none := by
    refine (hentry key).trans ?_
    split
    · next heq => rw [← heq, hkey]; rfl
    · exact hkey
  refine h.command ⟨hc, by rintro e ⟨⟩⟩ trivial (by rintro d ⟨⟩) (fun key hkey => ?_)
    (fun p hp => hnone p.1 (h.handed p hp).1)
  change waiting (if (s.db.access s.now c.key (.take (blpopTaken c) : Access S _)).1.waits then _ else _) key ≠ 0
    at hkey
  split at hkey
  · next hwaits =>
      rw [hdone] at hwaits
      by_cases heq : key = c.key
      · exact hnone key (heq ▸ (blpop_waits hwaits).1)
      · rw [waiting_insert, if_neg heq] at hkey
        exact hnone key (h.awaited key hkey)
  · exact hnone key (h.awaited key hkey)

theorem Handing.push (h : Handing s) (rt : Runtime) {c : LPushCommand} (hc : Parsed (Command.lpush (S := S) c))
    (hwait : waiting s.blockingQueues c.key = 0) (hhanded : ∀ p ∈ s.handed, p.1 ≠ c.key) :
    Handing (s.execute rt (.lpush c)) := by
  have hnobody : NoWaiting s.blockingQueues c.key := noWaiting_iff.mpr hwait
  have hentry := (s.execute_entry rt (c := .lpush c) hnobody).1
  have hother (key : Str) (hkey : key ≠ c.key) : (s.execute rt (.lpush c)).db.entry key = s.db.entry key := by
    rw [hentry]
    exact Function.update_of_ne hkey _ _
  refine h.command ⟨hc, by rintro e ⟨⟩⟩ hnobody (by rintro d ⟨⟩) (fun key hkey => ?_) (fun p hp => ?_)
  · have hle := waiting_handOff s.blockingQueues c key
    have hold : waiting s.blockingQueues key ≠ 0 := fun hz => hkey (Nat.le_zero.mp (hz ▸ hle))
    rw [hother key (fun heq => hold (heq ▸ hwait))]
    exact h.awaited key hold
  · rw [hother p.1 (hhanded p hp)]
    exact (h.handed p hp).1

theorem Handing.give (h : Handing s) (rt : Runtime) {c : LPushCommand} (hc : Parsed (Command.lpush (S := S) c))
    (hall : c.values.length ≤ waiting s.blockingQueues c.key) : Handing (s.execute rt (.lpush c)) := by
  have hoff := handOff_all hall
  obtain ⟨hdone, hentry⟩ := s.db.access_spec s.now c.key (lpushAccess rt c [] : Access S _)
  have hself : unlessExpired s.now (s.db.entry c.key) = s.db.entry c.key := by
    refine unlessExpired_eq_self (fun x hx => ?_)
    rw [ValueEntry.isExpired, h.timeless c.key x hx]
  have hexec : s.execute rt (.lpush c) =
      { s with
        db := (s.db.access s.now c.key (lpushAccess rt c [])).2
        blockingQueues := (handOff s.blockingQueues c).1
        handed := s.handed ++ c.values.map (fun item => (c.key, item)) }.sendAof none := by
    simp only [Server.execute, hoff]
    rw [hdone]
    rfl
  rw [hexec]
  refine h.keep (funext fun k => ?_) ?_ (waiting_handOff s.blockingQueues c) (fun p hp => ?_)
  · refine (hentry k).trans ?_
    split
    · next hk =>
        rw [hk]
        exact hself
    · rfl
  · exact List.append_nil _
  · rcases List.mem_append.mp hp with hp | hp
    · exact h.handed p hp
    · obtain ⟨item, hitem, rfl⟩ := List.mem_map.mp hp
      obtain ⟨iter, ⟨rfl, -⟩, hfit, -⟩ := hc.readFrom
      refine ⟨h.awaited c.key ?_, parsed_lpop hfit.1⟩
      have hpos := List.length_pos_of_mem hitem
      omega

/-- Replaying an LPOP where there is no list does nothing. -/
theorem Recoverable.wake (h : Recoverable ∅ s) {key : Str} (hkey : s.db.entry key = none)
    (hparsed : Parsed (Command.lpop (S := S) ⟨key⟩)) (hidle : s'.handed = [])
    (hentry : s'.db.entry = s.db.entry)
    (haof : s'.aof = s.aof ++ [(LogRecord.single s.now (Command.lpop (S := S) ⟨key⟩)).bytes]) :
    Recoverable ∅ s' := by
  refine h.append ⟨⟨hparsed, rfl⟩, trivial⟩ hidle (by rw [hentry]; exact h.filled) haof (fun rt m hb => ?_)
  have hnone : m key = none := by
    have hsame := hb.same key (Set.notMem_empty key)
    rw [hkey] at hsame
    cases he : m key with
    | none => rfl
    | some x => rw [he] at hsame; cases hsame
  have hself : (Executor.execute rt 0 m (.lpop (S := S) ⟨key⟩)).2 = m := by
    change Function.update m key ((lpopTaken (S := S) ⟨key⟩ (m key)).2.result none) = m
    refine Function.update_eq_self_iff.mpr ?_
    rw [hnone]
    rfl
  refine ⟨⟨.null, ?_⟩, ?_⟩
  · change (lpopTaken (S := S) ⟨key⟩ (m key)).1.reply = _
    rw [hnone]
    rfl
  · change Behind ∅ s'.db.entry (Executor.execute rt 0 m (.lpop (S := S) ⟨key⟩)).2
    rw [hself, hentry]
    exact hb

theorem Handing.wake (h : Handing s) (i : Nat) : Handing (s.step (.wake i)) := by
  simp only [Server.step]
  split
  · next key item hi =>
      have hmem : (key, item) ∈ s.handed := List.mem_of_getElem? hi
      obtain ⟨hkey, hparsed⟩ := h.handed _ hmem
      refine ⟨h.log.wake hkey hparsed rfl rfl rfl, h.timeless, h.awaited, fun p hp => ?_⟩
      exact h.handed p (List.mem_of_mem_eraseIdx hp)
  · exact h

theorem Handing.step (h : Handing s) {e : Event S} (he : Whole s e) : Handing (s.step e) := by
  cases e with
  | command rt c =>
      cases c with
      | lpush c =>
          obtain ⟨hc, hall | ⟨hwait, hhanded⟩⟩ := he
          · exact h.give rt hc hall
          · exact h.push rt hc hwait hhanded
      | lpop c => exact h.lpop rt he
      | blpop c => exact h.blpop rt he
      | get | set | ping | unimplement | eval | hset | hget | hdel | mset | mget | multi | exec | multiGroup
      | jsonSet | jsonGet | zadd | zscore | zrank | zrange | zrem => exact he.elim
  | timeout key i =>
      simp only [Server.step]
      split
      · next waiters hq =>
          refine h.keep rfl rfl (fun k => ?_) h.handed
          rw [waiting_insert]
          split
          · next hk =>
              rw [hk, waiting, hq, Option.getD_some]
              exact count_set_gone waiters i
          · exact le_rfl
      · exact h
  | wake i => exact h.wake i
  | tick now => exact h.keep rfl rfl (fun _ => le_rfl) h.handed
  | evictionTtl | evictionMemory => exact he.elim

theorem new_handing (configType : Eviction.EvictionType) (now : Nat) :
    Handing (Server.new configType now : Server S J) where
  log := new_recoverable configType now
  timeless k e hk := by
    rw [Server.new, Db.entry_new] at hk
    cases hk
  awaited key _ := Db.entry_new configType key
  handed p hp := by cases hp

/-- Replaying the log builds the lists again, when every LPUSH gives all its items to
waiting clients, or gives none while no client of its key has still to log. -/
theorem handover_replays (configType : Eviction.EvictionType) (now : Nat) {events : List (Event S)}
    (h : Along Server.step Whole (Server.new configType now : Server S J) events)
    (rts : Nat → Runtime) (configType' : Eviction.EvictionType) :
    let s := (Server.new configType now : Server S J).run events
    ∃ r n, drain rts s.aof.flatten.length (start (Db.new configType')) s.aof.flatten 0 =
        .ok (r, none, n) ∧
      ∀ k, logicalOf (r.db.entry k) = logicalOf (s.db.entry k) := by
  intro s
  have hinv : Handing s := h.invariant (I := Handing) (fun s e hs he => hs.step he) events
    (new_handing configType now)
  exact hinv.log.drained rts configType'

end Handover

section Sample

local instance : Host := singleShard

local instance : F64 UInt64 := wholeScore

local instance : SerdeJson Str := flatJson

/-- BLPOP k 0. -/
def sampleBLPop : BLPopCommand := ⟨sampleKey, 0⟩

/-- LPUSH k a. -/
def sampleLPush : LPushCommand := ⟨sampleKey, [ascii ['a']]⟩

/-- LPUSH k a b. -/
def sampleLPushTwo : LPushCommand := ⟨sampleKey, [ascii ['a'], ascii ['b']]⟩

def sampleBLPopFrame : Frame :=
  .array [.bulk (ascii ['B', 'L', 'P', 'O', 'P']), .bulk sampleKey.bytes, .bulk (ascii ['0'])]

theorem sampleBLPop_parsed : Parsed (Command.blpop (S := UInt64) sampleBLPop) := by
  have hfit : Fits sampleBLPopFrame := by
    simp [sampleBLPopFrame, Fits, FitsAll, ascii, sampleKey, Str.ofAscii]
  refine ⟨serialize sampleBLPopFrame, sampleBLPopFrame, (serialize sampleBLPopFrame).length, ?_, rfl⟩
  have hp := FrameRoundTrip.parseFrame_append hfit []
  rwa [List.append_nil] at hp

theorem sampleLPush_parsed : Parsed (Command.lpush (S := UInt64) sampleLPush) := by
  refine parsed_of_aofFrame (show aofFrame 0 (Command.lpush (S := UInt64) sampleLPush) = some _ from rfl)
    (by simp [Loggable, sampleLPush]) ?_
  simp [Fits, FitsAll, ascii, sampleLPush, sampleKey, Str.ofAscii]

theorem sampleLPushTwo_parsed : Parsed (Command.lpush (S := UInt64) sampleLPushTwo) := by
  refine parsed_of_aofFrame (show aofFrame 0 (Command.lpush (S := UInt64) sampleLPushTwo) = some _ from rfl)
    (by simp [Loggable, sampleLPushTwo]) ?_
  simp [Fits, FitsAll, ascii, sampleLPushTwo, sampleKey, Str.ofAscii]

/-- BLPOP k 0 gets the item of LPUSH k a and logs it. -/
theorem handover_replays_sample :
    let s := (Server.new .lru 0 : Server UInt64 Str).run
      [.command (sampleRuntime 0) (.blpop sampleBLPop), .command (sampleRuntime 1) (.lpush sampleLPush), .wake 0]
    s.aof ≠ [] ∧ ∃ r n, drain sampleRuntime s.aof.flatten.length (start (Db.new .lfu)) s.aof.flatten 0 =
        .ok (r, none, n) ∧
      ∀ k, logicalOf (r.db.entry k) = logicalOf (s.db.entry k) := by
  refine ⟨by rintro ⟨⟩, handover_replays .lru 0 ?_ sampleRuntime .lfu⟩
  exact ⟨sampleBLPop_parsed, ⟨sampleLPush_parsed, .inl (by decide)⟩, trivial, trivial⟩

/-- The records of an LPUSH that was split between a client and the list, and of that client. -/
def sampleSplit : List (LogRecord UInt64) := [.single 0 (.lpush sampleLPushTwo), .single 0 (.lpop ⟨sampleKey⟩)]

theorem sampleSplit_written : ∀ rec ∈ sampleSplit, rec.Written ∧ rec.Readable := by
  simp only [sampleSplit, List.mem_cons, List.not_mem_nil, or_false]
  rintro rec (rfl | rfl)
  · exact ⟨⟨sampleLPushTwo_parsed, rfl⟩, by simp [LogRecord.Readable, Loggable, sampleLPushTwo]⟩
  · exact ⟨⟨parsed_lpop (by simp [Fits, ascii, sampleKey, Str.ofAscii]), rfl⟩, trivial⟩

/-- BLPOP k 0 gets the first item of LPUSH k a b, and its record takes the second
from the list again. -/
theorem split_push_not_replayed :
    let s := (Server.new .lru 0 : Server UInt64 Str).run
      [.command (sampleRuntime 0) (.blpop sampleBLPop), .command (sampleRuntime 1) (.lpush sampleLPushTwo), .wake 0]
    Parsed (Command.blpop (S := UInt64) sampleBLPop) ∧ Parsed (Command.lpush (S := UInt64) sampleLPushTwo) ∧
      s.handed = [] ∧ logicalOf (s.db.entry sampleKey) = some (.list [.string (ascii ['b'])]) ∧
      ∃ r n, drain sampleRuntime s.aof.flatten.length (start sampleDb) s.aof.flatten 0 = .ok (r, none, n) ∧
        logicalOf (r.db.entry sampleKey) = some (.list [.string (ascii ['a'])]) := by
  intro s
  refine ⟨sampleBLPop_parsed, sampleLPushTwo_parsed, rfl, rfl, ?_⟩
  have hlog : s.aof.flatten = log sampleSplit := rfl
  rw [hlog]
  exact ⟨_, _, drain_log (fun rec hmem => (sampleSplit_written rec hmem).1)
    (fun rec hmem => (sampleSplit_written rec hmem).2) _ rfl, rfl⟩

end Sample

end RustKv.Normal
