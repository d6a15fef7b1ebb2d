import RustKv.CommandSteps

namespace RustKv.Collections

open Text Protocol Domain CacheStore Zset RustKv.Types Executor RequestReading Expiry RustKv.Normal Lua

section Commands

variable {S J : Type}

/-- The value is no list, hash or sorted set without elements. -/
def Full : Value S J → Prop
  | .list deque _ _ => deque ≠ []
  | .hash map _ _ => map.keys ≠ ∅
  | .zset z _ => z.dict.keys ≠ ∅
  | .simple _ | .json _ _ => True

def FullEntry (e : ValueEntry (Value S J)) : Prop := Full e.data

variable [Host]

theorem simpleValue_full (value : Bytes) : Full (simpleValue value : Value S J) := by
  unfold simpleValue
  split <;> trivial

theorem keeps_set (now : Nat) (c : SetCommand) : Keeps FullEntry (setAccess (S := S) (J := J) now c) := by
  have hentry : FullEntry (setEntry (S := S) (J := J) now c) := simpleValue_full c.value
  unfold setAccess
  split
  · intro entry _
    simp only
    split
    · trivial
    · trivial
    · exact hentry
  · exact hentry

theorem keeps_lpush (rt : Runtime) (c : LPushCommand) (values : List Bytes) :
    Keeps FullEntry (lpushAccess (S := S) (J := J) rt c values) := by
  unfold lpushAccess
  split
  · exact fun _ _ => trivial
  · next hne =>
    intro entry h
    cases entry with
    | none => exact pushAll_ne_nil hne _ _
    | some e =>
        simp only [lpushTaken]
        split
        · exact pushAll_ne_nil hne _ _
        · exact h e rfl

theorem putsBack_popRest (list : List Element) (a b : UInt64) (x : Option Nat) :
    PutsBack FullEntry (popRest (S := S) (J := J) list a b x) := by
  unfold popRest
  split
  · trivial
  · next hne => exact hne

theorem keeps_lpop (c : LPopCommand) :
    Keeps FullEntry (.take (lpopTaken c) : Access S (Value S J)) := by
  intro entry h
  cases entry with
  | none => trivial
  | some e =>
      simp only [lpopTaken]
      split
      · exact putsBack_popRest ..
      · trivial
      · exact h e rfl

theorem keeps_blpop (c : BLPopCommand) :
    Keeps FullEntry (.take (blpopTaken c) : Access S (Value S J)) := by
  intro entry h
  cases entry with
  | none => trivial
  | some e =>
      have hfull : Full e.data := h e rfl
      simp only [blpopTaken]
      split
      · exact putsBack_popRest ..
      · next hdata =>
        rw [hdata] at hfull
        exact absurd rfl hfull
      · exact hfull

omit [Host] in
theorem hsetAll_mem (pairs : List (Str × Bytes)) (map : HashMap) (heap : UInt64) (count : Nat) (field : Str)
    (h : field ∈ map ∨ field ∈ pairs.map Prod.fst) : field ∈ (hsetAll map heap count pairs).1 := by
  induction pairs generalizing map heap count with
  | nil =>
      rcases h with h | h
      · exact h
      · cases h
  | cons p pairs ih =>
      obtain ⟨key, value⟩ := p
      have hnext : field ∈ map.insert key (Element.string value) ∨ field ∈ pairs.map Prod.fst := by
        rw [List.map_cons, List.mem_cons] at h
        rw [Finmap.mem_insert]
        tauto
      unfold hsetAll
      split
      · exact ih _ _ _ hnext
      · exact ih _ _ _ hnext

theorem keeps_hset (rt : Runtime) {c : HSetCommand} (hc : c.fieldValues ≠ []) :
    Keeps FullEntry (.take (hsetTaken rt c) : Access S (Value S J)) := by
  obtain ⟨p, pairs, hp⟩ := List.exists_cons_of_ne_nil hc
  have honto (map : HashMap) (size : UInt64) (x : Option Nat) :
      PutsBack FullEntry (hsetOnto (S := S) (J := J) rt c map size x).2 := by
    intro hempty
    have hmem := hsetAll_mem c.fieldValues map size 0 p.1 (.inr (by simp [hp]))
    rw [← Finmap.mem_keys] at hmem
    change p.1 ∈ (hsetAll map size 0 c.fieldValues).1.keys at hmem
    change (hsetAll map size 0 c.fieldValues).1.keys = ∅ at hempty
    rw [hempty] at hmem
    cases hmem
  intro entry h
  cases entry with
  | none => exact honto _ _ _
  | some e =>
      simp only [hsetTaken]
      split
      · exact honto _ _ _
      · exact h e rfl

theorem keeps_hdel (c : HDelCommand) :
    Keeps FullEntry (.take (hdelTaken c) : Access S (Value S J)) := by
  intro entry h
  cases entry with
  | none => trivial
  | some e =>
      simp only [hdelTaken]
      split
      · simp only
        split
        · trivial
        · next hne => exact hne
      · exact h e rfl

variable [F64 S]

omit [Host] in
theorem zset_insert_full (rt : Runtime) (z : ZSet S) (score : S) (member : Bytes) :
    (z.insert rt score member).2.dict.keys ≠ ∅ := by
  have hmem : member ∈ (z.insert rt score member).2.dict := by
    unfold ZSet.insert
    split
    · next old hold =>
      split
      · exact Finmap.mem_of_lookup_eq_some hold
      · exact Finmap.mem_insert.mpr (.inl rfl)
    · exact Finmap.mem_insert.mpr (.inl rfl)
  intro hempty
  rw [← Finmap.mem_keys, hempty] at hmem
  cases hmem

theorem keeps_zadd (rt : Runtime) (c : ZAddCommand S) :
    Keeps FullEntry (.take (zaddTaken rt c) : Access S (Value S J)) := by
  intro entry h
  cases entry with
  | none => exact zset_insert_full rt ZSet.new c.score c.member
  | some e =>
      simp only [zaddTaken]
      split
      · next z size hdata => exact zset_insert_full rt z c.score c.member
      · exact h e rfl

omit [Host] in
theorem zset_delete_false {z z' : ZSet S} {member : Bytes} (h : z.delete member = (false, z')) : z' = z := by
  unfold ZSet.delete at h
  split at h
  · cases h
  · cases h
    rfl

omit [Host] [F64 S] in
theorem zset_len_full {z : ZSet S} (h : z.len ≠ 0) : z.dict.keys ≠ ∅ := by
  intro hempty
  apply h
  rw [ZSet.len, hempty]
  rfl

theorem keeps_zrem (c : ZRemCommand) :
    Keeps FullEntry (.take (zremTaken c) : Access S (Value S J)) := by
  intro entry h
  cases entry with
  | none => trivial
  | some e =>
      have hfull : Full e.data := h e rfl
      simp only [zremTaken]
      split
      · next z size hdata =>
        split
        · next z' hdel =>
          split
          · trivial
          · next hlen => exact zset_len_full hlen
        · next z' hdel =>
          rw [hdata] at hfull
          rw [zset_delete_false hdel]
          exact hfull
      · exact hfull

omit [F64 S] in
theorem keeps_jsonSet [SerdeJson J] (c : JsonSetCommand) (v : J) :
    Keeps FullEntry (.take (jsonSetTaken c v) : Access S (Value S J)) := by
  intro entry h
  cases entry with
  | none =>
      simp only [jsonSetTaken]
      split <;> trivial
  | some e =>
      simp only [jsonSetTaken]
      split
      · split
        · trivial
        · split <;> trivial
      · exact h e rfl

variable [SerdeJson J]

/-- Every command on one key keeps lists, hashes and sorted sets from being empty. An HSET
has a field because the parser asks for one. -/
theorem keyed_keeps {rt : Runtime} {at' : Nat} {values : LPushCommand → List Bytes} {c : Command S}
    (hc : Parsed c) {key : Str} {a : Access S (Value S J)}
    (hk : keyed rt at' values c = some (key, a)) : Keeps FullEntry a := by
  cases c with
  | set c => cases hk; exact keeps_set at' c
  | lpush c => cases hk; exact keeps_lpush rt c _
  | lpop c => cases hk; exact keeps_lpop c
  | blpop c => cases hk; exact keeps_blpop c
  | hset c =>
      cases hk
      obtain ⟨iter, hr, -, -⟩ := hc.readFrom
      exact keeps_hset rt hr.2
  | hdel c => cases hk; exact keeps_hdel c
  | zadd c => cases hk; exact keeps_zadd rt c
  | zrem c => cases hk; exact keeps_zrem c
  | jsonSet c =>
      obtain ⟨v, -, hp⟩ := Option.map_eq_some_iff.mp hk
      cases hp
      exact keeps_jsonSet c v
  | get | hget | jsonGet | zscore | zrank | zrange => cases hk; exact trivial
  | mset | mget | ping | unimplement | eval | multi | exec | multiGroup => cases hk

end Commands

section Runs

variable {S J : Type} [Host] [F64 S] [SerdeJson J]

/-- No list, hash or sorted set of the database is empty. -/
def AllFull (db : Db (Value S J)) : Prop := ∀ k, Within FullEntry (db.entry k)

/-- Nor is any that a script has written or will find below. -/
def SessionsFull (sessions : Sessions (Value S J)) : Prop :=
  ∃ o, Reflects sessions o ∧ ∀ k, CellWithin FullEntry (o.cells k)

theorem preserves_full : Preserves (S := S) (J := J) FullEntry (fun _ _ _ => True) where
  mset := simpleValue_full
  keyed hc hk _ hfound := (keyed_keeps hc hk).restores hfound

theorem AllFull.scriptRun {db : Db (Value S J)} (h : AllFull db) (keys : List Str) (moments : Nat → Moment)
    (script : Script) : SessionsFull (scriptRun db keys moments script).2.sessions :=
  AllIn.scriptRun preserves_full h (callsMeet_true script moments 0 _)

theorem Reachable.allFull {db : Db (Value S J)} (h : Reachable db) : AllFull db := by
  obtain ⟨configType, hrun⟩ := h
  exact allIn_run preserves_full (Relation.ReflTransGen.mono (fun _ _ => Step.guarded) _ _ hrun)

/-- A list that is not empty gives its first element to LPOP and to BLPOP. -/
structure Gives (k : Str) (item : Element) (lpop blpop : Done S) : Prop where
  lpop : lpop.reply = .ok (.bulk item.reply)
  blpop : blpop.reply = .ok (.array [.bulk k.bytes, .bulk item.reply]) ∧ blpop.waits = false

omit [Host] [F64 S] [SerdeJson J] in
theorem full_list {e : ValueEntry (Value S J)} {deque : List Element} {capacity heap : UInt64}
    (hfull : FullEntry e) (hdata : e.data = .list deque capacity heap) :
    ∃ item rest, deque = item :: rest := by
  rw [FullEntry, hdata] at hfull
  exact List.exists_cons_of_ne_nil hfull

omit [F64 S] [SerdeJson J] in
theorem gives_taken {e : ValueEntry (Value S J)} {item : Element} {rest : List Element}
    {capacity heap : UInt64} (hdata : e.data = .list (item :: rest) capacity heap) (k : Str) (timeout : Nat) :
    Gives k item (lpopTaken (S := S) ⟨k⟩ (some e)).1 (blpopTaken (S := S) ⟨k, timeout⟩ (some e)).1 := by
  simp only [lpopTaken, blpopTaken, hdata]
  exact ⟨rfl, rfl, rfl⟩

theorem gives_db {db : Db (Value S J)} {k : Str} {e : ValueEntry (Value S J)} {item : Element}
    {rest : List Element} {capacity heap : UInt64} (he : db.entry k = some e)
    (hdata : e.data = .list (item :: rest) capacity heap) (rt : Runtime) (now timeout : Nat) :
    Gives k item (execute rt now db (.lpop ⟨k⟩)).1 (execute rt now db (.blpop ⟨k, timeout⟩)).1 := by
  rw [(db.execute_entry rt now (.lpop ⟨k⟩)).1, (db.execute_entry rt now (.blpop ⟨k, timeout⟩)).1]
  simp only [execute, Context.access, Access.onCell, he]
  exact gives_taken hdata k timeout

theorem gives_sessions {sessions : Sessions (Value S J)} {o : Overlay (Value S J)}
    (hr : Reflects sessions o) {k : Str} (hd : o.declared (Host.shardIndex k) = true) {now : Nat}
    {e : ValueEntry (Value S J)} {item : Element} {rest : List Element} {capacity heap : UInt64}
    (he : (o.cells k).view now = some e) (hdata : e.data = .list (item :: rest) capacity heap)
    (rt : Runtime) (timeout : Nat) :
    Gives k item (execute rt now sessions (.lpop ⟨k⟩)).1 (execute rt now sessions (.blpop ⟨k, timeout⟩)).1 := by
  rw [(hr.execute rt now (.lpop ⟨k⟩)).1, (hr.execute rt now (.blpop ⟨k, timeout⟩)).1]
  simp only [execute]
  rw [access_declared hd, access_declared hd]
  rw [(LuaCell.run_view _ now k (o.cells k)).1, (LuaCell.run_view _ now k (o.cells k)).1, he]
  exact gives_taken hdata k timeout

/-- In every reachable database no list, hash or sorted set is empty, so that LPOP and BLPOP
find an element in every list: as commands of a client or of the recovery, and in a script. -/
theorem no_empty_collection {db : Db (Value S J)} (h : Reachable db) :
    (∀ k e, db.entry k = some e → Full e.data) ∧
    (∀ k e deque capacity heap, db.entry k = some e → e.data = .list deque capacity heap →
      ∃ item rest, deque = item :: rest ∧ ∀ (rt : Runtime) (now timeout : Nat) (queues : Queues),
        Gives k item (answer rt now queues db (.lpop ⟨k⟩)).1 (answer rt now queues db (.blpop ⟨k, timeout⟩)).1 ∧
        Gives k item (execute rt now db (.lpop ⟨k⟩)).1 (execute rt now db (.blpop ⟨k, timeout⟩)).1) ∧
    ∀ keys moments script, let sessions := (scriptRun db keys moments script).2.sessions
      ∀ k cell now e deque capacity heap, sight sessions k = some cell → cell.view now = some e →
        e.data = .list deque capacity heap →
        ∃ item rest, deque = item :: rest ∧ ∀ (rt : Runtime) (timeout : Nat),
          Gives k item (execute rt now sessions (.lpop ⟨k⟩)).1 (execute rt now sessions (.blpop ⟨k, timeout⟩)).1 := by
  have hfull := h.allFull
  refine ⟨fun k e he => hfull k e he, ?_, ?_⟩
  · intro k e deque capacity heap he hdata
    obtain ⟨item, rest, rfl⟩ := full_list (hfull k e he) hdata
    refine ⟨item, rest, rfl, fun rt now timeout queues => ?_⟩
    have hgives := gives_db he hdata rt now timeout
    exact ⟨hgives, hgives⟩
  · intro keys moments script sessions k cell now e deque capacity heap hcell he hdata
    obtain ⟨o, hr, hcells⟩ := hfull.scriptRun keys moments script
    rw [reflects_sight hr, overlaySight] at hcell
    split at hcell
    · next hd =>
      cases hcell
      obtain ⟨item, rest, rfl⟩ := full_list ((hcells k).view now e he) hdata
      exact ⟨item, rest, rfl, gives_sessions hr hd he hdata⟩
    · cases hcell

end Runs

section Sample

attribute [local instance] singleShard wholeScore flatJson

def listKey : Str := Str.ofAscii (ascii ['k']) ascii_k

/-- LPUSH k a. -/
def pushOne : LPushCommand := ⟨listKey, [ascii ['a']]⟩

theorem pushOne_parsed : Parsed (Command.lpush (S := UInt64) pushOne) := by
  refine Recovery.parsed_of_aofFrame
    (show AofRoundTrip.aofFrame 0 (Command.lpush (S := UInt64) pushOne) = some _ from rfl)
    (by simp [AofRoundTrip.Loggable, pushOne]) ?_
  simp [Fits, FitsAll, ascii, pushOne, listKey, Str.ofAscii]

def pushedDb : Db (Value UInt64 Str) :=
  (execute ⟨[], 0, 0⟩ 0 (Db.new .lru) (Command.lpush (S := UInt64) pushOne)).2

theorem pushedDb_reachable : Reachable pushedDb :=
  ⟨.lru, Relation.ReflTransGen.single (.recovery ⟨[], 0, 0⟩ 0 pushOne_parsed)⟩

theorem pushedDb_entry :
    pushedDb.entry listKey = some (newEntry (.list [.string (ascii ['a'])] 0 1) none) := rfl

theorem no_empty_collection_sample :
    Reachable pushedDb ∧
      (answer ⟨[], 0, 0⟩ 0 ∅ pushedDb (.lpop ⟨listKey⟩)).1.reply = .ok (.bulk (ascii ['a'])) := by
  obtain ⟨-, hlists, -⟩ := no_empty_collection pushedDb_reachable
  obtain ⟨item, rest, hdeque, hgives⟩ := hlists listKey _ _ _ _ pushedDb_entry rfl
  cases hdeque
  exact ⟨pushedDb_reachable, (hgives ⟨[], 0, 0⟩ 0 0 ∅).1.lpop⟩

end Sample

end RustKv.Collections
