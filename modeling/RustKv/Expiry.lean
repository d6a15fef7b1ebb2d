import RustKv.ScriptMirror
import RustKv.Server

namespace RustKv.Expiry

open Text Protocol Domain CacheStore Zset RustKv.Types Executor RustKv.Normal Lua

variable {S J D : Type} {now : Nat}

theorem unlessExpired_idem (entry : Option (ValueEntry D)) :
    unlessExpired now (unlessExpired now entry) = unlessExpired now entry := by
  rcases unlessExpired_cases now entry with h | h <;> rw [h]
  · exact h
  · rfl

theorem unlessExpired_eq_some {entry : Option (ValueEntry D)} {e : ValueEntry D}
    (h : unlessExpired now entry = some e) : entry = some e ∧ e.isExpired now = false := by
  cases entry with
  | none => cases h
  | some x =>
      cases hx : x.isExpired now with
      | true =>
          rw [unlessExpired_eq_none hx] at h
          cases h
      | false =>
          rw [unlessExpired_eq_self (by rintro _ ⟨⟩; exact hx)] at h
          cases h
          exact ⟨rfl, hx⟩

theorem unlessExpired_none : unlessExpired now (none : Option (ValueEntry D)) = none := rfl

/-- An entry has expired, or the clock takes nothing away from it. -/
theorem expired_or_same (now : Nat) (entry : Option (ValueEntry D)) :
    (∃ e, entry = some e ∧ e.isExpired now = true) ∨ unlessExpired now entry = entry := by
  cases entry with
  | none => exact .inr rfl
  | some e =>
      cases he : e.isExpired now with
      | true => exact .inl ⟨e, rfl, he⟩
      | false => exact .inr (unlessExpired_eq_self (by rintro _ ⟨⟩; exact he))

/-- Two outcomes of a command on the entry of a key: the same reply, whether it waits
where that matters, and the same data as long as it has not expired. -/
def Agrees (blocks : Bool) (now : Nat) (x y : Done S × Option (ValueEntry D)) : Prop :=
  x.1.reply = y.1.reply ∧ (blocks = true → x.1.waits = y.1.waits) ∧
    unlessExpired now x.2 = unlessExpired now y.2

section Commands

variable [Host] [F64 S] [SerdeJson J]

/-- The commands on one key, and what they do with its entry; `values` is what an
LPUSH has left to push. -/
def keyed (rt : Runtime) (now : Nat) (values : LPushCommand → List Bytes) :
    Command S → Option (Str × Access S (Value S J))
  | .get c => some (c.key, getAccess)
  | .set c => some (c.key, setAccess now c)
  | .lpush c => some (c.key, lpushAccess rt c (values c))
  | .lpop c => some (c.key, .take (lpopTaken c))
  | .blpop c => some (c.key, .take (blpopTaken c))
  | .hset c => some (c.key, .take (hsetTaken rt c))
  | .hget c => some (c.key, hgetAccess c)
  | .hdel c => some (c.key, .take (hdelTaken c))
  | .jsonSet c => (SerdeJson.fromStr c.value).map (fun v => (c.key, .take (jsonSetTaken c v)))
  | .jsonGet c => some (c.key, jsonGetAccess c)
  | .zadd c => some (c.key, .take (zaddTaken rt c))
  | .zscore c => some (c.key, zscoreAccess c)
  | .zrank c => some (c.key, zrankAccess c)
  | .zrange c => some (c.key, zrangeAccess c)
  | .zrem c => some (c.key, .take (zremTaken c))
  | _ => none

/-- The commands that take the entry of their key out of the shard without a look
at its expiration. -/
def takesOut (values : LPushCommand → List Bytes) : Command S → Bool
  | .lpush c => !(values c).isEmpty
  | .lpop _ | .blpop _ | .hset _ | .hdel _ | .jsonSet _ | .zadd _ | .zrem _ => true
  | _ => false

/-- What an expired entry must be like for a command that sees it to do nothing
else than it does where there is no entry. -/
def Unmoved (values : LPushCommand → List Bytes) (blocks : Bool) (e : ValueEntry (Value S J)) :
    Command S → Prop
  | .get _ | .mget _ => ∀ el, e.data ≠ .simple el
  | .set c => c.condition = none
  | .lpush c => values c = [] ∧ ∀ x xs cap size, e.data ≠ .list (x :: xs) cap size
  | .lpop _ => ∃ cap size, e.data = .list [] cap size
  | .blpop _ => blocks = false ∧ ∃ cap size, e.data = .list [] cap size
  | .hget c => ∃ map cap size, e.data = .hash map cap size ∧ map.lookup c.field = none
  | .hdel c => ∃ map cap size, e.data = .hash map cap size ∧ ∀ f ∈ c.fields, map.lookup f = none
  | .jsonSet c => SerdeJson.fromStr (J := J) c.value = none
  | .jsonGet c => ∃ root size, e.data = .json root size ∧ isRoot c.path = false ∧
      SerdeJson.pointer root c.path = none
  | .zscore c | .zrem c => ∃ z size, e.data = .zset z size ∧ z.score c.member = none
  | .zrank c => ∃ z size, e.data = .zset z size ∧ z.rank c.member = none
  | .zrange c => ∃ z size, e.data = .zset z size ∧ z.range c.start c.stop = []
  | _ => False

end Commands

section Table

variable {e : ValueEntry (Value S J)} {blocks : Bool}

theorem same_expiry {d : ValueEntry D} {e' : ValueEntry D} (he : d.isExpired now = true)
    (h : e'.expiresAt = d.expiresAt) : unlessExpired now (some e') = none := by
  refine unlessExpired_eq_none ?_
  rw [ValueEntry.isExpired, h]
  exact he

variable [Host]

theorem seen_newEntry (v : Value S J) :
    unlessExpired now (some (newEntry v none)) = some (newEntry v none) :=
  unlessExpired_eq_self (by rintro _ ⟨⟩; rfl)

omit [Host] in
theorem read_agrees (f : Option (ValueEntry (Value S J)) → Except KvError Frame)
    (he : e.isExpired now = true) :
    Agrees blocks now ((Access.read f : Access S _).onCell 0 (some e)) ((Access.read f).onCell 0 none) ↔
      f (some e) = f none := by
  simp only [Agrees, Access.onCell, unlessExpired_zero, unlessExpired_eq_none he, unlessExpired_none,
    implies_true, and_true]

/-- A command that makes an entry where there is none, and keeps the expiration of
the one it finds. -/
theorem not_agrees_of_hidden {f : Option (ValueEntry (Value S J)) → Done S × PutBack (Value S J)}
    {v : Value S J} (hnone : (f none).2 = .insert (newEntry v none))
    (hsome : unlessExpired now ((f (some e)).2.result none) = none) :
    ¬ Agrees blocks now ((Access.take f).onCell 0 (some e)) ((Access.take f).onCell 0 none) := by
  rintro ⟨-, -, h⟩
  have hn : unlessExpired now ((f none).2.result none) = none := h.symm.trans hsome
  rw [hnone] at hn
  exact absurd ((seen_newEntry v).symm.trans hn) (by simp)

omit [Host] in
theorem get_agrees (he : e.isExpired now = true) :
    Agrees blocks now ((getAccess : Access S _).onCell 0 (some e)) (getAccess.onCell 0 none) ↔
      ∀ el, e.data ≠ .simple el := by
  rw [getAccess, read_agrees _ he]
  cases hd : e.data <;> simp [stringReply, hd]

theorem set_agrees (c : SetCommand) (at' : Nat) :
    Agrees blocks now ((setAccess at' c : Access S _).onCell 0 (some e))
      ((setAccess at' c).onCell 0 none) ↔ c.condition = none := by
  rcases hc : c.condition with _ | _ | _
  · simp [setAccess, hc, Agrees, Access.onCell]
  · simp [setAccess, hc, Agrees, Access.onCell, unlessExpired_zero, Done.ok, Done.logged, okFrame]
  · simp [setAccess, hc, Agrees, Access.onCell, unlessExpired_zero, Done.ok, Done.logged, okFrame]

theorem lpush_agrees (rt : Runtime) (c : LPushCommand) (values : List Bytes)
    (he : e.isExpired now = true) :
    Agrees blocks now ((lpushAccess rt c values : Access S _).onCell 0 (some e))
      ((lpushAccess rt c values).onCell 0 none) ↔
      values = [] ∧ ∀ x xs cap size, e.data ≠ .list (x :: xs) cap size := by
  by_cases hv : values = []
  · simp only [lpushAccess, hv, if_true, Agrees, Access.onCell, unlessExpired_zero, Done.ok,
      PutBack.result, unlessExpired_eq_none he, unlessExpired_none, implies_true, and_true, true_and]
    cases hd : e.data with
    | list xs cap size =>
        cases xs with
        | nil => simp [currentLength, hd]
        | cons x xs =>
            have hne : ((x :: xs).length : Int) ≠ 0 := by simp; omega
            simp only [currentLength, hd, Except.ok.injEq, Frame.integer.injEq, hne, false_iff]
            intro h
            exact h x xs cap size rfl
    | _ => simp [currentLength, hd]
  · simp only [lpushAccess, hv, if_false, false_and, iff_false]
    refine not_agrees_of_hidden rfl ?_
    cases hd : e.data with
    | list =>
        simp only [lpushTaken, hd, lpushOnto, PutBack.result]
        exact same_expiry he (newEntry_expiresAt _ _)
    | _ => simp [lpushTaken, hd, PutBack.result, unlessExpired_eq_none he]

theorem lpop_agrees (c : LPopCommand) :
    Agrees blocks now ((Access.take (lpopTaken c) : Access S _).onCell 0 (some e))
      ((Access.take (lpopTaken c)).onCell 0 none) ↔ ∃ cap size, e.data = .list [] cap size := by
  cases hd : e.data with
  | list xs cap size =>
      cases xs <;> simp [Agrees, Access.onCell, lpopTaken, hd, Done.ok, Done.logged, PutBack.result]
  | _ => simp [Agrees, Access.onCell, lpopTaken, hd, Done.ok, wrongType]

theorem blpop_agrees (c : BLPopCommand) (he : e.isExpired now = true) :
    Agrees blocks now ((Access.take (blpopTaken c) : Access S _).onCell 0 (some e))
      ((Access.take (blpopTaken c)).onCell 0 none) ↔
      blocks = false ∧ ∃ cap size, e.data = .list [] cap size := by
  cases hd : e.data with
  | list xs cap size =>
      cases xs with
      | nil =>
          simp only [Agrees, Access.onCell, blpopTaken, hd, Done.ok, PutBack.result]
          rw [same_expiry he (newEntry_expiresAt _ _)]
          cases blocks <;> simp [unlessExpired]
      | cons => simp [Agrees, Access.onCell, blpopTaken, hd, Done.logged]
  | _ => simp [Agrees, Access.onCell, blpopTaken, hd, Done.ok, wrongType]

theorem hset_agrees (rt : Runtime) (c : HSetCommand) (he : e.isExpired now = true) :
    ¬ Agrees blocks now ((Access.take (hsetTaken rt c) : Access S _).onCell 0 (some e))
      ((Access.take (hsetTaken rt c)).onCell 0 none) := by
  refine not_agrees_of_hidden rfl ?_
  cases hd : e.data with
  | hash =>
      simp only [hsetTaken, hd, hsetOnto, PutBack.result]
      exact same_expiry he (newEntry_expiresAt _ _)
  | _ => simp [hsetTaken, hd, PutBack.result, unlessExpired_eq_none he]

omit [Host] in
theorem hget_agrees (c : HGetCommand) (he : e.isExpired now = true) :
    Agrees blocks now ((hgetAccess c : Access S _).onCell 0 (some e)) ((hgetAccess c).onCell 0 none) ↔
      ∃ map cap size, e.data = .hash map cap size ∧ map.lookup c.field = none := by
  rw [hgetAccess, read_agrees _ he]
  cases hd : e.data with
  | hash map cap size =>
      simp only [hd]
      cases hl : map.lookup c.field with
      | none => simp [hl]
      | some el => simp [hl]
  | _ => simp [hd, wrongType]

omit [Host] in
theorem hdelAll_count (fields : List Str) (map : HashMap) (heap : UInt64) (n : Nat) :
    n ≤ (hdelAll map heap n fields).2.2 ∧
      ((hdelAll map heap n fields).2.2 = n ↔ ∀ f ∈ fields, map.lookup f = none) := by
  induction fields generalizing map heap n with
  | nil => simp [hdelAll]
  | cons f fields ih =>
      rw [hdelAll]
      cases hl : map.lookup f with
      | none =>
          obtain ⟨h1, h2⟩ := ih map heap n
          simp [h1, h2, hl]
      | some el =>
          obtain ⟨h1, -⟩ := ih (map.erase f) (heap - (UInt64.ofNat f.len + el.heapSize)) (n + 1)
          simp only [List.mem_cons, forall_eq_or_imp, hl, reduceCtorEq, false_and, iff_false]
          omega

theorem hdel_agrees (c : HDelCommand) (he : e.isExpired now = true) :
    Agrees blocks now ((Access.take (hdelTaken c) : Access S _).onCell 0 (some e))
      ((Access.take (hdelTaken c)).onCell 0 none) ↔
      ∃ map cap size, e.data = .hash map cap size ∧ ∀ f ∈ c.fields, map.lookup f = none := by
  cases hd : e.data with
  | hash map cap size =>
      obtain ⟨-, hcount⟩ := hdelAll_count c.fields map size 0
      have hresult : unlessExpired now ((hdelTaken (S := S) c (some e)).2.result none) = none := by
        simp only [hdelTaken, hd]
        split
        · rfl
        · exact same_expiry he (newEntry_expiresAt _ _)
      have hreply : (hdelTaken (S := S) c (some e)).1 =
          .logged (.integer (hdelAll map size 0 c.fields).2.2) (.hdel c) := by
        simp only [hdelTaken, hd]
      simp only [Agrees, Access.onCell, hresult, hreply]
      simp only [Done.logged, hdelTaken, Done.ok, PutBack.result, Except.ok.injEq, Frame.integer.injEq,
        Value.hash.injEq]
      constructor
      · rintro ⟨hz, -, -⟩
        exact ⟨map, cap, size, ⟨rfl, rfl, rfl⟩, hcount.mp (by exact_mod_cast hz)⟩
      · rintro ⟨_, _, _, ⟨rfl, rfl, rfl⟩, h⟩
        exact ⟨by exact_mod_cast hcount.mpr h, fun _ => trivial, rfl⟩
  | _ => simp [Agrees, Access.onCell, hdelTaken, hd, Done.ok, wrongType]

section Scores

variable [F64 S]

theorem zadd_agrees (rt : Runtime) (c : ZAddCommand S) (he : e.isExpired now = true) :
    ¬ Agrees blocks now ((Access.take (zaddTaken rt c) : Access S _).onCell 0 (some e))
      ((Access.take (zaddTaken rt c)).onCell 0 none) := by
  refine not_agrees_of_hidden rfl ?_
  cases hd : e.data with
  | zset =>
      simp only [zaddTaken, hd, PutBack.result]
      exact same_expiry he (newEntry_expiresAt _ _)
  | _ => simp [zaddTaken, hd, PutBack.result, unlessExpired_eq_none he]

omit [Host] [F64 S] in
theorem zsetRead_agrees (found : ZSet S → Frame) (absent : Frame) (he : e.isExpired now = true) :
    Agrees blocks now ((zsetRead found absent : Access S _).onCell 0 (some e))
      ((zsetRead found absent).onCell 0 none) ↔ ∃ z size, e.data = .zset z size ∧ found z = absent := by
  rw [zsetRead, read_agrees _ he]
  cases hd : e.data <;> simp [hd]

omit [Host] in
theorem zscore_agrees (c : ZScoreCommand) (he : e.isExpired now = true) :
    Agrees blocks now ((zscoreAccess c : Access S _).onCell 0 (some e)) ((zscoreAccess c).onCell 0 none) ↔
      ∃ z size, e.data = .zset z size ∧ z.score c.member = none := by
  rw [zscoreAccess, zsetRead_agrees _ _ he]
  refine exists_congr (fun z => exists_congr (fun size => and_congr_right (fun _ => ?_)))
  cases z.score c.member <;> simp

omit [Host] in
theorem zrank_agrees (c : ZRankCommand) (he : e.isExpired now = true) :
    Agrees blocks now ((zrankAccess c : Access S _).onCell 0 (some e)) ((zrankAccess c).onCell 0 none) ↔
      ∃ z size, e.data = .zset z size ∧ z.rank c.member = none := by
  rw [zrankAccess, zsetRead_agrees _ _ he]
  refine exists_congr (fun z => exists_congr (fun size => and_congr_right (fun _ => ?_)))
  cases z.rank c.member <;> simp

omit [Host] [F64 S] in
theorem zrange_agrees (c : ZRangeCommand) (he : e.isExpired now = true) :
    Agrees blocks now ((zrangeAccess c : Access S _).onCell 0 (some e)) ((zrangeAccess c).onCell 0 none) ↔
      ∃ z size, e.data = .zset z size ∧ z.range c.start c.stop = [] := by
  rw [zrangeAccess, zsetRead_agrees _ _ he]
  refine exists_congr (fun z => exists_congr (fun size => and_congr_right (fun _ => ?_)))
  simp

theorem zrem_agrees (c : ZRemCommand) (he : e.isExpired now = true) :
    Agrees blocks now ((Access.take (zremTaken c) : Access S _).onCell 0 (some e))
      ((Access.take (zremTaken c)).onCell 0 none) ↔
      ∃ z size, e.data = .zset z size ∧ z.score c.member = none := by
  cases hd : e.data with
  | zset z size =>
      cases hl : z.dict.lookup c.member with
      | none =>
          have hresult : unlessExpired now ((zremTaken (S := S) c (some e)).2.result none) = none := by
            simp only [zremTaken, hd, ZSet.delete, hl, PutBack.result]
            exact same_expiry he (newEntry_expiresAt _ _)
          simp only [Agrees, Access.onCell, hresult]
          simp [zremTaken, hd, ZSet.delete, hl, Done.ok, PutBack.result, unlessExpired_none, ZSet.score]
      | some v => simp [Agrees, Access.onCell, zremTaken, hd, ZSet.delete, hl, Done.ok, Done.logged, ZSet.score]
  | _ => simp [Agrees, Access.onCell, zremTaken, hd, Done.ok, Done.err]

end Scores

section Documents

variable [SerdeJson J]

omit [Host] in
theorem jsonUpdate_hidden (c : JsonSetCommand) (root : J) (he : e.isExpired now = true) :
    unlessExpired now ((jsonUpdate (S := S) c e root).2.result none) = none :=
  same_expiry he rfl

theorem jsonSet_agrees (c : JsonSetCommand) (v : J) (he : e.isExpired now = true) :
    ¬ Agrees blocks now ((Access.take (jsonSetTaken c v) : Access S _).onCell 0 (some e))
      ((Access.take (jsonSetTaken c v)).onCell 0 none) := by
  by_cases hr : isRoot c.path = true
  · refine not_agrees_of_hidden (by simp only [jsonSetTaken, hr, if_true]; rfl) ?_
    cases hd : e.data with
    | json root size =>
        simp only [jsonSetTaken, hd, hr, if_true]
        exact jsonUpdate_hidden c v he
    | _ => simp [jsonSetTaken, hd, PutBack.result, unlessExpired_eq_none he]
  · rintro ⟨hreply, -, -⟩
    cases hd : e.data with
    | json root size =>
        cases ha : SerdeJson.assign root c.path v with
        | none => simp [Access.onCell, jsonSetTaken, hd, hr, ha, Done.err] at hreply
        | some r => simp [Access.onCell, jsonSetTaken, hd, hr, ha, Done.err, jsonUpdate, Done.logged] at hreply
    | _ => simp [Access.onCell, jsonSetTaken, hd, hr, Done.err, wrongTypeText] at hreply

omit [Host] in
theorem jsonGet_agrees (c : JsonGetCommand) (he : e.isExpired now = true) :
    Agrees blocks now ((jsonGetAccess c : Access S _).onCell 0 (some e)) ((jsonGetAccess c).onCell 0 none) ↔
      ∃ root size, e.data = .json root size ∧ isRoot c.path = false ∧
        SerdeJson.pointer root c.path = none := by
  rw [jsonGetAccess, read_agrees _ he]
  cases hd : e.data with
  | json root size =>
      cases hr : isRoot c.path with
      | true => simp [hd]
      | false =>
          cases hp : SerdeJson.pointer root c.path <;> simp [hd, hp]
  | _ => simp [hd]

end Documents

/-- Commands that see an expired entry treat it as no entry exactly when it leaves
them unmoved. -/
theorem agrees_iff_unmoved [F64 S] [SerdeJson J] {rt : Runtime} {at' : Nat}
    {values : LPushCommand → List Bytes} {c : Command S} {key : Str} {a : Access S (Value S J)}
    (hk : keyed rt at' values c = some (key, a)) (he : e.isExpired now = true) :
    Agrees blocks now (a.onCell 0 (some e)) (a.onCell 0 none) ↔ Unmoved values blocks e c := by
  cases c with
  | get c => cases hk; exact get_agrees he
  | set c => cases hk; exact set_agrees c at'
  | lpush c => cases hk; exact lpush_agrees rt c (values c) he
  | lpop c => cases hk; exact lpop_agrees c
  | blpop c => cases hk; exact blpop_agrees c he
  | hset c => cases hk; exact iff_of_false (hset_agrees rt c he) not_false
  | hget c => cases hk; exact hget_agrees c he
  | hdel c => cases hk; exact hdel_agrees c he
  | jsonSet c =>
      obtain ⟨v, hv, hp⟩ := Option.map_eq_some_iff.mp hk
      cases hp
      exact iff_of_false (jsonSet_agrees c v he) (by simp [Unmoved, hv])
  | jsonGet c => cases hk; exact jsonGet_agrees c he
  | zadd c => cases hk; exact iff_of_false (zadd_agrees rt c he) not_false
  | zscore c => cases hk; exact zscore_agrees c he
  | zrank c => cases hk; exact zrank_agrees c he
  | zrange c => cases hk; exact zrange_agrees c he
  | zrem c => cases hk; exact zrem_agrees c he
  | mset | mget | ping | unimplement | eval | multi | exec | multiGroup => cases hk

end Table

section Scripts

/-- A cell without its expired entries; an expired change becomes a deletion. -/
def purgeCell (now : Nat) (c : LuaCell D) : LuaCell D where
  change :=
    match c.change with
    | some (.update e) => if e.isExpired now then some .delete else some (.update e)
    | change => change
  base := unlessExpired now c.base

theorem purgeCell_view (c : LuaCell D) :
    (purgeCell now c).view now = unlessExpired now (c.view now) := by
  obtain ⟨change, base⟩ := c
  rcases change with _ | e | _
  · simp [purgeCell, LuaCell.view, LuaCell.select, unlessExpired_idem]
  · cases he : e.isExpired now with
    | true => simp [purgeCell, LuaCell.view, LuaCell.select, he, changeValue, unlessExpired_eq_none he]
    | false =>
        have hs : unlessExpired now (some e) = some e :=
          unlessExpired_eq_self (by rintro _ ⟨⟩; exact he)
        simp [purgeCell, LuaCell.view, LuaCell.select, he, changeValue, hs]
  · rfl

/-- What the shard will hold of a cell, as long as it has not expired. -/
def future (now : Nat) (c : LuaCell D) : Option (ValueEntry D) := unlessExpired now c.committed

theorem purgeCell_future (c : LuaCell D) : future now (purgeCell now c) = future now c := by
  obtain ⟨change, base⟩ := c
  rcases change with _ | e | _
  · simp [future, purgeCell, LuaCell.committed, unlessExpired_idem]
  · cases he : e.isExpired now with
    | true => simp [future, purgeCell, LuaCell.committed, he, changeValue, unlessExpired_eq_none he,
        unlessExpired_none]
    | false => simp [future, purgeCell, LuaCell.committed, he]
  · rfl

theorem leaves_future {c c' : LuaCell D} {e : Option (ValueEntry D)} (h : LuaCell.Leaves now c c' e) :
    future now c' = unlessExpired now e := by
  rcases h with ⟨change, hc, rfl⟩ | ⟨hc, rfl, rfl⟩
  · simp [future, LuaCell.committed, hc]
  · have hs : (c.select now).2 = { c with base := unlessExpired now c.base } := by
      simp [LuaCell.select, hc]
    simp [future, LuaCell.committed, hs, hc, view_none hc]

theorem change_of_expired_view {c : LuaCell D} {e : ValueEntry D} (hv : c.view now = some e)
    (he : e.isExpired now = true) : c.change = some (.update e) := by
  obtain ⟨change, base⟩ := c
  rcases change with _ | e' | _
  · have hb : unlessExpired now base = some e := hv
    rw [(unlessExpired_eq_some hb).2] at he
    cases he
  · cases hv
    rfl
  · cases hv

end Scripts

end RustKv.Expiry
