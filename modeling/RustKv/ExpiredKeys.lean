import RustKv.Expiry

namespace RustKv.Expiry

open Text Protocol Domain CacheStore Zset RustKv.Types Executor RustKv.Normal Lua

section Contexts

variable {S J D : Type} {now : Nat} [Host]

def listed : Command S → Bool
  | .get _ | .mget _ | .set _ | .lpush _ | .lpop _ | .blpop _ | .hset _ | .hget _ | .hdel _ | .zadd _
  | .zscore _ | .zrank _ | .zrange _ | .zrem _ | .jsonSet _ | .jsonGet _ => true
  | _ => false

section Normal

/-- Database `db'` is `db` without the entries that have expired. -/
def Purges (now : Nat) (db db' : Db D) : Prop := ∀ k, db'.entry k = unlessExpired now (db.entry k)

/-- The same reply, the same waiting, and the same data as long as it has not expired. -/
def SameOutcome (now : Nat) (x y : Done S × Db D) : Prop :=
  x.1.reply = y.1.reply ∧ x.1.waits = y.1.waits ∧
    ∀ k, unlessExpired now (x.2.entry k) = unlessExpired now (y.2.entry k)

theorem access_same_iff {db db' : Db D} (h : Purges now db db') (key : Str) (a : Access S D) :
    SameOutcome now (db.access now key a) (db'.access now key a) ↔
      ∀ e, db.entry key = some e → e.isExpired now = true →
        Agrees true now (a.onCell now (some e)) (a.onCell now none) := by
  obtain ⟨hd, hk⟩ := db.access_spec now key a
  obtain ⟨hd', hk'⟩ := db'.access_spec now key a
  have hothers : (∀ k, unlessExpired now ((db.access now key a).2.entry k) =
      unlessExpired now ((db'.access now key a).2.entry k)) ↔
      unlessExpired now (a.onCell now (db.entry key)).2 =
        unlessExpired now (a.onCell now (db'.entry key)).2 := by
    constructor
    · intro hall
      have := hall key
      rwa [hk, hk', if_pos rfl, if_pos rfl] at this
    · intro hkey k
      rw [hk, hk']
      split
      · exact hkey
      · rw [h k, unlessExpired_idem]
  rw [SameOutcome, hothers, hd, hd', h key]
  rcases expired_or_same now (db.entry key) with ⟨e, he, hexp⟩ | hsame
  · rw [he, unlessExpired_eq_none hexp]
    constructor
    · rintro ⟨h1, h2, h3⟩ _ ⟨⟩ -
      exact ⟨h1, fun _ => h2, h3⟩
    · intro hall
      obtain ⟨h1, h2, h3⟩ := hall e rfl hexp
      exact ⟨h1, h2 rfl, h3⟩
  · rw [hsame]
    refine iff_of_true ⟨rfl, rfl, rfl⟩ ?_
    intro e he hexp
    rw [he, unlessExpired_eq_none hexp] at hsame
    cases hsame

omit [Host] in
/-- Looking an entry up, or replacing it, is done with an eye on its expiration. -/
theorem agrees_of_lookup {a : Access S D} (ha : ∀ f, a ≠ .take f) {e : ValueEntry D}
    (he : e.isExpired now = true) : Agrees true now (a.onCell now (some e)) (a.onCell now none) := by
  cases a with
  | take f => exact absurd rfl (ha f)
  | select f => simp [Agrees, Access.onCell, unlessExpired_eq_none he, unlessExpired_none]
  | insert value done => simp [Agrees, Access.onCell]
  | read f => simp [Agrees, Access.onCell, unlessExpired_eq_none he, unlessExpired_none]

variable [F64 S] [SerdeJson J]

omit [Host] [F64 S] [SerdeJson J] in
theorem mgetAll_reply (keys : List Str) (now : Nat) (m : Cells (Value S J)) :
    (mgetAll (S := S) now m keys).1 =
      .ok (keys.map (fun k => stringReply (unlessExpired now (m k)))) := by
  induction keys with
  | nil => rfl
  | cons key keys ih =>
      have hm : Function.update m key (m key) = m := Function.update_eq_self key m
      simp only [mgetAll, Context.access, getAccess, Access.onCell, hm]
      revert ih
      cases mgetAll (S := S) now m keys with
      | mk r m' =>
          rintro ⟨⟩
          rfl

theorem takesOut_iff {rt : Runtime} {at' : Nat} {values : LPushCommand → List Bytes} {c : Command S}
    {key : Str} {a : Access S (Value S J)} (hk : keyed rt at' values c = some (key, a)) :
    takesOut values c = true ↔ ∃ f, a = .take f := by
  cases c with
  | lpush c =>
      cases hk
      by_cases hv : values c = [] <;> simp [takesOut, lpushAccess, hv]
  | set c =>
      cases hk
      rcases hc : c.condition with _ | _ <;> simp [takesOut, setAccess, hc]
  | jsonSet c =>
      obtain ⟨v, hv, hp⟩ := Option.map_eq_some_iff.mp hk
      cases hp
      simp [takesOut]
  | mset | mget | ping | unimplement | eval | multi | exec | multiGroup => cases hk
  | get | lpop | blpop | hset | hget | hdel | jsonGet | zadd | zscore | zrank | zrange | zrem =>
      cases hk
      simp [takesOut, getAccess, hgetAccess, jsonGetAccess, zscoreAccess, zrankAccess, zrangeAccess, zsetRead]

theorem touched_of_keyed {rt : Runtime} {at' : Nat} {values : LPushCommand → List Bytes} {c : Command S}
    {key : Str} {a : Access S (Value S J)} (hk : keyed rt at' values c = some (key, a)) :
    touched c = [key] := by
  cases c with
  | jsonSet c =>
      obtain ⟨v, hv, hp⟩ := Option.map_eq_some_iff.mp hk
      cases hp
      rfl
  | mset | mget | ping | unimplement | eval | multi | exec | multiGroup => cases hk
  | get | set | lpush | lpop | blpop | hset | hget | hdel | jsonGet | zadd | zscore | zrank | zrange
  | zrem =>
      cases hk
      rfl

/-- What a command in the Normal context gives back, when the waiting clients of
`queues` are there to be served. -/
def answer (rt : Runtime) (now : Nat) (queues : Queues) (db : Db (Value S J)) :
    Command S → Done S × Db (Value S J)
  | .lpush c => db.access now c.key (lpushAccess rt c (handOff queues c).2.2)
  | c => execute rt now db c

theorem Server.execute_db (s : Server S J) (rt : Runtime) (c : Command S) :
    (s.execute rt c).db = (answer rt s.now s.blockingQueues s.db c).2 := by
  cases c <;> rfl

/-- What is left to push when the waiting clients have been served. -/
def unserved (queues : Queues) (c : LPushCommand) : List Bytes := (handOff queues c).2.2

theorem answer_keyed {rt : Runtime} {queues : Queues} {c : Command S} {key : Str}
    {a : Access S (Value S J)} (hk : keyed rt now (unserved queues) c = some (key, a))
    (db : Db (Value S J)) : answer rt now queues db c = db.access now key a := by
  cases c with
  | jsonSet c =>
      obtain ⟨v, hv, hp⟩ := Option.map_eq_some_iff.mp hk
      cases hp
      simp only [answer, execute, executeJsonSet, hv]
      rfl
  | mset | mget | ping | unimplement | eval | multi | exec | multiGroup => cases hk
  | get | set | lpush | lpop | blpop | hset | hget | hdel | jsonGet | zadd | zscore | zrank | zrange
  | zrem =>
      cases hk
      rfl

/-- The expired entries the command takes out are as good as none. -/
def NormalHarmless (now : Nat) (queues : Queues) (db : Db (Value S J)) (c : Command S) : Prop :=
  takesOut (unserved queues) c = true → ∀ key ∈ touched c, ∀ e, db.entry key = some e →
    e.isExpired now = true → Unmoved (unserved queues) true e c

theorem normal_same_iff {rt : Runtime} {queues : Queues} {db db' : Db (Value S J)}
    (h : Purges now db db') {c : Command S} (hc : listed c = true) :
    SameOutcome now (answer rt now queues db c) (answer rt now queues db' c) ↔
      NormalHarmless now queues db c := by
  cases hk : keyed (J := J) rt now (unserved queues) c with
  | some p =>
      obtain ⟨key, a⟩ := p
      rw [answer_keyed hk, answer_keyed hk, access_same_iff h, NormalHarmless, takesOut_iff hk,
        touched_of_keyed hk]
      simp only [List.mem_singleton, forall_eq]
      constructor
      · rintro hall ⟨f, rfl⟩ e he hexp
        exact (agrees_iff_unmoved hk hexp).mp (hall e he hexp)
      · intro hall e he hexp
        by_cases ha : ∃ f, a = .take f
        · have hu : Agrees true now (a.onCell 0 (some e)) (a.onCell 0 none) :=
            (agrees_iff_unmoved hk hexp).mpr (hall ha e he hexp)
          obtain ⟨f, rfl⟩ := ha
          exact hu
        · exact agrees_of_lookup (fun f hf => ha ⟨f, hf⟩) hexp
  | none =>
      cases c with
      | mget c =>
          refine iff_of_true ?_ (by simp [NormalHarmless, takesOut])
          obtain ⟨hd, he⟩ := db.execute_entry rt now (.mget c)
          obtain ⟨hd', he'⟩ := db'.execute_entry rt now (.mget c)
          have hreply (m : Cells (Value S J)) : (execute rt now m (.mget c : Command S)) =
              (⟨(mgetAll (S := S) now m c.keys).1.map .array, none, false⟩, m) :=
            Prod.ext rfl (mgetAll_cells c.keys now m)
          simp only [hreply, mgetAll_reply] at hd he hd' he'
          refine ⟨?_, ?_, fun k => ?_⟩
          · simp only [answer, hd, hd', h _, unlessExpired_idem]
          · simp only [answer, hd, hd']
          · simp only [answer, he, he', h k, unlessExpired_idem]
      | jsonSet c =>
          have hv : SerdeJson.fromStr (J := J) c.value = none := Option.map_eq_none_iff.mp hk
          refine iff_of_true ?_ (fun _ _ _ _ _ _ => hv)
          simp only [answer, execute, executeJsonSet, hv]
          refine ⟨rfl, rfl, fun k => ?_⟩
          rw [h k, unlessExpired_idem]
      | mset | ping | unimplement | eval | multi | exec | multiGroup => cases hc
      | get | set | lpush | lpop | blpop | hset | hget | hdel | jsonGet | zadd | zscore | zrank | zrange
      | zrem => cases hk

end Normal

section Lua

/-- Overlay `o'` is `o` without the entries that have expired. -/
structure OverlayPurges (now : Nat) (o o' : Overlay D) : Prop where
  declared : ∀ k, o'.declared (Host.shardIndex k) = o.declared (Host.shardIndex k)
  cells : ∀ k, o'.cells k = purgeCell now (o.cells k)

/-- The unexpired data of the shards a script has locked. -/
def overlayData (now : Nat) (o : Overlay D) (k : Str) : Option (Option (ValueEntry D)) :=
  (overlaySight o k).map (future now)

def SameReply (now : Nat) (x y : Done S × Overlay D) : Prop :=
  x.1.reply = y.1.reply ∧ overlayData now x.2 = overlayData now y.2

theorem OverlayPurges.data {o o' : Overlay D} (h : OverlayPurges now o o') :
    overlayData now o = overlayData now o' := by
  funext k
  rw [overlayData, overlayData, overlaySight, overlaySight, h.declared, h.cells]
  split
  · simp [purgeCell_future]
  · rfl

theorem overlayData_update (o : Overlay D) {key : Str} (c : LuaCell D)
    (hd : o.declared (Host.shardIndex key) = true) :
    overlayData now { o with cells := Function.update o.cells key c } =
      Function.update (overlayData now o) key (some (future now c)) := by
  funext k
  by_cases hk : k = key
  · subst hk
    simp [overlayData, overlaySight, hd]
  · simp [overlayData, overlaySight, Function.update_of_ne hk]

theorem overlay_same_iff {o o' : Overlay D} (h : OverlayPurges now o o') (key : Str) (a : Access S D) :
    SameReply now (Context.access o now key a) (Context.access o' now key a) ↔
      (o.declared (Host.shardIndex key) = true → ∀ e, (o.cells key).change = some (.update e) →
        e.isExpired now = true → Agrees false now (a.onCell 0 (some e)) (a.onCell 0 none)) := by
  cases hd : o.declared (Host.shardIndex key) with
  | false =>
      have hd' : o'.declared (Host.shardIndex key) = false := (h.declared key).trans hd
      simp only [SameReply, Context.access, hd, hd', Bool.false_eq_true, if_false, false_implies,
        iff_true]
      exact ⟨trivial, h.data⟩
  | true =>
      have hd' : o'.declared (Host.shardIndex key) = true := (h.declared key).trans hd
      obtain ⟨hx, hl⟩ := LuaCell.run_view a now key (o.cells key)
      obtain ⟨hx', hl'⟩ := LuaCell.run_view a now key (o'.cells key)
      rw [h.cells, purgeCell_view] at hx' hl'
      have hdata : overlayData now (Context.access (S := S) o now key a).2 =
          overlayData now (Context.access (S := S) o' now key a).2 ↔
          unlessExpired now (a.onCell 0 ((o.cells key).view now)).2 =
            unlessExpired now (a.onCell 0 (unlessExpired now ((o.cells key).view now))).2 := by
        simp only [Context.access, hd, hd', if_true]
        rw [overlayData_update _ _ hd, overlayData_update _ _ hd', h.cells, leaves_future hl,
          leaves_future hl', h.data]
        constructor
        · intro he
          have := congrFun he key
          simpa using this
        · intro he
          rw [he]
      have hreply : (Context.access (S := S) o now key a).1.reply =
          (Context.access (S := S) o' now key a).1.reply ↔
          (a.onCell 0 ((o.cells key).view now)).1.reply =
            (a.onCell 0 (unlessExpired now ((o.cells key).view now))).1.reply := by
        simp only [Context.access, hd, hd', if_true]
        rw [hx, h.cells, hx']
      rw [SameReply, hdata, hreply]
      rcases expired_or_same now ((o.cells key).view now) with ⟨e, he, hexp⟩ | hsame
      · rw [he, unlessExpired_eq_none hexp]
        constructor
        · rintro ⟨h1, h2⟩ - e' he' -
          rw [change_of_expired_view he hexp] at he'
          cases he'
          exact ⟨h1, by simp, h2⟩
        · intro hall
          obtain ⟨h1, -, h2⟩ := hall rfl e (change_of_expired_view he hexp) hexp
          exact ⟨h1, h2⟩
      · rw [hsame]
        refine iff_of_true ⟨rfl, rfl⟩ ?_
        intro _ e he hexp
        rw [view_change he] at hsame
        rw [show changeValue (.update e) = some e from rfl, unlessExpired_eq_none hexp] at hsame
        cases hsame

section Scripts

variable [F64 S] [SerdeJson J]

theorem execute_keyed {γ : Type} [Context γ (Value S J)] {rt : Runtime} {c : Command S} {key : Str}
    {a : Access S (Value S J)} (hk : keyed rt now (fun c => c.values) c = some (key, a)) (x : γ) :
    execute rt now x c = Context.access x now key a := by
  cases c with
  | jsonSet c =>
      obtain ⟨v, hv, hp⟩ := Option.map_eq_some_iff.mp hk
      cases hp
      simp only [execute, executeJsonSet, hv]
  | mset | mget | ping | unimplement | eval | multi | exec | multiGroup => cases hk
  | get | set | lpush | lpop | blpop | hset | hget | hdel | jsonGet | zadd | zscore | zrank | zrange
  | zrem =>
      cases hk
      rfl

/-- A lookup leaves what a script sees and what it will commit as it is. -/
structure Kept (now : Nat) (o o₁ : Overlay D) : Prop where
  declared : o₁.declared = o.declared
  view : ∀ k, (o₁.cells k).view now = (o.cells k).view now
  data : overlayData now o₁ = overlayData now o

omit [F64 S] [SerdeJson J] in
theorem get_overlay (now : Nat) (o : Overlay (Value S J)) {key : Str}
    (hd : o.declared (Host.shardIndex key) = true) :
    ∃ o₁, Context.access o now key (getAccess : Access S _) =
        (⟨.ok (stringReply ((o.cells key).view now)), none, false⟩, o₁) ∧ Kept now o o₁ := by
  have hview : ((o.cells key).select now).2.view now = (o.cells key).view now := by
    rcases hc : (o.cells key).change with _ | change
    · simp [LuaCell.view, LuaCell.select, hc, unlessExpired_idem]
    · simp [LuaCell.view, LuaCell.select, hc]
  have hfuture : future now ((o.cells key).select now).2 = future now (o.cells key) := by
    rcases hc : (o.cells key).change with _ | change
    · simp [future, LuaCell.committed, LuaCell.select, hc, unlessExpired_idem]
    · simp [LuaCell.select, hc]
  refine ⟨{ o with cells := Function.update o.cells key ((o.cells key).select now).2 }, ?_, rfl, ?_, ?_⟩
  · simp only [Context.access, hd, if_true]
    rfl
  · intro k
    by_cases hk : k = key
    · subst hk
      simpa using hview
    · simp [Function.update_of_ne hk]
  · rw [overlayData_update _ _ hd, hfuture]
    refine Function.update_eq_self_iff.mpr ?_
    simp [overlayData, overlaySight, hd]

omit [F64 S] [SerdeJson J] in
theorem mget_overlay (now : Nat) (keys : List Str) (o : Overlay (Value S J)) :
    Kept now o (mgetAll (S := S) now o keys).2 ∧
      (mgetAll (S := S) now o keys).1 =
        match keys.find? (fun k => !o.declared (Host.shardIndex k)) with
        | some k => .error (undeclared (Host.shardIndex k))
        | none => .ok (keys.map (fun k => stringReply ((o.cells k).view now))) := by
  induction keys generalizing o with
  | nil => exact ⟨⟨rfl, fun _ => rfl, rfl⟩, rfl⟩
  | cons key keys ih =>
      cases hd : o.declared (Host.shardIndex key) with
      | false =>
          simp only [mgetAll, Context.access, hd, Bool.false_eq_true, if_false, List.find?_cons, Bool.not_false]
          exact ⟨⟨rfl, fun _ => rfl, rfl⟩, trivial⟩
      | true =>
          obtain ⟨o₁, hacc, hkept⟩ := get_overlay (S := S) now o hd
          obtain ⟨hkept', hreply⟩ := ih o₁
          have htrans : Kept now o (mgetAll (S := S) now o₁ keys).2 :=
            ⟨hkept'.declared.trans hkept.declared, fun k => (hkept'.view k).trans (hkept.view k),
              hkept'.data.trans hkept.data⟩
          simp only [mgetAll, hacc, List.find?_cons, hd, Bool.not_true]
          simp only [hkept.declared, hkept.view] at hreply
          revert hreply htrans
          rcases mgetAll (S := S) now o₁ keys with ⟨r, o₂⟩
          rintro htrans hreply
          simp only at hreply
          subst hreply
          cases keys.find? (fun k => !o.declared (Host.shardIndex k)) <;> exact ⟨htrans, rfl⟩

def OverlayHarmless (now : Nat) (o : Overlay (Value S J)) (c : Command S) : Prop :=
  (∀ key ∈ touched c, o.declared (Host.shardIndex key) = true) → ∀ key ∈ touched c, ∀ e,
    (o.cells key).change = some (.update e) → e.isExpired now = true →
      Unmoved (fun c => c.values) false e c

omit [Host] [F64 S] [SerdeJson J] in
theorem stringReply_same_iff (cell : LuaCell (Value S J)) :
    stringReply (cell.view now) = stringReply (unlessExpired now (cell.view now)) ↔
      ∀ e, cell.change = some (.update e) → e.isExpired now = true → ∀ el, e.data ≠ .simple el := by
  rcases expired_or_same now (cell.view now) with ⟨e, he, hexp⟩ | hsame
  · rw [he, unlessExpired_eq_none hexp, change_of_expired_view he hexp]
    simp only [Option.some.injEq, ChangeOp.update.injEq, forall_eq', hexp, true_implies]
    cases hd : e.data <;> simp [stringReply, hd]
  · rw [hsame]
    refine iff_of_true rfl ?_
    intro e he hexp
    rw [view_change he, show changeValue (.update e) = some e from rfl, unlessExpired_eq_none hexp] at hsame
    cases hsame

theorem mget_same_iff {rt : Runtime} {o o' : Overlay (Value S J)} (h : OverlayPurges now o o')
    (c : MGetCommand) :
    SameReply now (execute rt now o (.mget c : Command S)) (execute rt now o' (.mget c)) ↔
      OverlayHarmless now o (.mget c : Command S) := by
  obtain ⟨hkept, hreply⟩ := mget_overlay (S := S) now c.keys o
  obtain ⟨hkept', hreply'⟩ := mget_overlay (S := S) now c.keys o'
  have hdata : overlayData now (execute rt now o (.mget c : Command S)).2 =
      overlayData now (execute rt now o' (.mget c : Command S)).2 :=
    (hkept.data.trans h.data).trans hkept'.data.symm
  simp only [h.declared, h.cells, purgeCell_view] at hreply'
  rw [SameReply]
  simp only [hdata, and_true]
  simp only [execute, executeMGet, hreply, hreply', OverlayHarmless, touched]
  cases hf : c.keys.find? (fun k => !o.declared (Host.shardIndex k)) with
  | some k =>
      refine iff_of_true rfl (fun hall => ?_)
      have hk := List.find?_some hf
      rw [hall k (List.mem_of_find?_eq_some hf)] at hk
      cases hk
  | none =>
      have hall : ∀ k ∈ c.keys, o.declared (Host.shardIndex k) = true := by
        intro k hk
        simpa using List.find?_eq_none.mp hf k hk
      simp only [Except.map, Except.ok.injEq, Frame.array.injEq, List.map_inj_left]
      constructor
      · intro hs _ k hk
        exact (stringReply_same_iff (o.cells k)).mp (hs k hk)
      · intro hs k hk
        exact (stringReply_same_iff (o.cells k)).mpr (hs hall k hk)

theorem lua_same_iff (rt : Runtime) {o o' : Overlay (Value S J)} (h : OverlayPurges now o o')
    {c : Command S} (hc : listed c = true) :
    SameReply now (execute rt now o c) (execute rt now o' c) ↔ OverlayHarmless now o c := by
  cases hk : keyed (J := J) rt now (fun c => c.values) c with
  | some p =>
      obtain ⟨key, a⟩ := p
      rw [execute_keyed hk, execute_keyed hk, overlay_same_iff h, OverlayHarmless, touched_of_keyed hk]
      simp only [List.mem_singleton, forall_eq]
      refine imp_congr_right (fun _ => forall_congr' (fun e => imp_congr_right (fun _ => ?_)))
      exact imp_congr_right (fun hexp => agrees_iff_unmoved hk hexp)
  | none =>
      cases c with
      | mget c => exact mget_same_iff h c
      | jsonSet c =>
          have hv : SerdeJson.fromStr (J := J) c.value = none := Option.map_eq_none_iff.mp hk
          refine iff_of_true ?_ (fun _ _ _ _ _ _ => hv)
          simp only [execute, executeJsonSet, hv]
          exact ⟨rfl, h.data⟩
      | mset | ping | unimplement | eval | multi | exec | multiGroup => cases hc
      | get | set | lpush | lpop | blpop | hset | hget | hdel | jsonGet | zadd | zscore | zrank | zrange
      | zrem => cases hk

end Scripts

/-- The locked shards `sessions'` are `sessions` without the entries that have expired. -/
structure SessionsPurges (now : Nat) (sessions sessions' : Sessions D) : Prop where
  writes : ∀ i node, sessions.lookup i = some node → Writes node
  writes' : ∀ i node, sessions'.lookup i = some node → Writes node
  cells : ∀ k, sight sessions' k = (sight sessions k).map (purgeCell now)

/-- The same reply, and the same data to be committed as long as it has not expired. -/
def SameCall (now : Nat) (x y : Done S × Sessions D) : Prop :=
  x.1.reply = y.1.reply ∧ ∀ k, (sight x.2 k).map (future now) = (sight y.2 k).map (future now)

/-- The changes of the script that have expired are as good as deletions. -/
def LuaHarmless [F64 S] [SerdeJson J] (now : Nat) (sessions : Sessions (Value S J)) (c : Command S) : Prop :=
  (∀ key ∈ touched c, (sight sessions key).isSome) → ∀ key ∈ touched c, ∀ cell e,
    sight sessions key = some cell → cell.change = some (.update e) → e.isExpired now = true →
      Unmoved (fun c => c.values) false e c

def overlayOf (sessions : Sessions D) : Overlay D where
  declared i := (sessions.lookup i).isSome
  cells k := (sight sessions k).getD ⟨none, none⟩

theorem overlayOf_reflects {sessions : Sessions D}
    (h : ∀ i node, sessions.lookup i = some node → Writes node) :
    Reflects sessions (overlayOf sessions) where
  declared _ := rfl
  writes := h
  cells k node hk := by simp [overlayOf, sight, hk]

theorem sight_isSome (sessions : Sessions D) (k : Str) :
    (sight sessions k).isSome = (overlayOf sessions).declared (Host.shardIndex k) := by
  simp [sight, overlayOf]

theorem SessionsPurges.overlays {sessions sessions' : Sessions D} (h : SessionsPurges now sessions sessions') :
    OverlayPurges now (overlayOf sessions) (overlayOf sessions') where
  declared k := by
    rw [← sight_isSome, ← sight_isSome, h.cells]
    cases sight sessions k <;> rfl
  cells k := by
    simp only [overlayOf, h.cells]
    cases sight sessions k <;> rfl

theorem harmless_iff [F64 S] [SerdeJson J] (sessions : Sessions (Value S J)) (c : Command S) :
    LuaHarmless now sessions c ↔ OverlayHarmless now (overlayOf sessions) c := by
  rw [LuaHarmless, OverlayHarmless]
  simp only [sight_isSome]
  refine forall_congr' (fun hall => forall_congr' (fun key => forall_congr' (fun hkey => ?_)))
  have hs : (sight sessions key).isSome := by
    rw [sight_isSome]
    exact hall key hkey
  obtain ⟨cell, hcell⟩ := Option.isSome_iff_exists.mp hs
  simp only [overlayOf, hcell, Option.getD_some, Option.some.injEq]
  constructor
  · intro h e
    exact h cell e rfl
  · rintro h _ e rfl
    exact h e

/-- Executing a command is executing it where nothing has expired exactly when what
it sees of the expired entries leaves it unmoved: in the Normal context the entries
that it takes out of the shard, in a script the changes of the script itself. -/
theorem expired_invisible_iff [F64 S] [SerdeJson J] {c : Command S} (hc : listed c = true)
    (rt : Runtime) (now : Nat) :
    (∀ (queues : Queues) (db db' : Db (Value S J)), Purges now db db' →
      (SameOutcome now (answer rt now queues db c) (answer rt now queues db' c) ↔
        NormalHarmless now queues db c)) ∧
    ∀ sessions sessions' : Sessions (Value S J), SessionsPurges now sessions sessions' →
      (SameCall now (execute rt now sessions c) (execute rt now sessions' c) ↔
        LuaHarmless now sessions c) := by
  refine ⟨fun queues db db' h => normal_same_iff h hc, fun sessions sessions' h => ?_⟩
  obtain ⟨hd, hr⟩ := (overlayOf_reflects h.writes).execute rt now c
  obtain ⟨hd', hr'⟩ := (overlayOf_reflects h.writes').execute rt now c
  rw [harmless_iff, ← lua_same_iff rt h.overlays hc, SameCall, SameReply, hd, hd',
    reflects_sight hr, reflects_sight hr']
  exact and_congr_right (fun _ => funext_iff.symm)

end Lua

end Contexts

section Sample

local instance : Host := singleShard

local instance : F64 UInt64 := wholeScore

local instance : SerdeJson Str := flatJson

def sampleKey : Str := Str.ofAscii (ascii ['k']) ascii_k

/-- SET k v PXAT 5. -/
def sampleSet : Command UInt64 := .set ⟨sampleKey, ascii ['v'], some (.pxat 5), none⟩

def sampleRuntime : Runtime := ⟨[], 0, 0⟩

def emptyDb : Db (Value UInt64 Str) := Db.new .lru

def expiredDb : Db (Value UInt64 Str) := (execute sampleRuntime 0 emptyDb sampleSet).2

theorem expiredDb_entry (k : Str) : expiredDb.entry k = Function.update emptyDb.entry sampleKey
    (some (setEntry 0 ⟨sampleKey, ascii ['v'], some (.pxat 5), none⟩)) k :=
  congrFun (emptyDb.execute_entry sampleRuntime 0 sampleSet).2 k

theorem expiredDb_purges : Purges 10 expiredDb emptyDb := by
  intro k
  have hnone : emptyDb.entry k = none := Db.entry_new .lru k
  rw [expiredDb_entry, hnone, Function.update_apply]
  split
  · rw [unlessExpired_eq_none rfl]
  · rw [hnone]
    rfl

/-- LPUSH k x. -/
def samplePush : Command UInt64 := .lpush ⟨sampleKey, [ascii ['x']]⟩

/-- A push meets the string that expired long ago. -/
theorem expired_string_refuses_push : listed samplePush = true ∧ Purges 10 expiredDb emptyDb ∧
    ¬ SameOutcome 10 (answer sampleRuntime 10 ∅ expiredDb samplePush)
      (answer sampleRuntime 10 ∅ emptyDb samplePush) := by
  refine ⟨rfl, expiredDb_purges, ?_⟩
  rintro ⟨h, -, -⟩
  have hx : (answer sampleRuntime 10 ∅ expiredDb samplePush).1.reply = .ok wrongType := rfl
  have hy : (answer sampleRuntime 10 ∅ emptyDb samplePush).1.reply = .ok (.integer 1) := rfl
  rw [hx, hy] at h
  cases h

/-- GET k. -/
def sampleGet : Command UInt64 := .get ⟨sampleKey⟩

theorem expired_invisible_iff_sample : listed sampleGet = true ∧ Purges 10 expiredDb emptyDb ∧
    SameOutcome 10 (answer sampleRuntime 10 ∅ expiredDb sampleGet)
      (answer sampleRuntime 10 ∅ emptyDb sampleGet) := by
  refine ⟨rfl, expiredDb_purges, ?_⟩
  refine ((expired_invisible_iff rfl sampleRuntime 10).1 ∅ expiredDb emptyDb expiredDb_purges).mpr ?_
  intro h
  cases h

end Sample

end RustKv.Expiry
