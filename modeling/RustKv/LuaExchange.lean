import RustKv.Replies

namespace RustKv.LuaExchange

open Text Decimal Protocol Domain CommandParser CacheStore Zset RustKv.Types Executor Lua Expiry
open Replies (LuaValue LuaOutcome fromLua fromLuaAll evalReply utf8_eq)

section Tables

inductive Key
  | string (s : Bytes)
  | integer (i : Int)
  deriving DecidableEq

mutual

/-- A value of the Lua machine. A number is given by what it is as an i64 and by its text,
a value that no frame can be made of by how it is printed. -/
inductive Value
  | nil
  | boolean (b : Bool)
  | integer (i : Int)
  | number (n : Int) (text : Str)
  | string (s : Bytes)
  | table (t : Table)
  | other (debug : String)

/-- A table is what has been set in it. -/
inductive Table
  | empty
  | set (t : Table) (key : Key) (value : Value)

end

def Table.get (key : Key) : Table → Value
  | .empty => .nil
  | .set t k v => if key = k then v else t.get key

/-- How many entries a table can have. -/
def Table.size : Table → Nat
  | .empty => 0
  | .set t _ _ => t.size + 1

/-- The conversion to a String, which takes numbers too. -/
def Value.toStr : Value → Option Str
  | .string s => (fromUtf8 s).toOption
  | .integer i => (fromUtf8 (decimalInt i)).toOption
  | .number _ text => some text
  | _ => none

/-- The iterator sequence_values: it goes on until it finds nil. -/
def sequenceValues (entry : Key → LuaValue) : Nat → Int → List LuaValue
  | 0, _ => []
  | n + 1, i =>
      match entry (.integer i) with
      | .nil => []
      | v => v :: sequenceValues entry n (i + 1)

mutual

/-- What from_lua asks mlua for. -/
def Value.shown : Value → LuaValue
  | .nil => .nil
  | .boolean b => .boolean b
  | .integer i => .integer i
  | .number n _ => .number n
  | .string s => .string s
  | .table t => .table (t.get (.string (ascii ['o', 'k']))).toStr (t.get (.string (ascii ['e', 'r', 'r']))).toStr
      (sequenceValues t.shown t.size 1) none
  | .other debug => .other debug

def Table.shown : Table → Key → LuaValue
  | .empty, _ => .nil
  | .set t k v, key => if key = k then v.shown else t.shown key

end

def Table.keys : Table → List Key
  | .empty => []
  | .set t k _ => k :: t.keys

theorem Table.length_keys : ∀ t : Table, t.keys.length = t.size
  | .empty => rfl
  | .set t _ _ => congrArg (· + 1) t.length_keys

theorem Table.shown_of_not_mem {key : Key} : ∀ t : Table, key ∉ t.keys → t.shown key = .nil
  | .empty, _ => rfl
  | .set t k v, h => by
      have hk : key ≠ k := fun hk => h (hk ▸ List.mem_cons_self)
      rw [Table.shown, if_neg hk]
      exact t.shown_of_not_mem (fun hm => h (List.mem_cons_of_mem _ hm))

/-- The values are found one after the other, and after them nil unless the bound is reached. -/
theorem sequenceValues_spec (entry : Key → LuaValue) (n : Nat) (i : Int) :
    (∀ k : Nat, k < (sequenceValues entry n i).length → entry (.integer (i + k)) ≠ .nil) ∧
      ((sequenceValues entry n i).length = n ∨
        entry (.integer (i + (sequenceValues entry n i).length)) = .nil) := by
  induction n generalizing i with
  | zero => exact ⟨fun k hk => absurd hk (Nat.not_lt_zero k), .inl rfl⟩
  | succ n ih =>
      cases hv : entry (.integer i) with
      | nil =>
          rw [sequenceValues, hv]
          exact ⟨fun k hk => absurd hk (Nat.not_lt_zero k), .inr (by simpa using hv)⟩
      | string | integer | number | boolean | table | other =>
          have hstep (k : Nat) : i + ((k + 1 : Nat) : Int) = i + 1 + k := by omega
          obtain ⟨hfound, hend⟩ := ih (i + 1)
          rw [sequenceValues, hv]
          refine ⟨fun k hk => ?_, ?_⟩
          · cases k with
            | zero => simp [hv]
            | succ k =>
                rw [hstep]
                exact hfound k (Nat.lt_of_succ_lt_succ hk)
          · rw [List.length_cons, hstep]
            exact hend.imp (congrArg (· + 1)) id

/-- The iterator stops only at nil: there are no more values than entries. -/
theorem sequenceValues_stops (t : Table) :
    t.shown (.integer (1 + (sequenceValues t.shown t.size 1).length)) = .nil := by
  obtain ⟨hfound, hlength | hnil⟩ := sequenceValues_spec t.shown t.size 1
  · by_contra hmore
    have hkeys : ((List.range (t.size + 1)).map (fun k : Nat => Key.integer (1 + k))) ⊆ t.keys := by
      intro key hkey
      obtain ⟨k, hk, rfl⟩ := List.mem_map.mp hkey
      by_contra hnot
      have hle : k ≤ t.size := Nat.lt_succ_iff.mp (List.mem_range.mp hk)
      rcases Nat.lt_or_eq_of_le hle with hlt | rfl
      · exact hfound k (hlength.symm ▸ hlt) (t.shown_of_not_mem hnot)
      · rw [hlength] at hmore
        exact hmore (t.shown_of_not_mem hnot)
    have hnodup : ((List.range (t.size + 1)).map (fun k : Nat => Key.integer (1 + k))).Nodup := by
      apply List.nodup_range.map
      intro a b hab
      have := Key.integer.inj hab
      omega
    have hcount := (List.subperm_of_subset hnodup hkeys).length_le
    rw [List.length_map, List.length_range, t.length_keys] at hcount
    omega
  · exact hnil

end Tables

section Frames

mutual

def intoLua : Frame → Value
  | .simple s => .table (.set .empty (.string (ascii ['o', 'k'])) (.string s))
  | .error msg => .table (.set .empty (.string (ascii ['e', 'r', 'r'])) (.string msg))
  | .integer i => .integer i
  | .bulk data => .string data
  | .array frames => .table (setAll .empty 0 frames)
  | .null => .boolean false

/-- The loop over the frames of an array, which starts at frame i. -/
def setAll (t : Table) (i : Nat) : List Frame → Table
  | [] => t
  | frame :: frames => setAll (.set t (.integer (i + 1)) (intoLua frame)) (i + 1) frames

end

mutual

/-- The texts of simple and error frames are Strings. -/
def Texts : Frame → Prop
  | .simple s => utf8Error s = none
  | .error msg => utf8Error msg = none
  | .array frames => TextsAll frames
  | _ => True

def TextsAll : List Frame → Prop
  | [] => True
  | f :: fs => Texts f ∧ TextsAll fs

end

theorem textsAll_iff (fs : List Frame) : TextsAll fs ↔ ∀ f ∈ fs, Texts f := by
  induction fs with
  | nil => simp [TextsAll]
  | cons f fs ih => simp [TextsAll, ih]

theorem setAll_get_string (s : Bytes) (t : Table) (i : Nat) (frames : List Frame) :
    (setAll t i frames).get (.string s) = t.get (.string s) := by
  induction frames generalizing t i with
  | nil => rfl
  | cons frame frames ih =>
      rw [setAll, ih, Table.get, if_neg (by simp)]

theorem setAll_size (t : Table) (i : Nat) (frames : List Frame) :
    (setAll t i frames).size = t.size + frames.length := by
  induction frames generalizing t i with
  | nil => rfl
  | cons frame frames ih =>
      rw [setAll, ih, Table.size, List.length_cons]
      omega

theorem setAll_shown_below (t : Table) {i j : Nat} (frames : List Frame) (h : j ≤ i) :
    (setAll t i frames).shown (.integer j) = t.shown (.integer j) := by
  induction frames generalizing t i with
  | nil => rfl
  | cons frame frames ih =>
      have hj : Key.integer j ≠ .integer (i + 1) := by
        intro hk
        have := Key.integer.inj hk
        omega
      rw [setAll, ih _ (Nat.le_succ_of_le h), Table.shown, if_neg hj]

theorem shown_intoLua_ne_nil (f : Frame) : (intoLua f).shown ≠ .nil := by
  cases f <;> simp [intoLua, Value.shown]

theorem sequenceValues_cons {entry : Key → LuaValue} {i : Int} (n : Nat) (h : entry (.integer i) ≠ .nil) :
    sequenceValues entry (n + 1) i = entry (.integer i) :: sequenceValues entry n (i + 1) := by
  rw [sequenceValues]
  split
  · next hv => exact absurd hv h
  · rfl

/-- The values found from i + 1 on are those of the frames, false for a null included. -/
theorem sequenceValues_setAll (t : Table) (i : Nat) (frames : List Frame)
    (h : ∀ j : Nat, i < j → t.shown (.integer j) = .nil) :
    sequenceValues (setAll t i frames).shown frames.length (i + 1) =
      frames.map (fun f => (intoLua f).shown) := by
  induction frames generalizing t i with
  | nil => rfl
  | cons frame frames ih =>
      have hfirst : (setAll t i (frame :: frames)).shown (.integer (i + 1)) = (intoLua frame).shown := by
        have hbelow := setAll_shown_below (.set t (.integer (i + 1)) (intoLua frame)) frames (le_refl (i + 1))
        rw [Nat.cast_succ] at hbelow
        rw [setAll, hbelow, Table.shown, if_pos rfl]
      have hrest := ih (.set t (.integer (i + 1)) (intoLua frame)) (i + 1) (by
        intro j hj
        rw [Table.shown, if_neg (by intro hk; have := Key.integer.inj hk; omega)]
        exact h j (Nat.lt_of_succ_lt hj))
      rw [List.length_cons, sequenceValues_cons _ (hfirst ▸ shown_intoLua_ne_nil frame), hfirst]
      rw [Nat.cast_succ] at hrest
      rw [setAll, hrest, List.map_cons]

theorem toStr_string {s : Bytes} (h : utf8Error s = none) : (Value.string s).toStr = some ⟨s, h⟩ := by
  rw [Value.toStr, fromUtf8_bytes ⟨s, h⟩]
  rfl

theorem shown_array (frames : List Frame) :
    (intoLua (.array frames)).shown = .table none none (frames.map (fun f => (intoLua f).shown)) none := by
  have hsequence := sequenceValues_setAll .empty 0 frames (fun _ _ => rfl)
  rw [Nat.cast_zero, Int.zero_add] at hsequence
  rw [intoLua, Value.shown, setAll_get_string, setAll_get_string, setAll_size, Table.size, Nat.zero_add,
    hsequence]
  rfl

mutual

theorem fromLua_intoLua : ∀ f : Frame, Texts f → fromLua (intoLua f).shown = .ok f
  | .simple s, h => by
      rw [intoLua, Value.shown, Table.get, if_pos rfl, toStr_string h, fromLua]
  | .error msg, h => by
      rw [intoLua, Value.shown, Table.get, if_neg (by decide), Table.get, Table.get, if_pos rfl, toStr_string h]
      rfl
  | .integer i, _ => rfl
  | .bulk data, _ => rfl
  | .null, _ => rfl
  | .array frames, h => by
      rw [shown_array, fromLua, fromLuaAll_intoLua frames h]
      rfl

theorem fromLuaAll_intoLua : ∀ fs : List Frame, TextsAll fs →
    fromLuaAll (fs.map (fun f => (intoLua f).shown)) = .ok fs
  | [], _ => rfl
  | f :: fs, h => by
      rw [List.map_cons, fromLuaAll, fromLua_intoLua f h.1, fromLuaAll_intoLua fs h.2]
      rfl

end

end Frames

section Replies

/-- Where the scan starts makes no difference, and texts one after the other are a text. -/
theorem utf8ErrorFrom_append {a b : Bytes} {i : Nat} (j : Nat) (ha : utf8ErrorFrom i a = none)
    (hb : ∀ k, utf8ErrorFrom k b = none) : utf8ErrorFrom j (a ++ b) = none := by
  fun_induction utf8ErrorFrom i a generalizing j with
  | case1 => exact hb j
  | case2 i x xs hx ih =>
      unfold utf8ErrorFrom
      simp only [List.cons_append, if_pos hx]
      exact ih _ ha
  | case4 i x hx h2 c cs hc ih =>
      unfold utf8ErrorFrom
      simp only [List.cons_append, if_neg hx, if_pos h2, if_pos hc]
      exact ih _ ha
  | case11 i x hx h2 h3 c d ds hc hd ih =>
      unfold utf8ErrorFrom
      simp only [List.cons_append, if_neg hx, if_neg h2, if_pos h3, if_neg hc, if_neg hd]
      exact ih _ ha
  | case21 i x hx h2 h3 h4 c d e es hc hd he ih =>
      unfold utf8ErrorFrom
      simp only [List.cons_append, if_neg hx, if_neg h2, if_neg h3, if_pos h4, if_neg hc, if_neg hd, if_neg he]
      exact ih _ ha
  | _ => cases ha

theorem utf8_valid_of_ascii {cs : List Char} (h : cs.all (fun c => decide (c.toNat < 128)) = true)
    (k : Nat) :
    utf8ErrorFrom k (utf8 (String.ofList cs)) = none := by
  apply utf8ErrorFrom_ascii
  intro b hb
  rw [utf8_eq, String.toList_ofList] at hb
  obtain ⟨c, hc, hbc⟩ := List.mem_flatMap.mp hb
  have hc' : c.toNat < 128 := of_decide_eq_true (List.all_eq_true.mp h c hc)
  have hsmall : c.val.toNat ≤ 127 := Nat.lt_succ_iff.mp hc'
  rw [String.utf8EncodeChar, if_pos hsmall, List.mem_singleton] at hbc
  rw [hbc, UInt8.lt_iff_toNat_lt, UInt8.toNat_ofNat']
  change c.val.toNat % 256 < 128
  omega

theorem texts_wrongType : Texts wrongType := utf8_valid_of_ascii (by decide) 0

theorem texts_okFrame : Texts okFrame := utf8ErrorFrom_ascii 0 _ (by decide)

theorem texts_unimplement (c : UnimplementCommand) : Texts (executeUnimplement c) := by
  have hquote (k : Nat) : utf8ErrorFrom k (ascii ['\'']) = none := utf8ErrorFrom_ascii k _ (by decide)
  have hname (k : Nat) : utf8ErrorFrom k (c.command.bytes ++ ascii ['\'']) = none :=
    utf8ErrorFrom_append k c.command.valid hquote
  change utf8Error (_ ++ _ ++ _) = none
  rw [List.append_assoc]
  exact utf8ErrorFrom_append 0 (utf8_valid_of_ascii (by decide) 0) hname

theorem texts_bulks (items : List Bytes) : Texts (.array (items.map .bulk)) := by
  apply (textsAll_iff _).mpr
  intro f hf
  obtain ⟨item, -, rfl⟩ := List.mem_map.mp hf
  trivial

def TextsReply : Except KvError Frame → Prop
  | .ok frame => Texts frame
  | .error _ => True

variable {S J : Type}

def TextsTaken (f : Option (ValueEntry (Types.Value S J)) → Done S × PutBack (Types.Value S J)) : Prop :=
  ∀ e, TextsReply (f e).1.reply

/-- Whatever entry it finds, the texts in its reply are Strings. -/
def TextsAccess : Access S (Types.Value S J) → Prop
  | .take f | .select f => TextsTaken f
  | .insert _ done => TextsReply done.reply
  | .read f => ∀ e, TextsReply (f e)

theorem TextsAccess.run {σ : Type} [KvOperator σ (Types.Value S J)] {a : Access S (Types.Value S J)}
    (h : TextsAccess a) (now : Nat) (key : Str) (map : σ) : TextsReply (a.run now key map).1.reply := by
  cases a with
  | take f | select f => exact h _
  | insert value done => exact h
  | read f => exact h _

theorem texts_stringReply (e : Option (ValueEntry (Types.Value S J))) : Texts (stringReply e) := by
  rcases e with _ | ⟨v, x, n⟩
  · trivial
  · cases v <;> trivial

theorem zsetRead_texts {found : ZSet S → Frame} {absent : Frame} (hf : ∀ z, Texts (found z))
    (ha : Texts absent) : TextsAccess (J := J) (zsetRead found absent) := by
  rintro (_ | ⟨v, x, n⟩)
  · exact ha
  · cases v with
    | zset z => exact hf z
    | simple | list | hash | json => trivial

variable [Host]

theorem set_texts (now : Nat) (c : SetCommand) : TextsAccess (setAccess (S := S) (J := J) now c) := by
  rw [setAccess]
  split
  · next condition _ =>
      intro e
      cases condition <;> cases e <;> trivial
  · exact texts_okFrame

theorem lpush_texts (rt : Runtime) (c : LPushCommand) (values : List Bytes) :
    TextsAccess (lpushAccess (S := S) (J := J) rt c values) := by
  rw [lpushAccess]
  split
  · rintro (_ | ⟨v, x, n⟩)
    · trivial
    · cases v <;> trivial
  · rintro (_ | ⟨v, x, n⟩)
    · trivial
    · cases v with
      | list => trivial
      | simple | hash | zset | json => exact texts_wrongType

theorem lpop_texts (c : LPopCommand) : TextsTaken (S := S) (J := J) (lpopTaken c) := by
  rintro (_ | ⟨v, x, n⟩)
  · trivial
  · cases v with
    | list deque => cases deque <;> trivial
    | simple | hash | zset | json => exact texts_wrongType

theorem blpop_texts (c : BLPopCommand) : TextsTaken (S := S) (J := J) (blpopTaken c) := by
  rintro (_ | ⟨v, x, n⟩)
  · trivial
  · cases v with
    | list deque =>
        cases deque with
        | nil => trivial
        | cons item list => exact texts_bulks [c.key.bytes, item.reply]
    | simple | hash | zset | json => exact texts_wrongType

theorem hset_texts (rt : Runtime) (c : HSetCommand) : TextsTaken (S := S) (J := J) (hsetTaken rt c) := by
  rintro (_ | ⟨v, x, n⟩)
  · trivial
  · cases v with
    | hash => trivial
    | simple | list | zset | json => exact texts_wrongType

omit [Host] in
theorem hget_texts (c : HGetCommand) : TextsAccess (S := S) (J := J) (hgetAccess c) := by
  rintro (_ | ⟨v, x, n⟩)
  · trivial
  · cases v with
    | hash map =>
        simp only
        cases map.lookup c.field <;> trivial
    | simple | list | zset | json => exact texts_wrongType

theorem hdel_texts (c : HDelCommand) : TextsTaken (S := S) (J := J) (hdelTaken c) := by
  rintro (_ | ⟨v, x, n⟩)
  · trivial
  · cases v with
    | hash => trivial
    | simple | list | zset | json => exact texts_wrongType

theorem zadd_texts [F64 S] (rt : Runtime) (c : ZAddCommand S) : TextsTaken (J := J) (zaddTaken rt c) := by
  rintro (_ | ⟨v, x, n⟩)
  · trivial
  · cases v <;> trivial

theorem zrem_texts [F64 S] (c : ZRemCommand) : TextsTaken (S := S) (J := J) (zremTaken c) := by
  rintro (_ | ⟨v, x, n⟩)
  · trivial
  · cases v with
    | zset z =>
        simp only [zremTaken]
        rcases z.delete c.member with ⟨_ | _, z'⟩ <;> trivial
    | simple | list | hash | json => trivial

theorem jsonSet_texts [SerdeJson J] (c : JsonSetCommand) (v : J) : TextsTaken (S := S) (jsonSetTaken c v) := by
  rintro (_ | ⟨w, x, n⟩)
  · simp only [jsonSetTaken]
    split
    · exact texts_okFrame
    · trivial
  · cases w with
    | json root size =>
        simp only [jsonSetTaken]
        split
        · exact texts_okFrame
        · split
          · exact texts_okFrame
          · trivial
    | simple | list | hash | zset => trivial

omit [Host] in
theorem jsonGet_texts [SerdeJson J] (c : JsonGetCommand) : TextsAccess (S := S) (J := J) (jsonGetAccess c) := by
  rintro (_ | ⟨v, x, n⟩)
  · trivial
  · cases v with
    | json root size =>
        simp only
        split
        · trivial
        · split <;> trivial
    | simple | list | hash | zset => trivial

theorem access_texts {a : Access S (Types.Value S J)} (h : TextsAccess a) (sessions : Sessions (Types.Value S J))
    (now : Nat) (key : Str) : TextsReply (Context.access sessions now key a).1.reply := by
  change TextsReply (sessions.access now key a).1.reply
  rw [Sessions.access]
  split
  · exact h.run now key _
  · trivial

theorem mgetAll_texts (now : Nat) (keys : List Str) (sessions : Sessions (Types.Value S J)) :
    TextsReply ((mgetAll (S := S) now sessions keys).1.map .array) := by
  induction keys generalizing sessions with
  | nil => trivial
  | cons key keys ih =>
      have hget := access_texts (a := getAccess (S := S)) texts_stringReply sessions now key
      rw [mgetAll]
      rcases hdone : Context.access sessions now key (getAccess (S := S) (J := J)) with
        ⟨⟨_ | frame, _, _⟩, sessions'⟩
      · trivial
      · rw [hdone] at hget
        have hrest := ih sessions'
        simp only
        rcases hall : mgetAll (S := S) now sessions' keys with ⟨_ | frames, sessions''⟩
        · trivial
        · rw [hall] at hrest
          exact ⟨hget, hrest⟩

variable [F64 S] [SerdeJson J]

theorem keyed_texts {rt : Runtime} {now : Nat} {values : LPushCommand → List Bytes} {c : Command S} {key : Str}
    {a : Access S (Types.Value S J)} (hk : keyed rt now values c = some (key, a)) : TextsAccess a := by
  cases c with
  | get c =>
      cases hk
      exact texts_stringReply
  | set c =>
      cases hk
      exact set_texts now c
  | lpush c =>
      cases hk
      exact lpush_texts rt c (values c)
  | lpop c =>
      cases hk
      exact lpop_texts c
  | blpop c =>
      cases hk
      exact blpop_texts c
  | hset c =>
      cases hk
      exact hset_texts rt c
  | hget c =>
      cases hk
      exact hget_texts c
  | hdel c =>
      cases hk
      exact hdel_texts c
  | jsonSet c =>
      obtain ⟨v, hv, hp⟩ := Option.map_eq_some_iff.mp hk
      cases hp
      exact jsonSet_texts c v
  | jsonGet c =>
      cases hk
      exact jsonGet_texts c
  | zadd c =>
      cases hk
      exact zadd_texts rt c
  | zscore c | zrank c =>
      cases hk
      apply zsetRead_texts
      · intro z
        split <;> trivial
      · trivial
  | zrange c =>
      cases hk
      apply zsetRead_texts
      · intro z
        have hbulks := texts_bulks ((z.range c.start c.stop).map (fun p => p.1))
        rw [List.map_map] at hbulks
        exact hbulks
      · trivial
  | zrem c =>
      cases hk
      exact zrem_texts c
  | mset | mget | ping | unimplement | eval | multi | exec | multiGroup => cases hk

theorem execute_texts (rt : Runtime) (now : Nat) (sessions : Sessions (Types.Value S J)) (c : Command S) :
    TextsReply (execute rt now sessions c).1.reply := by
  cases hk : keyed (J := J) rt now (fun c => c.values) c with
  | some p =>
      obtain ⟨key, a⟩ := p
      rw [execute_keyed hk sessions]
      exact access_texts (keyed_texts hk) sessions now key
  | none =>
      cases c with
      | mset c =>
          simp only [execute, executeMSet]
          split
          · exact texts_okFrame
          · trivial
      | mget c => exact mgetAll_texts now c.keys sessions
      | jsonSet c =>
          have hv : SerdeJson.fromStr (J := J) c.value = none := Option.map_eq_none_iff.mp hk
          simp only [execute, executeJsonSet, hv]
          trivial
      | ping c =>
          simp only [execute, executePing]
          split
          · trivial
          · exact utf8ErrorFrom_ascii 0 _ (by decide)
      | unimplement c => exact texts_unimplement c
      | eval | multi | exec | multiGroup => trivial
      | get | set | lpush | lpop | blpop | hset | hget | hdel | jsonGet | zadd | zscore | zrank | zrange
      | zrem => cases hk

theorem redisCall_texts {moment : Moment} {env : CurrentRequestEnv (Sessions (Types.Value S J)) S} {c : Call}
    {frame : Frame} (h : (redisCall moment env c).1 = .ok frame) : Texts frame := by
  rw [redisCall] at h
  split at h
  · cases h
  · next command _ =>
      have htexts := execute_texts moment.rt moment.now env.sessions command
      split at h
      · next hdone =>
          rw [hdone] at htexts
          cases h
          exact htexts
      · cases h

/-- The script `return redis.call(...)`; `failed` is the error that a failing call raises. -/
def returnCall (failed : LuaError → String) (c : Call) : Script :=
  .call c (fun result =>
    match result with
    | .ok frame =>
        match fromLua (intoLua frame).shown with
        | .ok frame => .ret frame
        | .error e => .fail e
    | .error e => .fail (failed e))

/-- A frame comes back from Lua as it was, and a script that returns its call replies what
the command replied. In any table the sequence is read up to nil. -/
theorem frames_survive_lua :
    (∀ f : Frame, Texts f →
      fromLua (intoLua f).shown = .ok f ∧ evalReply (.ended (.ok (intoLua f).shown)) = .ok f) ∧
    (∀ (failed : LuaError → String) (moments : Nat → Moment) (n : Nat)
      (env : CurrentRequestEnv (Sessions (Types.Value S J)) S) (c : Call) (frame : Frame),
      (redisCall (moments n) env c).1 = .ok frame →
        ((returnCall failed c).run moments n env).1 = .ok frame) ∧
    ∀ t : Table, t.shown (.integer (1 + (sequenceValues t.shown t.size 1).length)) = .nil := by
  refine ⟨fun f hf => ⟨fromLua_intoLua f hf, ?_⟩, ?_, sequenceValues_stops⟩
  · rw [evalReply, fromLua_intoLua f hf]
  · intro failed moments n env c frame hframe
    have htexts := redisCall_texts hframe
    rw [returnCall, Script.run]
    rcases hcall : redisCall (moments n) env c with ⟨result, env'⟩
    rw [hcall] at hframe
    cases hframe
    simp only [fromLua_intoLua frame htexts, Script.run]

end Replies

section Sample

attribute [local instance] singleShard wholeScore flatJson

/-- Every kind of frame, with a null before others in an array. -/
def sampleFrame : Frame :=
  .array [.null, .array [.simple (ascii ['O', 'K']), .null], .error (ascii ['E']), .integer 1, .bulk [0xFF]]

def samplePing : Call where
  args := [ascii ['P', 'I', 'N', 'G']]
  fits := by simp [Fits, FitsAll, ascii]

def pingMoment : Moment := ⟨sampleRuntime, 0⟩

theorem sampleFrame_survives : fromLua (intoLua sampleFrame).shown = .ok sampleFrame ∧
    ((returnCall (fun _ => "") samplePing).run (fun _ => pingMoment) 0
      (⟨∅, []⟩ : CurrentRequestEnv (Sessions (Types.Value UInt64 Str)) UInt64)).1 =
        .ok (.simple (ascii ['P', 'O', 'N', 'G'])) := by
  have hall := frames_survive_lua (S := UInt64) (J := Str)
  refine ⟨(hall.1 sampleFrame ?_).1, hall.2.1 _ _ 0 _ samplePing _ rfl⟩
  simp [sampleFrame, Texts, TextsAll]
  decide

end Sample

end RustKv.LuaExchange
