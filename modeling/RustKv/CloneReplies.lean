import RustKv.Clones
import RustKv.ScriptRecord

namespace RustKv.Clones

open Text Protocol Domain CacheStore Zset RustKv.Types Executor RequestReading Expiry RustKv.Normal Lua

section Entries

variable {S J T : Type}

/-- Two entries that differ at most in room and in sizes. -/
inductive Alike : ValueEntry (Value S J) → ValueEntry (Value S J) → Prop
  | same (value : Value S J) (expiresAt : Option Nat) (n n' : UInt64) :
      Alike ⟨value, expiresAt, n⟩ ⟨value, expiresAt, n'⟩
  | list (deque : List Element) (a a' heap : UInt64) (expiresAt : Option Nat) (n n' : UInt64) :
      Alike ⟨.list deque a heap, expiresAt, n⟩ ⟨.list deque a' heap, expiresAt, n'⟩
  | zset (z : ZSet S) (a a' b b' : UInt64) (expiresAt : Option Nat) (n n' : UInt64) :
      Alike ⟨.zset { z with nodesCapacity := a } b, expiresAt, n⟩ ⟨.zset { z with nodesCapacity := a' } b', expiresAt, n'⟩

inductive AlikePut : PutBack (Value S J) → PutBack (Value S J) → Prop
  | nothing : AlikePut .nothing .nothing
  | insert {value value' : ValueEntry (Value S J)} (h : Alike value value') : AlikePut (.insert value) (.insert value')
  | delete : AlikePut .delete .delete

inductive AlikeChange : ChangeOp (Value S J) → ChangeOp (Value S J) → Prop
  | update {value value' : ValueEntry (Value S J)} (h : Alike value value') : AlikeChange (.update value) (.update value')
  | delete : AlikeChange .delete .delete

theorem Alike.refl (e : ValueEntry (Value S J)) : Alike e e := .same e.data e.expiresAt _ _

theorem alike_refl (e : Option (ValueEntry (Value S J))) : Option.Rel Alike e e := by
  cases e with
  | none => exact .none
  | some e => exact .some (.refl e)

theorem alike_clone (e : Option (ValueEntry (Value S J))) : Option.Rel Alike (e.map cloneEntry) e := by
  rcases e with _ | ⟨value, expiresAt, n⟩
  · exact .none
  · cases value with
    | list deque a heap => exact .some (.list deque _ a heap expiresAt n n)
    | zset z size => exact .some (.zset z _ z.nodesCapacity size size expiresAt n n)
    | simple | hash | json => exact .some (.same _ expiresAt n n)

theorem alike_new [Host] {value value' : Value S J} {expiresAt : Option Nat}
    (h : Alike ⟨value, expiresAt, 0⟩ ⟨value', expiresAt, 0⟩) : Alike (newEntry value expiresAt) (newEntry value' expiresAt) := by
  cases h with
  | same => exact .same _ _ _ _
  | list => exact .list _ _ _ _ _ _ _
  | zset => exact .zset _ _ _ _ _ _ _ _

/-- An access that does not tell apart entries that are alike. -/
def Blind : Access T (Value S J) → Prop
  | .take f | .select f => ∀ e e', Option.Rel Alike e e' → (f e).1 = (f e').1 ∧ AlikePut (f e).2 (f e').2
  | .insert _ _ => True
  | .read f => ∀ e e', Option.Rel Alike e e' → f e = f e'

end Entries

section Commands

variable {S J : Type} [Host]

omit [Host] in
theorem blind_get : Blind (getAccess : Access S (Value S J)) := by
  rintro _ _ (h | _)
  · cases h <;> rfl
  · rfl

theorem blind_set (now : Nat) (c : SetCommand) : Blind (setAccess now c : Access S (Value S J)) := by
  rw [setAccess]
  split
  · next condition _ =>
      rintro _ _ (h | _) <;> cases condition
      · exact ⟨rfl, .nothing⟩
      · exact ⟨rfl, .insert (.refl _)⟩
      · exact ⟨rfl, .insert (.refl _)⟩
      · exact ⟨rfl, .nothing⟩
  · trivial

theorem blind_lpush (rt : Runtime) (c : LPushCommand) (values : List Bytes) :
    Blind (lpushAccess rt c values : Access S (Value S J)) := by
  rw [lpushAccess]
  split
  · rintro _ _ (h | _)
    · cases h <;> exact ⟨rfl, .nothing⟩
    · exact ⟨rfl, .nothing⟩
  · rintro _ _ (h | _)
    · cases h with
      | same value x n n' =>
          cases value with
          | list => exact ⟨rfl, .insert (.refl _)⟩
          | simple | hash | zset | json => exact ⟨rfl, .insert (.same _ _ _ _)⟩
      | list => exact ⟨rfl, .insert (.refl _)⟩
      | zset => exact ⟨rfl, .insert (.zset _ _ _ _ _ _ _ _)⟩
    · exact ⟨rfl, .insert (.refl _)⟩

theorem popRest_alike (list : List Element) (a a' heap : UInt64) (expiresAt : Option Nat) :
    AlikePut (S := S) (J := J) (popRest list a heap expiresAt) (popRest list a' heap expiresAt) := by
  unfold popRest
  split
  · exact .delete
  · exact .insert (alike_new (.list _ _ _ _ _ _ _))

theorem blind_lpop (c : LPopCommand) : Blind (.take (lpopTaken c) : Access S (Value S J)) := by
  rintro _ _ (h | _)
  · cases h with
    | same value x n n' =>
        cases value with
        | list deque a heap =>
            cases deque with
            | nil => exact ⟨rfl, .nothing⟩
            | cons item list => exact ⟨rfl, popRest_alike _ _ _ _ _⟩
        | simple | hash | zset | json => exact ⟨rfl, .insert (.same _ _ _ _)⟩
    | list deque =>
        cases deque with
        | nil => exact ⟨rfl, .nothing⟩
        | cons item list => exact ⟨rfl, popRest_alike _ _ _ _ _⟩
    | zset => exact ⟨rfl, .insert (.zset _ _ _ _ _ _ _ _)⟩
  · exact ⟨rfl, .nothing⟩

theorem blind_blpop (c : BLPopCommand) : Blind (.take (blpopTaken c) : Access S (Value S J)) := by
  rintro _ _ (h | _)
  · cases h with
    | same value x n n' =>
        cases value with
        | list deque a heap =>
            cases deque with
            | nil => exact ⟨rfl, .insert (.refl _)⟩
            | cons item list => exact ⟨rfl, popRest_alike _ _ _ _ _⟩
        | simple | hash | zset | json => exact ⟨rfl, .insert (.same _ _ _ _)⟩
    | list deque =>
        cases deque with
        | nil => exact ⟨rfl, .insert (alike_new (.list _ _ _ _ _ _ _))⟩
        | cons item list => exact ⟨rfl, popRest_alike _ _ _ _ _⟩
    | zset => exact ⟨rfl, .insert (.zset _ _ _ _ _ _ _ _)⟩
  · exact ⟨rfl, .nothing⟩

theorem blind_hset (rt : Runtime) (c : HSetCommand) : Blind (.take (hsetTaken rt c) : Access S (Value S J)) := by
  rintro _ _ (h | _)
  · cases h with
    | same value x n n' =>
        cases value with
        | hash => exact ⟨rfl, .insert (.refl _)⟩
        | simple | list | zset | json => exact ⟨rfl, .insert (.same _ _ _ _)⟩
    | list => exact ⟨rfl, .insert (.list _ _ _ _ _ _ _)⟩
    | zset => exact ⟨rfl, .insert (.zset _ _ _ _ _ _ _ _)⟩
  · exact ⟨rfl, .insert (.refl _)⟩

theorem blind_hdel (c : HDelCommand) : Blind (.take (hdelTaken c) : Access S (Value S J)) := by
  rintro _ _ (h | _)
  · cases h with
    | same value x n n' =>
        cases value with
        | hash map a heap =>
            refine ⟨rfl, ?_⟩
            simp only [hdelTaken]
            split
            · exact .delete
            · exact .insert (.refl _)
        | simple | list | zset | json => exact ⟨rfl, .insert (.same _ _ _ _)⟩
    | list => exact ⟨rfl, .insert (.list _ _ _ _ _ _ _)⟩
    | zset => exact ⟨rfl, .insert (.zset _ _ _ _ _ _ _ _)⟩
  · exact ⟨rfl, .nothing⟩

omit [Host] in
theorem blind_hget (c : HGetCommand) : Blind (hgetAccess c : Access S (Value S J)) := by
  rintro _ _ (h | _)
  · cases h <;> rfl
  · rfl

section Json

variable [SerdeJson J]

theorem blind_jsonSet (c : JsonSetCommand) (root : J) : Blind (.take (jsonSetTaken c root) : Access S (Value S J)) := by
  rintro _ _ (h | _)
  · cases h with
    | same value x n n' =>
        cases value with
        | json old size =>
            simp only [jsonSetTaken]
            split
            · exact ⟨rfl, .insert (.same _ _ _ _)⟩
            · split
              · exact ⟨rfl, .insert (.same _ _ _ _)⟩
              · exact ⟨rfl, .insert (.same _ _ _ _)⟩
        | simple | list | hash | zset => exact ⟨rfl, .insert (.same _ _ _ _)⟩
    | list => exact ⟨rfl, .insert (.list _ _ _ _ _ _ _)⟩
    | zset => exact ⟨rfl, .insert (.zset _ _ _ _ _ _ _ _)⟩
  · simp only [jsonSetTaken]
    split
    · exact ⟨trivial, .insert (.refl _)⟩
    · exact ⟨trivial, .nothing⟩

omit [Host] in
theorem blind_jsonGet (c : JsonGetCommand) : Blind (jsonGetAccess c : Access S (Value S J)) := by
  rintro _ _ (h | _)
  · cases h <;> rfl
  · rfl

end Json

section SortedSets

variable [F64 S]

theorem insert_room (rt : Runtime) (z : ZSet S) (score : S) (member : Bytes) (a a' : UInt64) (expiresAt : Option Nat) :
    (ZSet.insert rt { z with nodesCapacity := a } score member).1 =
        (ZSet.insert rt { z with nodesCapacity := a' } score member).1 ∧
      Alike (J := J) (zsetEntry (ZSet.insert rt { z with nodesCapacity := a } score member).2 expiresAt)
        (zsetEntry (ZSet.insert rt { z with nodesCapacity := a' } score member).2 expiresAt) := by
  simp only [ZSet.insert]
  cases z.dict.lookup member with
  | none => exact ⟨rfl, .refl _⟩
  | some oldScore =>
      simp only
      split
      · exact ⟨rfl, .zset z _ _ _ _ _ _ _⟩
      · exact ⟨rfl, .refl _⟩

theorem delete_room (z : ZSet S) (member : Bytes) (a a' : UInt64) (expiresAt : Option Nat) :
    (ZSet.delete { z with nodesCapacity := a } member).1 = (ZSet.delete { z with nodesCapacity := a' } member).1 ∧
      (ZSet.delete { z with nodesCapacity := a } member).2.len =
        (ZSet.delete { z with nodesCapacity := a' } member).2.len ∧
      Alike (J := J) (zsetEntry (ZSet.delete { z with nodesCapacity := a } member).2 expiresAt)
        (zsetEntry (ZSet.delete { z with nodesCapacity := a' } member).2 expiresAt) := by
  simp only [ZSet.delete]
  cases z.dict.lookup member with
  | none => exact ⟨rfl, rfl, .zset z _ _ _ _ _ _ _⟩
  | some score => exact ⟨rfl, rfl, .zset ⟨z.dict.erase member, z.zsl.delete score member, z.dictCapacity, a⟩ _ _ _ _ _ _ _⟩

theorem blind_zadd (rt : Runtime) (c : ZAddCommand S) : Blind (.take (zaddTaken rt c) : Access S (Value S J)) := by
  rintro _ _ (h | _)
  · cases h with
    | same value x n n' =>
        cases value with
        | zset => exact ⟨rfl, .insert (.refl _)⟩
        | simple | list | hash | json => exact ⟨rfl, .insert (.same _ _ _ _)⟩
    | list => exact ⟨rfl, .insert (.list _ _ _ _ _ _ _)⟩
    | zset z a a' b b' x n n' =>
        obtain ⟨hnew, halike⟩ := insert_room (J := J) rt z c.score c.member a a' x
        exact ⟨by simp only [zaddTaken, hnew], .insert halike⟩
  · exact ⟨rfl, .insert (.refl _)⟩

theorem blind_zrem (c : ZRemCommand) : Blind (.take (zremTaken c) : Access S (Value S J)) := by
  rintro _ _ (h | _)
  · cases h with
    | same value x n n' =>
        cases value with
        | zset z size =>
            simp only [zremTaken]
            split
            · split
              · exact ⟨trivial, .nothing⟩
              · exact ⟨trivial, .insert (.refl _)⟩
            · exact ⟨trivial, .insert (.refl _)⟩
        | simple | list | hash | json => exact ⟨rfl, .insert (.same _ _ _ _)⟩
    | list => exact ⟨rfl, .insert (.list _ _ _ _ _ _ _)⟩
    | zset z a a' b b' x n n' =>
        obtain ⟨hdone, hlen, halike⟩ := delete_room (J := J) z c.member a a' x
        simp only [zremTaken]
        cases hd : ZSet.delete { z with nodesCapacity := a } c.member with
        | mk deleted z₁ =>
            cases hd' : ZSet.delete { z with nodesCapacity := a' } c.member with
            | mk deleted' z₂ =>
                rw [hd, hd'] at hdone hlen halike
                simp only at hdone hlen halike
                subst hdone
                cases deleted with
                | false => exact ⟨rfl, .insert halike⟩
                | true =>
                    simp only [hlen]
                    split
                    · exact ⟨trivial, .nothing⟩
                    · exact ⟨trivial, .insert halike⟩
  · exact ⟨rfl, .nothing⟩

omit [Host] [F64 S] in
theorem blind_zsetRead {found : ZSet S → Frame} (absent : Frame)
    (h : ∀ (z : ZSet S) a a', found { z with nodesCapacity := a } = found { z with nodesCapacity := a' }) :
    Blind (zsetRead found absent : Access S (Value S J)) := by
  rintro _ _ (h' | _)
  · cases h' with
    | same value => cases value <;> rfl
    | list => rfl
    | zset z a a' => exact congrArg Except.ok (h z a a')
  · rfl

omit [Host] [F64 S] in
theorem collect_room (z : ZSet S) (a a' : UInt64) (i n : Nat) :
    ZSet.collect { z with nodesCapacity := a } i n = ZSet.collect { z with nodesCapacity := a' } i n := by
  induction n generalizing i with
  | zero => rfl
  | succ n ih => simp only [ZSet.collect, ih]

omit [Host] [F64 S] in
theorem range_room (z : ZSet S) (start stop : Int) (a a' : UInt64) :
    ZSet.range { z with nodesCapacity := a } start stop = ZSet.range { z with nodesCapacity := a' } start stop := by
  simp only [ZSet.range, collect_room z a a']
  rfl

end SortedSets

/-- No command on a key tells apart entries that are alike. -/
theorem keyed_blind [F64 S] [SerdeJson J] {rt : Runtime} {now : Nat} {values : LPushCommand → List Bytes} {c : Command S} {key : Str}
    {a : Access S (Value S J)} (h : keyed rt now values c = some (key, a)) : Blind a := by
  cases c with
  | get c => cases h; exact blind_get
  | set c => cases h; exact blind_set now c
  | lpush c => cases h; exact blind_lpush rt c (values c)
  | lpop c => cases h; exact blind_lpop c
  | blpop c => cases h; exact blind_blpop c
  | hset c => cases h; exact blind_hset rt c
  | hget c => cases h; exact blind_hget c
  | hdel c => cases h; exact blind_hdel c
  | jsonSet c =>
      obtain ⟨root, -, hp⟩ := Option.map_eq_some_iff.mp h
      cases hp
      exact blind_jsonSet c root
  | jsonGet c => cases h; exact blind_jsonGet c
  | zadd c => cases h; exact blind_zadd rt c
  | zscore c => cases h; exact blind_zsetRead _ (fun _ _ _ => rfl)
  | zrank c => cases h; exact blind_zsetRead _ (fun _ _ _ => rfl)
  | zrange c => cases h; exact blind_zsetRead _ (fun z a a' => by simp only [range_room z _ _ a a'])
  | zrem c => cases h; exact blind_zrem c
  | mset | mget | ping | unimplement | eval | multi | exec | multiGroup => cases h

end Commands

section Cells

variable {S J T : Type} {now : Nat} {key : Str} {c c' : LuaCell (Value S J)}

/-- The changes of two scripts are alike, over one entry. -/
structure AlikeCell (c c' : LuaCell (Value S J)) : Prop where
  change : Option.Rel AlikeChange c.change c'.change
  base : c.base = c'.base

theorem AlikeChange.refl (change : ChangeOp (Value S J)) : AlikeChange change change := by
  cases change with
  | update value => exact .update (.refl value)
  | delete => exact .delete

theorem AlikeCell.refl (c : LuaCell (Value S J)) : AlikeCell c c := by
  obtain ⟨change, base⟩ := c
  cases change with
  | none => exact ⟨.none, rfl⟩
  | some change => exact ⟨.some (.refl change), rfl⟩

theorem alike_changeValue {change change' : ChangeOp (Value S J)} (h : AlikeChange change change') :
    Option.Rel Alike (changeValue change) (changeValue change') := by
  cases h with
  | update h => exact .some h
  | delete => exact .none

theorem AlikeCell.select (h : AlikeCell c c') (now : Nat) :
    Option.Rel Alike (c.select now).1 (c'.select now).1 ∧ AlikeCell (c.select now).2 (c'.select now).2 := by
  obtain ⟨change, base⟩ := c
  obtain ⟨change', base'⟩ := c'
  obtain ⟨hchange, rfl⟩ := h
  cases hchange with
  | none => exact ⟨alike_refl _, .none, rfl⟩
  | some h => exact ⟨alike_changeValue h, .some h, rfl⟩

theorem AlikeCell.putBack (h : AlikeCell c c') {put put' : PutBack (Value S J)} (hput : AlikePut put put') (now : Nat)
    (key : Str) : AlikeCell (put.run now key c) (put'.run now key c') := by
  cases hput with
  | nothing => exact h
  | insert hvalue => exact ⟨.some (.update hvalue), (h.select now).2.base⟩
  | delete => exact ⟨.some .delete, (h.select now).2.base⟩

theorem AlikeCell.committed (h : AlikeCell c c') : Option.Rel Alike c.committed c'.committed := by
  obtain ⟨change, base⟩ := c
  obtain ⟨change', base'⟩ := c'
  obtain ⟨hchange, rfl⟩ := h
  cases hchange with
  | none => exact alike_refl _
  | some h => exact alike_changeValue h

/-- What a command answers and leaves when it gets a clone is what it does when it gets the entry. -/
theorem AlikeCell.run (h : AlikeCell c c') {a : Access T (Value S J)} (ha : Blind a) (now : Nat) (key : Str) :
    ((through c.change a).run now key c).1 = (a.run now key c').1 ∧
      AlikeCell ((through c.change a).run now key c).2 (a.run now key c').2 := by
  have hthrough (hcloning : cloning a = a) : through c.change a = a := by
    cases c.change with
    | none => exact hcloning
    | some change => rfl
  cases a with
  | take f =>
      obtain ⟨change, base⟩ := c
      obtain ⟨change', base'⟩ := c'
      obtain ⟨hchange, rfl⟩ := h
      cases hchange with
      | none =>
          -- both take the entry of the shard, and the first a clone of it
          obtain ⟨hdone, hput⟩ := ha _ _ (alike_clone (LuaCell.take now ⟨none, base⟩).1)
          exact ⟨hdone, (AlikeCell.refl _).putBack hput now key⟩
      | some hc =>
          obtain ⟨hdone, hput⟩ := ha _ _ (alike_changeValue hc)
          exact ⟨hdone, AlikeCell.putBack ⟨.some .delete, rfl⟩ hput now key⟩
  | select f =>
      obtain ⟨hvalue, hcell⟩ := h.select now
      obtain ⟨hdone, hput⟩ := ha _ _ hvalue
      rw [hthrough rfl]
      exact ⟨hdone, hcell.putBack hput now key⟩
  | insert value done =>
      rw [hthrough rfl]
      exact ⟨rfl, h.putBack (.insert (.refl value)) now key⟩
  | read f =>
      obtain ⟨hvalue, hcell⟩ := h.select now
      rw [hthrough rfl]
      exact ⟨congrArg (fun reply => (⟨reply, none, false⟩ : Done T)) (ha _ _ hvalue), hcell⟩

end Cells

section Sessions

variable {S J : Type} [Host] {now : Nat}

/-- The locked shards of two scripts that have done the same, the first with clones. -/
def AlikeSessions (s : CloningSessions S J) (sessions : Sessions (Value S J)) : Prop :=
  ∃ o o' : Overlay (Value S J), Reflects s.sessions o ∧ Reflects sessions o' ∧ o.declared = o'.declared ∧
    ∀ k, AlikeCell (o.cells k) (o'.cells k)

theorem ownChange_reflects {sessions : Sessions (Value S J)} {o : Overlay (Value S J)} (h : Reflects sessions o)
    {key : Str} (hd : o.declared (Host.shardIndex key) = true) : ownChange sessions key = (o.cells key).change := by
  rw [h.declared, Option.isSome_iff_exists] at hd
  obtain ⟨node, hnode⟩ := hd
  simp only [ownChange, sight, hnode, Option.map_some, Option.bind_some, h.cells key node hnode]

theorem alike_answers {a : Access S (Value S J)} (ha : Blind a) (now : Nat) (key : Str) :
    Answers (AlikeSessions (S := S) (J := J)) now key a := by
  rintro s sessions ⟨o, o', hr, hr', hdeclared, hcells⟩
  obtain ⟨hdone, hnext⟩ := Reflects.simulates now key (through (ownChange s.sessions key) a) _ _ hr
  obtain ⟨hdone', hnext'⟩ := Reflects.simulates now key a _ _ hr'
  change (s.access now key a).1 = _ ∧ AlikeSessions (s.access now key a).2 _
  rw [access_cloning]
  change (Context.access s.sessions now key _).1 = _ ∧ _
  rw [hdone, hdone']
  cases hd : o.declared (Host.shardIndex key) with
  | false =>
      have hd' : o'.declared (Host.shardIndex key) = false := by rw [← hdeclared, hd]
      simp only [Context.access, hd, hd', Bool.false_eq_true, if_false] at hnext hnext' ⊢
      exact ⟨trivial, o, o', hnext, hnext', hdeclared, hcells⟩
  | true =>
      have hd' : o'.declared (Host.shardIndex key) = true := by rw [← hdeclared, hd]
      obtain ⟨hreply, hcell⟩ := (hcells key).run ha now key
      rw [ownChange_reflects hr hd] at hnext ⊢
      refine ⟨?_, _, _, hnext, hnext', ?_, fun k => ?_⟩
      · simp only [Context.access, hd, hd', if_true]
        exact hreply
      · simp only [Context.access, hd, hd', if_true]
        exact hdeclared
      · simp only [Context.access, hd, hd', if_true, Function.update_apply]
        split
        · exact hcell
        · exact hcells k

end Sessions

section Scripts

variable {S J : Type} [Host] [F64 S] [SerdeJson J]

theorem execute_alike {s : CloningSessions S J} {sessions : Sessions (Value S J)} (h : AlikeSessions s sessions)
    (rt : Runtime) (now : Nat) (c : Command S) :
    (execute rt now s c).1 = (execute rt now sessions c).1 ∧
      AlikeSessions (execute rt now s c).2 (execute rt now sessions c).2 :=
  Collections.execute_answers (fun key value => alike_answers (a := .insert (msetEntry value) (.ok .null)) trivial now key)
    (fun key => alike_answers blind_get now key) (fun key _ hk => alike_answers (keyed_blind hk) now key) h

structure AlikeEnv (env : CurrentRequestEnv (CloningSessions S J) S)
    (env' : CurrentRequestEnv (Sessions (Value S J)) S) : Prop where
  sessions : AlikeSessions env.sessions env'.sessions
  luaAofBuffer : env.luaAofBuffer = env'.luaAofBuffer

theorem redisCall_alike {env : CurrentRequestEnv (CloningSessions S J) S}
    {env' : CurrentRequestEnv (Sessions (Value S J)) S} (h : AlikeEnv env env') (moment : Moment) (c : Call) :
    (redisCall moment env c).1 = (redisCall moment env' c).1 ∧
      AlikeEnv (redisCall moment env c).2 (redisCall moment env' c).2 := by
  cases hcommand : CommandParser.tryFrom (S := S) (.array (c.args.map .bulk)) with
  | error e =>
      simp only [redisCall, hcommand]
      exact ⟨trivial, h⟩
  | ok command =>
      obtain ⟨hdone, hnext⟩ := execute_alike h.sessions moment.rt moment.now command
      rw [redisCall_eq moment env hcommand, redisCall_eq moment env' hcommand, hdone]
      split
      · exact ⟨rfl, hnext, by rw [h.luaAofBuffer]⟩
      · exact ⟨rfl, hnext, h.luaAofBuffer⟩

theorem run_alike (moments : Nat → Moment) (script : Script) (n : Nat) {env : CurrentRequestEnv (CloningSessions S J) S}
    {env' : CurrentRequestEnv (Sessions (Value S J)) S} (h : AlikeEnv env env') :
    (Script.run moments n script env).1 = (Script.run moments n script env').1 ∧
      AlikeEnv (Script.run moments n script env).2 (Script.run moments n script env').2 := by
  induction script generalizing n env env' with
  | ret frame => exact ⟨rfl, h⟩
  | fail text => exact ⟨rfl, h⟩
  | call c next ih =>
      obtain ⟨hresult, hnext⟩ := redisCall_alike h (moments n) c
      simp only [Script.run]
      rw [hresult]
      exact ih _ (n + 1) hnext

/-- A script whose commands get clones returns what it returns when they get the entries,
logs the same commands, and leaves entries that differ at most in room and in sizes. -/
theorem clones_unseen {db : Db (Value S J)} {keys : List Str} {moments : Nat → Moment} {script : Script}
    {result result' : Except String Frame} {env : CurrentRequestEnv (CloningSessions S J) S}
    {env' : CurrentRequestEnv (Sessions (Value S J)) S} (h : scriptRun db keys moments script = (result, env))
    (h' : Collections.scriptRun db keys moments script = (result', env')) :
    result = result' ∧ env.luaAofBuffer = env'.luaAofBuffer ∧
      ∀ drained drained' : Fin Host.numShards → List (Str × ChangeOp (Value S J)),
        (∀ i node, env.sessions.sessions.lookup i = some node → Drains node.differMap (drained i)) →
        (∀ i node, env'.sessions.lookup i = some node → Drains node.differMap (drained' i)) →
        ∀ k, Option.Rel Alike ((release db (committed env.sessions.sessions drained)).entry k)
          ((release db (committed env'.sessions drained')).entry k) := by
  have hlocked := lockAll_reflects db (shardIndices keys)
  have hstart : AlikeEnv (S := S) ⟨⟨lockAll db (shardIndices keys)⟩, []⟩ (initLuaPre db keys) :=
    ⟨⟨_, _, hlocked, hlocked, rfl, fun k => .refl _⟩, rfl⟩
  have hrun := run_alike moments script 0 hstart
  rw [show Script.run moments 0 script _ = _ from h, show Script.run moments 0 script _ = _ from h'] at hrun
  obtain ⟨hresult, ⟨o, o', hr, hr', hdeclared, hcells⟩, hlogged⟩ := hrun
  refine ⟨hresult, hlogged, fun drained drained' hd hd' k => ?_⟩
  rw [release_entry db hr hd, release_entry db hr' hd', hdeclared]
  split
  · exact (hcells k).committed
  · exact alike_refl _

end Scripts

end RustKv.Clones
