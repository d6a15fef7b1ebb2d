import RustKv.LogicalStep
import RustKv.Overlays
import RustKv.Scripts

namespace RustKv.Lua

open Text Protocol Domain CacheStore Zset RustKv.Types Executor AofRoundTrip RequestReading

variable {S J D : Type} [Host]

/-- What a script has at the key, if it has locked its shard. -/
def sight (sessions : Sessions D) (key : Str) : Option (LuaCell D) :=
  (sessions.lookup (Host.shardIndex key)).map (fun node => nodeCell node key)

/-- The script has written the key itself or sees the entry that was there when it
began. -/
def Fresh (m : Cells D) (seen : Str → Option (LuaCell D)) (now : Nat) (key : Str) : Prop :=
  ∀ cell, seen key = some cell → cell.change = none → cell.view now = m key

/-- What a command that a script calls must find for its record to be true: no SET
is refused or has an expiration, no MSET leaves the declared shards, no BLPOP pops,
and no other write finds an expired entry. -/
def Recordable (m : Cells (Value S J)) (seen : Str → Option (LuaCell (Value S J))) (now : Nat) :
    Command S → Prop
  | .set c => c.expiration = none ∧ ∀ cell, seen c.key = some cell →
      (c.condition = some .nx → cell.view now = none) ∧ (c.condition = some .xx → cell.view now ≠ none)
  | .mset c => ∀ p ∈ c.keysAndValues, (seen p.1).isSome
  | .blpop c => ∀ cell e, seen c.key = some cell → cell.view now = some e →
      ∀ item list, logical e.data ≠ .list (item :: list)
  | c => takesEntry c = true → ∀ key ∈ touched c, Fresh m seen now key

def overlaySight (o : Overlay D) (key : Str) : Option (LuaCell D) :=
  if o.declared (Host.shardIndex key) then some (o.cells key) else none

theorem reflects_sight {sessions : Sessions D} {o : Overlay D} (h : Reflects sessions o) :
    sight sessions = overlaySight o := by
  funext key
  rw [Lua.sight, overlaySight, h.declared]
  cases hl : sessions.lookup (Host.shardIndex key) with
  | none => rfl
  | some node => exact congrArg some (h.cells key node hl)

/-- Entries `m'` that replaying the calls so far has built from `m`, against what
the script has: its changes, and below them what is left of `m`. -/
structure Mirrors (m : Cells (Value S J)) (moments : Nat → Moment) (o : Overlay (Value S J))
    (m' : Cells (Value S J)) : Prop where
  outside : ∀ k, o.declared (Host.shardIndex k) = false → (o.cells k).change = none
  changed : ∀ k change, (o.cells k).change = some change → observed (m' k) = observed (changeValue change)
  kept : ∀ k, (o.cells k).change = none → observed (m' k) = observed (m k)
  below : ∀ k, o.declared (Host.shardIndex k) = true → (o.cells k).change = none →
    (o.cells k).base = m k ∨
      ((o.cells k).base = none ∧ ∃ e n, m k = some e ∧ e.isExpired (moments n).now = true)

omit [Host] in
theorem select_change (now : Nat) (c : LuaCell D) : (c.select now).2.change = c.change := by
  obtain ⟨change, base⟩ := c
  cases change <;> rfl

omit [Host] in
theorem view_change {now : Nat} {c : LuaCell D} {change : ChangeOp D} (h : c.change = some change) :
    c.view now = changeValue change := by
  simp [LuaCell.view, LuaCell.select, h]

omit [Host] in
theorem view_none {now : Nat} {c : LuaCell D} (h : c.change = none) :
    c.view now = unlessExpired now c.base := by
  simp [LuaCell.view, LuaCell.select, h]

variable {m m' : Cells (Value S J)} {moments : Nat → Moment} {o : Overlay (Value S J)}

theorem Mirrors.put (h : Mirrors m moments o m') {key : Str}
    (hd : o.declared (Host.shardIndex key) = true) {n : Nat} {c : LuaCell (Value S J)}
    {e x : Option (ValueEntry (Value S J))} (hl : LuaCell.Leaves (moments n).now (o.cells key) c e)
    (hchanged : c.change ≠ none → observed x = observed e)
    (hkept : c.change = none → observed x = observed (m' key)) :
    Mirrors m moments { o with cells := Function.update o.cells key c } (Function.update m' key x) := by
  refine ⟨fun k hk => ?_, fun k change hk => ?_, fun k hk => ?_, fun k hdk hk => ?_⟩
  · have hne : k ≠ key := by
      rintro rfl
      rw [hd] at hk
      cases hk
    simp only [Function.update_of_ne hne]
    exact h.outside k hk
  · by_cases he : k = key
    · subst he
      simp only [Function.update_self] at hk ⊢
      rcases hl with ⟨change', hc, hv⟩ | ⟨hnone, rfl, -⟩
      · cases hk.symm.trans hc
        rw [hchanged (by rw [hk]; simp), hv]
      · rw [select_change, hnone] at hk
        cases hk
    · simp only [Function.update_of_ne he] at hk ⊢
      exact h.changed k change hk
  · by_cases he : k = key
    · subst he
      simp only [Function.update_self] at hk ⊢
      rcases hl with ⟨change', hc, -⟩ | ⟨hnone, -, -⟩
      · rw [hk] at hc
        cases hc
      · rw [hkept hk, h.kept k hnone]
    · simp only [Function.update_of_ne he] at hk ⊢
      exact h.kept k hk
  · by_cases he : k = key
    · subst he
      simp only [Function.update_self] at hk ⊢
      rcases hl with ⟨change', hc, -⟩ | ⟨hnone, rfl, -⟩
      · rw [hk] at hc
        cases hc
      · have hbase : ((o.cells k).select (moments n).now).2.base =
            unlessExpired (moments n).now (o.cells k).base := by
          simp [LuaCell.select, hnone]
        rw [hbase]
        rcases h.below k hd hnone with hb | ⟨hb, hexp⟩
        · rw [hb]
          cases hm : m k with
          | none => exact .inl rfl
          | some e =>
              cases hexp : e.isExpired (moments n).now with
              | true => exact .inr ⟨unlessExpired_eq_none hexp, e, n, rfl, hexp⟩
              | false => exact .inl (unlessExpired_eq_self (by rintro e' ⟨⟩; exact hexp))
        · exact .inr ⟨by rw [hb]; rfl, hexp⟩
    · simp only [Function.update_of_ne he] at hk ⊢
      exact h.below k hdk hk

theorem Mirrors.look (h : Mirrors m moments o m') {key : Str}
    (hd : o.declared (Host.shardIndex key) = true) (n : Nat) :
    Mirrors m moments
      { o with cells := Function.update o.cells key ((o.cells key).select (moments n).now).2 } m' := by
  have hput := h.put hd (LuaCell.select_leaves (moments n).now (o.cells key)) (x := m' key)
    (fun hc => ?_) (fun _ => rfl)
  · rwa [Function.update_eq_self] at hput
  · rw [select_change] at hc
    obtain ⟨change, hchange⟩ := Option.ne_none_iff_exists'.mp hc
    rw [h.changed key change hchange, view_change hchange]

theorem Mirrors.seen (h : Mirrors m moments o m') {key : Str}
    (hd : o.declared (Host.shardIndex key) = true) {now : Nat} {e : ValueEntry (Value S J)}
    (he : (o.cells key).view now = some e) : observed (m' key) = observed (some e) := by
  cases hc : (o.cells key).change with
  | some change => rw [h.changed key change hc, ← view_change hc, he]
  | none =>
      rw [view_none hc] at he
      rcases unlessExpired_cases now (o.cells key).base with hb | hb
      · rcases h.below key hd hc with hm | ⟨hm, -⟩
        · rw [h.kept key hc, ← hm, ← he, hb]
        · rw [hb, hm] at he
          cases he
      · rw [hb] at he
        cases he

theorem Mirrors.fresh (h : Mirrors m moments o m') {key : Str}
    (hd : o.declared (Host.shardIndex key) = true) {now : Nat}
    (hf : Fresh m (overlaySight o) now key) : observed (m' key) = observed ((o.cells key).view now) := by
  cases hc : (o.cells key).change with
  | some change => rw [h.changed key change hc, view_change hc]
  | none => rw [h.kept key hc, hf (o.cells key) (by rw [overlaySight, if_pos hd]) hc]

section Calls

variable [F64 S] [SerdeJson J]

/-- How a call ends: without a record for the log, or with one whose replay
succeeds and gives what the script has then. -/
def Replays (m : Cells (Value S J)) (moments : Nat → Moment) (sentAt : Nat) (rt : Runtime)
    (m' : Cells (Value S J)) (c : Command S) (result : Done S × Overlay (Value S J)) : Prop :=
  ((aofFrame sentAt c = none ∨ ∃ e, result.1.reply = .error e) ∧ Mirrors m moments result.2 m') ∨
    ((aofFrame sentAt c).isSome ∧ (∃ frame, result.1.reply = .ok frame) ∧
      (∃ r, (execute rt 0 m' (recorded sentAt c)).1.reply = .ok r) ∧
      Mirrors m moments result.2 (execute rt 0 m' (recorded sentAt c)).2)

omit [F64 S] [SerdeJson J] in
theorem access_declared {key : Str} (hd : o.declared (Host.shardIndex key) = true) (now : Nat)
    (a : Access S (Value S J)) : Context.access o now key a =
      ((a.run now key (o.cells key)).1,
        { o with cells := Function.update o.cells key (a.run now key (o.cells key)).2 }) := by
  simp only [Context.access, hd, if_true]

theorem replays_undeclared (h : Mirrors m moments o m') {key : Str}
    (hd : o.declared (Host.shardIndex key) = false) {now sentAt : Nat} {rt : Runtime} {c : Command S}
    (a : Access S (Value S J)) : Replays m moments sentAt rt m' c (Context.access o now key a) := by
  simp only [Context.access, hd]
  exact .inl ⟨.inr ⟨_, rfl⟩, h⟩

omit [F64 S] [SerdeJson J] in
theorem Mirrors.mgetAll (keys : List Str) (h : Mirrors m moments o m') (n : Nat) :
    Mirrors m moments (Executor.mgetAll (S := S) (moments n).now o keys).2 m' := by
  induction keys generalizing o with
  | nil => exact h
  | cons key keys ih =>
      simp only [Executor.mgetAll]
      cases hd : o.declared (Host.shardIndex key) with
      | false =>
          simp only [Context.access, hd]
          exact h
      | true =>
          have ih' := ih (h.look hd n)
          rw [access_declared hd]
          simp only [getAccess, Access.run, KvOperator.select]
          split
          · next hr =>
              rw [hr] at ih'
              exact ih'
          · next hr =>
              rw [hr] at ih'
              exact ih'

omit [F64 S] [SerdeJson J] in
theorem Mirrors.msetAll (pairs : List (Str × Bytes)) (h : Mirrors m moments o m') (n : Nat)
    (hd : ∀ p ∈ pairs, o.declared (Host.shardIndex p.1) = true) :
    (Executor.msetAll (S := S) (moments n).now o pairs).1 = .ok () ∧
      Mirrors m moments (Executor.msetAll (S := S) (moments n).now o pairs).2 (writePairs pairs m') := by
  induction pairs generalizing o m' with
  | nil => exact ⟨rfl, h⟩
  | cons p pairs ih =>
      obtain ⟨key, value⟩ := p
      have hput := h.put (hd (key, value) (by simp)) (n := n) (c := (o.cells key).insert (moments n).now
        (msetEntry value)) (.inl ⟨_, rfl, rfl⟩) (fun _ => rfl) (fun hc => by cases hc)
      simp only [Executor.msetAll]
      rw [access_declared (hd (key, value) (by simp))]
      exact ih hput (fun p hp => hd p (List.mem_cons_of_mem _ hp))

theorem replays_looks (h : Mirrors m moments o m') {n sentAt : Nat} {rt : Runtime} {c : Command S}
    (hc : Looks J c) (hframe : aofFrame sentAt c = none) :
    Replays m moments sentAt rt m' c (execute (moments n).rt (moments n).now o c) := by
  rcases hc with ⟨key, f, hrun⟩ | ⟨g, rfl⟩
  · rw [hrun]
    cases hd : o.declared (Host.shardIndex key) with
    | false => exact replays_undeclared h hd _
    | true =>
        rw [access_declared hd]
        exact .inl ⟨.inl hframe, h.look hd n⟩
  · exact .inl ⟨.inl rfl, h.mgetAll g.keys n⟩

omit [F64 S] [SerdeJson J] in
theorem set_accepted {s : SetCommand} {now : Nat} {e : Option (ValueEntry (Value S J))}
    (hnx : s.condition = some .nx → e = none) (hxx : s.condition = some .xx → e ≠ none) :
    (setAccess (S := S) now s).onCell 0 e = (.logged okFrame (.set s), some (setEntry now s)) := by
  unfold setAccess
  cases hc : s.condition with
  | none => rfl
  | some condition =>
      cases condition with
      | nx =>
          rw [hnx hc]
          rfl
      | xx =>
          obtain ⟨x, rfl⟩ := Option.ne_none_iff_exists'.mp (hxx hc)
          simp only [Access.onCell, unlessExpired_zero]
          rfl

theorem replays_set (h : Mirrors m moments o m') {n sentAt : Nat} {rt : Runtime} {s : SetCommand}
    (hs : Recordable m (overlaySight o) (moments n).now (.set (S := S) s)) :
    Replays m moments sentAt rt m' (.set s)
      (execute (moments n).rt (moments n).now o (.set (S := S) s)) := by
  have hrun : execute (moments n).rt (moments n).now o (.set (S := S) s) =
      Context.access o (moments n).now s.key (setAccess (moments n).now s) := rfl
  rw [hrun]
  cases hd : o.declared (Host.shardIndex s.key) with
  | false => exact replays_undeclared h hd _
  | true =>
      obtain ⟨hexp, hcond⟩ := hs
      obtain ⟨hnx, hxx⟩ := hcond (o.cells s.key) (by rw [overlaySight, if_pos hd])
      have hentry : setEntry (S := S) (J := J) (moments n).now s = newEntry (simpleValue s.value) none := by
        rw [setEntry, hexp]
        rfl
      obtain ⟨hdone, hleaves⟩ := LuaCell.run_view (setAccess (S := S) (moments n).now s) (moments n).now
        s.key (o.cells s.key)
      rw [set_accepted hnx hxx] at hdone hleaves
      rw [access_declared hd]
      refine .inr ⟨rfl, ⟨okFrame, by rw [hdone]; rfl⟩, ⟨_, rfl⟩, ?_⟩
      have hreplay : (execute rt 0 m' (recorded sentAt (.set (S := S) s))).2 =
          Function.update m' s.key (some (newEntry (simpleValue s.value) none)) := by
        simp only [recorded, hexp]
        rfl
      rw [hreplay]
      refine h.put hd hleaves (fun _ => by rw [hentry]) (fun hc => ?_)
      rcases hleaves with ⟨change, hc', -⟩ | ⟨-, -, he⟩
      · rw [hc] at hc'
        cases hc'
      · rw [h.seen hd he.symm, hentry]

theorem replays_mset (h : Mirrors m moments o m') {n sentAt : Nat} {rt : Runtime} {c : MSetCommand}
    (hs : Recordable m (overlaySight o) (moments n).now (.mset (S := S) c)) :
    Replays m moments sentAt rt m' (.mset c)
      (execute (moments n).rt (moments n).now o (.mset (S := S) c)) := by
  have hd : ∀ p ∈ sortedPairs c, o.declared (Host.shardIndex p.1) = true := by
    intro p hp
    have hsome := hs p ((List.mergeSort_perm c.keysAndValues _).mem_iff.mp hp)
    unfold overlaySight at hsome
    by_contra hn
    rw [if_neg hn] at hsome
    cases hsome
  obtain ⟨hreply, hmirrors⟩ := Mirrors.msetAll (S := S) (sortedPairs c) h n hd
  have hreplay : execute rt 0 m' (recorded sentAt (.mset (S := S) c)) =
      (.logged okFrame (.mset c), writePairs (sortedPairs c) m') := execute_mset rt 0 m' c
  rw [Replays, hreplay]
  simp only [execute, executeMSet]
  revert hreply hmirrors
  cases Executor.msetAll (S := S) (moments n).now o (sortedPairs c) with
  | mk r o' =>
      rintro rfl hmirrors
      exact .inr ⟨rfl, ⟨_, rfl⟩, ⟨_, rfl⟩, hmirrors⟩

omit [F64 S] [SerdeJson J] [Host] in
theorem observed_unchanged {d : Command S}
    {f : Option (ValueEntry (Value S J)) → Done S × PutBack (Value S J)} (hf : Faithful d f)
    {e : Option (ValueEntry (Value S J))}
    (h : logicalOf ((f e).2.result none) = logicalOf e) :
    observed ((f e).2.result none) = observed e := by
  refine observed_eq_iff.mpr ⟨h, ?_⟩
  cases hr : (f e).2.result none with
  | some x => exact hf.expires e x hr
  | none =>
      rw [hr] at h
      cases e with
      | none => rfl
      | some x => cases h

theorem replays_blpop (h : Mirrors m moments o m') {n sentAt : Nat} {rt : Runtime} {b : BLPopCommand}
    (hs : Recordable m (overlaySight o) (moments n).now (.blpop (S := S) b)) :
    Replays m moments sentAt rt m' (.blpop b)
      (execute (moments n).rt (moments n).now o (.blpop (S := S) b)) := by
  have hrun : execute (moments n).rt (moments n).now o (.blpop (S := S) b) =
      Context.access o (moments n).now b.key (.take (blpopTaken b)) := rfl
  rw [hrun]
  cases hd : o.declared (Host.shardIndex b.key) with
  | false => exact replays_undeclared h hd _
  | true =>
      rw [access_declared hd]
      refine .inl ⟨.inl rfl, ?_⟩
      have hsight : overlaySight o b.key = some (o.cells b.key) := by rw [overlaySight, if_pos hd]
      obtain ⟨-, hleaves⟩ := LuaCell.run_view (.take (blpopTaken (S := S) b)) (moments n).now b.key
        (o.cells b.key)
      have hput := h.put hd hleaves (x := m' b.key) (fun hc => ?_) (fun _ => rfl)
      · rwa [Function.update_eq_self] at hput
      cases hv : (o.cells b.key).view (moments n).now with
      | some e =>
          have hidle : (blpopTaken (S := S) b (some e)).1.aof = none := by
            obtain ⟨v, x, size⟩ := e
            cases v with
            | list deque =>
                cases deque with
                | nil => rfl
                | cons item list => exact absurd rfl (hs _ _ hsight hv item list)
            | simple | hash | zset | json => rfl
          rw [h.seen hd hv]
          exact (observed_unchanged (blpop_faithful b) (blpop_silent b hidle)).symm
      | none =>
          cases hchange : (o.cells b.key).change with
          | some change => rw [h.changed _ _ hchange, ← view_change hchange, hv]; rfl
          | none =>
              refine absurd ?_ hc
              have htake : (o.cells b.key).take (moments n).now = (none, ⟨none, none⟩) := by
                rw [view_none hchange] at hv
                simp [LuaCell.take, hchange, hv]
              simp only [Access.run, KvOperator.take, htake]
              rfl

theorem replays_takes (h : Mirrors m moments o m') {n sentAt : Nat} {rt : Runtime} {c : Command S}
    {key : Str} {f : Runtime → Option (ValueEntry (Value S J)) → Done S × PutBack (Value S J)}
    (ht : Takes c key f) (hs : Fresh m (overlaySight o) (moments n).now key) :
    Replays m moments sentAt rt m' c (execute (moments n).rt (moments n).now o c) := by
  rw [ht.run]
  cases hd : o.declared (Host.shardIndex key) with
  | false => exact replays_undeclared h hd _
  | true =>
      obtain ⟨hdone, hleaves⟩ := LuaCell.run_view (.take (f (moments n).rt)) (moments n).now key
        (o.cells key)
      have hseen := h.fresh hd hs
      rw [access_declared hd]
      cases hr : (f (moments n).rt ((o.cells key).view (moments n).now)).1.reply with
      | error e =>
          refine .inl ⟨.inr ⟨e, (congrArg Done.reply hdone).trans hr⟩, ?_⟩
          have hsame := observed_unchanged (ht.faithful (moments n).rt)
            ((ht.faithful (moments n).rt).failed hr)
          have hput := h.put hd hleaves (x := m' key) (fun _ => hseen.trans hsame.symm) (fun _ => rfl)
          rwa [Function.update_eq_self] at hput
      | ok frame =>
          obtain ⟨hdone', hsame⟩ := Faithful.observed (ht.faithful (moments n).rt) (ht.faithful rt)
            (ht.respects (moments n).rt rt) hseen.symm
          rw [Replays, ht.recorded, ht.onCells]
          refine .inr ⟨ht.writes sentAt, ⟨frame, (congrArg Done.reply hdone).trans hr⟩,
            ⟨frame, by rw [← hdone']; exact hr⟩, h.put hd hleaves (fun _ => hsame.symm) ?_⟩
          intro hc
          rcases hleaves with ⟨change, hc', -⟩ | ⟨-, -, he⟩
          · rw [hc] at hc'
            cases hc'
          · rw [← hsame, hseen]
            exact congrArg observed he

/-- A call that may be recorded, and the replay of its record. -/
theorem Mirrors.call (h : Mirrors m moments o m') {c : Command S} (hc : Parsed c) (n sentAt : Nat)
    (rt : Runtime) (hs : Recordable m (overlaySight o) (moments n).now c) :
    Replays m moments sentAt rt m' c (execute (moments n).rt (moments n).now o c) := by
  rcases command_cases (J := J) hc with
    (⟨d, -, hframe, hd⟩ | ⟨hlooks, hframe⟩) | ⟨s, rfl⟩ | ⟨s, rfl⟩ | ⟨b, rfl⟩ | ⟨key, f, ht⟩
  · rw [hd]
    exact .inl ⟨hframe.imp_left (fun h => h sentAt), h⟩
  · exact replays_looks h hlooks (hframe sentAt)
  · exact replays_set h hs
  · exact replays_mset h hs
  · exact replays_blpop h hs
  · refine replays_takes h ht ?_
    have hkey : key ∈ touched c := by simp [ht.touches]
    have hkind := ht.kind
    cases c with
    | lpush | lpop | hset | hdel | jsonSet | zadd | zrem => exact hs rfl key hkey
    | get | set | mset | ping | unimplement | eval | blpop | hget | mget | multi | exec | multiGroup
    | jsonGet | zscore | zrank | zrange => cases hkind

end Calls

end RustKv.Lua
