import RustKv.AofRoundTrip
import RustKv.LogicalCommands

namespace RustKv.Executor

open Text Protocol Domain CommandParser CacheStore Zset RustKv.Types AofRoundTrip RequestReading

variable {S J : Type} [Host] [F64 S] [SerdeJson J]

/-- A command that reaches no shard, in any context. -/
def Inert (J : Type) [SerdeJson J] (c : Command S) : Prop :=
  ∃ d : Done S, d.aof = none ∧ ((∀ now, aofFrame now c = none) ∨ ∃ e, d.reply = .error e) ∧
    ∀ {γ : Type} [Context γ (Value S J)] rt now (x : γ), execute rt now x c = (d, x)

/-- A command that only looks at entries. -/
def Looks (J : Type) [SerdeJson J] (c : Command S) : Prop :=
  (∃ key f, ∀ {γ : Type} [Context γ (Value S J)] rt now (x : γ),
    execute rt now x c = Context.access x now key (.read f)) ∨ ∃ g, c = .mget g

/-- A command that changes no entry and leaves no record. -/
def Quiet (J : Type) [SerdeJson J] (c : Command S) : Prop :=
  Inert J c ∨ (Looks J c ∧ ∀ now, aofFrame now c = none)

/-- The commands that make an entry for a key that has none and may not replace
one of another type. -/
def Creates (J : Type) [SerdeJson J] : Command S → Prop
  | .lpush _ | .hset _ | .zadd _ => True
  | .jsonSet c => isRoot c.path ∧ (SerdeJson.fromStr (J := J) c.value).isSome
  | _ => False

/-- The commands that take the entry of a key out and may put it back, BLPOP apart. -/
def takesEntry : Command S → Bool
  | .lpush _ | .lpop _ | .hset _ | .hdel _ | .jsonSet _ | .zadd _ | .zrem _ => true
  | _ => false

/-- A command that takes the entry of one key and puts back what `f` makes of it. -/
structure Takes (c : Command S) (key : Str)
    (f : Runtime → Option (ValueEntry (Value S J)) → Done S × PutBack (Value S J)) : Prop where
  run : ∀ {γ : Type} [Context γ (Value S J)] rt now (x : γ),
    execute rt now x c = Context.access x now key (.take (f rt))
  faithful : ∀ rt, Faithful c (f rt)
  respects : ∀ rt rt', Respects (f rt) (f rt')
  creates : ∀ rt, (f rt none).1.aof ≠ none → Creates J c
  touches : touched c = [key]
  recorded : ∀ now, recorded now c = c
  writes : ∀ now, (aofFrame now c).isSome
  kind : takesEntry c = true

theorem Takes.onCells {c : Command S} {key : Str}
    {f : Runtime → Option (ValueEntry (Value S J)) → Done S × PutBack (Value S J)} (h : Takes c key f)
    (rt : Runtime) (now : Nat) (m : Cells (Value S J)) : execute rt now m c =
      ((f rt (m key)).1, Function.update m key ((f rt (m key)).2.result none)) :=
  h.run rt now m

omit [Host] [F64 S] [SerdeJson J] in
theorem mgetAll_cells (keys : List Str) (now : Nat) (m : Cells (Value S J)) :
    (mgetAll (S := S) now m keys).2 = m := by
  induction keys with
  | nil => rfl
  | cons key keys ih =>
      have hm : Function.update m key (m key) = m := Function.update_eq_self key m
      simp only [mgetAll, Context.access, getAccess, Access.onCell, hm]
      revert ih
      cases mgetAll (S := S) now m keys with
      | mk r m' =>
          rintro rfl
          cases r <;> rfl

theorem Quiet.onCells {c : Command S} (h : Quiet J c) (rt : Runtime) (now : Nat)
    (m : Cells (Value S J)) :
    (execute rt now m c).2 = m ∧ (execute rt now m c).1.aof = none := by
  rcases h with ⟨d, hd, -, h⟩ | ⟨⟨key, f, h⟩ | ⟨g, rfl⟩, -⟩
  · rw [h]
    exact ⟨rfl, hd⟩
  · rw [h]
    exact ⟨Function.update_eq_self key m, rfl⟩
  · exact ⟨mgetAll_cells g.keys now m, rfl⟩

theorem takes_lpush {c : LPushCommand} (hne : c.values ≠ []) :
    Takes (S := S) (J := J) (.lpush c) c.key (fun rt => lpushTaken rt c c.values) where
  run := fun rt now x => by simp only [execute, lpushAccess, if_neg hne]
  faithful := fun rt => lpush_faithful rt c hne
  respects := fun rt rt' => lpush_respects rt rt' c c.values
  creates := fun _ _ => trivial
  touches := rfl
  recorded := fun _ => rfl
  writes := fun _ => rfl
  kind := rfl

theorem takes_lpop (c : LPopCommand) :
    Takes (S := S) (J := J) (.lpop c) c.key (fun _ => lpopTaken c) where
  run := fun _ _ _ => rfl
  faithful := fun _ => lpop_faithful c
  respects := fun _ _ => lpop_respects c
  creates := fun _ h => absurd rfl h
  touches := rfl
  recorded := fun _ => rfl
  writes := fun _ => rfl
  kind := rfl

theorem takes_hset (c : HSetCommand) :
    Takes (S := S) (J := J) (.hset c) c.key (fun rt => hsetTaken rt c) where
  run := fun _ _ _ => rfl
  faithful := fun rt => hset_faithful rt c
  respects := fun rt rt' => hset_respects rt rt' c
  creates := fun _ _ => trivial
  touches := rfl
  recorded := fun _ => rfl
  writes := fun _ => rfl
  kind := rfl

theorem takes_hdel (c : HDelCommand) :
    Takes (S := S) (J := J) (.hdel c) c.key (fun _ => hdelTaken c) where
  run := fun _ _ _ => rfl
  faithful := fun _ => hdel_faithful c
  respects := fun _ _ => hdel_respects c
  creates := fun _ h => absurd rfl h
  touches := rfl
  recorded := fun _ => rfl
  writes := fun _ => rfl
  kind := rfl

theorem takes_jsonSet {c : JsonSetCommand} {v : J} (hv : SerdeJson.fromStr (J := J) c.value = some v) :
    Takes (S := S) (J := J) (.jsonSet c) c.key (fun _ => jsonSetTaken c v) where
  run := fun rt now x => by simp only [execute, executeJsonSet, hv]
  faithful := fun _ => jsonSet_faithful c v
  respects := fun _ _ => jsonSet_respects c v
  creates := fun _ h => by
    simp only [jsonSetTaken] at h
    split at h
    · next hr => exact ⟨hr, by rw [hv]; rfl⟩
    · exact absurd rfl h
  touches := rfl
  recorded := fun _ => rfl
  writes := fun _ => rfl
  kind := rfl

theorem takes_zadd (c : ZAddCommand S) :
    Takes (J := J) (.zadd c) c.key (fun rt => zaddTaken rt c) where
  run := fun _ _ _ => rfl
  faithful := fun rt => zadd_faithful rt c
  respects := fun rt rt' => zadd_respects rt rt' c
  creates := fun _ _ => trivial
  touches := rfl
  recorded := fun _ => rfl
  writes := fun _ => rfl
  kind := rfl

theorem takes_zrem (c : ZRemCommand) :
    Takes (S := S) (J := J) (.zrem c) c.key (fun _ => zremTaken c) where
  run := fun _ _ _ => rfl
  faithful := fun _ => zrem_faithful c
  respects := fun _ _ => zrem_respects c
  creates := fun _ h => absurd rfl h
  touches := rfl
  recorded := fun _ => rfl
  writes := fun _ => rfl
  kind := rfl

/-- A command that takes an entry does so, or its JSON text is no JSON. -/
theorem takes_cases {c : Command S} (hc : Parsed c) (hk : takesEntry c = true) :
    (∃ key f, Takes (J := J) c key f) ∨
      ∃ s, c = .jsonSet s ∧ SerdeJson.fromStr (J := J) s.value = none := by
  cases c with
  | get | hget | jsonGet | zscore | zrank | zrange | mget | ping | unimplement | eval | multi | exec
  | multiGroup | set | mset | blpop => cases hk
  | lpush c =>
      obtain ⟨iter, hr, -, -⟩ := hc.readFrom
      exact .inl ⟨c.key, _, takes_lpush hr.2⟩
  | lpop c => exact .inl ⟨c.key, _, takes_lpop c⟩
  | hset c => exact .inl ⟨c.key, _, takes_hset c⟩
  | hdel c => exact .inl ⟨c.key, _, takes_hdel c⟩
  | jsonSet c =>
      cases hv : SerdeJson.fromStr (J := J) c.value with
      | none => exact .inr ⟨c, rfl, hv⟩
      | some v => exact .inl ⟨c.key, _, takes_jsonSet hv⟩
  | zadd c => exact .inl ⟨c.key, _, takes_zadd c⟩
  | zrem c => exact .inl ⟨c.key, _, takes_zrem c⟩

/-- Every command a client can send is of one of five kinds. -/
theorem command_cases {c : Command S} (hc : Parsed c) :
    Quiet J c ∨ (∃ s, c = .set s) ∨ (∃ s, c = .mset s) ∨ (∃ b, c = .blpop b) ∨
      ∃ key f, Takes (J := J) c key f := by
  cases c with
  | get | hget | jsonGet | zscore | zrank | zrange =>
      exact .inl (.inr ⟨.inl ⟨_, _, fun _ _ _ => rfl⟩, fun _ => rfl⟩)
  | mget g => exact .inl (.inr ⟨.inr ⟨g, rfl⟩, fun _ => rfl⟩)
  | ping | unimplement | eval | multi | exec | multiGroup =>
      exact .inl (.inl ⟨_, rfl, .inl (fun _ => rfl), fun _ _ _ => rfl⟩)
  | set s => exact .inr (.inl ⟨s, rfl⟩)
  | mset s => exact .inr (.inr (.inl ⟨s, rfl⟩))
  | blpop b => exact .inr (.inr (.inr (.inl ⟨b, rfl⟩)))
  | lpush | lpop | hset | hdel | zadd | zrem =>
      rcases takes_cases (J := J) hc rfl with ht | ⟨s, hs, -⟩
      · exact .inr (.inr (.inr (.inr ht)))
      · cases hs
  | jsonSet s =>
      rcases takes_cases (J := J) hc rfl with ht | ⟨s, hs, hv⟩
      · exact .inr (.inr (.inr (.inr ht)))
      · cases hs
        refine .inl (.inl ⟨.err "Invalid JSON value", rfl, .inr ⟨_, rfl⟩, fun rt now x => ?_⟩)
        simp only [execute, executeJsonSet, hv]

def writePairs (pairs : List (Str × Bytes)) (m : Cells (Value S J)) : Cells (Value S J) :=
  pairs.foldl (fun m p => Function.update m p.1 (some (msetEntry p.2))) m

omit [F64 S] [SerdeJson J] in
theorem msetAll_cells (pairs : List (Str × Bytes)) (now : Nat) (m : Cells (Value S J)) :
    msetAll (S := S) now m pairs = (.ok (), writePairs pairs m) := by
  induction pairs generalizing m with
  | nil => rfl
  | cons p pairs ih => exact ih _

theorem execute_mset (rt : Runtime) (now : Nat) (m : Cells (Value S J)) (c : MSetCommand) :
    execute rt now m (.mset c) = (.logged okFrame (.mset c), writePairs (sortedPairs c) m) := by
  simp only [execute, executeMSet, msetAll_cells]

omit [Host] [F64 S] [SerdeJson J] in
theorem update_filled {m : Cells (Value S J)} (h : ∀ k, Filled (m k)) {key : Str}
    {e : Option (ValueEntry (Value S J))} (he : Filled e) (k : Str) :
    Filled (Function.update m key e k) := by
  rw [Function.update_apply]
  split
  · exact he
  · exact h k

omit [F64 S] [SerdeJson J] in
theorem simpleValue_filled (value : Bytes) (x : Option Nat) :
    Filled (some (newEntry (simpleValue (S := S) (J := J) value) x)) := by
  unfold simpleValue
  cases Host.lexicalParse value <;> simp [Filled, logicalOf, logical]

omit [F64 S] [SerdeJson J] in
theorem set_result (at' now : Nat) (s : SetCommand) (e : Option (ValueEntry (Value S J))) :
    ((setAccess at' s).onCell now e).1.aof = some (Command.set (S := S) s) ∧
        ((setAccess (S := S) at' s).onCell now e).2 = some (setEntry at' s) ∨
      ((setAccess (S := S) at' s).onCell now e).1.aof = none ∧
        ((setAccess (S := S) at' s).onCell now e).2 = unlessExpired now e := by
  unfold setAccess
  cases s.condition with
  | none => exact .inl ⟨rfl, rfl⟩
  | some condition =>
      simp only [Access.onCell]
      cases condition <;> cases (unlessExpired now e).isSome
      · exact .inl ⟨rfl, rfl⟩
      · exact .inr ⟨rfl, rfl⟩
      · exact .inr ⟨rfl, rfl⟩
      · exact .inl ⟨rfl, rfl⟩

omit [Host] [F64 S] [SerdeJson J] in
theorem unlessExpired_filled {now : Nat} {e : Option (ValueEntry (Value S J))} (h : Filled e) :
    Filled (unlessExpired now e) := by
  cases e with
  | none => exact h
  | some e =>
      cases hexp : e.isExpired now with
      | true => rw [unlessExpired_eq_none hexp]; simp [Filled, logicalOf]
      | false =>
          rw [unlessExpired_eq_self (by rintro e' ⟨⟩; exact hexp)]
          exact h

/-- No command leaves a list without elements. -/
theorem execute_filled {c : Command S} (hc : Parsed c) (rt : Runtime) (now : Nat)
    {m : Cells (Value S J)} (h : ∀ k, Filled (m k)) : ∀ k, Filled ((execute rt now m c).2 k) := by
  rcases command_cases (J := J) hc with hq | ⟨s, rfl⟩ | ⟨s, rfl⟩ | ⟨b, rfl⟩ | ⟨key, f, ht⟩
  · rw [(hq.onCells rt now m).1]
    exact h
  · refine update_filled h ?_
    rcases set_result now now s (m s.key) with ⟨-, he⟩ | ⟨-, he⟩
    · rw [he]
      exact simpleValue_filled s.value _
    · rw [he]
      exact unlessExpired_filled (h s.key)
  · rw [execute_mset]
    have hall : ∀ (pairs : List (Str × Bytes)) (m : Cells (Value S J)), (∀ k, Filled (m k)) →
        ∀ k, Filled (writePairs pairs m k) := by
      intro pairs
      induction pairs with
      | nil => intro m h; exact h
      | cons p pairs ih => intro m h; exact ih _ (update_filled h (simpleValue_filled p.2 none))
    exact hall (sortedPairs s) m h
  · exact update_filled h ((blpop_faithful b).filled _ (h b.key))
  · rw [ht.onCells]
    exact update_filled h ((ht.faithful rt).filled _ (h key))

/-- What a command does without a record: it removes an expired entry at most. -/
theorem execute_silent {c : Command S} (hc : Parsed c) (rt : Runtime) (now : Nat)
    {m : Cells (Value S J)} (h : ∀ k, Filled (m k)) (ha : (execute rt now m c).1.aof = none) (k : Str) :
    logicalOf ((execute rt now m c).2 k) = logicalOf (m k) ∨
      (execute rt now m c).2 k = none ∧ ∃ e, m k = some e ∧ e.isExpired now = true := by
  have hupdate (key : Str) (e : Option (ValueEntry (Value S J))) (he : logicalOf e = logicalOf (m key)) :
      logicalOf (Function.update m key e k) = logicalOf (m k) := by
    rw [Function.update_apply]
    split
    · next hk => rw [he, hk]
    · rfl
  rcases command_cases (J := J) hc with hq | ⟨s, rfl⟩ | ⟨s, rfl⟩ | ⟨b, rfl⟩ | ⟨key, f, ht⟩
  · rw [(hq.onCells rt now m).1]
    exact .inl rfl
  · rcases set_result now now s (m s.key) with ⟨ha', -⟩ | ⟨-, he⟩
    · exact absurd (ha'.symm.trans ha) (by simp)
    · have hrun : (execute rt now m (.set s)).2 =
          Function.update m s.key (unlessExpired now (m s.key)) := by rw [← he]; rfl
      rw [hrun]
      cases hm : m s.key with
      | none => exact .inl (hupdate s.key _ (by rw [hm]; rfl))
      | some e =>
          cases hexp : e.isExpired now with
          | false =>
              refine .inl (hupdate s.key _ ?_)
              rw [unlessExpired_eq_self (by rintro e' ⟨⟩; exact hexp), hm]
          | true =>
              rw [unlessExpired_eq_none hexp, Function.update_apply]
              split
              · next hk => exact .inr ⟨rfl, e, hk ▸ hm, hexp⟩
              · exact .inl rfl
  · rw [execute_mset] at ha
    cases ha
  · exact .inl (hupdate b.key _ ((blpop_faithful b).unlogged (h b.key) ha))
  · rw [ht.onCells] at ha ⊢
    exact .inl (hupdate key _ ((ht.faithful rt).unlogged (h key) ha))

/-- What a reader can see of an entry, with its expiration. -/
def observed (entry : Option (ValueEntry (Value S J))) : Option (Logical S J × Option Nat) :=
  entry.map (fun e => (logical e.data, e.expiresAt))

omit [Host] [F64 S] [SerdeJson J] in
theorem observed_eq_iff {e e' : Option (ValueEntry (Value S J))} :
    observed e = observed e' ↔ logicalOf e = logicalOf e' ∧
      e.bind ValueEntry.expiresAt = e'.bind ValueEntry.expiresAt := by
  cases e <;> cases e' <;> simp [observed, logicalOf]

omit [Host] [F64 S] [SerdeJson J] in
theorem Faithful.observed {d : Command S}
    {f g : Option (ValueEntry (Value S J)) → Done S × PutBack (Value S J)} (hf : Faithful d f)
    (hg : Faithful d g) (h : Respects f g) {e e' : Option (ValueEntry (Value S J))}
    (he : observed e = observed e') :
    (f e).1 = (g e').1 ∧ observed ((f e).2.result none) = observed ((g e').2.result none) := by
  obtain ⟨hlogical, hexpires⟩ := observed_eq_iff.mp he
  obtain ⟨hdone, hresult⟩ := h e e' hlogical
  refine ⟨hdone, observed_eq_iff.mpr ⟨hresult, ?_⟩⟩
  cases hr : (f e).2.result none with
  | none =>
      rw [hr] at hresult
      cases hr' : (g e').2.result none with
      | none => rfl
      | some x' => rw [hr'] at hresult; cases hresult
  | some x =>
      rw [hr] at hresult
      cases hr' : (g e').2.result none with
      | none => rw [hr'] at hresult; cases hresult
      | some x' =>
          exact (hf.expires e x hr).trans (hexpires.trans (hg.expires e' x' hr').symm)

omit [Host] [F64 S] [SerdeJson J] in
theorem observed_update {m m' : Cells (Value S J)} (h : ∀ k, observed (m k) = observed (m' k))
    (key : Str) {e e' : Option (ValueEntry (Value S J))} (he : observed e = observed e') (k : Str) :
    observed (Function.update m key e k) = observed (Function.update m' key e' k) := by
  by_cases hk : k = key
  · subst hk
    rw [Function.update_self, Function.update_self, he]
  · rw [Function.update_of_ne hk, Function.update_of_ne hk, h]

omit [F64 S] [SerdeJson J] in
theorem set_observed (s : SetCommand) {e e' : Option (ValueEntry (Value S J))}
    (he : observed e = observed e') :
    ((setAccess (S := S) 0 s).onCell 0 e).1 = ((setAccess 0 s).onCell 0 e').1 ∧
      observed ((setAccess (S := S) 0 s).onCell 0 e).2 =
        observed ((setAccess (S := S) 0 s).onCell 0 e').2 := by
  have hsome : e.isSome = e'.isSome := by
    have := congrArg Option.isSome he
    simpa [observed] using this
  unfold setAccess
  cases s.condition with
  | none => exact ⟨rfl, rfl⟩
  | some condition =>
      simp only [Access.onCell, unlessExpired_zero]
      rw [hsome]
      cases condition <;> cases e'.isSome
      · exact ⟨rfl, rfl⟩
      · exact ⟨rfl, he⟩
      · exact ⟨rfl, he⟩
      · exact ⟨rfl, rfl⟩

/-- Replaying a recorded command gives the same reply and the same values whatever
the levels and capacities come out as. -/
theorem execute_observed {c : Command S} (hc : Parsed c) {t : Nat} (hw : (aofFrame t c).isSome)
    (rt rt' : Runtime) {m m' : Cells (Value S J)} (h : ∀ k, observed (m k) = observed (m' k)) :
    (execute rt 0 m c).1 = (execute rt' 0 m' c).1 ∧
      ∀ k, observed ((execute rt 0 m c).2 k) = observed ((execute rt' 0 m' c).2 k) := by
  rcases command_cases (J := J) hc with
    (⟨d, -, -, hd⟩ | ⟨-, hnone⟩) | ⟨s, rfl⟩ | ⟨s, rfl⟩ | ⟨b, rfl⟩ | ⟨key, f, ht⟩
  · rw [hd, hd]
    exact ⟨rfl, h⟩
  · rw [hnone] at hw
    cases hw
  · obtain ⟨hdone, hresult⟩ := set_observed s (h s.key)
    exact ⟨hdone, observed_update h s.key hresult⟩
  · rw [execute_mset, execute_mset]
    refine ⟨rfl, ?_⟩
    have hall : ∀ (pairs : List (Str × Bytes)) (m m' : Cells (Value S J)),
        (∀ k, observed (m k) = observed (m' k)) →
        ∀ k, observed (writePairs pairs m k) = observed (writePairs pairs m' k) := by
      intro pairs
      induction pairs with
      | nil => intro m m' h; exact h
      | cons p pairs ih => intro m m' h; exact ih _ _ (observed_update h p.1 rfl)
    exact hall (sortedPairs s) m m' h
  · cases hw
  · obtain ⟨hdone, hresult⟩ := Faithful.observed (ht.faithful rt) (ht.faithful rt')
      (ht.respects rt rt') (h key)
    rw [ht.onCells, ht.onCells]
    exact ⟨hdone, observed_update h key hresult⟩

/-- The entries that replaying the log so far has built, against those of the
server: they agree but at the keys of `stale`, whose entries went in silence. -/
structure Behind (stale : Set Str) (m m' : Cells (Value S J)) : Prop where
  gone : ∀ k ∈ stale, m k = none
  same : ∀ k, k ∉ stale → logicalOf (m k) = logicalOf (m' k)

variable {stale : Set Str} {m m' : Cells (Value S J)}

omit [Host] [F64 S] [SerdeJson J] in
theorem Behind.mono (h : Behind stale m m') {stale' : Set Str} (hs : stale ⊆ stale')
    (hgone : ∀ k ∈ stale', m k = none) : Behind stale' m m' :=
  ⟨hgone, fun k hk => h.same k (fun hk' => hk (hs hk'))⟩

omit [Host] [F64 S] [SerdeJson J] in
theorem Behind.update (h : Behind stale m m') (key : Str) {e e' : Option (ValueEntry (Value S J))}
    (he : logicalOf e = logicalOf e') :
    Behind {k ∈ stale | Function.update m key e k = none} (Function.update m key e)
      (Function.update m' key e') := by
  refine ⟨fun k hk => hk.2, fun k hk => ?_⟩
  by_cases hkey : k = key
  · subst hkey
    rw [Function.update_self, Function.update_self, he]
  · rw [Function.update_of_ne hkey, Function.update_of_ne hkey]
    refine h.same k (fun hs => hk ⟨hs, ?_⟩)
    rw [Function.update_of_ne hkey]
    exact h.gone k hs

omit [F64 S] [SerdeJson J] in
theorem Behind.writePairs (h : Behind stale m m') (pairs : List (Str × Bytes)) :
    Behind {k ∈ stale | writePairs pairs m k = none} (writePairs pairs m) (writePairs pairs m') := by
  induction pairs generalizing m m' stale with
  | nil => exact h.mono (fun k hk => ⟨hk, h.gone k hk⟩) (fun k hk => hk.2)
  | cons p pairs ih =>
      refine (ih (h.update p.1 (e := some (msetEntry p.2)) rfl)).mono ?_ (fun k hk => hk.2)
      exact fun k hk => ⟨hk.1.1, hk.2⟩

theorem Behind.logged (h : Behind stale m m') {c d : Command S} (hc : Parsed c) (rt rt' : Runtime)
    (now : Nat) (ha : (execute rt now m c).1.aof = some d)
    (hcreate : Creates J c → ∀ k ∈ touched c, k ∉ stale) :
    (∃ r, (execute rt' 0 m' (recorded now d)).1.reply = .ok r) ∧
      Behind {k ∈ stale | (execute rt now m c).2 k = none} (execute rt now m c).2
        (execute rt' 0 m' (recorded now d)).2 := by
  rcases command_cases (J := J) hc with hq | ⟨s, rfl⟩ | ⟨s, rfl⟩ | ⟨b, rfl⟩ | ⟨key, f, ht⟩
  · rw [(hq.onCells rt now m).2] at ha
    cases ha
  · rcases set_result now now s (m s.key) with ⟨ha', he⟩ | ⟨ha', -⟩
    · cases ha.symm.trans ha'
      have hrun : (execute rt now m (.set s)).2 = Function.update m s.key (some (setEntry now s)) := by
        rw [← he]
        rfl
      rw [hrun]
      exact ⟨⟨_, rfl⟩, h.update s.key rfl⟩
    · cases ha'.symm.trans ha
  · rw [execute_mset] at ha ⊢
    cases ha
    simp only [AofRoundTrip.recorded, execute_mset]
    exact ⟨⟨_, rfl⟩, h.writePairs (sortedPairs s)⟩
  · have hm : (blpopTaken b (m b.key)).1.aof = some d := ha
    obtain ⟨hd, -⟩ := (blpop_faithful b).logged _ d hm
    subst hd
    have hk : b.key ∉ stale := by
      intro hs
      rw [h.gone b.key hs] at hm
      cases hm
    obtain ⟨hpop, hput⟩ := blpop_lpop b hm
    obtain ⟨hdone, hsame⟩ := lpop_respects ⟨b.key⟩ _ _ (h.same b.key hk)
    obtain ⟨-, r, hr⟩ := (lpop_faithful ⟨b.key⟩).logged _ _ hpop
    refine ⟨⟨r, ?_⟩, ?_⟩
    · exact (congrArg Done.reply hdone).symm.trans hr
    · refine h.update b.key ?_
      change logicalOf ((blpopTaken b (m b.key)).2.result none) = _
      rw [hput]
      exact hsame
  · rw [ht.onCells] at ha
    obtain ⟨hd, r, hr⟩ := (ht.faithful rt).logged _ d ha
    subst hd
    have hk : key ∉ stale := by
      intro hs
      rw [h.gone key hs] at ha
      exact hcreate (ht.creates rt (by rw [ha]; simp)) key (by simp [ht.touches]) hs
    obtain ⟨hdone, hsame⟩ := ht.respects rt rt' _ _ (h.same key hk)
    rw [ht.recorded, ht.onCells, ht.onCells]
    exact ⟨⟨r, (congrArg Done.reply hdone).symm.trans hr⟩, h.update key hsame⟩

end RustKv.Executor
