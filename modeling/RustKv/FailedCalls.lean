import RustKv.FailedCommands
import RustKv.StringValues

namespace RustKv.Failures

open Text Protocol Domain CacheStore Zset RustKv.Types Executor RustKv.Normal Expiry Lua

section Cells

variable {S J D : Type} {now later : Nat}

theorem isExpired_mono {e : ValueEntry D} (h : now ≤ later) (he : e.isExpired now = true) :
    e.isExpired later = true := by
  unfold ValueEntry.isExpired at he ⊢
  cases hx : e.expiresAt with
  | none => simp [hx] at he
  | some t =>
      simp only [hx, decide_eq_true_eq] at he ⊢
      omega

theorem unlessExpired_later (h : now ≤ later) (e : Option (ValueEntry D)) :
    unlessExpired later (unlessExpired now e) = unlessExpired later e := by
  rcases expired_or_same now e with ⟨x, rfl, hx⟩ | hsame
  · rw [unlessExpired_eq_none hx, unlessExpired_eq_none (isExpired_mono h hx)]
    rfl
  · rw [hsame]

theorem future_eq_view (h : now ≤ later) (c : LuaCell D) :
    future later c = unlessExpired later (c.view now) := by
  cases hc : c.change with
  | some change => simp [future, LuaCell.committed, view_change hc, hc]
  | none => simp [future, LuaCell.committed, view_none hc, hc, unlessExpired_later h]

theorem leaves_view {c c' : LuaCell D} {e : Option (ValueEntry D)} (h : LuaCell.Leaves now c c' e) :
    c'.view now = e := by
  rcases h with ⟨change, hc, rfl⟩ | ⟨hc, rfl, rfl⟩
  · exact view_change hc
  · have hnone : (c.select now).2.change = none := (select_change now c).trans hc
    have hbase : (c.select now).2.base = unlessExpired now c.base := by simp [LuaCell.select, hc]
    rw [view_none hnone, view_none hc, hbase, unlessExpired_idem]

theorem observed_unlessExpired {e e' : Option (ValueEntry (Value S J))} (h : observed e = observed e') :
    observed (unlessExpired now e) = observed (unlessExpired now e') := by
  cases e with
  | none =>
      cases e' with
      | none => rfl
      | some x' => cases h
  | some x =>
      cases e' with
      | none => cases h
      | some x' =>
          have hexp : x.expiresAt = x'.expiresAt := congrArg Prod.snd (Option.some.inj h)
          have hsame : x.isExpired now = x'.isExpired now := by
            rw [ValueEntry.isExpired, ValueEntry.isExpired, hexp]
          cases hx : x.isExpired now with
          | true => rw [unlessExpired_eq_none hx, unlessExpired_eq_none (hsame.symm.trans hx)]
          | false =>
              have hself : unlessExpired now (some x) = some x :=
                unlessExpired_eq_self (by rintro _ ⟨⟩; exact hx)
              have hself' : unlessExpired now (some x') = some x' :=
                unlessExpired_eq_self (by rintro _ ⟨⟩; exact hsame.symm.trans hx)
              rw [hself, hself', h]

/-- What a script sees of a key, and what it has for the shard at every later moment,
is what it was. -/
structure SameCell (now : Nat) (c c' : LuaCell (Value S J)) : Prop where
  view : observed (c'.view now) = observed (c.view now)
  future : ∀ later, now ≤ later → observed (future later c') = observed (future later c)

theorem sameCell_iff {c c' : LuaCell (Value S J)} :
    SameCell now c c' ↔ observed (c'.view now) = observed (c.view now) := by
  constructor
  · exact SameCell.view
  · intro h
    refine ⟨h, fun later hle => ?_⟩
    rw [future_eq_view hle, future_eq_view hle]
    exact observed_unlessExpired h

end Cells

section Calls

variable {S J : Type} {now : Nat} [Host]

/-- The overlays of a script are logically unchanged. -/
def Unaltered (now : Nat) (before after : Str → Option (LuaCell (Value S J))) : Prop :=
  ∀ k, Option.Rel (SameCell now) (before k) (after k)

/-- The pairs an MSET has written when it meets a key whose shard is not locked. -/
def written (seen : Str → Option (LuaCell (Value S J))) (c : MSetCommand) : List (Str × Bytes) :=
  (sortedPairs c).takeWhile (fun p => (seen p.1).isSome)

/-- An MSET has all the shards it needs, or has written nothing new when it finds that
it has not. -/
def Settled (now : Nat) (seen : Str → Option (LuaCell (Value S J))) : Command S → Prop
  | .mset c => (∀ p ∈ c.keysAndValues, (seen p.1).isSome) ∨
      ∀ k cell v, seen k = some cell → lastGiven (written seen c) k = some v →
        observed (cell.view now) = observed (some (msetEntry v : ValueEntry (Value S J)))
  | _ => True

omit [Host] in
theorem unaltered_refl (seen : Str → Option (LuaCell (Value S J))) : Unaltered now seen seen := by
  intro k
  cases seen k with
  | none => exact .none
  | some c => exact .some (sameCell_iff.mpr rfl)

theorem overlay_unaltered_iff {o o' : Overlay (Value S J)} (h : o'.declared = o.declared) :
    Unaltered now (overlaySight o) (overlaySight o') ↔ ∀ k, o.declared (Host.shardIndex k) = true →
      observed ((o'.cells k).view now) = observed ((o.cells k).view now) := by
  apply forall_congr'
  intro k
  rw [overlaySight, overlaySight, h]
  cases hd : o.declared (Host.shardIndex k) with
  | false => simp
  | true => simp [sameCell_iff]

theorem access_unaltered {o : Overlay (Value S J)} {key : Str} {a : Access S (Value S J)}
    (h : o.declared (Host.shardIndex key) = true → Failed (a.onCell 0 ((o.cells key).view now)).1.reply →
      observed (a.onCell 0 ((o.cells key).view now)).2 = observed ((o.cells key).view now))
    {e : KvError} (he : (Context.access o now key a).1.reply = .error e) :
    Unaltered now (overlaySight o) (overlaySight (Context.access o now key a).2) := by
  cases hd : o.declared (Host.shardIndex key) with
  | false =>
      simp only [Context.access, hd]
      exact unaltered_refl _
  | true =>
      obtain ⟨hdone, hleaves⟩ := LuaCell.run_view a now key (o.cells key)
      rw [access_declared hd] at he ⊢
      rw [hdone] at he
      have hdeclared : ({ o with cells := Function.update o.cells key (a.run now key (o.cells key)).2 } :
          Overlay (Value S J)).declared = o.declared := rfl
      apply (overlay_unaltered_iff hdeclared).mpr
      intro k _
      by_cases hk : k = key
      · subst hk
        simp only [Function.update_self]
        rw [leaves_view hleaves]
        exact h hd (by rw [he]; trivial)
      · simp only [Function.update_of_ne hk]

theorem msetAll_overlay (now : Nat) (pairs : List (Str × Bytes)) (o : Overlay (Value S J)) :
    (msetAll (S := S) now o pairs).2.declared = o.declared ∧
    (∀ k, ((msetAll (S := S) now o pairs).2.cells k).view now =
      match lastGiven (pairs.takeWhile (fun p => o.declared (Host.shardIndex p.1))) k with
      | some v => some (msetEntry v)
      | none => (o.cells k).view now) ∧
    ((∃ e, (msetAll (S := S) now o pairs).1 = .error e) ↔
      ¬ ∀ p ∈ pairs, o.declared (Host.shardIndex p.1) = true) := by
  induction pairs generalizing o with
  | nil => simp [msetAll, lastGiven]
  | cons p pairs ih =>
      obtain ⟨key, value⟩ := p
      simp only [msetAll]
      cases hd : o.declared (Host.shardIndex key) with
      | false =>
          simp only [Context.access, hd]
          simp [lastGiven, hd]
      | true =>
          rw [access_declared hd]
          obtain ⟨hdeclared, hview, herror⟩ :=
            ih { o with cells := Function.update o.cells key ((o.cells key).insert now (msetEntry value)) }
          refine ⟨hdeclared, fun k => (hview k).trans ?_, herror.trans ?_⟩
          · simp only [List.takeWhile_cons, hd, if_true, lastGiven]
            cases lastGiven (pairs.takeWhile (fun p => o.declared (Host.shardIndex p.1))) k with
            | some v => rfl
            | none =>
                by_cases hk : k = key
                · subst hk
                  simp only [Function.update_self, if_true]
                  have hc : ((o.cells k).insert now (msetEntry value)).change =
                      some (.update (msetEntry value)) := rfl
                  exact view_change hc
                · simp only [Function.update_of_ne hk, if_neg hk]
          · simp [hd]

variable [F64 S] [SerdeJson J]

theorem mset_unaltered_iff (rt : Runtime) (o : Overlay (Value S J)) (c : MSetCommand) :
    (∀ e, (execute rt now o (.mset c : Command S)).1.reply = .error e →
      Unaltered now (overlaySight o) (overlaySight (execute rt now o (.mset c : Command S)).2)) ↔
      Settled now (overlaySight o) (.mset c : Command S) := by
  obtain ⟨hdeclared, hview, herror⟩ := msetAll_overlay (S := S) now (sortedPairs c) o
  have hseen (p : Str × Bytes) : (overlaySight o p.1).isSome = o.declared (Host.shardIndex p.1) := by
    rw [overlaySight]
    cases o.declared (Host.shardIndex p.1) <;> rfl
  have hmem : (∀ p ∈ c.keysAndValues, (overlaySight o p.1).isSome) ↔
      ∀ p ∈ sortedPairs c, o.declared (Host.shardIndex p.1) = true := by
    simp only [hseen, sortedPairs, List.mem_mergeSort]
  have hreply : (∃ e, (execute rt now o (.mset c : Command S)).1.reply = .error e) ↔
      ∃ e, (msetAll (S := S) now o (sortedPairs c)).1 = .error e := by
    simp only [execute, executeMSet]
    rcases msetAll (S := S) now o (sortedPairs c) with ⟨_ | _, o'⟩ <;> simp [Done.logged]
  have hafter : (execute rt now o (.mset c : Command S)).2 = (msetAll (S := S) now o (sortedPairs c)).2 := by
    simp only [execute, executeMSet]
    rcases msetAll (S := S) now o (sortedPairs c) with ⟨_ | _, o'⟩ <;> rfl
  rw [Settled, hmem, ← exists_imp, hreply, herror, hafter, overlay_unaltered_iff hdeclared,
    or_iff_not_imp_left]
  apply imp_congr_right
  intro _
  simp only [written, hseen]
  constructor
  · intro h k cell v hcell hv
    rw [overlaySight] at hcell
    split at hcell
    · next hd =>
      cases hcell
      rw [← h k hd, hview, hv]
    · cases hcell
  · intro h k hd
    rw [hview]
    split
    · next v hv => exact (h k (o.cells k) v (by rw [overlaySight, if_pos hd]) hv).symm
    · rfl

theorem overlay_call_iff (rt : Runtime) (o : Overlay (Value S J)) (c : Command S) :
    (∀ e, (execute rt now o c).1.reply = .error e →
      Unaltered now (overlaySight o) (overlaySight (execute rt now o c).2)) ↔
      Settled now (overlaySight o) c := by
  cases hk : keyed (J := J) rt now (fun c => c.values) c with
  | some p =>
      obtain ⟨key, a⟩ := p
      rw [execute_keyed hk]
      refine iff_of_true (fun e he => ?_) ?_
      · apply access_unaltered (e := e) ?_ he
        intro _ hfailed
        exact (keyed_failed hk 0 ((o.cells key).view now) hfailed).2.observed
      · cases c with
        | mset => cases hk
        | _ => trivial
  | none =>
      cases c with
      | mset c => exact mset_unaltered_iff rt o c
      | mget c =>
          refine iff_of_true (fun e _ => ?_) trivial
          obtain ⟨hkept, -⟩ := mget_overlay (S := S) now c.keys o
          apply (overlay_unaltered_iff hkept.declared).mpr
          intro k _
          exact congrArg observed (hkept.view k)
      | jsonSet c =>
          have hv : SerdeJson.fromStr (J := J) c.value = none := Option.map_eq_none_iff.mp hk
          refine iff_of_true (fun e _ => ?_) trivial
          simp only [execute, executeJsonSet, hv]
          exact unaltered_refl _
      | ping | unimplement | eval | multi | exec | multiGroup =>
          exact iff_of_true (fun e _ => unaltered_refl _) trivial
      | get | set | lpush | lpop | blpop | hset | hget | hdel | jsonGet | zadd | zscore | zrank | zrange
      | zrem => cases hk

/-- A call that raises an error leaves the overlays of the script alone, unless it is an
MSET that has already written something when it finds a shard that is not locked. -/
theorem failed_call_unaltered_iff (rt : Runtime) (now : Nat) {sessions : Sessions (Value S J)}
    (hw : ∀ i node, sessions.lookup i = some node → Writes node) (c : Command S) :
    (∀ e, (execute rt now sessions c).1.reply = .error e →
      Unaltered now (sight sessions) (sight (execute rt now sessions c).2)) ↔
      Settled now (sight sessions) c := by
  have hr := overlayOf_reflects hw
  obtain ⟨hdone, hr'⟩ := hr.execute rt now c
  rw [hdone, reflects_sight hr, reflects_sight hr']
  exact overlay_call_iff rt (overlayOf sessions) c

end Calls

section Sample

attribute [local instance] twoShards wholeScore flatJson

theorem ascii_m : ∀ b ∈ ascii ['m'], b < 0x80 := by decide

/-- A key whose shard the script has not locked. -/
def foreignKey : Str := Str.ofAscii (ascii ['m']) ascii_m

/-- The shard of the key the script has declared, and the other one. -/
def lockedShard : Fin Host.numShards := ⟨0, Nat.zero_lt_two⟩

def foreignShard : Fin Host.numShards := ⟨1, Nat.one_lt_two⟩

/-- A script with KEYS = {"k"} that has done nothing yet. -/
def sampleSessions : Sessions (Value UInt64 Str) :=
  (∅ : Sessions (Value UInt64 Str)).insert lockedShard (LuaCacheNode.new (.writeguard ⟨Shard.new .lru, 0⟩))

theorem sampleSessions_writes : ∀ i node, sampleSessions.lookup i = some node → Writes node := by
  intro i node h
  by_cases hi : i = lockedShard
  · rw [sampleSessions, hi, Finmap.lookup_insert] at h
    cases h
    exact ⟨_, rfl⟩
  · rw [sampleSessions, Finmap.lookup_insert_of_ne _ hi] at h
    cases h

/-- MSET k x m y. -/
def tornPairs : MSetCommand := ⟨[(sampleKey, ascii ['x']), (foreignKey, ascii ['y'])]⟩

/-- redis.call("MSET", "k", "x", "m", "y") raises an error, and `k` has its value. -/
theorem torn_mset_alters :
    (execute sampleRuntime 0 sampleSessions (.mset tornPairs : Command UInt64)).1.reply =
        .error (undeclared foreignShard) ∧
      ¬ Unaltered 0 (sight sampleSessions)
        (sight (execute sampleRuntime 0 sampleSessions (.mset tornPairs : Command UInt64)).2) := by
  have hsorted : sortedPairs tornPairs = tornPairs.keysAndValues := by
    apply List.mergeSort_of_pairwise
    decide
  have hrun : execute sampleRuntime 0 sampleSessions (.mset tornPairs : Command UInt64) =
      (⟨.error (undeclared foreignShard), none, false⟩,
        (msetAll (S := UInt64) 0 sampleSessions tornPairs.keysAndValues).2) := by
    simp only [execute, executeMSet, hsorted]
    rfl
  have hbefore : sight sampleSessions sampleKey = some ⟨none, none⟩ := rfl
  have hafter : sight (msetAll (S := UInt64) 0 sampleSessions tornPairs.keysAndValues).2 sampleKey =
      some ⟨some (.update (msetEntry (ascii ['x']))), none⟩ := rfl
  rw [hrun]
  refine ⟨rfl, fun h => ?_⟩
  have hk := h sampleKey
  rw [hbefore, hafter, Option.rel_some_some] at hk
  cases hk.view

theorem failed_call_unaltered_iff_sample :
    (execute sampleRuntime 0 sampleSessions (.get ⟨foreignKey⟩ : Command UInt64)).1.reply =
        .error (undeclared foreignShard) ∧
      Unaltered 0 (sight sampleSessions)
        (sight (execute sampleRuntime 0 sampleSessions (.get ⟨foreignKey⟩ : Command UInt64)).2) := by
  have hreply : (execute sampleRuntime 0 sampleSessions (.get ⟨foreignKey⟩ : Command UInt64)).1.reply =
      .error (undeclared foreignShard) := rfl
  exact ⟨hreply, (failed_call_unaltered_iff sampleRuntime 0 sampleSessions_writes _).mpr trivial _ hreply⟩

end Sample

end RustKv.Failures
