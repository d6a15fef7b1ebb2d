import RustKv.Collections
import RustKv.FailedCommands
import RustKv.ListHash

namespace RustKv.ListHash

open Text Protocol Domain CacheStore Zset RustKv.Types Executor Lua

/-- A command, or the start or the end of a script. -/
inductive CollEvent
  | exec (cmd : CollCommand)
  | start (keys : List Str)
  | commit
  | rollback

abbrev Reply := Option (Except KvError Frame)

section Abstract

variable [Host]

/-- What is stored, and while a script runs which shards it has locked and what it sees. -/
structure AbstractState where
  stored : Str → Option Coll
  script : Option ((Fin Host.numShards → Bool) × (Str → Option Coll))

def AbstractState.new : AbstractState := ⟨fun _ => none, none⟩

def AbstractState.data (s : AbstractState) : Str → Option Coll :=
  match s.script with
  | some (_, seen) => seen
  | none => s.stored

/-- Whether the next command can have the key: a script has the keys of its shards only. -/
def AbstractState.has (s : AbstractState) (key : Str) : Bool :=
  match s.script with
  | some (locked, _) => locked (Host.shardIndex key)
  | none => true

def AbstractState.set (s : AbstractState) (data : Str → Option Coll) : AbstractState :=
  match s.script with
  | some (locked, _) => { s with script := some (locked, data) }
  | none => { s with stored := data }

def AbstractState.step (s : AbstractState) : CollEvent → Reply × AbstractState
  | .exec cmd =>
      if s.has cmd.key then
        let (frame, coll) := cmd.onColl (s.data cmd.key)
        (some (.ok frame), s.set (Function.update s.data cmd.key coll))
      else (some (.error (undeclared (Host.shardIndex cmd.key))), s)
  | .start keys => (none, { s with script := some ((shardIndices keys).contains, s.stored) })
  | .commit => (none, ⟨s.data, none⟩)
  | .rollback => (none, { s with script := none })

def AbstractState.run (s : AbstractState) : List CollEvent → List Reply × AbstractState
  | [] => ([], s)
  | ev :: evs =>
      let (reply, s) := s.step ev
      let (replies, s) := s.run evs
      (reply :: replies, s)

theorem AbstractState.run_append (s : AbstractState) (evs evs' : List CollEvent) :
    s.run (evs ++ evs') = ((s.run evs).1 ++ ((s.run evs).2.run evs').1, ((s.run evs).2.run evs').2) := by
  induction evs generalizing s with
  | nil => rfl
  | cons ev evs ih => simp [AbstractState.run, ih]

theorem AbstractState.data_set (s : AbstractState) (data : Str → Option Coll) : (s.set data).data = data := by
  obtain ⟨stored, script⟩ := s
  cases script <;> rfl

theorem AbstractState.has_set (s : AbstractState) (data : Str → Option Coll) : (s.set data).has = s.has := by
  obtain ⟨stored, script⟩ := s
  cases script <;> rfl

theorem AbstractState.set_set (s : AbstractState) (data data' : Str → Option Coll) :
    (s.set data).set data' = s.set data' := by
  obtain ⟨stored, script⟩ := s
  cases script <;> rfl

theorem AbstractState.set_data (s : AbstractState) : s.set s.data = s := by
  obtain ⟨stored, script⟩ := s
  cases script <;> rfl

/-- A list that is stored is not empty. -/
def listOf (items : List Bytes) : Option Coll := if items = [] then none else some (.list items)

omit [Host] in
theorem listOf_cons (item : Bytes) (items : List Bytes) : listOf (item :: items) = some (.list (item :: items)) :=
  if_neg (List.cons_ne_nil item items)

variable {s : AbstractState} {k : Str}

theorem step_lpop {item : Bytes} {items : List Bytes} (hk : s.has k = true)
    (hdata : s.data k = listOf (item :: items)) :
    s.step (.exec (.lpop k)) = (some (.ok (.bulk item)), s.set (Function.update s.data k (listOf items))) := by
  rw [listOf_cons] at hdata
  simp only [AbstractState.step, CollCommand.key, hk, if_true, hdata, CollCommand.onColl]
  rfl

theorem step_lpush {values items : List Bytes} (hne : values ≠ []) (hk : s.has k = true)
    (hdata : s.data k = listOf items) :
    s.step (.exec (.lpush k values hne)) = (some (.ok (.integer (values.length + items.length))),
      s.set (Function.update s.data k (listOf (values.reverse ++ items)))) := by
  have hnew : listOf (values.reverse ++ items) = some (.list (values.reverse ++ items)) :=
    if_neg (fun hnil => hne (List.reverse_eq_nil_iff.mp (List.append_eq_nil_iff.mp hnil).1))
  simp only [AbstractState.step, CollCommand.key, hk, if_true, hdata, hnew]
  cases items with
  | nil => simp [listOf, CollCommand.onColl]
  | cons item items => simp [listOf, CollCommand.onColl]

theorem run_lpops (values items : List Bytes) (hk : s.has k = true)
    (hdata : s.data k = listOf (values ++ items)) :
    s.run (List.replicate values.length (.exec (.lpop k))) =
      (values.map (fun v => some (.ok (.bulk v))), s.set (Function.update s.data k (listOf items))) := by
  induction values generalizing s with
  | nil =>
      rw [List.nil_append] at hdata
      rw [← hdata, Function.update_eq_self, AbstractState.set_data]
      rfl
  | cons value values ih =>
      have hrest := ih (s := s.set (Function.update s.data k (listOf (values ++ items))))
        (by rw [AbstractState.has_set]; exact hk)
        (by rw [AbstractState.data_set, Function.update_self])
      rw [AbstractState.set_set, AbstractState.data_set, Function.update_idem] at hrest
      rw [List.cons_append] at hdata
      rw [List.length_cons, List.replicate_succ, AbstractState.run, step_lpop hk hdata]
      simp only [hrest, List.map_cons]

theorem run_lpush_lpops {values items : List Bytes} (hne : values ≠ []) (hk : s.has k = true)
    (hdata : s.data k = listOf items) :
    s.run (.exec (.lpush k values hne) :: List.replicate values.length (.exec (.lpop k))) =
      (some (.ok (.integer (values.length + items.length))) ::
        values.reverse.map (fun v => some (.ok (.bulk v))), s) := by
  have hpops := run_lpops (s := s.set (Function.update s.data k (listOf (values.reverse ++ items))))
    values.reverse items (by rw [AbstractState.has_set]; exact hk)
    (by rw [AbstractState.data_set, Function.update_self])
  rw [AbstractState.set_set, AbstractState.data_set, Function.update_idem, ← hdata, Function.update_eq_self,
    AbstractState.set_data, List.length_reverse] at hpops
  rw [AbstractState.run, step_lpush hne hk hdata]
  simp only [hpops]

end Abstract

section Runs

variable {S J : Type} [Host] [F64 S] [SerdeJson J]

inductive CollSystem (S J : Type) [Host]
  | idle (db : Db (Value S J))
  | script (db : Db (Value S J)) (sessions : Sessions (Value S J))

def CollSystem.entry (sys : CollSystem S J) (key : Str) : Option (ValueEntry (Value S J)) :=
  match sys with
  | .idle db => db.entry key
  | .script db sessions =>
      match sight sessions key with
      | some cell => cell.committed
      | none => db.entry key

/-- A command in the Normal context while no client waits for its key, in the Recovery
context or in the Lua context, and what begins and ends a script. -/
inductive CollStep : CollSystem S J → CollEvent → Reply → CollSystem S J → Prop
  | normal {db : Db (Value S J)} (rt : Runtime) (now : Nat) (queues : Normal.Queues) (cmd : CollCommand)
      (h : Failures.Unwaited queues (cmd.command : Command S)) :
      CollStep (.idle db) (.exec cmd) (some (Expiry.answer rt now queues db (cmd.command : Command S)).1.reply)
        (.idle (Expiry.answer rt now queues db (cmd.command : Command S)).2)
  | recovery {db : Db (Value S J)} (rt : Runtime) (now : Nat) (cmd : CollCommand) :
      CollStep (.idle db) (.exec cmd) (some (execute rt now db (cmd.command : Command S)).1.reply)
        (.idle (execute rt now db (cmd.command : Command S)).2)
  | start {db : Db (Value S J)} (keys : List Str) :
      CollStep (.idle db) (.start keys) none (.script db (lockAll db (shardIndices keys)))
  | lua {db : Db (Value S J)} {sessions : Sessions (Value S J)} (rt : Runtime) (now : Nat) (cmd : CollCommand) :
      CollStep (.script db sessions) (.exec cmd)
        (some (execute rt now sessions (cmd.command : Command S)).1.reply)
        (.script db (execute rt now sessions (cmd.command : Command S)).2)
  | commit {db : Db (Value S J)} {sessions : Sessions (Value S J)}
      {drained : Fin Host.numShards → List (Str × ChangeOp (Value S J))}
      (hd : ∀ i node, sessions.lookup i = some node → Drains node.differMap (drained i)) :
      CollStep (.script db sessions) .commit none (.idle (release db (committed sessions drained)))
  | rollback {db : Db (Value S J)} {sessions : Sessions (Value S J)} :
      CollStep (.script db sessions) .rollback none
        (.idle (release db (Collections.abandoned sessions)))

/-- The runs from an empty database, with what has happened and what was replied. -/
inductive CollRun (t : Eviction.EvictionType) : List (CollEvent × Reply) → CollSystem S J → Prop
  | new : CollRun t [] (.idle (Db.new t))
  | step {past : List (CollEvent × Reply)} {sys sys' : CollSystem S J} {ev : CollEvent} {reply : Reply} :
      CollRun t past sys → CollStep sys ev reply sys' → CollRun t (past ++ [(ev, reply)]) sys'

/-- The database holds the abstract values. -/
def Stores (db : Db (Value S J)) (data : Str → Option Coll) : Prop :=
  ∀ k, Option.Rel Holds (db.entry k) (data k)

/-- The locked shards of a script hold what it sees, and below its changes what is stored. -/
structure Sees (sessions : Sessions (Value S J)) (o : Overlay (Value S J)) (stored seen : Str → Option Coll) :
    Prop where
  reflects : Reflects sessions o
  committed : ∀ k, o.declared (Host.shardIndex k) = true → Option.Rel Holds (o.cells k).committed (seen k)
  base : ∀ k, o.declared (Host.shardIndex k) = true → Option.Rel Holds (o.cells k).base (stored k)
  others : ∀ k, o.declared (Host.shardIndex k) = false → seen k = stored k

/-- The system is in the abstract state. -/
inductive Refines : CollSystem S J → AbstractState → Prop
  | idle {db : Db (Value S J)} {stored : Str → Option Coll} (hstored : Stores db stored) :
      Refines (.idle db) ⟨stored, none⟩
  | script {db : Db (Value S J)} {stored seen : Str → Option Coll} {sessions : Sessions (Value S J)}
      {o : Overlay (Value S J)} (hstored : Stores db stored) (hsees : Sees sessions o stored seen) :
      Refines (.script db sessions) ⟨stored, some (o.declared, seen)⟩

variable {db : Db (Value S J)} {sessions : Sessions (Value S J)} {sys sys' : CollSystem S J}
variable {data stored seen : Str → Option Coll} {o : Overlay (Value S J)} {s : AbstractState}

theorem Stores.executes (h : Stores db data) (rt : Runtime) (now : Nat) (cmd : CollCommand) :
    (execute rt now db (cmd.command : Command S)).1.reply = .ok (cmd.onColl (data cmd.key)).1 ∧
      Stores (execute rt now db (cmd.command : Command S)).2
        (Function.update data cmd.key (cmd.onColl (data cmd.key)).2) := by
  obtain ⟨hreply, hentry⟩ := access_matches (S := S) cmd rt now (h cmd.key)
  obtain ⟨hdone, hentries⟩ := db.access_spec now cmd.key (cmd.access rt : Access S (Value S J))
  rw [execute_access]
  refine ⟨(congrArg Done.reply hdone).trans hreply, fun k => ?_⟩
  refine (hentries k).symm ▸ ?_
  by_cases hk : k = cmd.key
  · rw [if_pos hk, hk, Function.update_self]
    exact hentry
  · rw [if_neg hk, Function.update_of_ne hk]
    exact h k

theorem refines_idle (h : Stores db data) (rt : Runtime) (now : Nat) (cmd : CollCommand) :
    some (execute rt now db (cmd.command : Command S)).1.reply =
        ((⟨data, none⟩ : AbstractState).step (.exec cmd)).1 ∧
      Refines (.idle (execute rt now db (cmd.command : Command S)).2)
        ((⟨data, none⟩ : AbstractState).step (.exec cmd)).2 := by
  obtain ⟨hreply, hstores⟩ := h.executes (S := S) rt now cmd
  rw [hreply]
  exact ⟨rfl, .idle hstores⟩

theorem Sees.executes (h : Sees sessions o stored seen) (rt : Runtime) (now : Nat) {cmd : CollCommand}
    (hd : o.declared (Host.shardIndex cmd.key) = true) :
    (execute rt now sessions (cmd.command : Command S)).1.reply = .ok (cmd.onColl (seen cmd.key)).1 ∧
      ∃ o', o'.declared = o.declared ∧ Sees (execute rt now sessions (cmd.command : Command S)).2 o' stored
        (Function.update seen cmd.key (cmd.onColl (seen cmd.key)).2) := by
  obtain ⟨hdone, hreflects⟩ := h.reflects.execute rt now (cmd.command : Command S)
  have hfresh := unexpired (h.base cmd.key hd) now
  obtain ⟨hreply, hentry⟩ := access_matches (S := S) cmd rt 0 (h.committed cmd.key hd)
  obtain ⟨hrun, hcommitted⟩ := LuaCell.run_committed hfresh (cmd.access rt : Access S (Value S J)) cmd.key
  have haccess := (execute_access (S := S) cmd rt now o).trans (access_declared hd now _)
  rw [haccess] at hdone hreflects
  refine ⟨(congrArg Done.reply (hdone.trans hrun)).trans hreply, { o with
    cells := Function.update o.cells cmd.key
      ((cmd.access rt : Access S (Value S J)).run now cmd.key (o.cells cmd.key)).2 },
    rfl, hreflects, ?_, ?_, ?_⟩
  · intro k hk
    by_cases he : k = cmd.key
    · subst he
      simp only [Function.update_self, hcommitted]
      exact hentry
    · simp only [Function.update_of_ne he]
      exact h.committed k hk
  · intro k hk
    by_cases he : k = cmd.key
    · subst he
      simp only [Function.update_self, LuaCell.run_base hfresh]
      exact h.base _ hd
    · simp only [Function.update_of_ne he]
      exact h.base k hk
  · intro k hk
    have he : k ≠ cmd.key := by
      rintro rfl
      rw [hd] at hk
      cases hk
    rw [Function.update_of_ne he]
    exact h.others k hk

theorem Sees.refused (h : Sees sessions o stored seen) (rt : Runtime) (now : Nat) {cmd : CollCommand}
    (hd : o.declared (Host.shardIndex cmd.key) = false) :
    (execute rt now sessions (cmd.command : Command S)).1.reply =
        .error (undeclared (Host.shardIndex cmd.key)) ∧
      Sees (execute rt now sessions (cmd.command : Command S)).2 o stored seen := by
  obtain ⟨hdone, hreflects⟩ := h.reflects.execute rt now (cmd.command : Command S)
  have haccess : execute rt now o (cmd.command : Command S) =
      (⟨.error (undeclared (Host.shardIndex cmd.key)), none, false⟩, o) := by
    rw [execute_access]
    simp only [Context.access, hd, Bool.false_eq_true, if_false]
  rw [haccess] at hdone hreflects
  exact ⟨congrArg Done.reply hdone, hreflects, h.committed, h.base, h.others⟩

theorem refines_lua (hstored : Stores db stored) (h : Sees sessions o stored seen) (rt : Runtime) (now : Nat)
    (cmd : CollCommand) :
    some (execute rt now sessions (cmd.command : Command S)).1.reply =
        ((⟨stored, some (o.declared, seen)⟩ : AbstractState).step (.exec cmd)).1 ∧
      Refines (.script db (execute rt now sessions (cmd.command : Command S)).2)
        ((⟨stored, some (o.declared, seen)⟩ : AbstractState).step (.exec cmd)).2 := by
  cases hd : o.declared (Host.shardIndex cmd.key) with
  | false =>
      obtain ⟨hreply, hsees⟩ := h.refused rt now hd
      simp only [AbstractState.step, AbstractState.has, hd, Bool.false_eq_true, if_false, hreply]
      exact ⟨trivial, .script hstored hsees⟩
  | true =>
      obtain ⟨hreply, o', ho', hsees⟩ := h.executes rt now hd
      simp only [AbstractState.step, AbstractState.has, hd, if_true, hreply]
      refine ⟨rfl, ?_⟩
      have hrefines := Refines.script hstored hsees
      rw [ho'] at hrefines
      exact hrefines

omit [F64 S] [SerdeJson J] in
theorem Stores.lockAll (h : Stores db stored) (shards : List (Fin Host.numShards)) :
    Sees (lockAll db shards) (lockedOverlay shards db.entry) stored stored := by
  have hcell : ∀ k, (lockedOverlay shards db.entry).declared (Host.shardIndex k) = true →
      (lockedOverlay shards db.entry).cells k = ⟨none, db.entry k⟩ := by
    intro k hk
    simp only [lockedOverlay, if_pos (of_decide_eq_true hk)]
  refine ⟨lockAll_reflects db shards, ?_, ?_, fun _ _ => rfl⟩
  · intro k hk
    rw [hcell k hk]
    exact h k
  · intro k hk
    rw [hcell k hk]
    exact h k

omit [F64 S] [SerdeJson J] in
theorem Sees.commit (h : Sees sessions o stored seen) (hstored : Stores db stored)
    {drained : Fin Host.numShards → List (Str × ChangeOp (Value S J))}
    (hd : ∀ i node, sessions.lookup i = some node → Drains node.differMap (drained i)) :
    Stores (release db (Lua.committed sessions drained)) seen := by
  intro k
  rw [release_entry db h.reflects hd]
  cases hk : o.declared (Host.shardIndex k) with
  | true => exact h.committed k hk
  | false =>
      rw [h.others k hk]
      exact hstored k

omit [F64 S] [SerdeJson J] in
theorem Sees.abandon (h : Sees sessions o stored seen) (hstored : Stores db stored) :
    Stores (release db (Collections.abandoned sessions)) stored := by
  intro k
  simp only [Db.entry, release, Collections.abandoned]
  cases hl : sessions.lookup (Host.shardIndex k) with
  | none => exact hstored k
  | some node =>
      have hbase := h.base k (by rw [h.reflects.declared, hl]; rfl)
      rw [← h.reflects.cells k node hl] at hbase
      exact hbase

omit [F64 S] [SerdeJson J] in
theorem refines_start (hstored : Stores db stored) (keys : List Str) :
    Refines (.script db (lockAll db (shardIndices keys)))
      (AbstractState.step ⟨stored, none⟩ (.start keys)).2 := by
  have hlocked : (lockedOverlay (shardIndices keys) db.entry).declared = (shardIndices keys).contains := by
    funext i
    exact (List.contains_eq_mem i (shardIndices keys)).symm
  have hscript := Refines.script hstored (hstored.lockAll (shardIndices keys))
  rw [hlocked] at hscript
  exact hscript

theorem CollStep.refines {ev : CollEvent} {reply : Reply} (hstep : CollStep sys ev reply sys')
    (h : Refines sys s) : reply = (s.step ev).1 ∧ Refines sys' (s.step ev).2 := by
  cases hstep with
  | normal rt now queues cmd hq =>
      cases h with
      | idle hstored =>
          rw [Failures.answer_unwaited hq]
          exact refines_idle hstored rt now cmd
  | recovery rt now cmd =>
      cases h with
      | idle hstored => exact refines_idle hstored rt now cmd
  | start keys =>
      cases h with
      | idle hstored => exact ⟨rfl, refines_start hstored keys⟩
  | lua rt now cmd =>
      cases h with
      | script hstored hsees => exact refines_lua hstored hsees rt now cmd
  | commit hd =>
      cases h with
      | script hstored hsees => exact ⟨rfl, .idle (hsees.commit hstored hd)⟩
  | rollback =>
      cases h with
      | script hstored hsees => exact ⟨rfl, .idle (hsees.abandon hstored)⟩

theorem CollRun.refines {t : Eviction.EvictionType} {past : List (CollEvent × Reply)} (h : CollRun t past sys) :
    past.map Prod.snd = (AbstractState.new.run (past.map Prod.fst)).1 ∧
      Refines sys (AbstractState.new.run (past.map Prod.fst)).2 := by
  induction h with
  | new =>
      refine ⟨rfl, .idle (fun k => ?_)⟩
      rw [Db.entry_new]
      exact .none
  | step _ hstep ih =>
      obtain ⟨hreplies, hrefines⟩ := ih
      obtain ⟨hreply, hrefines'⟩ := hstep.refines hrefines
      rw [List.map_append, List.map_append, AbstractState.run_append]
      refine ⟨?_, hrefines'⟩
      rw [hreplies, hreply]
      rfl

omit [F64 S] [SerdeJson J] in
theorem Refines.entry (h : Refines sys s) (k : Str) : Option.Rel Holds (sys.entry k) (s.data k) := by
  cases h with
  | idle hstored => exact hstored k
  | @script db stored seen sessions o hstored hsees =>
      rw [CollSystem.entry, reflects_sight hsees.reflects, overlaySight]
      cases hk : o.declared (Host.shardIndex k) with
      | true => exact hsees.committed k hk
      | false =>
          have hother := hstored k
          rw [← hsees.others k hk] at hother
          exact hother

/-- An entry up to the capacity of its container. -/
def content (e : ValueEntry (Value S J)) : Value S J × Option Nat :=
  (match e.data with
    | .list deque _ heap => .list deque 0 heap
    | .hash map _ heap => .hash map 0 heap
    | data => data, e.expiresAt)

omit [F64 S] [SerdeJson J] in
theorem content_eq {entry entry' : Option (ValueEntry (Value S J))} {coll : Option Coll}
    (h : Option.Rel Holds entry coll) (h' : Option.Rel Holds entry' coll) :
    entry'.map content = entry.map content := by
  cases h with
  | none =>
      cases h' with
      | none => rfl
  | some he =>
      cases h' with
      | some he' =>
          cases he with
          | list items capacity =>
              cases he' with
              | list => rfl
          | hash map m capacity hshows =>
              cases he' with
              | hash map' _ _ hshows' =>
                  have hmap : map' = map := by
                    refine Finmap.ext_lookup (fun field => ?_)
                    rw [hshows, hshows']
                  rw [hmap]
                  rfl

omit [F64 S] [SerdeJson J] in
theorem Refines.listOf (h : Refines sys s) {k : Str} (hk : ∀ m, s.data k ≠ some (.hash m)) :
    ∃ items, s.data k = ListHash.listOf items := by
  have hentry := h.entry k
  generalize sys.entry k = entry at hentry
  cases hd : s.data k with
  | none => exact ⟨[], rfl⟩
  | some coll =>
      rw [hd] at hentry
      cases hentry with
      | some hholds =>
          cases hholds with
          | list items capacity hne => exact ⟨items, (if_neg hne).symm⟩
          | hash map m => exact absurd hd (hk m)

omit [F64 S] [SerdeJson J] in
theorem elementsHeap_eq {entry : Option (ValueEntry (Value S J))} {coll : Option Coll}
    (h : Option.Rel Holds entry coll) :
    elementsHeap (entry.map ValueEntry.data) = UInt64.ofNat (bytesOf coll) := by
  cases h with
  | none => rfl
  | some he => cases he <;> rfl

def abstractOf (past : List (CollEvent × Reply)) : AbstractState :=
  (AbstractState.new.run (past.map Prod.fst)).2

theorem CollRun.script {t : Eviction.EvictionType} {past : List (CollEvent × Reply)} (script : Script)
    {env : CurrentRequestEnv (Sessions (Value S J)) S} (h : CollRun t past (.script db env.sessions))
    (moments : Nat → Moment) (n : Nat)
    (hcalls : script.Calls (fun _ _ command => ∃ cmd : CollCommand, command = cmd.command) moments n env) :
    ∃ more, CollRun t (past ++ more) (.script db (script.run moments n env).2.sessions) := by
  induction script generalizing past env n with
  | ret frame => exact ⟨[], by rw [List.append_nil]; exact h⟩
  | fail text => exact ⟨[], by rw [List.append_nil]; exact h⟩
  | call c next ih =>
      obtain ⟨hcommand, hcalls⟩ := hcalls
      cases hc : CommandParser.tryFrom (S := S) (.array (c.args.map .bulk)) with
      | error e =>
          have hcall : redisCall (moments n) env c = (.error .conversion, env) := by simp only [redisCall, hc]
          rw [Script.run]
          rw [hcall] at hcalls ⊢
          exact ih _ h (n + 1) hcalls
      | ok command =>
          obtain ⟨cmd, rfl⟩ := hcommand command hc
          have hsessions : (redisCall (moments n) env c).2.sessions =
              (execute (moments n).rt (moments n).now env.sessions (cmd.command : Command S)).2 := by
            rw [redisCall_eq (moments n) env hc]
            split <;> rfl
          have hstep := CollRun.step h (.lua (moments n).rt (moments n).now cmd)
          rw [← hsessions] at hstep
          obtain ⟨more, hmore⟩ := ih _ hstep (n + 1) hcalls
          rw [List.append_assoc] at hmore
          exact ⟨_, hmore⟩

/-- In every run of the commands on lists and hashes, in all three contexts, the replies
are those of the abstract machine and what is stored is what it has, elements_heap with it;
no addition or subtraction on elements_heap overflows; and popping as many values as were
pushed gives them back from the last and restores the key. -/
theorem lists_hashes_refine {t : Eviction.EvictionType} {past : List (CollEvent × Reply)} (h : CollRun t past sys) :
    past.map Prod.snd = (AbstractState.new.run (past.map Prod.fst)).1 ∧
    (∀ k, Option.Rel Holds (sys.entry k) ((abstractOf past).data k)) ∧
    (∀ k, bytesOf ((abstractOf past).data k) < 2 ^ 64 →
      (elementsHeap ((sys.entry k).map ValueEntry.data)).toNat = bytesOf ((abstractOf past).data k)) ∧
    (∀ cmd : CollCommand, bytesOf ((abstractOf past).data cmd.key) + cmd.bytes < 2 ^ 64 →
      cmd.heapChecked ((sys.entry cmd.key).map ValueEntry.data) =
        some (UInt64.ofNat (bytesOf (cmd.onColl ((abstractOf past).data cmd.key)).2))) ∧
    ∀ (k : Str) (values : List Bytes) (hne : values ≠ []) (more : List (CollEvent × Reply))
      (sys' : CollSystem S J), CollRun t (past ++ more) sys' →
      more.map Prod.fst = .exec (.lpush k values hne) :: List.replicate values.length (.exec (.lpop k)) →
      (abstractOf past).has k = true → (∀ m, (abstractOf past).data k ≠ some (.hash m)) →
      ∃ items, (abstractOf past).data k = listOf items ∧
        more.map Prod.snd = some (.ok (.integer (values.length + items.length))) ::
          values.reverse.map (fun v => some (.ok (.bulk v))) ∧
        (sys'.entry k).map content = (sys.entry k).map content ∧ abstractOf (past ++ more) = abstractOf past := by
  obtain ⟨hreplies, hrefines⟩ := h.refines
  refine ⟨hreplies, hrefines.entry, ?_, ?_, ?_⟩
  · intro k hfit
    rw [elementsHeap_eq (hrefines.entry k)]
    exact UInt64.toNat_ofNat_of_lt' hfit
  · intro cmd hfit
    exact heapChecked_eq cmd (hrefines.entry cmd.key) hfit
  · intro k values hne more sys' hmore hevents hhas hcoll
    obtain ⟨items, hitems⟩ := hrefines.listOf hcoll
    obtain ⟨hreplies', hrefines'⟩ := hmore.refines
    have hundo := run_lpush_lpops hne hhas hitems
    rw [← hevents] at hundo
    rw [List.map_append, List.map_append, AbstractState.run_append, hreplies] at hreplies'
    rw [List.map_append, AbstractState.run_append] at hrefines'
    have hlast := List.append_cancel_left hreplies'
    change more.map Prod.snd = ((abstractOf past).run (more.map Prod.fst)).1 at hlast
    change Refines sys' ((abstractOf past).run (more.map Prod.fst)).2 at hrefines'
    rw [hundo] at hlast hrefines'
    refine ⟨items, hitems, hlast, content_eq (hrefines.entry k) (hrefines'.entry k), ?_⟩
    rw [abstractOf, List.map_append, AbstractState.run_append]
    change ((abstractOf past).run (more.map Prod.fst)).2 = _
    rw [hundo]

end Runs

section Sample

attribute [local instance] singleShard wholeScore flatJson

theorem samplePush_some : [ascii ['a']] ≠ [] := List.cons_ne_nil _ _

/-- LPUSH k a. -/
def samplePush : CollCommand := .lpush Collections.listKey [ascii ['a']] samplePush_some

def hashKey : Str := Str.ofAscii (ascii ['h']) (by decide)

/-- HSET h k with the given value. -/
def sampleHash (value : Bytes) : CollCommand := .hset hashKey [(Collections.listKey, value)] (by simp)

def sampleHashed : AbstractState :=
  (AbstractState.new.run [.exec (sampleHash (ascii ['v'])), .exec (sampleHash (ascii ['w', 'w']))]).2

/-- The state in which the script has pushed its first item. -/
def samplePushed (locked : Fin Host.numShards → Bool) : AbstractState :=
  ((⟨sampleHashed.stored, some (locked, sampleHashed.stored)⟩ : AbstractState).step (.exec samplePush)).2

/-- A field of a hash is overwritten, then a script pushes one item, pushes two more and
pops these again. -/
theorem lists_hashes_refine_sample :
    ∃ (past more : List (CollEvent × Reply)) (sys sys' : CollSystem UInt64 Str), CollRun .lru past sys ∧
      CollRun .lru (past ++ more) sys' ∧
      past.map Prod.fst = [.exec (sampleHash (ascii ['v'])), .exec (sampleHash (ascii ['w', 'w'])),
        .start [Collections.listKey], .exec samplePush] ∧
      more.map Prod.snd = [some (.ok (.integer 3)), some (.ok (.bulk (ascii ['c']))),
        some (.ok (.bulk (ascii ['b'])))] ∧
      (elementsHeap ((sys.entry hashKey).map ValueEntry.data)).toNat = 3 ∧
      (sys'.entry Collections.listKey).map content = (sys.entry Collections.listKey).map content := by
  have hshards : shardIndices [Collections.listKey] = [0] := by
    simp only [shardIndices, List.map_cons, List.map_nil, List.mergeSort_singleton]
    rfl
  have h1 := CollRun.step (S := UInt64) (J := Str) (t := .lru) .new
    (.normal ⟨[], 4, 0⟩ 0 ∅ (sampleHash (ascii ['v'])) (by rintro key - waiters ⟨⟩))
  have h2 := CollRun.step h1 (.recovery ⟨[], 4, 0⟩ 0 (sampleHash (ascii ['w', 'w'])))
  have h3 := CollRun.step h2 (.start [Collections.listKey])
  rw [hshards] at h3
  have h4 := CollRun.step h3 (.lua ⟨[], 4, 0⟩ 0 samplePush)
  have h5 := CollRun.step h4 (.lua ⟨[], 4, 0⟩ 0 (.lpush Collections.listKey [ascii ['b'], ascii ['c']] (by simp)))
  have h6 := CollRun.step h5 (.lua ⟨[], 4, 0⟩ 0 (.lpop Collections.listKey))
  have h7 := CollRun.step h6 (.lua ⟨[], 4, 0⟩ 0 (.lpop Collections.listKey))
  have hstate (past : List (CollEvent × Reply)) (hpast : past.map Prod.fst = [.exec (sampleHash (ascii ['v'])),
      .exec (sampleHash (ascii ['w', 'w'])), .start [Collections.listKey], .exec samplePush]) :
      abstractOf past = samplePushed [0].contains := by
    have hstart : (sampleHashed.step (.start [Collections.listKey])).2 =
        ⟨sampleHashed.stored, some ([0].contains, sampleHashed.stored)⟩ := by
      simp only [AbstractState.step, hshards]
    rw [abstractOf, hpast]
    change ((sampleHashed.step (.start [Collections.listKey])).2.step (.exec samplePush)).2 = _
    rw [hstart]
    rfl
  obtain ⟨-, -, hsize, -, hundo⟩ := lists_hashes_refine h4
  rw [hstate _ rfl] at hsize hundo
  obtain ⟨items, -, -, hcontent, -⟩ := hundo Collections.listKey [ascii ['b'], ascii ['c']] (by simp) _ _ h7 rfl rfl
    (by rintro m ⟨⟩)
  exact ⟨_, _, _, _, h4, h7, rfl, rfl, hsize hashKey (by decide), hcontent⟩

end Sample

end RustKv.ListHash
