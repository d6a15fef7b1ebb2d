import RustKv.ScriptRecord
import RustKv.Transactions

namespace RustKv.Isolation

open Text Protocol Domain CommandParser CacheStore Zset RustKv.Types Executor Lua

section Contexts

variable {S J γ : Type} [Host] [F64 S] [SerdeJson J] [Context γ (Value S J)]
  {env env' : CurrentRequestEnv γ S} {script script' : Script}

/-- Where a script is when it has made a call at each of the moments. -/
def Script.after : List Moment → Script → CurrentRequestEnv γ S → Option (Script × CurrentRequestEnv γ S)
  | [], script, env => some (script, env)
  | moment :: ms, .call c next, env =>
      Script.after ms (next (redisCall moment env c).1) (redisCall moment env c).2
  | _ :: _, _, _ => none

theorem after_snoc {ms : List Moment} {c : Call} {next : Except LuaError Frame → Script}
    (h : Script.after ms script env = some (.call c next, env')) (moment : Moment) :
    Script.after (ms ++ [moment]) script env =
      some (next (redisCall moment env' c).1, (redisCall moment env' c).2) := by
  induction ms generalizing script env with
  | nil =>
      cases h
      rfl
  | cons m ms ih =>
      cases script with
      | call c' next' => exact ih h
      | ret | fail => cases h

/-- The rest of the run of a script that has made some of its calls. -/
theorem run_after (moments : Nat → Moment) {ms : List Moment}
    (h : Script.after ms script env = some (script', env')) {n : Nat}
    (hm : ∀ j m, ms[j]? = some m → moments (n + j) = m) :
    script.run moments n env = script'.run moments (n + ms.length) env' ∧
      Script.calls moments n script env = ms.length + Script.calls moments (n + ms.length) script' env' := by
  induction ms generalizing script env n with
  | nil =>
      cases h
      exact ⟨rfl, (Nat.zero_add _).symm⟩
  | cons m ms ih =>
      cases script with
      | ret | fail => cases h
      | call c next =>
          have hn : moments n = m := hm 0 m rfl
          obtain ⟨hrun, hcalls⟩ := ih h (n := n + 1) (fun j m' hj => by
            rw [Nat.add_assoc, Nat.add_comm 1 j]
            exact hm (j + 1) m' hj)
          have hlen : n + 1 + ms.length = n + (m :: ms).length := by
            rw [List.length_cons]
            omega
          rw [hlen] at hrun hcalls
          constructor
          · refine Eq.trans ?_ hrun
            rw [← hn]
            rfl
          · rw [Script.calls, hn, hcalls, List.length_cons]
            omega

/-- A script that returns when it has made a call at each of the moments. -/
theorem run_of_after {ms : List Moment} {frame : Frame} (h : Script.after ms script env = some (.ret frame, env')) :
    ∃ moments, script.run moments 0 env = (.ok frame, env') ∧
      (List.range (Script.calls moments 0 script env)).map moments = ms := by
  refine ⟨fun n => ms.getD n ⟨⟨[], 0, 0⟩, 0⟩, ?_⟩
  obtain ⟨hrun, hcalls⟩ := run_after (fun n => ms.getD n ⟨⟨[], 0, 0⟩, 0⟩) h (n := 0) (fun j m hj => by
    rw [Nat.zero_add, List.getD_eq_getElem?_getD, hj, Option.getD_some])
  refine ⟨hrun, ?_⟩
  rw [hcalls]
  refine List.ext_getElem ?_ (fun j hj hj' => ?_)
  · rw [List.length_map, List.length_range]
    rfl
  · rw [List.getElem_map, List.getElem_range]
    rw [List.getD_eq_getElem?_getD, List.getElem?_eq_getElem hj', Option.getD_some]

end Contexts

section Overlays

variable {S J : Type} [Host] [F64 S] [SerdeJson J] {env env' : CurrentRequestEnv (Sessions (Value S J)) S}
  {o o' : CurrentRequestEnv (Overlay (Value S J)) S} {script script' : Script}

/-- A script as its overlay shows it. -/
structure Shows (env : CurrentRequestEnv (Sessions (Value S J)) S)
    (o : CurrentRequestEnv (Overlay (Value S J)) S) : Prop where
  sessions : Reflects env.sessions o.sessions
  buffer : env.luaAofBuffer = o.luaAofBuffer

theorem Shows.call (h : Shows env o) (moment : Moment) (c : Call) :
    (redisCall moment env c).1 = (redisCall moment o c).1 ∧
      Shows (redisCall moment env c).2 (redisCall moment o c).2 := by
  cases hcommand : tryFrom (S := S) (.array (c.args.map .bulk)) with
  | error e =>
      simp only [redisCall, hcommand]
      exact ⟨trivial, h⟩
  | ok command =>
      obtain ⟨hdone, hreflects⟩ := h.sessions.execute moment.rt moment.now command
      rw [redisCall_eq moment env hcommand, redisCall_eq moment o hcommand, ← hdone]
      cases (execute moment.rt moment.now env.sessions command).1.reply with
      | error e => exact ⟨rfl, hreflects, h.buffer⟩
      | ok frame => exact ⟨rfl, hreflects, congrArg (· ++ [command]) h.buffer⟩

theorem Shows.after (h : Shows env o) {ms : List Moment} (ho : Script.after ms script o = some (script', o')) :
    ∃ env', Script.after ms script env = some (script', env') ∧ Shows env' o' := by
  induction ms generalizing script env o with
  | nil =>
      cases ho
      exact ⟨env, rfl, h⟩
  | cons m ms ih =>
      cases script with
      | ret | fail => cases ho
      | call c next =>
          obtain ⟨hresult, hshows⟩ := h.call m c
          rw [Script.after] at ho ⊢
          rw [hresult]
          exact ih hshows ho

theorem execute_declared (rt : Runtime) (now : Nat) (o : Overlay (Value S J)) (c : Command S) :
    (execute rt now o c).2.declared = o.declared := by
  have hsim (key : Str) : Simulates (S := S) (J := J)
      (fun x y : Overlay (Value S J) => x = y ∧ x.declared = o.declared) now key := by
    rintro a x _ ⟨rfl, hx⟩
    refine ⟨rfl, rfl, ?_⟩
    simp only [Context.access]
    split <;> exact hx
  exact (execute_sim rt c (fun k _ => hsim k) ⟨rfl, rfl⟩).2.2

theorem redisCall_declared (moment : Moment) (o : CurrentRequestEnv (Overlay (Value S J)) S) (c : Call) :
    (redisCall moment o c).2.sessions.declared = o.sessions.declared := by
  cases hcommand : tryFrom (S := S) (.array (c.args.map .bulk)) with
  | error e => simp only [redisCall, hcommand]
  | ok command =>
      rw [redisCall_eq moment o hcommand]
      have hd := execute_declared moment.rt moment.now o.sessions command
      cases (execute moment.rt moment.now o.sessions command).1.reply with
      | error e => exact hd
      | ok frame => exact hd

theorem after_declared {ms : List Moment} (h : Script.after ms script o = some (script', o')) :
    o'.sessions.declared = o.sessions.declared := by
  induction ms generalizing script o with
  | nil =>
      cases h
      rfl
  | cons m ms ih =>
      cases script with
      | ret | fail => cases h
      | call c next => exact (ih h).trans (redisCall_declared m o c)

end Overlays

section Locks

variable {D : Type} [Host] {m m' : Cells D} {shards : List (Fin Host.numShards)} {sessions : Sessions D}

theorem lockedOverlay_congr {shards' : List (Fin Host.numShards)} (hs : ∀ r, r ∈ shards ↔ r ∈ shards')
    (h : ∀ k, Host.shardIndex k ∈ shards → m k = m' k) : lockedOverlay shards m = lockedOverlay shards' m' := by
  have hcells : (lockedOverlay shards m).cells = (lockedOverlay shards' m').cells := by
    funext k
    by_cases hk : Host.shardIndex k ∈ shards
    · simp only [lockedOverlay, if_pos hk, if_pos ((hs _).mp hk), h k hk]
    · simp only [lockedOverlay, if_neg hk, if_neg (fun hk' => hk ((hs _).mpr hk'))]
  have hdeclared : (lockedOverlay shards m).declared = (lockedOverlay shards' m').declared := by
    funext r
    simp only [lockedOverlay, hs]
  rw [Overlay.mk.injEq]
  exact ⟨hdeclared, hcells⟩

theorem reflects_empty (m : Cells D) : Reflects (∅ : Sessions D) (lockedOverlay [] m) := by
  refine ⟨fun i => ?_, fun i node hi => ?_, fun k node hk => ?_⟩
  · rw [Finmap.lookup_empty]
    rfl
  · rw [Finmap.lookup_empty] at hi
    cases hi
  · rw [Finmap.lookup_empty] at hk
    cases hk

/-- One more lock. -/
theorem reflects_lock (h : Reflects sessions (lockedOverlay shards m)) {r : Fin Host.numShards} {shard : Shard D}
    (hshard : ∀ k, Host.shardIndex k = r → shard.dbStore.lookup k = m k) :
    Reflects (sessions.insert r (lockWriteLua shard)) (lockedOverlay (r :: shards) m) := by
  refine ⟨fun i => ?_, fun i node hi => ?_, fun k node hk => ?_⟩
  · by_cases hi : i = r
    · rw [hi, Finmap.lookup_insert]
      simp [lockedOverlay]
    · rw [Finmap.lookup_insert_of_ne _ hi, ← h.declared i]
      simp [lockedOverlay, hi]
  · by_cases hir : i = r
    · rw [hir, Finmap.lookup_insert] at hi
      cases hi
      exact ⟨_, rfl⟩
    · rw [Finmap.lookup_insert_of_ne _ hir] at hi
      exact h.writes i node hi
  · by_cases hkr : Host.shardIndex k = r
    · rw [hkr, Finmap.lookup_insert] at hk
      cases hk
      simp only [lockedOverlay, hkr, List.mem_cons, true_or, if_true, ← hshard k hkr]
      rfl
    · rw [Finmap.lookup_insert_of_ne _ hkr] at hk
      rw [h.cells k node hk]
      simp [lockedOverlay, hkr]

end Locks

end RustKv.Isolation
