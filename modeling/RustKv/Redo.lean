import RustKv.ServerSteps

namespace RustKv.Executor

open Text Protocol Domain CacheStore Zset RustKv.Types AofRoundTrip RequestReading Recovery RustKv.Normal

variable {S J : Type} [Host] [F64 S] [SerdeJson J]

theorem execute_untouched (rt : Runtime) (now : Nat) (m : Cells (Value S J)) {c : Command S} {k : Str}
    (hk : k ∉ touched c) : (execute rt now m c).2 k = m k := by
  have hsim : ∀ key ∈ touched c, Simulates (S := S) (J := J)
      (fun x y : Cells (Value S J) => x = y ∧ x k = m k) now key := by
    rintro key hkey a x _ ⟨rfl, hx⟩
    refine ⟨rfl, rfl, ?_⟩
    have hne : k ≠ key := fun h => hk (h ▸ hkey)
    exact (Function.update_of_ne hne _ x).trans hx
  exact (execute_sim rt c hsim ⟨rfl, rfl⟩).2.2

/-- Replaying the record of a command where the key is worth `e` makes it worth `e'`. -/
def Redoes (d : Command S) (key : Str) (e e' : Option (ValueEntry (Value S J))) : Prop :=
  ∀ rt now (m : Cells (Value S J)), logicalOf (m key) = logicalOf e →
    (∃ frame, (execute rt 0 m (recorded now d)).1.reply = .ok frame) ∧
      logicalOf ((execute rt 0 m (recorded now d)).2 key) = logicalOf e'

theorem Redoes.congr {d : Command S} {key : Str} {e e' x x' : Option (ValueEntry (Value S J))}
    (h : Redoes d key e e') (hx : logicalOf x = logicalOf e) (hx' : logicalOf x' = logicalOf e') :
    Redoes d key x x' := by
  intro rt now m hm
  rw [hx']
  exact h rt now m (hm.trans hx)

/-- The record of a command on one key: it can be written at any time, and read back
when the deadline of the command can. -/
structure RecordOf (c : Command S) (key : Str) (d : Command S) : Prop where
  written : ∀ now, (LogRecord.single now d).Written
  readable : ∀ now, Loggable now c → (LogRecord.single now d).Readable
  touches : ∀ now, touched (recorded now d) = [key]

/-- What a command does to its key: it keeps lists filled, changes no value in
silence, and what it hands to send_aof makes the same change again. -/
structure Works (c : Command S) (key : Str) (a : Access S (Value S J)) : Prop where
  filled : ∀ now e, Filled e → Filled (a.onCell now e).2
  silent : ∀ now e, Filled e → (∀ x, e = some x → x.isExpired now = false) →
    (a.onCell now e).1.aof = none → logicalOf (a.onCell now e).2 = logicalOf e
  logged : ∀ now e d, (a.onCell now e).1.aof = some d → RecordOf c key d ∧ Redoes d key e (a.onCell now e).2

theorem Takes.works {c : Command S} {key : Str}
    {f : Runtime → Option (ValueEntry (Value S J)) → Done S × PutBack (Value S J)} (ht : Takes c key f)
    (hc : Parsed c) (rt : Runtime) : Works c key (.take (f rt)) where
  filled _ := (ht.faithful rt).filled
  silent _ _ he _ ha := (ht.faithful rt).unlogged he ha
  logged now e d ha := by
    obtain ⟨hd, frame, hframe⟩ := (ht.faithful rt).logged e d ha
    subst hd
    refine ⟨⟨fun now => ⟨hc, ht.writes now⟩, fun now h => h, fun now => ?_⟩, fun rt' now m hm => ?_⟩
    · rw [ht.recorded, ht.touches]
    · obtain ⟨hdone, hresult⟩ := ht.respects rt rt' e (m key) hm.symm
      rw [ht.recorded, ht.onCells]
      refine ⟨⟨frame, ?_⟩, ?_⟩
      · exact (congrArg Done.reply hdone).symm.trans hframe
      · change logicalOf (Function.update m key _ key) = _
        rw [Function.update_self]
        exact hresult.symm

theorem works_of_takes {c : Command S} (hc : Parsed c) {key : Str} (rt : Runtime)
    {a : Access S (Value S J)} (htouch : touched c = [key])
    (hrun : ∀ now (m : Cells (Value S J)), execute rt now m c = Context.access m now key a)
    (ht : ∃ key f, Takes (J := J) c key f) : Works c key a := by
  obtain ⟨key', f, ht⟩ := ht
  have hkey : key' = key := List.singleton_injective (ht.touches.symm.trans htouch)
  subst hkey
  have hcell (now : Nat) (e : Option (ValueEntry (Value S J))) :
      a.onCell now e = (Access.take (f rt) : Access S (Value S J)).onCell now e := by
    have h := (hrun now (fun _ => e)).symm.trans (ht.run rt now (fun _ => e))
    have hresult := congrFun (congrArg Prod.snd h) key'
    simp only [Context.access, Function.update_self] at hresult
    exact Prod.ext (congrArg (fun p => p.1) h) hresult
  have hw := ht.works hc rt
  refine ⟨fun now e => ?_, fun now e => ?_, fun now e d => ?_⟩
  · rw [hcell]
    exact hw.filled now e
  · rw [hcell]
    exact hw.silent now e
  · rw [hcell]
    exact hw.logged now e d

theorem set_works {s : SetCommand} (hc : Parsed (Command.set (S := S) s)) (at' : Nat) :
    Works (S := S) (J := J) (.set s) s.key (setAccess at' s) := by
  refine ⟨fun now e he => ?_, fun now e _ hexp ha => ?_, fun now e d ha => ?_⟩
  · rcases set_result at' now s e with ⟨-, hr⟩ | ⟨-, hr⟩
    · rw [hr]
      exact simpleValue_filled s.value _
    · rw [hr]
      exact unlessExpired_filled he
  · rcases set_result at' now s e with ⟨ha', -⟩ | ⟨-, hr⟩
    · cases ha'.symm.trans ha
    · rw [hr, unlessExpired_eq_self hexp]
  · rcases set_result at' now s e with ⟨ha', hr⟩ | ⟨ha', -⟩
    · cases ha.symm.trans ha'
      refine ⟨⟨fun now => ⟨hc, rfl⟩, fun now h => h, fun now => rfl⟩, fun rt now' m _ => ⟨⟨_, rfl⟩, ?_⟩⟩
      rw [hr]
      change logicalOf (Function.update m s.key _ s.key) = _
      rw [Function.update_self]
      rfl
    · cases ha'.symm.trans ha

theorem blpop_works {b : BLPopCommand} (hc : Parsed (Command.blpop (S := S) b)) :
    Works (S := S) (J := J) (.blpop b) b.key (.take (blpopTaken b)) where
  filled _ := (blpop_faithful b).filled
  silent _ _ _ _ ha := blpop_silent b ha
  logged now e d ha := by
    obtain ⟨hpop, hput⟩ := blpop_lpop b ha
    obtain ⟨hd, frame, hframe⟩ := (lpop_faithful ⟨b.key⟩).logged e d hpop
    subst hd
    refine ⟨⟨fun now => ?_, fun now _ => trivial, fun now => rfl⟩, fun rt now' m hm => ?_⟩
    · have hrun : (execute ⟨[], 0, 0⟩ now (fun _ => e : Cells (Value S J)) (.blpop b)).1.aof =
          some (Command.lpop ⟨b.key⟩) := ha
      exact (logged_written hc hrun).1
    · obtain ⟨hdone, hresult⟩ := lpop_respects ⟨b.key⟩ e (m b.key) hm.symm
      refine ⟨⟨frame, ?_⟩, ?_⟩
      · exact (congrArg Done.reply hdone).symm.trans hframe
      · change logicalOf (Function.update m b.key _ b.key) = logicalOf ((blpopTaken b e).2.result none)
        rw [Function.update_self, hput]
        exact hresult.symm

section Pairs

omit [F64 S] [SerdeJson J] in
theorem writePairs_append (pairs rest : List (Str × Bytes)) (m : Cells (Value S J)) :
    writePairs (pairs ++ rest) m = writePairs rest (writePairs pairs m) :=
  List.foldl_append

omit [F64 S] [SerdeJson J] in
theorem writePairs_of_notMem {pairs : List (Str × Bytes)} {k : Str} (h : k ∉ pairs.map Prod.fst)
    (m : Cells (Value S J)) : writePairs pairs m k = m k := by
  induction pairs generalizing m with
  | nil => rfl
  | cons p pairs ih =>
      rw [List.map_cons, List.mem_cons, not_or] at h
      refine (ih h.2 _).trans ?_
      exact Function.update_of_ne h.1 _ m

end Pairs

end RustKv.Executor
