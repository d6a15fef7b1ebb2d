import RustKv.Clients
import RustKv.Redo
import RustKv.Runs

namespace RustKv.Clients

open Runs Text Protocol Domain CacheStore Zset RustKv.Types Executor AofEncoder AofRoundTrip RequestReading
  Recovery RustKv.Normal

section Programs

variable {S J : Type} [Host]

/-- The access to the entry of a key that an instruction makes. -/
def Instr.next (values : List Bytes) : Instr S J → Option (Str × Access S (Value S J))
  | .access key a => some (key, a)
  | .push rt c => some (c.key, lpushAccess rt c values)
  | .check c => some (c.key, .take (blpopTaken c))
  | _ => none

def Task.next (t : Task S J) : Option (Str × Access S (Value S J)) :=
  t.code.head?.bind (Instr.next t.valuesToPush)

/-- The accesses that a program has left when no client waits for an item. -/
def works : List Bytes → List (Instr S J) → List (Str × Access S (Value S J))
  | _, [] => []
  | values, .offer _ item :: code => works (values ++ [item]) code
  | values, x :: code => (x.next values).toList ++ works values code

/-- A program logs once, after its last access, and does not wait. -/
def LogsLast : List (Instr S J) → Prop
  | [] => True
  | .sendAof :: code => .sendAof ∉ code ∧ (∀ values, works values code = []) ∧ LogsLast code
  | .register _ :: _ | .await _ :: _ => False
  | _ :: code => LogsLast code

/-- The keys that a command accesses, in the order in which it does. -/
def accessed : Command S → List Str
  | .mset c => (sortedPairs c).map Prod.fst
  | c => touched c

def Task.reached (t : Task S J) : List Str :=
  (accessed t.command).take ((accessed t.command).length - (works t.valuesToPush t.code).length)

/-- The task has changed the entry of the key, and its record is not in the log. -/
def Task.Unlogged (t : Task S J) (k : Str) : Prop :=
  t.done.aof.isSome ∧ .sendAof ∈ t.code ∧ k ∈ t.reached

/-- The access that writes a pair of an MSET. -/
def pairWork (c : MSetCommand) (p : Str × Bytes) : Str × Access S (Value S J) :=
  (p.1, .insert (msetEntry p.2) (.logged okFrame (.mset c)))

theorem works_offers (key : Str) (items : List Bytes) (values : List Bytes) (code : List (Instr S J)) :
    works values (items.map (.offer key) ++ code) = works (values ++ items) code := by
  induction items generalizing values with
  | nil => rw [List.append_nil]; rfl
  | cons item items ih =>
      refine (ih _).trans ?_
      rw [List.append_assoc]
      rfl

theorem logsLast_offers (key : Str) (items : List Bytes) {code : List (Instr S J)} (h : LogsLast code) :
    LogsLast (items.map (.offer key) ++ code) := by
  induction items with
  | nil => exact h
  | cons item items ih => exact ih

theorem works_pairs (c : MSetCommand) (pairs : List (Str × Bytes)) (values : List Bytes) :
    works (S := S) (J := J) values (pairs.flatMap (msetPair c) ++ [.sendAof]) = pairs.map (pairWork c) := by
  induction pairs with
  | nil => rfl
  | cons p pairs ih => exact congrArg (pairWork c p :: ·) ih

theorem logsLast_pairs (c : MSetCommand) (pairs : List (Str × Bytes)) :
    LogsLast (S := S) (J := J) (pairs.flatMap (msetPair c) ++ [.sendAof]) := by
  induction pairs with
  | nil => exact ⟨List.not_mem_nil, fun _ => rfl, trivial⟩
  | cons p pairs ih => exact ih

end Programs

variable {I S J : Type} [Host] [DecidableEq I] [F64 S]

def Client.Unlogged (x : Client S J) (k : Str) : Prop := ∃ t, x = .running t ∧ t.Unlogged k

/-- What one step of a client that does not wait can do. -/
inductive Move (m m' : Machine I S J) (i : I) : Prop
  | quiet (t t' : Task S J) (h : m.clients i = .running t)
      (h' : m'.clients = Function.update m.clients i (.running t'))
      (hcommand : t'.command = t.command) (hdone : t'.done = t.done)
      (hworks : works t'.valuesToPush t'.code = works t.valuesToPush t.code)
      (hsend : .sendAof ∈ t'.code ↔ .sendAof ∈ t.code) (hlast : LogsLast t'.code)
      (hdb : m'.db = m.db) (haof : m'.aof = m.aof)
  | work (t t' : Task S J) (key : Str) (a : Access S (Value S J)) (h : m.clients i = .running t)
      (h' : m'.clients = Function.update m.clients i (.running t'))
      (hcommand : t'.command = t.command) (hdone : t'.done = (m.db.access m.now key a).1)
      (hnext : t.next = some (key, a))
      (hworks : works t.valuesToPush t.code = (key, a) :: works t'.valuesToPush t'.code)
      (hsend : .sendAof ∈ t'.code ↔ .sendAof ∈ t.code) (hlast : LogsLast t'.code)
      (hdb : m'.db = (m.db.access m.now key a).2) (haof : m'.aof = m.aof)
  | send (t t' : Task S J) (h : m.clients i = .running t)
      (h' : m'.clients = Function.update m.clients i (.running t'))
      (hcommand : t'.command = t.command) (hcode : ∃ code, t.code = .sendAof :: code)
      (hworks : works t.valuesToPush t.code = []) (hworks' : works t'.valuesToPush t'.code = [])
      (hsent : .sendAof ∉ t'.code) (hlast : LogsLast t'.code)
      (hdb : m'.db = m.db) (haof : m'.aof = m.aof ++ (t.done.aof.bind (encodeAofCommand m.now)).toList)
  | leave (t : Task S J) (h : m.clients i = .running t)
      (h' : m'.clients = Function.update m.clients i .idle) (hcode : t.code = [])
      (hdb : m'.db = m.db) (haof : m'.aof = m.aof)

variable [SerdeJson J] {m m' : Machine I S J} {i : I}

theorem Step.move (h : Step m (.go i) m') (hq : ∀ k, m.queues k = [])
    (hlast : ∀ t, m.clients i = .running t → LogsLast t.code)
    (hwaits : ∀ t c code, m.clients i = .running t → t.code = .check c :: code →
      (m.db.access m.now c.key (.take (blpopTaken c) : Access S _)).1.waits = false) :
    Move m m' i ∧ m'.queues = m.queues := by
  cases h with
  | lockShard h hc | unlockShard h hc | lockQueues h hc | unlockQueues h hc =>
      have hl := hlast _ h
      rw [hc] at hl
      refine ⟨.quiet _ _ h rfl rfl rfl ?_ ?_ hl rfl rfl, rfl⟩
      · rw [hc]
        rfl
      · rw [hc]
        simp
  | offerNone h hc hqueue =>
      have hl := hlast _ h
      rw [hc] at hl
      refine ⟨.quiet _ _ h rfl rfl rfl ?_ ?_ hl rfl rfl, rfl⟩
      · rw [hc]
        rfl
      · rw [hc]
        simp
  | offerSent h hc hqueue | offerGone h hc hqueue =>
      rw [hq] at hqueue
      cases hqueue
  | access h hc | push h hc =>
      have hl := hlast _ h
      rw [hc] at hl
      refine ⟨.work _ _ _ _ h rfl rfl rfl ?_ ?_ ?_ hl rfl rfl, rfl⟩
      · rw [Task.next, hc]
        rfl
      · rw [hc]
        rfl
      · rw [hc]
        simp
  | check h hc =>
      have hl := hlast _ h
      rw [hc] at hl
      rw [if_neg (by rw [hwaits _ _ _ h hc]; exact Bool.false_ne_true)]
      refine ⟨.work _ _ _ (.take (blpopTaken _)) h rfl rfl rfl ?_ ?_ ?_ hl rfl rfl, rfl⟩
      · rw [Task.next, hc]
        rfl
      · rw [hc]
        rfl
      · rw [hc]
        simp
  | register h hc | await h hc =>
      have hl := hlast _ h
      rw [hc] at hl
      exact hl.elim
  | sendAof h hc =>
      have hl := hlast _ h
      rw [hc] at hl
      refine ⟨.send _ _ h rfl rfl ⟨_, hc⟩ ?_ (hl.2.1 _) hl.1 hl.2.2 rfl rfl, rfl⟩
      rw [hc]
      exact hl.2.1 _
  | finish h hc => exact ⟨.leave _ h rfl hc rfl rfl, rfl⟩

/-- A task against the log: `r` is what the log so far rebuilds, `live` what the
server holds. A changed key will be in step again when the record is written. -/
inductive Job (t : Task S J) (r live : Cells (Value S J)) : Prop
  | past (hsend : .sendAof ∉ t.code) (hworks : works t.valuesToPush t.code = [])
  | ready (key : Str) (a : Access S (Value S J)) (haccessed : accessed t.command = [key])
      (hsend : .sendAof ∈ t.code) (hworks : works t.valuesToPush t.code = [(key, a)])
      (hw : Works t.command key a) (haof : t.done.aof = none)
  | worked (key : Str) (haccessed : accessed t.command = [key]) (hsend : .sendAof ∈ t.code)
      (hworks : works t.valuesToPush t.code = [])
      (hrecord : ∀ d, t.done.aof = some d → RecordOf t.command key d ∧ Redoes d key (r key) (live key))
  | pairs (c : MSetCommand) (written left : List (Str × Bytes)) (hc : Parsed (Command.mset (S := S) c))
      (hcommand : t.command = .mset c) (hsend : .sendAof ∈ t.code)
      (hpairs : sortedPairs c = written ++ left)
      (hworks : works t.valuesToPush t.code = left.map (pairWork c))
      (haof : t.done.aof = some (.mset c))
      (hlive : ∀ k ∈ written.map Prod.fst, ∀ m, logicalOf (writePairs written m k) = logicalOf (live k))

section Jobs

variable {t t' : Task S J} {r r' live live' : Cells (Value S J)} {k : Str}

omit [F64 S] [SerdeJson J] in
theorem reached_worked {key : Str} (haccessed : accessed t.command = [key])
    (hworks : works t.valuesToPush t.code = []) : t.reached = [key] := by
  rw [Task.reached, haccessed, hworks]
  rfl

omit [F64 S] [SerdeJson J] in
theorem reached_pairs {c : MSetCommand} {written left : List (Str × Bytes)}
    (hcommand : t.command = .mset c) (hpairs : sortedPairs c = written ++ left)
    (hworks : works t.valuesToPush t.code = left.map (pairWork c)) :
    t.reached = written.map Prod.fst := by
  rw [Task.reached, hcommand, hworks]
  simp [accessed, hpairs]

omit [F64 S] [SerdeJson J] in
theorem unlogged_congr (hcommand : t'.command = t.command) (hdone : t'.done = t.done)
    (hworks : works t'.valuesToPush t'.code = works t.valuesToPush t.code)
    (hsend : .sendAof ∈ t'.code ↔ .sendAof ∈ t.code) : t'.Unlogged k ↔ t.Unlogged k := by
  rw [Task.Unlogged, Task.Unlogged, Task.reached, Task.reached, hcommand, hdone, hworks, hsend]

theorem Job.congr (h : Job t r live) (hcommand : t'.command = t.command) (hdone : t'.done = t.done)
    (hworks : works t'.valuesToPush t'.code = works t.valuesToPush t.code)
    (hsend : .sendAof ∈ t'.code ↔ .sendAof ∈ t.code)
    (hsame : ∀ k, t.Unlogged k →
      logicalOf (r' k) = logicalOf (r k) ∧ logicalOf (live' k) = logicalOf (live k)) :
    Job t' r' live' := by
  cases h with
  | past hs hw => exact .past (fun h => hs (hsend.mp h)) (hworks.trans hw)
  | ready key a hk hs hw hworks' haof =>
      refine .ready key a (by rw [hcommand, hk]) (hsend.mpr hs) (hworks.trans hw) ?_ (by rw [hdone, haof])
      rw [hcommand]
      exact hworks'
  | worked key hk hs hw hrecord =>
      refine .worked key (by rw [hcommand, hk]) (hsend.mpr hs) (hworks.trans hw) (fun d hd => ?_)
      rw [hdone] at hd
      obtain ⟨hrec, hredo⟩ := hrecord d hd
      have hu : t.Unlogged key := ⟨by rw [hd]; rfl, hs, by rw [reached_worked hk hw]; simp⟩
      obtain ⟨hr, hl⟩ := hsame key hu
      rw [hcommand]
      exact ⟨hrec, hredo.congr hr hl⟩
  | pairs c written left hc hcmd hs hpairs hw haof hlive =>
      refine .pairs c written left hc (hcommand.trans hcmd) (hsend.mpr hs) hpairs (hworks.trans hw)
        (by rw [hdone, haof]) (fun k hk m => ?_)
      have hu : t.Unlogged k := ⟨by rw [haof]; rfl, hs, by rw [reached_pairs hcmd hpairs hw]; exact hk⟩
      rw [(hsame k hu).2]
      exact hlive k hk m

end Jobs

/-- The data of the server and the data that the log rebuilds are in step but at the
keys with a change that is not in the log yet, and such a change is one client's. -/
structure InStep (m : Machine I S J) (r : Cells (Value S J)) : Prop where
  jobs : ∀ i t, m.clients i = .running t → Job t r m.db.entry
  alone : ∀ i j k, (m.clients i).Unlogged k → (m.clients j).Unlogged k → i = j
  same : ∀ k, (∀ i, ¬ (m.clients i).Unlogged k) → logicalOf (m.db.entry k) = logicalOf (r k)

section Moves

variable {r r' : Cells (Value S J)} {x : Client S J}

/-- One client moves on, and what it does to the data and the log stays clear of the
unlogged changes of the others. -/
theorem InStep.update (h : InStep m r) (hclients : m'.clients = Function.update m.clients i x)
    (hjob : ∀ t, x = .running t → Job t r' m'.db.entry)
    (hothers : ∀ j, j ≠ i → ∀ k, (m.clients j).Unlogged k → ¬ x.Unlogged k ∧
      logicalOf (r' k) = logicalOf (r k) ∧ logicalOf (m'.db.entry k) = logicalOf (m.db.entry k))
    (hsame : ∀ k, ¬ x.Unlogged k → (∀ j, j ≠ i → ¬ (m.clients j).Unlogged k) →
      logicalOf (m'.db.entry k) = logicalOf (r' k)) : InStep m' r' := by
  have hself : m'.clients i = x := by rw [hclients, Function.update_self]
  have hother (j : I) (hj : j ≠ i) : m'.clients j = m.clients j := by
    rw [hclients, Function.update_of_ne hj]
  refine ⟨fun j t ht => ?_, fun j j' k hk hk' => ?_, fun k hk => ?_⟩
  · by_cases hj : j = i
    · subst hj
      exact hjob t (hself.symm.trans ht)
    · rw [hother j hj] at ht
      exact (h.jobs j t ht).congr rfl rfl rfl Iff.rfl
        (fun k hk => (hothers j hj k ⟨t, ht, hk⟩).2)
  · by_cases hj : j = i
    · by_cases hj' : j' = i
      · rw [hj, hj']
      · rw [hj, hself] at hk
        rw [hother j' hj'] at hk'
        exact absurd hk (hothers j' hj' k hk').1
    · rw [hother j hj] at hk
      by_cases hj' : j' = i
      · rw [hj', hself] at hk'
        exact absurd hk' (hothers j hj k hk).1
      · rw [hother j' hj'] at hk'
        exact h.alone j j' k hk hk'
  · refine hsame k (fun hx => hk i ?_) (fun j hj hu => hk j ?_)
    · rw [hself]
      exact hx
    · rw [hother j hj]
      exact hu

theorem InStep.steady (h : InStep m r) (hclients : m'.clients = Function.update m.clients i x)
    (hjob : ∀ t, x = .running t → Job t r m'.db.entry) (hdb : m'.db = m.db)
    (hx : ∀ k, x.Unlogged k ↔ (m.clients i).Unlogged k) : InStep m' r := by
  refine h.update hclients hjob (fun j hj k hk => ⟨fun hu => ?_, rfl, by rw [hdb]⟩) (fun k hk hothers => ?_)
  · exact hj (h.alone j i k hk ((hx k).mp hu))
  · rw [hdb]
    refine h.same k (fun j hu => ?_)
    by_cases hj : j = i
    · subst hj
      exact hk ((hx k).mpr hu)
    · exact hothers j hj hu

omit [F64 S] [SerdeJson J] in
theorem running_unlogged {t : Task S J} {k : Str} :
    (Client.running t : Client S J).Unlogged k ↔ t.Unlogged k := by
  constructor
  · rintro ⟨t', ht, hk⟩
    cases ht
    exact hk
  · exact fun hk => ⟨t, rfl, hk⟩

theorem Job.work {t t' : Task S J} {key : Str} {a : Access S (Value S J)} {live : Cells (Value S J)}
    {now : Nat} (h : Job t r live) (hfilled : Filled (live key))
    (hexp : ∀ x, live key = some x → x.isExpired now = false)
    (hcommand : t'.command = t.command) (hdone : t'.done = (a.onCell now (live key)).1)
    (hworks : works t.valuesToPush t.code = (key, a) :: works t'.valuesToPush t'.code)
    (hsend : .sendAof ∈ t'.code ↔ .sendAof ∈ t.code)
    (hstep : (a.onCell now (live key)).1.aof ≠ none → ¬ t.Unlogged key →
      logicalOf (live key) = logicalOf (r key)) :
    Job t' r (Function.update live key (a.onCell now (live key)).2) ∧
      (∀ k, t'.Unlogged k ↔ t.Unlogged k ∨ k = key ∧ (a.onCell now (live key)).1.aof ≠ none) ∧
      Filled (a.onCell now (live key)).2 ∧
      ((a.onCell now (live key)).1.aof = none →
        logicalOf (a.onCell now (live key)).2 = logicalOf (live key)) := by
  cases h with
  | past hs hw | worked key' hk hs hw =>
      rw [hw] at hworks
      cases hworks
  | ready key' a' hk hs hw hwork haof =>
      rw [hw] at hworks
      obtain ⟨⟨rfl, rfl⟩, hnil⟩ : (key' = key ∧ a' = a) ∧ works t'.valuesToPush t'.code = [] := by
        simpa [eq_comm] using hworks
      have hold (k : Str) : ¬ t.Unlogged k := by
        rintro ⟨hu, -⟩
        rw [haof] at hu
        cases hu
      have hk' : accessed t'.command = [key'] := by rw [hcommand, hk]
      refine ⟨.worked key' hk' (hsend.mpr hs) hnil (fun d hd => ?_), fun k => ?_,
        hwork.filled now _ hfilled, hwork.silent now _ hfilled hexp⟩
      · rw [hdone] at hd
        obtain ⟨hrec, hredo⟩ := hwork.logged now _ d hd
        rw [hcommand, Function.update_self]
        exact ⟨hrec, hredo.congr (hstep (by rw [hd]; simp) (hold key')).symm rfl⟩
      · rw [Task.Unlogged, reached_worked hk' hnil, hdone, Option.isSome_iff_ne_none]
        simp [hold k, hsend.mpr hs, and_comm]
  | pairs c written left hc hcmd hs hpairs hw haof hlive =>
      rw [hw] at hworks
      cases left with
      | nil => cases hworks
      | cons p left =>
          obtain ⟨⟨rfl, rfl⟩, hleft⟩ : (p.1 = key ∧ .insert (msetEntry p.2) (.logged okFrame (.mset c)) = a) ∧
              left.map (pairWork c) = works t'.valuesToPush t'.code := by
            simpa [pairWork] using hworks
          have hpairs' : sortedPairs c = (written ++ [p]) ++ left := by rw [hpairs]; simp
          have hcmd' : t'.command = .mset c := hcommand.trans hcmd
          have hdone' : t'.done.aof = some (.mset c) := by rw [hdone]; rfl
          refine ⟨.pairs c (written ++ [p]) left hc hcmd' (hsend.mpr hs) hpairs' hleft.symm hdone' ?_,
            fun k => ?_, simpleValue_filled p.2 none, fun ha => by cases ha⟩
          · intro k hk m
            rw [writePairs_append]
            change logicalOf (Function.update (writePairs written m) p.1 (some (msetEntry p.2)) k) =
              logicalOf (Function.update live p.1 (some (msetEntry p.2)) k)
            by_cases hkp : k = p.1
            · rw [hkp, Function.update_self, Function.update_self]
            · rw [Function.update_of_ne hkp, Function.update_of_ne hkp]
              refine hlive k ?_ m
              simpa [hkp] using hk
          · have hd : ((Access.insert (msetEntry p.2) (.logged okFrame (.mset c)) :
                Access S (Value S J)).onCell now (live p.1)).1.aof ≠ none := by
              rw [← hdone, hdone']
              simp
            rw [Task.Unlogged, Task.Unlogged, reached_pairs hcmd' hpairs' hleft.symm,
              reached_pairs hcmd hpairs hw, hdone', haof]
            simp [hs, hsend.mpr hs, hd]

theorem Job.sends {t : Task S J} {live : Cells (Value S J)} (h : Job t r live) (hsend : .sendAof ∈ t.code)
    (hworks : works t.valuesToPush t.code = []) :
    t.done.aof = none ∨ ∃ d, t.done.aof = some d ∧ (∀ now, (LogRecord.single now d).Written) ∧
      (∀ now, Loggable now t.command → (LogRecord.single now d).Readable) ∧
      ∀ rt now, (∃ frame, (execute rt 0 r (recorded now d)).1.reply = .ok frame) ∧
        ∀ k, (t.Unlogged k → logicalOf ((execute rt 0 r (recorded now d)).2 k) = logicalOf (live k)) ∧
          (¬ t.Unlogged k → (execute rt 0 r (recorded now d)).2 k = r k) := by
  cases h with
  | past hs => exact absurd hsend hs
  | ready key a hk hs hw =>
      rw [hw] at hworks
      cases hworks
  | worked key hk hs hw hrecord =>
      cases ha : t.done.aof with
      | none => exact .inl rfl
      | some d =>
          obtain ⟨hrec, hredo⟩ := hrecord d ha
          have hu (k : Str) : t.Unlogged k ↔ k = key := by
            simp [Task.Unlogged, reached_worked hk hw, ha, hs]
          refine .inr ⟨d, rfl, hrec.written, hrec.readable, fun rt now => ?_⟩
          obtain ⟨hreply, hvalue⟩ := hredo rt now r rfl
          refine ⟨hreply, fun k => ⟨fun hk' => ?_, fun hk' => ?_⟩⟩
          · rw [(hu k).mp hk']
            exact hvalue
          · refine execute_untouched rt 0 r ?_
            rw [hrec.touches, List.mem_singleton]
            exact fun he => hk' ((hu k).mpr he)
  | pairs c written left hc hcmd hs hpairs hw haof hlive =>
      have hleft : left = [] := List.map_eq_nil_iff.mp (hw.symm.trans hworks)
      subst hleft
      rw [List.append_nil] at hpairs
      have hu (k : Str) : t.Unlogged k ↔ k ∈ written.map Prod.fst := by
        rw [Task.Unlogged, reached_pairs hcmd (hpairs.trans (List.append_nil _).symm) hw, haof]
        simp [hs]
      refine .inr ⟨.mset c, haof, fun now => ⟨hc, rfl⟩, fun now h => ?_, fun rt now => ?_⟩
      · rw [hcmd] at h
        exact h
      · simp only [recorded, execute_mset, hpairs]
        refine ⟨⟨_, rfl⟩, fun k => ⟨fun hk => ?_, fun hk => ?_⟩⟩
        · exact hlive k ((hu k).mp hk) r
        · exact writePairs_of_notMem (fun he => hk ((hu k).mpr he)) r

end Moves

section Starting

variable {rt : Runtime} {now : Nat} {c : Command S} {code : List (Instr S J)} {done : Done S}

omit [F64 S] [SerdeJson J] in
theorem not_unlogged_of_aof {t : Task S J} (h : t.done.aof = none) (k : Str) : ¬ t.Unlogged k := by
  rintro ⟨ha, -⟩
  rw [h] at ha
  cases ha

/-- A task that has changed nothing yet, whatever the log rebuilds. -/
structure Task.Starts (t : Task S J) : Prop where
  last : LogsLast t.code
  job : ∀ r live, Job t r live
  clean : ∀ k, ¬ t.Unlogged k

theorem underLock_starts {key : Str} {a : Access S (Value S J)} (haccessed : accessed c = [key])
    (hw : Works c key a) : (⟨c, underLock key a, .ok .null, [], 0⟩ : Task S J).Starts where
  last := ⟨by simp, fun _ => rfl, trivial⟩
  job r live := .ready key a haccessed (by simp [underLock]) rfl hw rfl
  clean := not_unlogged_of_aof rfl

theorem lpush_starts {s : LPushCommand} (hw : Works (S := S) (J := J) (.lpush s) s.key (lpushAccess rt s s.values)) :
    (⟨.lpush s, .lockQueues :: s.values.map (.offer s.key) ++ pushCode rt s, .ok .null, [], 0⟩ :
      Task S J).Starts where
  last := logsLast_offers s.key s.values ⟨by simp, fun _ => rfl, trivial⟩
  job r live := by
    refine .ready s.key _ rfl (by simp [pushCode]) ?_ hw rfl
    exact works_offers s.key s.values [] (pushCode rt s)
  clean := not_unlogged_of_aof rfl

theorem mset_starts {s : MSetCommand} (hc : Parsed (Command.mset (S := S) s)) :
    (⟨.mset s, (sortedPairs s).flatMap (msetPair s) ++ [.sendAof], .logged okFrame (.mset s), [], 0⟩ :
      Task S J).Starts where
  last := logsLast_pairs s (sortedPairs s)
  job r live := .pairs s [] (sortedPairs s) hc rfl (by simp) rfl (works_pairs s _ []) rfl (by simp)
  clean k := by
    have hreached : (⟨.mset s, (sortedPairs s).flatMap (msetPair s) ++ [.sendAof],
        .logged okFrame (.mset s), [], 0⟩ : Task S J).reached = ([] : List (Str × Bytes)).map Prod.fst :=
      reached_pairs rfl rfl (works_pairs s _ [])
    rintro ⟨-, -, hk⟩
    rw [hreached] at hk
    cases hk

theorem program_starts (hc : Parsed c) (hp : program rt now c = some (code, done)) :
    (⟨c, code, done, [], 0⟩ : Task S J).Starts := by
  cases c with
  | set s =>
      cases hp
      exact underLock_starts rfl (set_works hc now)
  | lpop | hset | hdel | zadd | zrem =>
      cases hp
      rcases takes_cases (J := J) hc rfl with ht | ⟨s, hs, -⟩
      · exact underLock_starts rfl (works_of_takes hc rt rfl (fun _ _ => rfl) ht)
      · cases hs
  | jsonSet s =>
      rcases takes_cases (J := J) hc rfl with ht | ⟨s, hs, hv⟩
      · simp only [program] at hp
        split at hp
        · next v hv =>
            cases hp
            refine underLock_starts rfl (works_of_takes hc rt rfl (fun _ _ => ?_) ht)
            simp only [execute, executeJsonSet, hv]
        · cases hp
          exact ⟨trivial, fun _ _ => .past List.not_mem_nil rfl, not_unlogged_of_aof rfl⟩
      · cases hs
        simp only [program, hv] at hp
        cases hp
        exact ⟨trivial, fun _ _ => .past List.not_mem_nil rfl, not_unlogged_of_aof rfl⟩
  | lpush s =>
      cases hp
      rcases takes_cases (J := J) hc rfl with ht | ⟨s, hs, -⟩
      · exact lpush_starts (works_of_takes hc rt rfl (fun _ _ => rfl) ht)
      · cases hs
  | blpop s =>
      cases hp
      refine ⟨⟨by simp, fun _ => rfl, trivial⟩, fun r live => ?_, not_unlogged_of_aof rfl⟩
      exact .ready s.key _ rfl (by simp) rfl (blpop_works hc) rfl
  | mset s =>
      cases hp
      exact mset_starts hc
  | get | ping | unimplement | eval | hget | mget | multi | exec | multiGroup | jsonGet | zscore | zrank
  | zrange => cases hp

end Starting

end RustKv.Clients
