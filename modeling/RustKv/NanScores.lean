import RustKv.Cells
import RustKv.CommandParser
import RustKv.ZSetMap

namespace RustKv.Zset

open Text Decimal Protocol Domain CacheStore RustKv.Types Executor

/-- The numbers of f64, and NaN. Zero and minus zero are one number. -/
inductive WithNan (T : Type)
  | number (x : T)
  | nan
  deriving DecidableEq, Repr

/-- The numbers in their order, with how Rust reads and prints them and NaN. -/
class F64Numbers (T : Type) extends LinearOrder T where
  zero : T
  parse : Str → Option (WithNan T)
  display : WithNan T → Str
  parse_display : ∀ s, parse (display s) = some s
  display_length : ∀ s, (display s).bytes.length < 2 ^ 63

namespace WithNan

variable {T : Type} [F64Numbers T]

def less : WithNan T → WithNan T → Bool
  | .number a, .number b => decide (a < b)
  | _, _ => false

def equal : WithNan T → WithNan T → Bool
  | .number a, .number b => decide (a = b)
  | _, _ => false

instance : F64 (WithNan T) where
  less := less
  equal := equal
  zero := .number F64Numbers.zero
  parse := F64Numbers.parse
  display := F64Numbers.display
  parse_display := F64Numbers.parse_display
  display_length := F64Numbers.display_length

def toTop : WithNan T → WithTop T
  | .number a => a
  | .nan => ⊤

omit [F64Numbers T] in
theorem toTop_injective : Function.Injective (toTop : WithNan T → WithTop T) := by
  intro a b h
  cases a <;> cases b <;> simp_all [toTop]

/-- An order in which NaN comes last, to speak about sorted lists. -/
instance : LinearOrder (WithNan T) := LinearOrder.lift' toTop toTop_injective

def IsNumber (s : WithNan T) : Prop := s ≠ .nan

omit [F64Numbers T] in
theorem IsNumber.eq {s : WithNan T} (h : s.IsNumber) : ∃ a, s = .number a := by
  cases s with
  | number a => exact ⟨a, rfl⟩
  | nan => exact absurd rfl h

theorem number_lt {a b : T} : (number a : WithNan T) < number b ↔ a < b := WithTop.coe_lt_coe

theorem compares_numbers : Compares (IsNumber (T := T)) where
  less_iff a b ha hb := by
    obtain ⟨a, rfl⟩ := ha.eq
    obtain ⟨b, rfl⟩ := hb.eq
    rw [number_lt]
    exact decide_eq_true_iff
  equal_iff a b ha hb := by
    obtain ⟨a, rfl⟩ := ha.eq
    obtain ⟨b, rfl⟩ := hb.eq
    rw [WithNan.number.injEq]
    exact decide_eq_true_iff

end WithNan

section Consistency

variable {S : Type} {z : ZSet S}

/-- The skip list holds the members of the dictionary, each once and with its score. -/
def ZSet.Consistent (z : ZSet S) : Prop :=
  ∃ chain E, z.zsl.list.Chain chain ∧ z.zsl.list.Lists chain E ∧ (E.map Prod.snd).Nodup ∧
    ∀ score member, (score, member) ∈ E ↔ z.dict.lookup member = some score

theorem ZSet.Indexed.consistent [LinearOrder S] {P : S → Prop} (h : z.Indexed P) : z.Consistent := by
  obtain ⟨E, hE⟩ := h.indexes
  obtain ⟨chain, C, hlists⟩ := hE.lists
  exact ⟨chain, E, C, hlists, hE.nodup, hE.mem_iff⟩

theorem ZSet.Consistent.collect (h : z.Consistent) (i n : Nat) :
    ∀ p ∈ z.collect i n, z.dict.lookup p.1 = some p.2 := by
  obtain ⟨chain, E, C, hlists, -, hmem⟩ := h
  induction n generalizing i with
  | zero => simp [ZSet.collect]
  | succ n ih =>
      intro p hp
      rw [ZSet.collect] at hp
      split at hp
      · next score member he =>
        rcases List.mem_cons.mp hp with rfl | hp
        · exact (hmem score member).mp (getElementByRank_mem C hlists he)
        · exact ih (i + 1) p hp
      · cases hp

/-- A range reports members of the dictionary only. -/
theorem ZSet.Consistent.range (h : z.Consistent) (start stop : Int) :
    ∀ p ∈ z.range start stop, z.dict.lookup p.1 = some p.2 := by
  have hrange : ∃ i n, z.range start stop = [] ∨ z.range start stop = z.collect i n := by
    simp only [ZSet.range]
    exact ⟨_, _, ite_eq_or_eq _ _ _⟩
  obtain ⟨i, n, hnil | hcollect⟩ := hrange
  · simp [hnil]
  · rw [hcollect]
    exact h.collect i n

theorem ZSet.Consistent.silent (h : z.Consistent) {member : Bytes} (hm : z.dict.lookup member = none)
    (start stop : Int) : ∀ p ∈ z.range start stop, p.1 ≠ member := by
  rintro p hp rfl
  rw [h.range start stop p hp] at hm
  cases hm

variable [LinearOrder S] [Score S] {P : S → Prop}

theorem ZSet.Indexed.insert (cmp : Compares P) (h : z.Indexed P) (rt : Runtime) {score : S}
    (hs : P score) (member : Bytes) : (z.insert rt score member).2.Indexed P := by
  have hstep := step_indexed cmp h (.insert score member) rt (by
    rintro _ _ ⟨⟩
    exact hs)
  exact hstep.2.2

theorem ZSet.Indexed.delete (cmp : Compares P) (h : z.Indexed P) (member : Bytes) :
    (z.delete member).2.Indexed P ∧ (z.delete member).2.dict.lookup member = none := by
  obtain ⟨-, hdict, hnext⟩ := step_indexed cmp h (.delete member) ⟨[], 0, 0⟩ (by rintro _ _ ⟨⟩)
  refine ⟨hnext, ?_⟩
  change (z.delete member).2.dict = z.dict.erase member at hdict
  rw [hdict, Finmap.lookup_erase]

end Consistency

section Commands

variable {T J : Type} [F64Numbers T] [Host] [SerdeJson J]

/-- A ZADD with a number for its score, or a ZREM. -/
def Numeric : Command (WithNan T) → Prop
  | .zadd c => c.score ≠ .nan
  | .zrem _ => True
  | _ => False

/-- One command after the other, each with what it finds at run time and its clock. -/
def runCommands (db : Db (Value (WithNan T) J)) :
    List (Runtime × Nat × Command (WithNan T)) → Db (Value (WithNan T) J)
  | [] => db
  | (rt, now, c) :: cmds => runCommands (execute rt now db c).2 cmds

/-- There are sorted sets of numbers and nothing else. -/
def OnlySets (m : Cells (Value (WithNan T) J)) : Prop :=
  ∀ key e, m key = some e → ∃ z size, e.data = .zset z size ∧ z.Indexed WithNan.IsNumber

omit [Host] [SerdeJson J] in
theorem OnlySets.update {m : Cells (Value (WithNan T) J)} (h : OnlySets m) (key : Str)
    {entry : Option (ValueEntry (Value (WithNan T) J))}
    (he : ∀ e, entry = some e → ∃ z size, e.data = .zset z size ∧ z.Indexed WithNan.IsNumber) :
    OnlySets (Function.update m key entry) := by
  intro k e hk
  by_cases hkey : k = key
  · subst hkey
    rw [Function.update_self] at hk
    exact he e hk
  · rw [Function.update_of_ne hkey] at hk
    exact h k e hk

theorem OnlySets.zadd {m : Cells (Value (WithNan T) J)} (h : OnlySets m) (rt : Runtime) (now : Nat)
    {c : ZAddCommand (WithNan T)} (hc : c.score ≠ .nan) : OnlySets (execute rt now m (.zadd c)).2 := by
  apply h.update c.key
  intro e he
  cases hm : m c.key with
  | none =>
      rw [hm] at he
      cases he
      exact ⟨_, _, rfl, new_indexed.insert WithNan.compares_numbers rt hc c.member⟩
  | some entry =>
      obtain ⟨z, size, hdata, hz⟩ := h c.key entry hm
      simp only [Access.onCell, hm, zaddTaken, hdata] at he
      cases he
      exact ⟨_, _, rfl, hz.insert WithNan.compares_numbers rt hc c.member⟩

omit [SerdeJson J] in
/-- What ZREM leaves at its key: nothing, or a set without the member. -/
theorem OnlySets.zrem_entry {m : Cells (Value (WithNan T) J)} (h : OnlySets m) (now : Nat) (c : ZRemCommand)
    {e : ValueEntry (Value (WithNan T) J)}
    (he : ((Access.take (zremTaken c) : Access (WithNan T) _).onCell now (m c.key)).2 = some e) :
    ∃ z size, e.data = .zset z size ∧ z.Indexed WithNan.IsNumber ∧ z.dict.lookup c.member = none := by
  cases hm : m c.key with
  | none =>
      rw [hm] at he
      cases he
  | some entry =>
      obtain ⟨z, size, hdata, hz⟩ := h c.key entry hm
      obtain ⟨hdel, hgone⟩ := hz.delete WithNan.compares_numbers c.member
      simp only [Access.onCell, hm, zremTaken, hdata] at he
      cases hd : z.delete c.member with
      | mk deleted z =>
          rw [hd] at he hdel hgone
          cases deleted with
          | false =>
              cases he
              exact ⟨_, _, rfl, hdel, hgone⟩
          | true =>
              by_cases hlen : z.len = 0
              · simp only [hlen, if_true, PutBack.result] at he
                cases he
              · simp only [hlen, if_false, PutBack.result] at he
                cases he
                exact ⟨_, _, rfl, hdel, hgone⟩

theorem OnlySets.zrem {m : Cells (Value (WithNan T) J)} (h : OnlySets m) (rt : Runtime) (now : Nat)
    (c : ZRemCommand) : OnlySets (execute rt now m (.zrem c)).2 := by
  apply h.update c.key
  intro e he
  obtain ⟨z, size, hdata, hz, -⟩ := h.zrem_entry now c he
  exact ⟨z, size, hdata, hz⟩

theorem OnlySets.step {m : Cells (Value (WithNan T) J)} (h : OnlySets m) (rt : Runtime) (now : Nat)
    {c : Command (WithNan T)} (hc : Numeric c) : OnlySets (execute rt now m c).2 := by
  cases c with
  | zadd c => exact h.zadd rt now hc
  | zrem c => exact h.zrem rt now c
  | get | set | ping | unimplement | eval | lpush | lpop | blpop | hset | hget | hdel | mset | mget | multi
  | exec | multiGroup | jsonSet | jsonGet | zscore | zrank | zrange => cases hc

theorem OnlySets.run {db : Db (Value (WithNan T) J)} (h : OnlySets db.entry)
    (cmds : List (Runtime × Nat × Command (WithNan T))) (hc : ∀ c ∈ cmds, Numeric c.2.2) :
    OnlySets (runCommands db cmds).entry := by
  induction cmds generalizing db with
  | nil => exact h
  | cons c cmds ih =>
      obtain ⟨rt, now, c⟩ := c
      apply ih
      · rw [(db.execute_entry rt now c).2]
        exact h.step rt now (hc _ List.mem_cons_self)
      · exact fun x hx => hc x (List.mem_cons_of_mem _ hx)

/-- ZRANK and ZRANGE do not report a member of which ZREM has just left no trace. -/
theorem OnlySets.unreported {m : Cells (Value (WithNan T) J)} (h : OnlySets m) (rt rt' : Runtime)
    (now now' : Nat) (c : ZRemCommand) :
    (execute rt' now' (execute rt now m (.zrem c)).2 (.zrank ⟨c.key, c.member⟩)).1.reply = .ok .null ∧
      ∀ start stop, ∃ frames,
        (execute rt' now' (execute rt now m (.zrem c)).2 (.zrange ⟨c.key, start, stop⟩)).1.reply =
          .ok (.array frames) ∧ Frame.bulk c.member ∉ frames := by
  simp only [execute, Context.access, Function.update_self, zrankAccess, zrangeAccess, zsetRead]
  cases hleft : ((Access.take (zremTaken c) : Access (WithNan T) _).onCell now (m c.key)).2 with
  | none => exact ⟨rfl, fun start stop => ⟨[], rfl, by simp⟩⟩
  | some e =>
      obtain ⟨z, size, hdata, hz, hgone⟩ := h.zrem_entry now c hleft
      rcases unlessExpired_cases now' (some e) with hlive | hexpired
      · simp only [Access.onCell, hlive, hdata, ZSet.rank, hgone]
        refine ⟨trivial, fun start stop => ⟨_, rfl, ?_⟩⟩
        simp only [List.mem_map, not_exists, not_and]
        intro p hp hframe
        exact hz.consistent.silent hgone start stop p hp (Frame.bulk.inj hframe)
      · simp only [Access.onCell, hexpired]
        exact ⟨trivial, fun start stop => ⟨[], rfl, by simp⟩⟩

/-- As long as no ZADD of a run has NaN for its score, the sorted sets are consistent, and
a member that ZREM takes out is reported no more. -/
theorem sets_consistent (configType : Eviction.EvictionType)
    (cmds : List (Runtime × Nat × Command (WithNan T))) (hc : ∀ c ∈ cmds, Numeric c.2.2) :
    let db := runCommands (Db.new configType : Db (Value (WithNan T) J)) cmds
    (∀ key e z size, db.entry key = some e → e.data = .zset z size → z.Consistent) ∧
    ∀ (rt rt' : Runtime) (now now' : Nat) (c : ZRemCommand),
      let after := (execute rt now db (.zrem c)).2
      (execute rt' now' after (.zrank ⟨c.key, c.member⟩)).1.reply = .ok .null ∧
        ∀ start stop, ∃ frames,
          (execute rt' now' after (.zrange ⟨c.key, start, stop⟩)).1.reply = .ok (.array frames) ∧
            Frame.bulk c.member ∉ frames := by
  intro db
  have hstart : OnlySets (Db.new configType : Db (Value (WithNan T) J)).entry := by
    intro key e he
    rw [Db.entry_new] at he
    cases he
  have hsets : OnlySets db.entry := hstart.run cmds hc
  constructor
  · intro key e z size he hdata
    obtain ⟨z', size', hdata', hz⟩ := hsets key e he
    rw [hdata] at hdata'
    cases hdata'
    exact hz.consistent
  · intro rt rt' now now' c after
    have hafter : after.entry = (execute rt now (γ := Cells (Value (WithNan T) J)) db.entry (.zrem c)).2 :=
      (db.execute_entry rt now (.zrem c)).2
    obtain ⟨hrank, hrange⟩ := hsets.unreported rt rt' now now' c
    rw [← hafter] at hrank hrange
    refine ⟨?_, fun start stop => ?_⟩
    · rw [(after.execute_entry rt' now' _).1]
      exact hrank
    · rw [(after.execute_entry rt' now' _).1]
      exact hrange start stop

end Commands

section Sample

attribute [local instance] singleShard flatJson

def nanText : Bytes := ascii ['n', 'a', 'n']

theorem nanText_ascii : ∀ b ∈ nanText, b < 0x80 := by decide

def showNumber : WithNan UInt64 → Str
  | .number n => wholeScore.display n
  | .nan => Str.ofAscii nanText nanText_ascii

def readNumber (s : Str) : Option (WithNan UInt64) :=
  if s.bytes = nanText then some .nan else (wholeScore.parse s).map .number

theorem readNumber_showNumber (s : WithNan UInt64) : readNumber (showNumber s) = some s := by
  cases s with
  | nan => rfl
  | number n =>
      have hne : (wholeScore.display n).bytes ≠ nanText := by
        intro h
        have hdigit := decimal_bounds n.toNat 110 (by
          change (110 : UInt8) ∈ (wholeScore.display n).bytes
          rw [h]
          decide)
        exact absurd hdigit.2 (by decide)
      rw [showNumber, readNumber, if_neg hne, wholeScore.parse_display]
      rfl

theorem showNumber_length (s : WithNan UInt64) : (showNumber s).bytes.length < 2 ^ 63 := by
  cases s with
  | nan => exact show (3 : Nat) < 2 ^ 63 by decide
  | number n => exact wholeScore.display_length n

/-- Whole numbers below 2^64 in their order, and NaN. -/
@[reducible] def wholeNumbers : F64Numbers UInt64 where
  toLinearOrder := LinearOrder.lift' UInt64.toNat (fun _ _ => UInt64.toNat_inj.mp)
  zero := 0
  parse := readNumber
  display := showNumber
  parse_display := readNumber_showNumber
  display_length := showNumber_length

attribute [local instance] wholeNumbers

def setKey : Str := Str.ofAscii (ascii ['k']) ascii_k

/-- ZADD k nan a. -/
def addNan : ZAddCommand (WithNan UInt64) := ⟨setKey, .nan, ascii ['a']⟩

/-- ZADD k 1 b. -/
def addOne : ZAddCommand (WithNan UInt64) := ⟨setKey, .number 1, ascii ['b']⟩

def nanFrame : Frame :=
  .array [.bulk (ascii ['Z', 'A', 'D', 'D']), .bulk (ascii ['k']), .bulk nanText, .bulk (ascii ['a'])]

/-- ZADD k 1 b, ZADD k nan a and ZREM k a. -/
def nanRun : List (Runtime × Nat × Command (WithNan UInt64)) :=
  [(⟨[], 0, 0⟩, 0, .zadd addOne), (⟨[], 0, 0⟩, 0, .zadd addNan), (⟨[], 0, 0⟩, 0, .zrem ⟨setKey, ascii ['a']⟩)]

theorem nan_still_reported :
    CommandParser.tryFrom nanFrame = .ok (.zadd addNan) ∧
    (execute ⟨[], 0, 0⟩ 0 (runCommands (Db.new .lru : Db (Value (WithNan UInt64) Str)) nanRun)
      (.zrange ⟨setKey, 0, -1⟩)).1.reply = .ok (.array [.bulk (ascii ['a'])]) := by
  exact ⟨rfl, rfl⟩

/-- ZADD k 1 b, ZADD k 2 c, ZADD k 3 a, ZADD k 4 b and ZREM k c. -/
def numberRun : List (Runtime × Nat × Command (WithNan UInt64)) :=
  [(⟨[], 4, 4⟩, 0, .zadd addOne), (⟨[true], 4, 4⟩, 0, .zadd ⟨setKey, .number 2, ascii ['c']⟩),
    (⟨[], 4, 4⟩, 1, .zadd ⟨setKey, .number 3, ascii ['a']⟩), (⟨[true, true], 4, 4⟩, 1,
      .zadd ⟨setKey, .number 4, ascii ['b']⟩), (⟨[], 0, 0⟩, 2, .zrem ⟨setKey, ascii ['c']⟩)]

theorem sets_consistent_sample :
    let db := runCommands (Db.new .lru : Db (Value (WithNan UInt64) Str)) numberRun
    (∃ e z size, db.entry setKey = some e ∧ e.data = .zset z size ∧ z.dict.keys.card = 2 ∧ z.Consistent) ∧
      (execute ⟨[], 0, 0⟩ 3 (execute ⟨[], 0, 0⟩ 3 db (.zrem ⟨setKey, ascii ['b']⟩)).2
        (.zrank ⟨setKey, ascii ['b']⟩)).1.reply = .ok .null := by
  intro db
  have hnumeric : ∀ c ∈ numberRun, Numeric c.2.2 := by simp [numberRun, Numeric, addOne]
  obtain ⟨hconsistent, hunreported⟩ := sets_consistent (J := Str) .lru numberRun hnumeric
  refine ⟨?_, (hunreported ⟨[], 0, 0⟩ ⟨[], 0, 0⟩ 3 3 ⟨setKey, ascii ['b']⟩).1⟩
  obtain ⟨e, z, size, he, hdata, hcard⟩ : ∃ e z size, db.entry setKey = some e ∧ e.data = .zset z size ∧
      z.dict.keys.card = 2 := ⟨_, _, _, rfl, rfl, rfl⟩
  exact ⟨e, z, size, he, hdata, hcard, hconsistent setKey e z size he hdata⟩

end Sample

end RustKv.Zset
