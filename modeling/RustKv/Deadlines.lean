import RustKv.ServerSteps

namespace RustKv.Deadlines

open Text Decimal Protocol Domain CacheStore Zset RustKv.Types Executor FrameParser CommandParser
open RequestReading AofEncoder AofRoundTrip

section Stored

variable {S J : Type} [Host] [F64 S] [SerdeJson J]

/-- The deadline a key is stored with, if the key is there. -/
def deadlineOf (db : Db (Value S J)) (key : Str) : Option (Option Nat) :=
  (db.entry key).map ValueEntry.expiresAt

/-- The command has been carried out, so that its record is written. -/
def Stores (rt : Runtime) (now : Nat) (db : Db (Value S J)) (c : SetCommand) : Prop :=
  (execute rt now db (Command.set (S := S) c)).1.aof.isSome

theorem stores_deadline {rt : Runtime} {now : Nat} {db : Db (Value S J)} {c : SetCommand}
    (h : Stores rt now db c) :
    deadlineOf (execute rt now db (Command.set (S := S) c)).2 c.key =
      some (c.expiration.map (calculateExpirationTimestampMs now)) := by
  obtain ⟨hdone, hentry⟩ := db.execute_entry rt now (Command.set (S := S) c)
  rw [Stores, hdone] at h
  rw [deadlineOf, hentry]
  simp only [execute, Context.access, Function.update_self] at h ⊢
  rcases set_result (S := S) now now c (db.entry c.key) with ⟨-, hstored⟩ | ⟨hnone, -⟩
  · rw [hstored]
    rfl
  · rw [hnone] at h
    cases h

theorem stores_always (rt : Runtime) (now : Nat) (db : Db (Value S J)) (c : SetCommand)
    (h : c.condition = none) : Stores rt now db c := by
  rw [Stores, (db.execute_entry rt now _).1]
  simp [execute, Context.access, setAccess, h, Access.onCell, Done.logged]

theorem exists_present (key : Str) (value : Bytes) :
    ∃ (db : Db (Value S J)) (entry : ValueEntry (Value S J)),
      db.entry key = some entry ∧ entry.expiresAt = none := by
  have hplain := stores_deadline
    (stores_always ⟨[], 0, 0⟩ 0 (Db.new .lru : Db (Value S J)) ⟨key, value, none, none⟩ rfl)
  exact ⟨_, Option.map_eq_some_iff.mp hplain⟩

theorem exists_stores (rt : Runtime) (now : Nat) (c : SetCommand) :
    ∃ db : Db (Value S J), Stores rt now db c := by
  cases hc : c.condition with
  | none => exact ⟨Db.new .lru, stores_always rt now _ c hc⟩
  | some condition =>
      cases condition with
      | nx =>
          refine ⟨Db.new .lru, ?_⟩
          rw [Stores, (Db.execute_entry rt now _ _).1]
          simp [execute, Context.access, setAccess, hc, Access.onCell, Db.entry_new, unlessExpired,
            Done.logged]
      | xx =>
          obtain ⟨db, entry, hentry, hexp⟩ := exists_present (S := S) (J := J) c.key c.value
          refine ⟨db, ?_⟩
          rw [Stores, (Db.execute_entry rt now _ _).1]
          simp [execute, Context.access, setAccess, hc, Access.onCell, hentry, unlessExpired,
            Option.filter, ValueEntry.isExpired, hexp, Done.logged]

end Stored

section Records

/-- The record written at `now` is read back as a command that stores, at any later
time and in any database, the deadline that the command itself stored. -/
def RecordsDeadline (S J : Type) [Host] [F64 S] [SerdeJson J] (now : Nat) (c : SetCommand) : Prop :=
  ∃ (f : Frame) (d : Command S),
    parseFrame (encodeSet now c) = .ok (some (f, (encodeSet now c).length)) ∧ tryFrom f = .ok d ∧
      ∀ (rt rt' : Runtime) (later : Nat) (db db' : Db (Value S J)), now ≤ later → Stores rt now db c →
        deadlineOf (execute rt' later db' d).2 c.key =
          deadlineOf (execute rt now db (.set c)).2 c.key

variable {S J : Type} [Host] [F64 S] [SerdeJson J]

/-- The clock and the option are such that the record says the same: EX is written as a
number of milliseconds where seconds are read, and a PX deadline has to fit an i64. -/
def KeepsDeadline (now : Nat) : Expiration → Prop
  | .ex _ => False
  | .px ms => 0 < (now + ms) % 2 ^ 64 ∧ (now + ms) % 2 ^ 64 < 2 ^ 63
  | .exat _ | .pxat _ => True

omit [Host] in
/-- The option that is read back says another deadline only for EX. -/
theorem absolute_deadline_iff {now later : Nat} {e : Expiration}
    (h0 : 0 < expirationAmount (absoluteExpiration now e))
    (h : expirationAmount (absoluteExpiration now e) < 2 ^ 63) :
    calculateExpirationTimestampMs later (absoluteExpiration now e) =
      calculateExpirationTimestampMs now e ↔ ∀ s, e ≠ .ex s := by
  cases e with
  | ex s =>
      simp only [absoluteExpiration, expirationAmount, u64] at h0 h
      refine iff_of_false ?_ (fun hne => hne s rfl)
      simp only [absoluteExpiration, calculateExpirationTimestampMs, u64]
      rw [Nat.add_mod_mod] at h0 h ⊢
      generalize (now + s * 1000) % 2 ^ 64 = deadline at h0 h ⊢
      omega
  | px ms => simp [absoluteExpiration, calculateExpirationTimestampMs, u64]
  | exat s => simp [absoluteExpiration, calculateExpirationTimestampMs]
  | pxat ms => simp [absoluteExpiration, calculateExpirationTimestampMs]

theorem keepsDeadline_iff {now : Nat} {c : SetCommand} (hc : Parsed (Command.set (S := S) c))
    {e : Expiration} (he : c.expiration = some e) :
    KeepsDeadline now e ↔ Loggable now (Command.set (S := S) c) ∧ ∀ s, e ≠ .ex s := by
  obtain ⟨iter, ⟨-, hamount⟩, -, -⟩ := hc.readFrom
  have hbound := hamount e he
  have hlog : Loggable now (Command.set (S := S) c) ↔
      0 < expirationAmount (absoluteExpiration now e) ∧
        expirationAmount (absoluteExpiration now e) < 2 ^ 63 := by
    simp [Loggable, he]
  rw [hlog]
  cases e with
  | ex s => simp [KeepsDeadline]
  | px ms => simp [KeepsDeadline, absoluteExpiration, expirationAmount, u64]
  | exat n | pxat n => simpa [KeepsDeadline, absoluteExpiration, expirationAmount] using hbound

theorem encodeSet_read (now : Nat) {c : SetCommand} (hc : Parsed (Command.set (S := S) c)) :
    ∃ f, aofFrame now (Command.set (S := S) c) = some f ∧
      parseFrame (encodeSet now c) = .ok (some (f, (encodeSet now c).length)) := by
  refine ⟨_, rfl, ?_⟩
  have hfit := Parsed.fits hc (show aofFrame now (Command.set (S := S) c) = some _ from rfl)
  have hread := FrameRoundTrip.parseFrame_append hfit []
  rw [List.append_nil] at hread
  exact hread

theorem replayed_deadline_iff {now : Nat} {c : SetCommand} {e : Expiration} (he : c.expiration = some e)
    (h0 : 0 < expirationAmount (absoluteExpiration now e))
    (h : expirationAmount (absoluteExpiration now e) < 2 ^ 63) :
    (∀ (rt rt' : Runtime) (later : Nat) (db db' : Db (Value S J)), now ≤ later → Stores rt now db c →
      deadlineOf (execute rt' later db' (recorded now (.set c))).2 c.key =
        deadlineOf (execute rt now db (.set c)).2 c.key) ↔ ∀ s, e ≠ .ex s := by
  have hreplay (rt' : Runtime) (later : Nat) (db' : Db (Value S J)) :
      deadlineOf (execute rt' later db' (recorded now (.set c))).2 c.key =
        some (some (calculateExpirationTimestampMs later (absoluteExpiration now e))) := by
    let d : SetCommand := ⟨c.key, c.value, c.expiration.map (absoluteExpiration now), none⟩
    have hd := stores_deadline (stores_always rt' later db' d rfl)
    rw [show d.expiration = some (absoluteExpiration now e) by simp [d, he]] at hd
    exact hd
  constructor
  · intro hall
    obtain ⟨db, hdb⟩ := exists_stores (S := S) (J := J) ⟨[], 0, 0⟩ now c
    have hsame := hall ⟨[], 0, 0⟩ ⟨[], 0, 0⟩ now db db (le_refl now) hdb
    rw [hreplay, stores_deadline hdb, he] at hsame
    exact (absolute_deadline_iff h0 h).mp (Option.some_inj.mp (Option.some_inj.mp hsame))
  · intro hne rt rt' later db db' _ hdb
    rw [hreplay, stores_deadline hdb, he, (absolute_deadline_iff h0 h).mpr hne]
    rfl

theorem recordsDeadline_loggable {now : Nat} {c : SetCommand} (hc : Parsed (Command.set (S := S) c))
    {e : Expiration} (he : c.expiration = some e) (hl : Loggable now (Command.set (S := S) c)) :
    RecordsDeadline S J now c ↔ ∀ s, e ≠ .ex s := by
  obtain ⟨f, hf, hread⟩ := encodeSet_read now hc
  have htry := tryFrom_aofFrame hf hl
  obtain ⟨h0, h⟩ := hl e he
  rw [← replayed_deadline_iff (S := S) (J := J) he h0 h]
  constructor
  · rintro ⟨f', d, hread', htry', hall⟩
    rw [hread] at hread'
    cases hread'
    rw [htry] at htry'
    cases htry'
    exact hall
  · intro hall
    exact ⟨f, _, hread, htry, hall⟩

/-- The log keeps the deadline of EXAT and PXAT, that of PX as long as it fits an i64, and
that of EX never. -/
theorem records_deadline_iff {now : Nat} {c : SetCommand} (hc : Parsed (Command.set (S := S) c))
    {e : Expiration} (he : c.expiration = some e) : RecordsDeadline S J now c ↔ KeepsDeadline now e := by
  rw [keepsDeadline_iff hc he]
  by_cases hl : Loggable now (Command.set (S := S) c)
  · rw [recordsDeadline_loggable hc he hl, and_iff_right hl]
  · obtain ⟨f, hf, hread⟩ := encodeSet_read now hc
    obtain ⟨err, herr⟩ := Parsed.unreadable hc hf hl
    refine iff_of_false ?_ (fun hk => hl hk.1)
    rintro ⟨f', d, hread', htry', -⟩
    rw [hread] at hread'
    cases hread'
    rw [herr] at htry'
    cases htry'

end Records

section Lifetimes

/-- The options that SetCommand::parse lets through. -/
def Accepted (e : Expiration) : Prop :=
  ∃ itor condition, parseSetOptions itor none none = .ok (some e, condition)

/-- The deadline as an integer without bounds. -/
def exactDeadline (now : Nat) : Expiration → Nat
  | .ex s => now + s * 1000
  | .px ms => now + ms
  | .exat s => s * 1000
  | .pxat ms => ms

/-- The number that the record states, as an integer without bounds. -/
def exactRecord (now : Nat) : Expiration → Nat
  | .ex s => now + s * 1000
  | .px ms => now + ms
  | .exat s => s
  | .pxat ms => ms

def saturated (n : Nat) : Nat := min n (2 ^ 64 - 1)

/-- Both computations give the exact number, or the largest u64 if that is larger. -/
def Unwrapped (now : Nat) (e : Expiration) : Prop :=
  calculateExpirationTimestampMs now e = saturated (exactDeadline now e) ∧
    ∃ name, expirationFrames now e = [.bulk name, .bulk (decimal (saturated (exactRecord now e)))]

/-- Only the seconds of an EX can be too many: then the sum has to come out as the largest
u64 by itself. -/
def Lasts (now : Nat) (e : Expiration) : Prop :=
  ∀ s, e = .ex s → now + s * 1000 < 2 ^ 64 ∨ (now + s * 1000) % 2 ^ 64 = 2 ^ 64 - 1

theorem accepted_range {e : Expiration} (h : Accepted e) :
    0 < expirationAmount e ∧ expirationAmount e < 2 ^ 63 := by
  obtain ⟨itor, condition, h⟩ := h
  exact parseSetOptions_bound itor none none (some e) condition (by simp) h e rfl

theorem saturated_mod_iff (n : Nat) :
    n % 2 ^ 64 = saturated n ↔ n < 2 ^ 64 ∨ n % 2 ^ 64 = 2 ^ 64 - 1 := by
  rw [saturated]
  by_cases h : n < 2 ^ 64
  · rw [Nat.mod_eq_of_lt h]
    omega
  · omega

theorem saturated_of_lt {n : Nat} (h : n < 2 ^ 64) : saturated n = n := by
  rw [saturated]
  omega

theorem unwrapped_iff {now : Nat} (hnow : now < 2 ^ 62) {e : Expiration} (he : Accepted e) :
    Unwrapped now e ↔ Lasts now e := by
  have hamount := (accepted_range he).2
  cases e with
  | ex s =>
      have hlasts : Lasts now (.ex s) ↔ (now + s * 1000) % 2 ^ 64 = saturated (now + s * 1000) := by
        rw [saturated_mod_iff]
        constructor
        · intro h
          exact h s rfl
        · rintro h _ ⟨⟩
          exact h
      rw [hlasts]
      refine ⟨fun h => h.1, fun h => ⟨h, ascii ['E', 'X', 'A', 'T'], ?_⟩⟩
      rw [exactRecord, ← h, expirationFrames, exchangeAbsoluteTime, u64, u64, Nat.add_mod_mod]
  | px ms =>
      have hlt : now + ms < 2 ^ 64 := by
        simp only [expirationAmount] at hamount
        omega
      refine iff_of_true ⟨?_, ascii ['P', 'X', 'A', 'T'], ?_⟩ (by rintro _ ⟨⟩)
      · rw [calculateExpirationTimestampMs, exactDeadline, saturated_of_lt hlt, Nat.mod_eq_of_lt hlt]
      · rw [expirationFrames, exchangeAbsoluteTime, exactRecord, saturated_of_lt hlt, u64,
          Nat.mod_eq_of_lt hlt]
  | exat s =>
      have hlt : s < 2 ^ 64 := Nat.lt_trans hamount (by decide)
      refine iff_of_true ⟨rfl, ascii ['E', 'X', 'A', 'T'], ?_⟩ (by rintro _ ⟨⟩)
      rw [expirationFrames, exactRecord, saturated_of_lt hlt]
  | pxat ms =>
      have hlt : ms < 2 ^ 64 := Nat.lt_trans hamount (by decide)
      refine iff_of_true ⟨?_, ascii ['P', 'X', 'A', 'T'], ?_⟩ (by rintro _ ⟨⟩)
      · rw [calculateExpirationTimestampMs, exactDeadline, saturated_of_lt hlt]
      · rw [expirationFrames, exactRecord, saturated_of_lt hlt]

theorem saturated_mono {m n : Nat} (h : m ≤ n) : saturated m ≤ saturated n := by
  rw [saturated, saturated]
  omega

/-- Expirations are computed without wrapping exactly when the seconds of an EX are not too
many; then no relative deadline is in the past, and a longer lifetime never ends earlier. -/
theorem lifetimes_exact_iff {now : Nat} (hnow : now < 2 ^ 62) :
    (∀ e, Accepted e → (Unwrapped now e ↔ Lasts now e)) ∧
    (∀ s s', Accepted (.ex s) → Accepted (.ex s') → Lasts now (.ex s) → Lasts now (.ex s') → s ≤ s' →
      now ≤ calculateExpirationTimestampMs now (.ex s) ∧
        calculateExpirationTimestampMs now (.ex s) ≤ calculateExpirationTimestampMs now (.ex s')) ∧
    ∀ ms ms', Accepted (.px ms) → Accepted (.px ms') → ms ≤ ms' →
      now ≤ calculateExpirationTimestampMs now (.px ms) ∧
        calculateExpirationTimestampMs now (.px ms) ≤ calculateExpirationTimestampMs now (.px ms') := by
  have hpast (n : Nat) : now ≤ saturated (now + n) := by
    rw [saturated]
    omega
  refine ⟨fun e he => unwrapped_iff hnow he, fun s s' hs hs' hl hl' hle => ?_,
    fun ms ms' hms hms' hle => ?_⟩
  · rw [((unwrapped_iff hnow hs).mpr hl).1, ((unwrapped_iff hnow hs').mpr hl').1]
    exact ⟨hpast _, saturated_mono (by simp only [exactDeadline]; omega)⟩
  · rw [((unwrapped_iff hnow hms).mpr (by rintro _ ⟨⟩)).1,
      ((unwrapped_iff hnow hms').mpr (by rintro _ ⟨⟩)).1]
    exact ⟨hpast _, saturated_mono (by simp only [exactDeadline]; omega)⟩

def exFrames (seconds : Nat) : List Frame := [.bulk (ascii ['E', 'X']), .bulk (decimal seconds)]

theorem accepted_ex {seconds : Nat} (h0 : 0 < seconds) (h : seconds < 2 ^ 63) :
    Accepted (.ex seconds) := by
  have ho : expirationOption (ascii ['E', 'X']) = some ("EX", .ex) := by rfl
  have hpos : ¬ ((seconds : Int) ≤ 0) := by omega
  refine ⟨exFrames seconds, none, ?_⟩
  simp only [exFrames, parseSetOptions, ho, extractBulkInteger_decimal h, bind, Except.bind, hpos, if_false,
    Int.toNat_natCast]

/-- A key to be kept for 584 million years is gone after less than half a second; with one
second less it stays. -/
theorem long_lifetime_wraps :
    Accepted (.ex 18446744073709552) ∧ ¬ Unwrapped 0 (.ex 18446744073709552) ∧
      calculateExpirationTimestampMs 0 (.ex 18446744073709552) = 384 ∧
      calculateExpirationTimestampMs 0 (.ex 18446744073709551) = 18446744073709551000 := by
  refine ⟨accepted_ex (by decide) (by decide), ?_, by decide, by decide⟩
  rintro ⟨h, -⟩
  exact absurd h (by decide)

theorem lifetimes_exact_hour :
    Lasts 0 (.ex 3600) ∧ Unwrapped 0 (.ex 3600) := by
  have haccepted : Accepted (.ex 3600) := accepted_ex (by decide) (by decide)
  have hlasts : Lasts 0 (.ex 3600) := by
    rintro s ⟨⟩
    exact .inl (by decide)
  exact ⟨hlasts, ((lifetimes_exact_iff (by decide)).1 _ haccepted).mpr hlasts⟩

end Lifetimes

section Sample

attribute [local instance] singleShard wholeScore flatJson

def sampleKey : Str := Str.ofAscii (ascii ['k']) ascii_k

/-- SET k v EX 5. -/
def sampleEx : SetCommand := ⟨sampleKey, ascii ['v'], some (.ex 5), none⟩

/-- SET k v PX 5. -/
def samplePx : SetCommand := ⟨sampleKey, ascii ['v'], some (.px 5), none⟩

def sampleFrame (option : Bytes) : Frame :=
  .array [.bulk (ascii ['S', 'E', 'T']), .bulk sampleKey.bytes, .bulk (ascii ['v']), .bulk option,
    .bulk (ascii ['5'])]

theorem parsed_sampleFrame (option : Bytes) (h : option.length = 2) {c : SetCommand}
    (hc : tryFrom (sampleFrame option) = .ok (Command.set (S := UInt64) c)) :
    Parsed (Command.set (S := UInt64) c) := by
  have hfit : Fits (sampleFrame option) := by
    simp [sampleFrame, Fits, FitsAll, ascii, sampleKey, Str.ofAscii, h]
  have hread := FrameRoundTrip.parseFrame_append hfit []
  rw [List.append_nil] at hread
  exact ⟨_, _, _, hread, hc⟩

theorem sampleEx_parsed : Parsed (Command.set (S := UInt64) sampleEx) :=
  parsed_sampleFrame (ascii ['E', 'X']) rfl rfl

theorem samplePx_parsed : Parsed (Command.set (S := UInt64) samplePx) :=
  parsed_sampleFrame (ascii ['P', 'X']) rfl rfl

theorem ex_deadline_not_recorded :
    Parsed (Command.set (S := UInt64) sampleEx) ∧ ¬ RecordsDeadline UInt64 Str 0 sampleEx := by
  refine ⟨sampleEx_parsed, fun h => ?_⟩
  have hl : Loggable 0 (Command.set (S := UInt64) sampleEx) := by
    rintro e ⟨⟩
    decide
  exact (recordsDeadline_loggable sampleEx_parsed rfl hl).mp h 5 rfl

theorem px_deadline_recorded :
    Parsed (Command.set (S := UInt64) samplePx) ∧ RecordsDeadline UInt64 Str 0 samplePx :=
  ⟨samplePx_parsed, (records_deadline_iff samplePx_parsed rfl).mpr (by simp [KeepsDeadline])⟩

end Sample

end RustKv.Deadlines
