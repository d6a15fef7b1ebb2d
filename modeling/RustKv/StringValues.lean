import RustKv.ExpiredKeys

namespace RustKv.Decimal

open Text

theorem decimal_head {n : Nat} (hn : 0 < n) : (decimal n).head? ≠ some 48 := by
  induction n using Nat.strong_induction_on with
  | _ n ih =>
      by_cases h : n < 10
      · rw [decimal, digitsAux, if_pos h, List.head?_cons]
        intro he
        have ht := digit_toNat h
        rw [Option.some_inj.mp he] at ht
        simp only [UInt8.reduceToNat] at ht
        omega
      · have hstep := decimal_step (show 0 < n / 10 by omega) (Nat.mod_lt n (by decide))
        rw [Nat.div_add_mod'] at hstep
        rw [hstep, List.head?_append_of_ne_nil _ (decimal_ne_nil _)]
        exact ih (n / 10) (by omega) (by omega)

theorem digitValue_some {b : UInt8} {d : Nat} (h : digitValue b = some d) : d < 10 ∧ b = digit d := by
  unfold digitValue at h
  split at h
  · next hb =>
    simp only [Bool.and_eq_true, decide_eq_true_eq, UInt8.le_iff_toNat_le, UInt8.reduceToNat] at hb
    have hd : b.toNat - 48 = d := Option.some_inj.mp h
    have hlt : d < 10 := by omega
    refine ⟨hlt, UInt8.toNat_inj.mp ?_⟩
    rw [digit_toNat hlt]
    omega
  · cases h

/-- Digits read behind a number that is not zero are the last digits of the result. -/
theorem decimal_parseDigits {limit n m : Nat} {e : IntErrorKind} {b : Bytes} (hn : 0 < n)
    (h : parseDigits limit e n b = .ok m) : decimal m = decimal n ++ b := by
  induction b generalizing n with
  | nil =>
      cases h
      exact (List.append_nil _).symm
  | cons x b ih =>
      rw [parseDigits] at h
      cases hx : digitValue x with
      | none => simp [hx] at h
      | some d =>
          obtain ⟨hd, rfl⟩ := digitValue_some hx
          simp only [hx] at h
          split at h
          · rw [ih (by omega) h, decimal_step hn hd, List.append_assoc]
            rfl
          · cases h

/-- The digits of a number are the ones that are printed, unless they start with a zero
that is not all of them. -/
theorem decimal_eq_iff {limit n : Nat} {e : IntErrorKind} {x : UInt8} {b : Bytes}
    (h : parseDigits limit e 0 (x :: b) = .ok n) : decimal n = x :: b ↔ x ≠ 48 ∨ b = [] := by
  rw [parseDigits] at h
  cases hx : digitValue x with
  | none => simp [hx] at h
  | some d =>
      obtain ⟨hd, rfl⟩ := digitValue_some hx
      simp only [hx, Nat.zero_mul, Nat.zero_add] at h
      split at h
      · next hle =>
        have hsingle : decimal d = [digit d] := by rw [decimal, digitsAux, if_pos hd]
        by_cases hz : d = 0
        · subst hz
          cases b with
          | nil =>
              cases h
              simp [hsingle]
          | cons y b =>
              refine iff_of_false ?_ (by simp [digit])
              intro he
              by_cases hn : n = 0
              · rw [hn, hsingle] at he
                cases he
              · exact decimal_head (Nat.pos_of_ne_zero hn) (by rw [he]; rfl)
        · refine iff_of_true ?_ (.inl ?_)
          · rw [decimal_parseDigits (Nat.pos_of_ne_zero hz) h, hsingle]
            rfl
          · intro he
            have ht := digit_toNat hd
            rw [he] at ht
            simp only [UInt8.reduceToNat] at ht
            omega
      · cases h

/-- An i64 in another spelling than the printed one: with a plus sign, with zeros in
front, or minus zero. -/
def respelled (value : Bytes) : Bool :=
  (parseI64 value).isOk &&
    match value with
    | x :: y :: _ => x == 43 || x == 48 || x == 45 && y == 48
    | _ => false

theorem decimalInt_natCast (n : Nat) : decimalInt (Int.ofNat n) = decimal n := by
  rw [decimalInt, if_neg (by simp)]
  rfl

theorem parseDigits_map {limit : Nat} {e : IntErrorKind} {b : Bytes} {f : Nat → Int} {i : Int}
    (h : (parseDigits limit e 0 b).map f = .ok i) : ∃ n, parseDigits limit e 0 b = .ok n ∧ f n = i := by
  cases hp : parseDigits limit e 0 b with
  | error e => simp [hp, Except.map] at h
  | ok n =>
      simp only [hp, Except.map, Except.ok.injEq] at h
      exact ⟨n, rfl, h⟩

theorem decimal_zero : decimal 0 = [48] := by decide

/-- A negative number is printed as it was given, unless its digits start with a zero. -/
theorem decimalInt_neg_iff {limit n : Nat} {e : IntErrorKind} {x : UInt8} {b : Bytes}
    (h : parseDigits limit e 0 (x :: b) = .ok n) : decimalInt (-Int.ofNat n) = 45 :: x :: b ↔ x ≠ 48 := by
  have hiff := decimal_eq_iff h
  by_cases hn : n = 0
  · subst hn
    rw [decimal_zero] at hiff
    refine iff_of_false ?_ (fun hx => ?_)
    · intro he
      cases he
    · exact hx (List.cons.inj (hiff.mpr (.inl hx))).1.symm
  · have hneg : decimalInt (-Int.ofNat n) = 45 :: decimal n := by
      rw [decimalInt, if_pos (by simp only [Int.ofNat_eq_natCast]; omega), Int.natAbs_neg]
      rfl
    rw [hneg, List.cons_inj_right, hiff, or_iff_left_iff_imp]
    rintro rfl rfl
    rw [parseDigits] at h
    exact hn (by simpa [digitValue, parseDigits] using h.symm)

/-- The integer fast path prints a number as it was given exactly in its one spelling. -/
theorem decimalInt_eq_iff {value : Bytes} {i : Int} (h : parseI64 value = .ok i) :
    decimalInt i = value ↔ respelled value = false := by
  have hok : (parseI64 value).isOk = true := by rw [h]; rfl
  match value with
  | [] => cases h
  | [x] =>
      rw [parseI64] at h
      split at h
      · cases h
      · obtain ⟨n, hn, rfl⟩ := parseDigits_map h
        rw [decimalInt_natCast, decimal_eq_iff hn]
        exact iff_of_true (.inr rfl) (Bool.and_false _)
  | x :: y :: b =>
      have hspelled : respelled (x :: y :: b) = (x == 43 || x == 48 || x == 45 && y == 48) := by
        rw [respelled, hok, Bool.true_and]
      rw [hspelled]
      rw [parseI64] at h
      · split at h
        · next hx =>
          obtain ⟨n, hn, rfl⟩ := parseDigits_map h
          subst hx
          refine iff_of_false ?_ (by simp)
          rw [decimalInt_natCast]
          intro he
          exact decimal_not_mem n (show (43 : UInt8) < 48 by decide) (by rw [he]; exact List.mem_cons_self)
        · split at h
          · next hx =>
            obtain ⟨n, hn, rfl⟩ := parseDigits_map h
            subst hx
            rw [decimalInt_neg_iff hn]
            by_cases hy : y = 48 <;> simp [hy]
          · next hplus hminus =>
            obtain ⟨n, hn, rfl⟩ := parseDigits_map h
            rw [decimalInt_natCast, decimal_eq_iff hn]
            by_cases hx : x = 48 <;> simp [hx, hplus, hminus]
      · simp

end RustKv.Decimal

namespace RustKv.Executor

open Text Decimal Protocol Domain CacheStore Zset RustKv.Types Expiry RustKv.Normal

section Pairs

/-- The value of the last pair with the key. -/
def lastGiven : List (Str × Bytes) → Str → Option Bytes
  | [], _ => none
  | (key, value) :: pairs, k =>
      match lastGiven pairs k with
      | some v => some v
      | none => if k = key then some value else none

theorem lastGiven_eq_filter (pairs : List (Str × Bytes)) (k : Str) :
    lastGiven pairs k = (pairs.filter (fun p => decide (p.1 = k))).getLast?.map Prod.snd := by
  induction pairs with
  | nil => rfl
  | cons p pairs ih =>
      obtain ⟨key, value⟩ := p
      rw [lastGiven, ih]
      by_cases hk : key = k
      · rw [List.filter_cons_of_pos (by simpa using hk), List.getLast?_cons, if_pos hk.symm]
        cases (pairs.filter (fun p => decide (p.1 = k))).getLast? <;> rfl
      · rw [List.filter_cons_of_neg (by simpa using hk), if_neg (Ne.symm hk)]
        cases (pairs.filter (fun p => decide (p.1 = k))).getLast? <;> rfl

/-- Sorting the pairs by key leaves the order of the pairs of one key. -/
theorem filter_sortedPairs (c : MSetCommand) (k : Str) :
    (sortedPairs c).filter (fun p => decide (p.1 = k)) =
      c.keysAndValues.filter (fun p => decide (p.1 = k)) := by
  have hsub : (c.keysAndValues.filter (fun p => decide (p.1 = k))).Sublist (sortedPairs c) := by
    apply List.sublist_mergeSort
    · intro a b d hab hbd
      exact decide_eq_true (le_trans (of_decide_eq_true hab) (of_decide_eq_true hbd))
    · intro a b
      rw [Bool.or_eq_true, decide_eq_true_eq, decide_eq_true_eq]
      exact le_total a.1.bytes b.1.bytes
    · apply List.pairwise_of_forall_mem_list
      intro a ha b hb
      have hak : a.1 = k := of_decide_eq_true (List.mem_filter.mp ha).2
      have hbk : b.1 = k := of_decide_eq_true (List.mem_filter.mp hb).2
      rw [hak, hbk]
      exact decide_eq_true (le_refl _)
    · exact List.filter_sublist
  have hboth := hsub.filter (fun p => decide (p.1 = k))
  rw [List.filter_filter] at hboth
  simp only [Bool.and_self] at hboth
  have hperm := (List.mergeSort_perm c.keysAndValues
    (fun a b => decide (a.1.bytes ≤ b.1.bytes))).filter (fun p => decide (p.1 = k))
  exact (hboth.eq_of_length hperm.length_eq.symm).symm

theorem lastGiven_sortedPairs (c : MSetCommand) (k : Str) :
    lastGiven (sortedPairs c) k = lastGiven c.keysAndValues k := by
  rw [lastGiven_eq_filter, lastGiven_eq_filter, filter_sortedPairs]

theorem lastGiven_isSome (pairs : List (Str × Bytes)) (k : Str) :
    (lastGiven pairs k).isSome ↔ k ∈ pairs.map Prod.fst := by
  induction pairs with
  | nil => simp [lastGiven]
  | cons p pairs ih =>
      obtain ⟨key, value⟩ := p
      rw [lastGiven, List.map_cons, List.mem_cons, ← ih]
      cases lastGiven pairs k with
      | some v => simp
      | none => by_cases hk : k = key <;> simp [hk]

theorem writePairs_eq {S J : Type} [Host] (pairs : List (Str × Bytes)) (m : Cells (Value S J)) (k : Str) :
    writePairs pairs m k =
      match lastGiven pairs k with
      | some v => some (msetEntry v)
      | none => m k := by
  induction pairs generalizing m with
  | nil => rfl
  | cons p pairs ih =>
      obtain ⟨key, value⟩ := p
      refine (ih (Function.update m key (some (msetEntry value)))).trans ?_
      rw [lastGiven]
      cases lastGiven pairs k with
      | some v => rfl
      | none =>
          by_cases hk : k = key
          · rw [hk, Function.update_self, if_pos rfl]
          · rw [Function.update_of_ne hk, if_neg hk]

end Pairs

section ReadBack

variable {S J : Type} [Host] [F64 S] [SerdeJson J]

omit [F64 S] [SerdeJson J] in
theorem unlessExpired_lasting (data : Value S J) (now : Nat) :
    unlessExpired now (some (newEntry data none)) = some (newEntry data none) := by
  apply unlessExpired_eq_self
  rintro e ⟨⟩
  rfl

omit [F64 S] [SerdeJson J] in
theorem stringReply_iff (hlex : ∀ b, Host.lexicalParse b = (parseI64 b).toOption) (value : Bytes) :
    stringReply (some (newEntry (simpleValue value : Value S J) none)) = .bulk value ↔
      respelled value = false := by
  cases hp : parseI64 value with
  | error e =>
      have hsimple : (simpleValue value : Value S J) = .simple (.string value) := by
        rw [simpleValue, hlex, hp]
        rfl
      rw [hsimple]
      refine iff_of_true rfl ?_
      simp [respelled, hp, Except.isOk, Except.toBool]
  | ok i =>
      have hsimple : (simpleValue value : Value S J) = .simple (.int i) := by
        rw [simpleValue, hlex, hp]
        rfl
      rw [hsimple, ← decimalInt_eq_iff hp]
      change Frame.bulk (decimalInt i) = Frame.bulk value ↔ _
      rw [Frame.bulk.injEq]

theorem get_after_set (rt rt' : Runtime) (now now' : Nat) (queues queues' : Queues)
    (db : Db (Value S J)) (key : Str) (value : Bytes) :
    (answer rt' now' queues' (answer rt now queues db (.set ⟨key, value, none, none⟩)).2 (.get ⟨key⟩)).1.reply =
      .ok (stringReply (some (newEntry (simpleValue value : Value S J) none))) := by
  change (execute rt' now' (execute rt now db (.set ⟨key, value, none, none⟩)).2 (.get ⟨key⟩)).1.reply = _
  rw [(Db.execute_entry ..).1, (Db.execute_entry ..).2]
  simp only [execute, Context.access, setAccess, getAccess, Access.onCell, Function.update_self]
  exact congrArg (fun e => Except.ok (stringReply e)) (unlessExpired_lasting (simpleValue value) now')

/-- An MGET after an MSET finds for each key the last value the MSET gave it. -/
theorem mget_after_mset (rt rt' : Runtime) (now now' : Nat) (queues queues' : Queues)
    (db : Db (Value S J)) (c : MSetCommand) (d : MGetCommand)
    (hd : ∀ k ∈ d.keys, k ∈ c.keysAndValues.map Prod.fst) :
    (answer rt' now' queues' (answer rt now queues db (.mset c)).2 (.mget d)).1.reply =
      .ok (.array (d.keys.map (fun k =>
        stringReply (some (newEntry (simpleValue ((lastGiven c.keysAndValues k).getD []) : Value S J) none))))) := by
  change (execute rt' now' (execute rt now db (.mset c)).2 (.mget d)).1.reply = _
  rw [(Db.execute_entry ..).1, (Db.execute_entry ..).2, execute_mset]
  change (mgetAll (S := S) now' (writePairs (sortedPairs c) db.entry) d.keys).1.map Frame.array = _
  rw [mgetAll_reply]
  refine congrArg (fun frames => Except.ok (Frame.array frames)) (List.map_congr_left (fun k hk => ?_))
  obtain ⟨v, hv⟩ := Option.isSome_iff_exists.mp ((lastGiven_isSome c.keysAndValues k).mpr (hd k hk))
  rw [writePairs_eq, lastGiven_sortedPairs, hv]
  exact congrArg stringReply (unlessExpired_lasting (simpleValue v) now')

/-- What SET and MSET store reads back byte for byte exactly where the bytes are not an
i64 in another spelling than the printed one. -/
theorem strings_read_back_iff (hlex : ∀ b, Host.lexicalParse b = (parseI64 b).toOption)
    (rt rt' : Runtime) (now now' : Nat) (queues queues' : Queues) (db : Db (Value S J)) :
    (∀ key value,
      (answer rt' now' queues' (answer rt now queues db (.set ⟨key, value, none, none⟩)).2 (.get ⟨key⟩)).1.reply =
        .ok (.bulk value) ↔ respelled value = false) ∧
    ∀ (c : MSetCommand) (d : MGetCommand), (∀ k ∈ d.keys, k ∈ c.keysAndValues.map Prod.fst) →
      ((answer rt' now' queues' (answer rt now queues db (.mset c)).2 (.mget d)).1.reply =
          .ok (.array (d.keys.map (fun k => .bulk ((lastGiven c.keysAndValues k).getD [])))) ↔
        ∀ k ∈ d.keys, respelled ((lastGiven c.keysAndValues k).getD []) = false) := by
  constructor
  · intro key value
    rw [get_after_set, Except.ok.injEq]
    exact stringReply_iff hlex value
  · intro c d hd
    rw [mget_after_mset rt rt' now now' queues queues' db c d hd, Except.ok.injEq, Frame.array.injEq,
      List.map_inj_left]
    apply forall₂_congr
    intro k hk
    exact stringReply_iff hlex _

end ReadBack

section Sample

attribute [local instance] singleShard wholeScore flatJson

theorem respelled_seven : respelled (ascii ['0', '0', '7']) = true := by decide

theorem seven_not_read_back :
    (answer sampleRuntime 0 ∅ (answer sampleRuntime 0 ∅ emptyDb
      (.set ⟨sampleKey, ascii ['0', '0', '7'], none, none⟩)).2 (.get ⟨sampleKey⟩)).1.reply ≠
        .ok (.bulk (ascii ['0', '0', '7'])) := by
  rw [get_after_set, Ne, Except.ok.injEq, stringReply_iff (fun _ => rfl), respelled_seven]
  decide

/-- MSET k 07 k 7. -/
def samplePairs : MSetCommand := ⟨[(sampleKey, ascii ['0', '7']), (sampleKey, ascii ['7'])]⟩

theorem strings_read_back_sample :
    (answer sampleRuntime 0 ∅ (answer sampleRuntime 0 ∅ emptyDb
      (.set ⟨sampleKey, ascii ['7'], none, none⟩)).2 (.get ⟨sampleKey⟩)).1.reply =
        .ok (.bulk (ascii ['7'])) ∧
    (answer sampleRuntime 0 ∅ (answer sampleRuntime 0 ∅ emptyDb (.mset samplePairs)).2
      (.mget ⟨[sampleKey]⟩)).1.reply = .ok (.array [.bulk (ascii ['7'])]) := by
  obtain ⟨hget, hmget⟩ :=
    strings_read_back_iff (fun _ => rfl) sampleRuntime sampleRuntime 0 0 ∅ ∅ emptyDb
  constructor
  · exact (hget sampleKey (ascii ['7'])).mpr (by decide)
  · exact (hmget samplePairs ⟨[sampleKey]⟩ (by simp [samplePairs])).mpr (by decide)

end Sample

end RustKv.Executor
