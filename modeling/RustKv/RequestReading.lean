import RustKv.CommandParser
import RustKv.FrameRoundTrip

namespace RustKv.RequestReading

open Text Decimal Protocol Domain CommandParser FrameRoundTrip

theorem extractBulkString_iff {o : Option Frame} {s : Str} :
    extractBulkString o = .ok s ↔ o = some (.bulk s.bytes) := by
  constructor
  · intro h
    unfold extractBulkString at h
    split at h
    · next data =>
        cases hu : fromUtf8 data with
        | error e => simp [hu, protocolError] at h
        | ok t =>
            simp only [hu, Except.ok.injEq] at h
            rw [← h, fromUtf8_ok hu]
    · cases h
  · rintro rfl
    simp [extractBulkString]

theorem extractBulkBytes_iff {o : Option Frame} {b : Bytes} :
    extractBulkBytes o = .ok b ↔ o = some (.bulk b) := by
  constructor
  · intro h
    unfold extractBulkBytes at h
    split at h
    · cases h; rfl
    · cases h
  · rintro rfl
    rfl

/-- A step of a parser written with the error monad. -/
theorem bind_ok {ε α β : Type} {x : Except ε α} {f : α → Except ε β} {b : β} :
    (x >>= f) = .ok b ↔ ∃ a, x = .ok a ∧ f a = .ok b := by
  cases x with
  | error e => simp [bind, Except.bind]
  | ok a => simp [bind, Except.bind]

theorem ite_cases {α : Type} {p : Prop} [Decidable p] {a b x : α} (h : (if p then a else b) = x) :
    a = x ∨ b = x := by
  by_cases hp : p
  · exact .inl ((if_pos hp).symm.trans h)
  · exact .inr ((if_neg hp).symm.trans h)

/-- The frames of a list of pairs, as MSET and HSET write them. -/
def pairFrames (pairs : List (Str × Bytes)) : List Frame :=
  pairs.flatMap (fun p => [.bulk p.1.bytes, .bulk p.2])

theorem pairFrames_length (ps : List (Str × Bytes)) : (pairFrames ps).length = ps.length * 2 := by
  induction ps with
  | nil => rfl
  | cons p ps ih =>
      rw [show pairFrames (p :: ps) = .bulk p.1.bytes :: .bulk p.2 :: pairFrames ps from rfl]
      simp only [List.length_cons, ih]
      omega

theorem extractAllBytes_iff {fs : List Frame} {vs : List Bytes} :
    extractAllBytes fs = .ok vs ↔ fs = vs.map .bulk := by
  induction fs generalizing vs with
  | nil =>
      simp only [extractAllBytes, Except.ok.injEq]
      exact ⟨fun h => by rw [← h]; rfl, fun h => (List.map_eq_nil_iff.mp h.symm).symm⟩
  | cons f fs ih =>
      simp only [extractAllBytes, bind_ok, extractBulkBytes_iff, ih, pure, Except.pure,
        Except.ok.injEq, Option.some.injEq]
      constructor
      · rintro ⟨v, rfl, vs, rfl, rfl⟩
        rfl
      · cases vs with
        | nil => intro h; cases h
        | cons v vs => intro h; cases h; exact ⟨v, rfl, vs, rfl, rfl⟩

theorem extractAllStrings_iff {fs : List Frame} {ss : List Str} :
    extractAllStrings fs = .ok ss ↔ fs = ss.map (fun s => .bulk s.bytes) := by
  induction fs generalizing ss with
  | nil =>
      simp only [extractAllStrings, Except.ok.injEq]
      exact ⟨fun h => by rw [← h]; rfl, fun h => (List.map_eq_nil_iff.mp h.symm).symm⟩
  | cons f fs ih =>
      simp only [extractAllStrings, bind_ok, extractBulkString_iff, ih, pure, Except.pure,
        Except.ok.injEq, Option.some.injEq]
      constructor
      · rintro ⟨v, rfl, vs, rfl, rfl⟩
        rfl
      · cases ss with
        | nil => intro h; cases h
        | cons v vs => intro h; cases h; exact ⟨v, rfl, vs, rfl, rfl⟩

theorem parseFieldValues_iff (fs : List Frame) (ps : List (Str × Bytes)) :
    parseFieldValues fs = .ok ps ↔ fs = pairFrames ps := by
  induction fs using parseFieldValues.induct generalizing ps with
  | case1 =>
      cases ps with
      | nil => simp [parseFieldValues, pairFrames]
      | cons p ps => simp [parseFieldValues, pairFrames]
  | case2 f =>
      simp only [parseFieldValues, bind_ok, extractBulkString_iff, extractBulkBytes_iff]
      cases ps with
      | nil => simp [pairFrames]
      | cons p ps => simp [pairFrames]
  | case3 f g fs ih =>
      simp only [parseFieldValues, bind_ok, extractBulkString_iff, extractBulkBytes_iff, ih, pure,
        Except.pure, Except.ok.injEq, Option.some.injEq]
      constructor
      · rintro ⟨k, rfl, v, rfl, ps, rfl, rfl⟩
        rfl
      · cases ps with
        | nil => intro h; cases h
        | cons p ps => intro h; cases h; exact ⟨p.1, rfl, p.2, rfl, ps, rfl, rfl⟩

theorem parsePairs_pairFrames (ps : List (Str × Bytes)) : parsePairs (pairFrames ps) = .ok ps := by
  induction ps with
  | nil => rfl
  | cons p ps ih =>
      rw [show pairFrames (p :: ps) = .bulk p.1.bytes :: .bulk p.2 :: pairFrames ps from rfl,
        parsePairs, extractBulkString_iff.mpr rfl]
      simp only [extractBulkBytes_iff.mpr rfl, ih]
      rfl

/-- MSET reads its pairs from the front of its arguments and may leave some
unread. -/
theorem parsePairs_ok {fs : List Frame} {ps : List (Str × Bytes)} (h : parsePairs fs = .ok ps) :
    pairFrames ps <+: fs := by
  induction fs using parsePairs.induct generalizing ps with
  | case1 => rw [parsePairs] at h; cases h; exact List.nil_prefix
  | case2 f fs e he =>
      rw [parsePairs.eq_def] at h
      simp only [he] at h
      cases h
      exact List.nil_prefix
  | case3 f key hk => simp [parsePairs, hk, protocolError] at h
  | case4 f key hk g fs e he => simp [parsePairs, hk, he, protocolError] at h
  | case5 f key hk g fs v hv ih =>
      simp only [parsePairs, hk, hv, bind_ok, pure, Except.pure, Except.ok.injEq] at h
      obtain ⟨qs, hq, rfl⟩ := h
      obtain rfl := Option.some.inj (extractBulkString_iff.mp hk)
      obtain rfl := Option.some.inj (extractBulkBytes_iff.mp hv)
      exact List.cons_prefix_cons.mpr ⟨rfl, List.cons_prefix_cons.mpr ⟨rfl, ih hq⟩⟩

theorem extractBulkString_bytes (s : Str) : extractBulkString (some (.bulk s.bytes)) = .ok s :=
  extractBulkString_iff.mpr rfl

theorem requiredString_iff {o : Option Frame} {text : String} {s : Str} :
    requiredString o text = .ok s ↔ o = some (.bulk s.bytes) := by
  cases o with
  | none => simp [requiredString, protocolError]
  | some f => exact extractBulkString_iff

theorem requiredString_bytes (s : Str) (text : String) :
    requiredString (some (.bulk s.bytes)) text = .ok s := extractBulkString_bytes s

def expirationAmount : Expiration → Nat
  | .ex n | .px n | .exat n | .pxat n => n

theorem expirationOption_amount {name : Bytes} {text : String} {build : Nat → Expiration}
    (h : expirationOption name = some (text, build)) (n : Nat) : expirationAmount (build n) = n := by
  unfold expirationOption at h
  rcases ite_cases h with h | h
  · cases h; rfl
  rcases ite_cases h with h | h
  · cases h; rfl
  rcases ite_cases h with h | h
  · cases h; rfl
  rcases ite_cases h with h | h
  · cases h; rfl
  · cases h

/-- Every expiration the parser accepts is positive and in the range of i64. -/
theorem parseSetOptions_bound (itor : List Frame) (exp : Option Expiration)
    (cond : Option SetCondition) (exp' : Option Expiration) (cond' : Option SetCondition)
    (he : ∀ e, exp = some e → 0 < expirationAmount e ∧ expirationAmount e < 2 ^ 63)
    (h : parseSetOptions itor exp cond = .ok (exp', cond')) :
    ∀ e, exp' = some e → 0 < expirationAmount e ∧ expirationAmount e < 2 ^ 63 := by
  induction itor, exp, cond using parseSetOptions.induct with
  | case1 exp cond =>
      simp only [parseSetOptions, Except.ok.injEq, Prod.mk.injEq] at h
      rw [← h.1]
      exact he
  | case2 exp cond name text build ho =>
      simp [parseSetOptions, ho, protocolError] at h
  | case3 exp cond name text build ho frame itor ih =>
      simp only [parseSetOptions, ho, bind_ok] at h
      obtain ⟨time, ht, h⟩ := h
      split at h
      · cases h
      · next hpos =>
          apply ih time _ h
          intro e hb
          cases hb
          rw [expirationOption_amount ho]
          simp only [extractBulkInteger, bind_ok] at ht
          obtain ⟨s, _, ht⟩ := ht
          split at ht
          · next i hi =>
              cases ht
              have := parseI64_bound hi
              omega
          · cases ht
  | case4 exp cond name itor ho c hc hsome => simp [parseSetOptions, ho, hc, hsome, protocolError] at h
  | case5 exp cond name itor ho c hc hsome ih =>
      rw [parseSetOptions.eq_def] at h
      simp only [ho, hc, hsome] at h
      exact ih he h
  | case6 exp cond name itor ho hc =>
      simp [parseSetOptions.eq_def, ho, hc, protocolError] at h
  | case7 exp cond f itor hf =>
      rw [parseSetOptions] at h
      · cases h
      · exact hf

variable {S : Type}

theorem head?_eq {fs : List Frame} {f : Frame} (h : fs.head? = some f) : fs = f :: fs.tail := by
  cases fs with
  | nil => cases h
  | cons g gs => cases h; rfl

theorem guardArity_pass {bad : Bool} (h : bad = false) (text : String)
    (parse : Except KvError (Command S)) : guardArity bad text parse = parse := by
  simp [guardArity, h]

theorem guardArity_ok {bad : Bool} {text : String} {parse : Except KvError (Command S)}
    {c : Command S} (h : guardArity bad text parse = .ok c) : bad = false ∧ parse = .ok c := by
  cases bad with
  | false => exact ⟨rfl, h⟩
  | true => cases h

/-- The argument frames a write command was read from. -/
def ReadFrom : Command S → List Frame → Prop
  | .set c, iter => (∃ rest, iter = .bulk c.key.bytes :: .bulk c.value :: rest) ∧
      ∀ e, c.expiration = some e → 0 < expirationAmount e ∧ expirationAmount e < 2 ^ 63
  | .mset c, iter => pairFrames c.keysAndValues <+: iter ∧ c.keysAndValues ≠ []
  | .lpush c, iter => iter = .bulk c.key.bytes :: c.values.map .bulk ∧ c.values ≠ []
  | .lpop c, iter => ∃ rest, iter = .bulk c.key.bytes :: rest
  | .blpop c, iter => ∃ rest, iter = .bulk c.key.bytes :: rest
  | .hset c, iter => iter = .bulk c.key.bytes :: pairFrames c.fieldValues ∧ c.fieldValues ≠ []
  | .hdel c, iter =>
      iter = .bulk c.key.bytes :: c.fields.map (fun f => .bulk f.bytes) ∧ c.fields ≠ []
  | .jsonSet c, iter => ∃ rest,
      iter = .bulk c.key.bytes :: .bulk c.path.bytes :: .bulk c.value.bytes :: rest
  | .zadd c, iter => utf8Error c.member = none ∧ ∃ text rest,
      iter = .bulk c.key.bytes :: .bulk text :: .bulk c.member :: rest
  | .zrem c, iter => utf8Error c.member = none ∧ ∃ rest,
      iter = .bulk c.key.bytes :: .bulk c.member :: rest
  | _, _ => True

variable [F64 S]

section Parsers

variable {iter : List Frame} {c : Command S}

omit [F64 S] in
theorem parseGet_readFrom (h : parseGet iter = .ok c) : ReadFrom c iter := by
  simp only [parseGet, bind_ok, pure, Except.pure, Except.ok.injEq] at h
  obtain ⟨_, _, rfl⟩ := h
  trivial

omit [F64 S] in
theorem parseSet_readFrom (h : parseSet iter = .ok c) : ReadFrom c iter := by
  simp only [parseSet, bind_ok, extractBulkString_iff, extractBulkBytes_iff, pure, Except.pure,
    Except.ok.injEq, Prod.exists] at h
  obtain ⟨key, hk, value, hv, e, cond, ho, rfl⟩ := h
  exact ⟨⟨iter.tail.tail, by rw [← head?_eq hv, ← head?_eq hk]⟩,
    parseSetOptions_bound _ none none e cond (by simp) ho⟩

omit [F64 S] in
theorem parseMSet_readFrom (h : parseMSet iter = .ok c) : ReadFrom c iter := by
  simp only [parseMSet, bind_ok] at h
  obtain ⟨ps, hps, h⟩ := h
  split at h
  · cases h
  · next hne =>
      cases h
      exact ⟨parsePairs_ok hps, by simpa using hne⟩

omit [F64 S] in
theorem parseMGet_readFrom (h : parseMGet iter = .ok c) : ReadFrom c iter := by
  simp only [parseMGet] at h
  split at h
  · cases h
  · cases h
    trivial

omit [F64 S] in
theorem parseLPush_readFrom (ha : ¬ iter.length + 1 < 3) (h : parseLPush iter = .ok c) : ReadFrom c iter := by
  simp only [parseLPush, bind_ok, extractBulkString_iff, extractAllBytes_iff, pure, Except.pure,
    Except.ok.injEq] at h
  obtain ⟨key, hk, values, hv, rfl⟩ := h
  have hi := head?_eq hk
  rw [hv] at hi
  refine ⟨hi, ?_⟩
  rintro rfl
  simp [hi] at ha

omit [F64 S] in
theorem parseLPop_readFrom (h : parseLPop iter = .ok c) : ReadFrom c iter := by
  simp only [parseLPop, bind_ok, extractBulkString_iff, pure, Except.pure, Except.ok.injEq] at h
  obtain ⟨key, hk, rfl⟩ := h
  exact ⟨iter.tail, head?_eq hk⟩

omit [F64 S] in
theorem parseBLPop_readFrom (h : parseBLPop iter = .ok c) : ReadFrom c iter := by
  simp only [parseBLPop, bind_ok, extractBulkString_iff] at h
  obtain ⟨key, hk, text, _, h⟩ := h
  split at h
  · cases h
  · cases h
    exact ⟨iter.tail, head?_eq hk⟩

omit [F64 S] in
theorem parseHSet_readFrom (ha : ¬ iter.length + 1 < 4) (h : parseHSet iter = .ok c) : ReadFrom c iter := by
  simp only [parseHSet, bind_ok, extractBulkString_iff, parseFieldValues_iff, pure, Except.pure,
    Except.ok.injEq] at h
  obtain ⟨key, hk, values, hv, rfl⟩ := h
  have hi := head?_eq hk
  rw [hv] at hi
  refine ⟨hi, ?_⟩
  rintro rfl
  simp [hi, pairFrames] at ha

omit [F64 S] in
theorem parseHGet_readFrom (h : parseHGet iter = .ok c) : ReadFrom c iter := by
  simp only [parseHGet, bind_ok, pure, Except.pure, Except.ok.injEq] at h
  obtain ⟨_, _, _, _, rfl⟩ := h
  trivial

omit [F64 S] in
theorem parseHDel_readFrom (ha : ¬ iter.length + 1 < 3) (h : parseHDel iter = .ok c) : ReadFrom c iter := by
  simp only [parseHDel, bind_ok, extractBulkString_iff, extractAllStrings_iff, pure, Except.pure,
    Except.ok.injEq] at h
  obtain ⟨key, hk, fields, hv, rfl⟩ := h
  have hi := head?_eq hk
  rw [hv] at hi
  refine ⟨hi, ?_⟩
  rintro rfl
  simp [hi] at ha

omit [F64 S] in
theorem parseJsonSet_readFrom (h : parseJsonSet iter = .ok c) : ReadFrom c iter := by
  simp only [parseJsonSet, bind_ok, requiredString_iff, pure, Except.pure, Except.ok.injEq] at h
  obtain ⟨key, hk, path, hpath, value, hv, rfl⟩ := h
  exact ⟨iter.tail.tail.tail, by rw [← head?_eq hv, ← head?_eq hpath, ← head?_eq hk]⟩

omit [F64 S] in
theorem parseJsonGet_readFrom (h : parseJsonGet iter = .ok c) : ReadFrom c iter := by
  simp only [parseJsonGet, bind_ok, pure, Except.pure, Except.ok.injEq] at h
  obtain ⟨_, _, _, _, rfl⟩ := h
  trivial

theorem parseZAdd_readFrom (h : parseZAdd iter = .ok c) : ReadFrom c iter := by
  simp only [parseZAdd, bind_ok, requiredString_iff] at h
  obtain ⟨key, hk, text, ht, h⟩ := h
  split at h
  · cases h
  · simp only [bind_ok, requiredString_iff, pure, Except.pure, Except.ok.injEq] at h
    obtain ⟨member, hm, rfl⟩ := h
    exact ⟨member.valid, text.bytes, iter.tail.tail.tail,
      by rw [← head?_eq hm, ← head?_eq ht, ← head?_eq hk]⟩

omit [F64 S] in
/-- ZSCORE, ZRANK and ZREM read a key and a member. -/
theorem parseKeyMember_ok {name : String} {build : Str → Bytes → Command S}
    (h : parseKeyMember name build iter = .ok c) : ∃ key member : Str, ∃ rest,
      iter = .bulk key.bytes :: .bulk member.bytes :: rest ∧ c = build key member.bytes := by
  simp only [parseKeyMember, bind_ok, requiredString_iff, pure, Except.pure, Except.ok.injEq] at h
  obtain ⟨key, hk, member, hm, rfl⟩ := h
  exact ⟨key, member, iter.tail.tail, by rw [← head?_eq hm, ← head?_eq hk], rfl⟩

omit [F64 S] in
theorem parseZRange_readFrom (h : parseZRange iter = .ok c) : ReadFrom c iter := by
  simp only [parseZRange, bind_ok, pure, Except.pure, Except.ok.injEq] at h
  obtain ⟨_, _, _, _, _, _, _, _, _, _, rfl⟩ := h
  trivial

omit [F64 S] in
theorem parsePing_readFrom (h : parsePing iter = .ok c) : ReadFrom c iter := by
  unfold parsePing at h
  split at h
  · cases h
    trivial
  · simp only [bind_ok, pure, Except.pure, Except.ok.injEq] at h
    obtain ⟨_, _, rfl⟩ := h
    trivial
  · cases h

omit [F64 S] in
theorem parseEval_readFrom (h : parseEval iter = .ok c) : ReadFrom c iter := by
  simp only [parseEval, bind_ok] at h
  obtain ⟨_, _, _, _, h⟩ := h
  split at h
  · cases h
  · simp only [bind_ok, pure, Except.pure, Except.ok.injEq, Prod.exists] at h
    obtain ⟨_, _, _, _, _, rfl⟩ := h
    trivial

omit [F64 S] in
theorem parseUnimplement_readFrom {name : Str} (h : parseUnimplement iter name = .ok c) :
    ReadFrom c iter := by
  simp only [parseUnimplement, bind_ok, pure, Except.pure, Except.ok.injEq] at h
  obtain ⟨_, _, rfl⟩ := h
  trivial

end Parsers

theorem dispatch_readFrom {name : Str} {iter : List Frame} {c : Command S}
    (h : dispatch name (iter.length + 1) iter = .ok c) : ReadFrom c iter := by
  unfold dispatch at h
  rcases ite_cases h with h | h
  · exact parseGet_readFrom (guardArity_ok h).2
  rcases ite_cases h with h | h
  · exact parseSet_readFrom (guardArity_ok h).2
  rcases ite_cases h with h | h
  · exact parseMSet_readFrom (guardArity_ok h).2
  rcases ite_cases h with h | h
  · exact parseMGet_readFrom (guardArity_ok h).2
  rcases ite_cases h with h | h
  · obtain ⟨ha, hp⟩ := guardArity_ok h
    exact parseLPush_readFrom (of_decide_eq_false ha) hp
  rcases ite_cases h with h | h
  · exact parseLPop_readFrom (guardArity_ok h).2
  rcases ite_cases h with h | h
  · exact parseBLPop_readFrom (guardArity_ok h).2
  rcases ite_cases h with h | h
  · obtain ⟨ha, hp⟩ := guardArity_ok h
    exact parseHSet_readFrom (of_decide_eq_false (Bool.or_eq_false_iff.mp ha).1) hp
  rcases ite_cases h with h | h
  · exact parseHGet_readFrom (guardArity_ok h).2
  rcases ite_cases h with h | h
  · obtain ⟨ha, hp⟩ := guardArity_ok h
    exact parseHDel_readFrom (of_decide_eq_false ha) hp
  rcases ite_cases h with h | h
  · exact parseJsonSet_readFrom (guardArity_ok h).2
  rcases ite_cases h with h | h
  · exact parseJsonGet_readFrom (guardArity_ok h).2
  rcases ite_cases h with h | h
  · exact parseZAdd_readFrom (guardArity_ok h).2
  rcases ite_cases h with h | h
  · obtain ⟨key, member, rest, -, rfl⟩ := parseKeyMember_ok (guardArity_ok h).2
    trivial
  rcases ite_cases h with h | h
  · obtain ⟨key, member, rest, -, rfl⟩ := parseKeyMember_ok (guardArity_ok h).2
    trivial
  rcases ite_cases h with h | h
  · exact parseZRange_readFrom (guardArity_ok h).2
  rcases ite_cases h with h | h
  · obtain ⟨key, member, rest, hi, rfl⟩ := parseKeyMember_ok (guardArity_ok h).2
    exact ⟨member.valid, rest, hi⟩
  rcases ite_cases h with h | h
  · exact parsePing_readFrom h
  rcases ite_cases h with h | h
  · cases h
    trivial
  rcases ite_cases h with h | h
  · cases h
    trivial
  rcases ite_cases h with h | h
  · exact parseEval_readFrom h
  · exact parseUnimplement_readFrom h

variable [Host]

/-- A command read from bytes, as every request is. -/
def Parsed (c : Command S) : Prop :=
  ∃ buf f n, FrameParser.parseFrame buf = .ok (some (f, n)) ∧ tryFrom f = .ok c

theorem Parsed.readFrom {c : Command S} (h : Parsed c) :
    ∃ iter, ReadFrom c iter ∧ FitsAll iter ∧ iter.length + 1 < 2 ^ 64 := by
  obtain ⟨buf, f, n, hp, ht⟩ := h
  have hfit := (parseFrame_ok hp).1
  unfold tryFrom at ht
  split at ht
  · cases ht
  · next start iter =>
      split at ht
      · cases ht
      · exact ⟨iter, dispatch_readFrom ht, hfit.2.2, by simpa using hfit.1⟩
  · cases ht
  · cases ht

end RustKv.RequestReading
