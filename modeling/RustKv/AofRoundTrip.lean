import RustKv.AofEncoder

namespace RustKv.AofRoundTrip

open Text Decimal Protocol Domain CommandParser AofEncoder FrameRoundTrip RequestReading

variable {S : Type} [F64 S]

/-- The frame of the record that a write command leaves in the log. -/
def aofFrame (now : Nat) : Command S → Option Frame
  | .set c => some (.array ([.bulk (ascii ['S', 'E', 'T']), .bulk c.key.bytes, .bulk c.value] ++
      match c.expiration with
      | none => []
      | some e => expirationFrames now e))
  | .mset c => some (.array (.bulk (ascii ['M', 'S', 'E', 'T']) :: pairFrames c.keysAndValues))
  | .lpush c => some (.array ([.bulk (ascii ['L', 'P', 'U', 'S', 'H']), .bulk c.key.bytes] ++
      c.values.map .bulk))
  | .lpop c => some (.array [.bulk (ascii ['L', 'P', 'O', 'P']), .bulk c.key.bytes])
  | .hset c => some (.array ([.bulk (ascii ['H', 'S', 'E', 'T']), .bulk c.key.bytes] ++
      pairFrames c.fieldValues))
  | .hdel c => some (.array ([.bulk (ascii ['H', 'D', 'E', 'L']), .bulk c.key.bytes] ++
      c.fields.map (fun f => .bulk f.bytes)))
  | .jsonSet c => some (.array [.bulk (ascii ['J', 'S', 'O', 'N', '.', 'S', 'E', 'T']),
      .bulk c.key.bytes, .bulk c.path.bytes, .bulk c.value.bytes])
  | .zadd c => some (.array [.bulk (ascii ['Z', 'A', 'D', 'D']), .bulk c.key.bytes,
      .bulk (F64.display c.score).bytes, .bulk c.member])
  | .zrem c => some (.array [.bulk (ascii ['Z', 'R', 'E', 'M']), .bulk c.key.bytes,
      .bulk c.member])
  | _ => none

theorem serializeAll_append (fs gs : List Frame) :
    serializeAll (fs ++ gs) = serializeAll fs ++ serializeAll gs := by
  simp [serializeAll_eq_flatMap]

theorem encodeHSet_eq (c : HSetCommand) :
    encodeHSet c = serialize (.array ([.bulk (ascii ['H', 'S', 'E', 'T']), .bulk c.key.bytes] ++
      pairFrames c.fieldValues)) := by
  have hp : serializeAll (pairFrames c.fieldValues) = c.fieldValues.flatMap (fun p =>
      header dollar p.1.len ++ p.1.bytes ++ crlf ++ (header dollar p.2.length ++ p.2 ++ crlf)) := by
    induction c.fieldValues with
    | nil => rfl
    | cons p ps ih =>
        rw [show pairFrames (p :: ps) = .bulk p.1.bytes :: .bulk p.2 :: pairFrames ps from rfl]
        simp [serializeAll, serialize, serializeBulk, ih, Str.len]
  have hl : ([Frame.bulk (ascii ['H', 'S', 'E', 'T']), .bulk c.key.bytes] ++
      pairFrames c.fieldValues).length = 2 + c.fieldValues.length * 2 := by
    simp only [List.length_append, pairFrames_length, List.length_cons, List.length_nil]
  have h4 : header dollar (ascii ['H', 'S', 'E', 'T']).length = ascii ['$', '4'] ++ crlf := by decide
  rw [serialize, hl, serializeAll_append, hp]
  simp only [encodeHSet, serializeAll, serialize, serializeBulk, h4, Str.len, List.append_assoc,
    List.append_nil]

theorem encodeHDel_eq (c : HDelCommand) :
    encodeHDel c = serialize (.array ([.bulk (ascii ['H', 'D', 'E', 'L']), .bulk c.key.bytes] ++
      c.fields.map (fun f => .bulk f.bytes))) := by
  have hp : serializeAll (c.fields.map (fun f => Frame.bulk f.bytes)) =
      c.fields.flatMap (fun f => header dollar f.len ++ f.bytes ++ crlf) := by
    induction c.fields with
    | nil => rfl
    | cons f fs ih => simp [serializeAll, serialize, serializeBulk, ih, Str.len]
  have hl : ([Frame.bulk (ascii ['H', 'D', 'E', 'L']), .bulk c.key.bytes] ++
      c.fields.map (fun f => Frame.bulk f.bytes)).length = 2 + c.fields.length := by
    simp only [List.length_append, List.length_map, List.length_cons, List.length_nil]
  have h4 : header dollar (ascii ['H', 'D', 'E', 'L']).length = ascii ['$', '4'] ++ crlf := by decide
  rw [serialize, hl, serializeAll_append, hp]
  simp only [encodeHDel, serializeAll, serialize, serializeBulk, h4, Str.len, List.append_assoc,
    List.append_nil]

theorem encodeInGroup_eq (now : Nat) (c : Command S) :
    encodeInGroup now c = ((aofFrame now c).map serialize).getD [] := by
  cases c with
  | hset c => simp [encodeInGroup, aofFrame, encodeHSet_eq]
  | hdel c => simp [encodeInGroup, aofFrame, encodeHDel_eq]
  | _ => rfl

/-- The expiration as the log states it, an absolute one. -/
def absoluteExpiration (now : Nat) : Expiration → Expiration
  | .ex s => .exat (u64 (now + u64 (s * 1000)))
  | .px ms => .pxat (u64 (now + ms))
  | .exat s => .exat s
  | .pxat ms => .pxat ms

/-- The command that replaying a record runs: a condition is gone, an expiration
is absolute. -/
def recorded (now : Nat) : Command S → Command S
  | .set c => .set { c with expiration := c.expiration.map (absoluteExpiration now), condition := none }
  | c => c

/-- What the record of a command needs to be read back: arguments where the
parser asks for one, members that are text, and a deadline in the range of i64. -/
def Loggable (now : Nat) : Command S → Prop
  | .set c => ∀ e, c.expiration = some e →
      0 < expirationAmount (absoluteExpiration now e) ∧
        expirationAmount (absoluteExpiration now e) < 2 ^ 63
  | .mset c => c.keysAndValues ≠ []
  | .lpush c => c.values ≠ []
  | .hset c => c.fieldValues ≠ []
  | .hdel c => c.fields ≠ []
  | .zadd c => utf8Error c.member = none
  | .zrem c => utf8Error c.member = none
  | _ => True

theorem extractBulkInteger_decimal {n : Nat} (hn : n < 2 ^ 63) :
    extractBulkInteger (some (.bulk (decimal n))) = .ok (n : Int) := by
  have hv : ∀ x ∈ decimal n, x < 0x80 := by
    intro x hx
    exact lt_of_le_of_lt (decimal_bounds n x hx).2 (by decide)
  have he : extractBulkString (some (.bulk (decimal n))) = .ok (Str.ofAscii (decimal n) hv) :=
    extractBulkString_iff.mpr rfl
  simp only [extractBulkInteger, he, bind, Except.bind, Str.ofAscii,
    parseI64_decimal (show n ≤ 2 ^ 63 - 1 by omega)]

theorem extractBulkInteger_overflow {n : Nat} (hn : 2 ^ 63 ≤ n) :
    ∃ e, extractBulkInteger (some (.bulk (decimal n))) = .error e := by
  have hv : ∀ x ∈ decimal n, x < 0x80 := by
    intro x hx
    exact lt_of_le_of_lt (decimal_bounds n x hx).2 (by decide)
  have he : extractBulkString (some (.bulk (decimal n))) = .ok (Str.ofAscii (decimal n) hv) :=
    extractBulkString_iff.mpr rfl
  obtain ⟨e, hp⟩ := parseI64_overflow hn
  simp only [extractBulkInteger, he, bind, Except.bind, Str.ofAscii, hp]
  exact ⟨_, rfl⟩

/-- A deadline of zero or beyond i64 is refused. -/
theorem parseSetOptions_refused (now : Nat) (e : Expiration)
    (h : ¬ (0 < expirationAmount (absoluteExpiration now e) ∧
      expirationAmount (absoluteExpiration now e) < 2 ^ 63)) :
    ∃ err, parseSetOptions (expirationFrames now e) none none = .error err := by
  have hx : expirationOption (ascii ['E', 'X', 'A', 'T']) = some ("EXAT", .exat) := by rfl
  have hp : expirationOption (ascii ['P', 'X', 'A', 'T']) = some ("PXAT", .pxat) := by rfl
  by_cases hlarge : 2 ^ 63 ≤ expirationAmount (absoluteExpiration now e)
  · obtain ⟨err, herr⟩ := extractBulkInteger_overflow hlarge
    refine ⟨err, ?_⟩
    cases e <;> simp only [absoluteExpiration, expirationAmount] at herr <;>
      simp only [expirationFrames, exchangeAbsoluteTime, parseSetOptions, hx, hp, herr, bind,
        Except.bind]
  · have hzero : expirationAmount (absoluteExpiration now e) = 0 := by omega
    have hint := extractBulkInteger_decimal (show 0 < 2 ^ 63 by decide)
    cases e <;> simp only [absoluteExpiration, expirationAmount] at hzero <;>
      simp only [expirationFrames, exchangeAbsoluteTime, parseSetOptions, hx, hp, hzero, hint, bind,
        Except.bind] <;>
      exact ⟨_, rfl⟩

theorem parseSetOptions_absolute (now : Nat) (e : Expiration)
    (h0 : 0 < expirationAmount (absoluteExpiration now e))
    (h : expirationAmount (absoluteExpiration now e) < 2 ^ 63) :
    parseSetOptions (expirationFrames now e) none none =
      .ok (some (absoluteExpiration now e), none) := by
  have hx : expirationOption (ascii ['E', 'X', 'A', 'T']) = some ("EXAT", .exat) := by rfl
  have hp : expirationOption (ascii ['P', 'X', 'A', 'T']) = some ("PXAT", .pxat) := by rfl
  have hpos (n : Nat) (hn : 0 < n) : ¬ ((n : Int) ≤ 0) := by omega
  cases e with
  | ex n | px n | exat n | pxat n =>
      simp only [absoluteExpiration, expirationAmount] at h0 h
      simp only [expirationFrames, exchangeAbsoluteTime, parseSetOptions, hx, hp,
        extractBulkInteger_decimal h, bind, Except.bind, hpos _ h0, if_false, Int.toNat_natCast,
        absoluteExpiration]

theorem fits_decimal {n : Nat} (hn : n < 2 ^ 64) : Fits (.bulk (decimal n)) := by
  have := decimal_length_le hn
  rw [Fits]
  omega

theorem expirationFrames_fit (now : Nat) (e : Expiration) (h : expirationAmount e < 2 ^ 64) :
    FitsAll (expirationFrames now e) ∧ (expirationFrames now e).length = 2 := by
  have hu (n : Nat) : u64 n < 2 ^ 64 := Nat.mod_lt _ (by decide)
  cases e with
  | ex n | px n => exact ⟨⟨by simp [Fits, ascii], fits_decimal (hu _), trivial⟩, rfl⟩
  | exat n | pxat n => exact ⟨⟨by simp [Fits, ascii], fits_decimal h, trivial⟩, rfl⟩

variable [Host]

theorem tryFrom_name (name : Bytes) (hn : ∀ b ∈ name, b < 0x80) (hu : name.map upperByte = name)
    (iter : List Frame) : tryFrom (S := S) (.array (.bulk name :: iter)) =
      dispatch (Str.ofAscii name hn) (iter.length + 1) iter := by
  have h8 : fromUtf8 name = .ok (Str.ofAscii name hn) := fromUtf8_bytes (Str.ofAscii name hn)
  have hs : Host.toUppercase (Str.ofAscii name hn) = Str.ofAscii name hn :=
    Str.ext ((Host.toUppercase_ascii (Str.ofAscii name hn) hn).trans hu)
  simp only [tryFrom, h8, hs]

/-- Reading a record back gives the recorded command. -/
theorem tryFrom_aofFrame {now : Nat} {c : Command S} {f : Frame} (hf : aofFrame now c = some f)
    (h : Loggable now c) : tryFrom f = .ok (recorded now c) := by
  cases c with
  | set c =>
      cases hf
      have ho : parseSetOptions (match c.expiration with
          | none => []
          | some e => expirationFrames now e) none none =
          .ok (c.expiration.map (absoluteExpiration now), none) := by
        cases he : c.expiration with
        | none => rfl
        | some e => exact parseSetOptions_absolute now e (h e he).1 (h e he).2
      rw [List.cons_append, tryFrom_name _ (by decide) (by decide)]
      simp +decide only [dispatch, ↓reduceIte]
      rw [guardArity_pass (by simp)]
      simp only [parseSet, List.cons_append, List.nil_append, List.head?_cons, List.tail_cons,
        extractBulkString_bytes, extractBulkBytes, ho, bind, Except.bind]
      rfl
  | mset c =>
      cases hf
      rw [tryFrom_name _ (by decide) (by decide)]
      simp +decide only [dispatch, ↓reduceIte]
      have hlen := pairFrames_length c.keysAndValues
      have hne : c.keysAndValues ≠ [] := h
      have hpos := List.length_pos_iff.mpr hne
      rw [guardArity_pass (by simp only [hlen, Bool.or_eq_false_iff, decide_eq_false_iff_not]; omega)]
      simp only [parseMSet, parsePairs_pairFrames, bind, Except.bind, List.isEmpty_iff, hne,
        if_false]
      rfl
  | lpush c =>
      cases hf
      rw [List.cons_append, tryFrom_name _ (by decide) (by decide)]
      simp +decide only [dispatch, ↓reduceIte]
      have hpos := List.length_pos_iff.mpr h
      rw [guardArity_pass (by simp; omega)]
      simp only [parseLPush, List.cons_append, List.nil_append, List.head?_cons, List.tail_cons,
        extractBulkString_bytes, extractAllBytes_iff.mpr rfl, bind, Except.bind]
      rfl
  | lpop c =>
      cases hf
      rw [tryFrom_name _ (by decide) (by decide)]
      simp +decide only [dispatch, ↓reduceIte]
      rw [guardArity_pass (by simp)]
      simp only [parseLPop, List.head?_cons, extractBulkString_bytes, bind, Except.bind]
      rfl
  | hset c =>
      cases hf
      rw [List.cons_append, tryFrom_name _ (by decide) (by decide)]
      simp +decide only [dispatch, ↓reduceIte]
      have hlen := pairFrames_length c.fieldValues
      have hpos := List.length_pos_iff.mpr h
      rw [guardArity_pass (by
        simp only [List.length_cons, List.cons_append, List.nil_append, hlen, Bool.or_eq_false_iff,
          decide_eq_false_iff_not]
        omega)]
      simp only [parseHSet, List.cons_append, List.nil_append, List.head?_cons, List.tail_cons,
        extractBulkString_bytes, (parseFieldValues_iff _ _).mpr rfl, bind, Except.bind]
      rfl
  | hdel c =>
      cases hf
      rw [List.cons_append, tryFrom_name _ (by decide) (by decide)]
      simp +decide only [dispatch, ↓reduceIte]
      have hpos := List.length_pos_iff.mpr h
      rw [guardArity_pass (by simp; omega)]
      simp only [parseHDel, List.cons_append, List.nil_append, List.head?_cons, List.tail_cons,
        extractBulkString_bytes, extractAllStrings_iff.mpr rfl, bind, Except.bind]
      rfl
  | jsonSet c =>
      cases hf
      rw [tryFrom_name _ (by decide) (by decide)]
      simp +decide only [dispatch, ↓reduceIte]
      rw [guardArity_pass (by simp)]
      simp only [parseJsonSet, List.head?_cons, List.tail_cons, requiredString_bytes, bind,
        Except.bind]
      rfl
  | zadd c =>
      cases hf
      rw [tryFrom_name _ (by decide) (by decide)]
      simp +decide only [dispatch, ↓reduceIte]
      rw [guardArity_pass (by simp)]
      have hm := requiredString_bytes ⟨c.member, h⟩ "ZADD missing member"
      simp only [parseZAdd, List.head?_cons, List.tail_cons, requiredString_bytes, bind,
        Except.bind, F64.parse_display, hm]
      rfl
  | zrem c =>
      cases hf
      rw [tryFrom_name _ (by decide) (by decide)]
      simp +decide only [dispatch, ↓reduceIte]
      rw [guardArity_pass (by simp)]
      have hm := requiredString_bytes ⟨c.member, h⟩ ("ZREM" ++ " missing member")
      simp only [parseZRem, parseKeyMember, List.head?_cons, List.tail_cons, requiredString_bytes,
        bind, Except.bind, hm]
      rfl
  | get | ping | unimplement | eval | blpop | hget | mget | multi | exec | multiGroup | jsonGet
  | zscore | zrank | zrange => cases hf

omit [Host] in
theorem pairFrames_bulk (ps : List (Str × Bytes)) : ∀ f ∈ pairFrames ps, ∃ data, f = .bulk data := by
  intro f hf
  obtain ⟨p, -, hf⟩ := List.mem_flatMap.mp hf
  simp only [List.mem_cons, List.not_mem_nil, or_false] at hf
  rcases hf with rfl | rfl
  · exact ⟨_, rfl⟩
  · exact ⟨_, rfl⟩

omit [Host] in
theorem aofFrame_fits {now : Nat} {c : Command S} {iter : List Frame} {f : Frame}
    (hr : ReadFrom c iter) (hfit : ∀ data, .bulk data ∈ iter → Fits (.bulk data))
    (hlen : iter.length + 1 < 2 ^ 64) (hf : aofFrame now c = some f) : Fits f := by
  have hname (name : Bytes) (h : name.length < 9) : Fits (.bulk name) := by
    rw [Fits]
    omega
  have hall (gs : List Frame) (hsub : gs ⊆ iter) (hbulk : ∀ g ∈ gs, ∃ data, g = .bulk data) :
      FitsAll gs := by
    rw [fitsAll_iff]
    intro g hg
    obtain ⟨data, rfl⟩ := hbulk g hg
    exact hfit data (hsub hg)
  cases c with
  | set c =>
      obtain ⟨⟨rest, rfl⟩, he⟩ := hr
      cases hf
      have h1 := hfit c.key.bytes (by simp)
      have h2 := hfit c.value (by simp)
      cases hexp : c.expiration with
      | none => exact ⟨by simp, hname _ (by decide), h1, h2, trivial⟩
      | some e =>
          obtain ⟨hoption, htwo⟩ := expirationFrames_fit now e (by have := (he e hexp).2; omega)
          exact ⟨by simp [htwo], hname _ (by decide), h1, h2, hoption⟩
  | mset c =>
      cases hf
      refine ⟨?_, hname _ (by decide), ?_⟩
      · have := hr.1.length_le
        simp only [List.length_cons]
        omega
      · exact hall _ hr.1.subset (pairFrames_bulk c.keysAndValues)
  | lpush c | hdel c =>
      cases hf
      obtain ⟨rfl, -⟩ := hr
      exact ⟨by simpa using hlen, hname _ (by decide), hall _ (List.Subset.refl _) (by simp)⟩
  | hset c =>
      cases hf
      obtain ⟨rfl, -⟩ := hr
      exact ⟨by simpa using hlen, hname _ (by decide), hall _ (List.Subset.refl _)
        (by simpa using pairFrames_bulk c.fieldValues)⟩
  | lpop c =>
      cases hf
      obtain ⟨rest, rfl⟩ := hr
      exact ⟨by simp, hname _ (by decide), hfit _ (by simp), trivial⟩
  | jsonSet c =>
      cases hf
      obtain ⟨rest, rfl⟩ := hr
      exact ⟨by simp, hname _ (by decide), hfit _ (by simp), hfit _ (by simp), hfit _ (by simp),
        trivial⟩
  | zadd c =>
      cases hf
      obtain ⟨-, text, rest, rfl⟩ := hr
      have hs : Fits (.bulk (F64.display c.score).bytes) := by
        have := F64.display_length c.score
        rw [Fits]
        omega
      exact ⟨by simp, hname _ (by decide), hfit _ (by simp), hs, hfit _ (by simp), trivial⟩
  | zrem c =>
      cases hf
      obtain ⟨-, rest, rfl⟩ := hr
      exact ⟨by simp, hname _ (by decide), hfit _ (by simp), hfit _ (by simp), trivial⟩
  | get | ping | unimplement | eval | blpop | hget | mget | multi | exec | multiGroup | jsonGet
  | zscore | zrank | zrange => cases hf

theorem Parsed.fits {now : Nat} {c : Command S} (h : Parsed c) {f : Frame}
    (hf : aofFrame now c = some f) : Fits f := by
  obtain ⟨iter, hr, hfit, hlen⟩ := h.readFrom
  exact aofFrame_fits hr (fun data => (fitsAll_iff iter).mp hfit (.bulk data)) hlen hf

omit [F64 S] [Host] in
theorem loggable_of_readFrom {now : Nat} {c : Command S} {iter : List Frame} (hr : ReadFrom c iter)
    (hset : ∀ d, c = .set d → d.expiration = none) : Loggable now c := by
  cases c with
  | set d => intro e he; rw [hset d rfl] at he; cases he
  | mset | lpush | hset | hdel => exact hr.2
  | zadd | zrem => exact hr.1
  | lpop | jsonSet | get | ping | unimplement | eval | blpop | hget | mget | multi | exec
  | multiGroup | jsonGet | zscore | zrank | zrange => trivial

theorem Parsed.loggable {now : Nat} {c : Command S} (h : Parsed c)
    (hset : ∀ d, c = .set d → d.expiration = none) : Loggable now c := by
  obtain ⟨iter, hr, -, -⟩ := h.readFrom
  exact loggable_of_readFrom hr hset

/-- A record is read back as the recorded command or not at all. -/
theorem Parsed.unreadable {now : Nat} {c : Command S} (h : Parsed c) {f : Frame}
    (hf : aofFrame now c = some f) (hl : ¬ Loggable now c) : ∃ e, tryFrom (S := S) f = .error e := by
  cases c with
  | set d =>
      cases hf
      cases he : d.expiration with
      | none => exact absurd (fun e h => by rw [he] at h; cases h) hl
      | some e =>
          obtain ⟨err, herr⟩ := parseSetOptions_refused now e (fun hb => hl (fun e' he' => by
            rw [he] at he'
            cases he'
            exact hb))
          refine ⟨err, ?_⟩
          rw [List.cons_append, tryFrom_name _ (by decide) (by decide)]
          simp +decide only [dispatch, ↓reduceIte]
          rw [guardArity_pass (by simp)]
          simp only [parseSet, List.cons_append, List.nil_append, List.head?_cons, List.tail_cons,
            extractBulkString_bytes, extractBulkBytes, herr, bind, Except.bind]
  | mset | lpush | hset | hdel | zadd | zrem =>
      exact absurd (Parsed.loggable h (fun d hd => by cases hd)) hl
  | lpop | jsonSet => exact absurd trivial hl
  | get | ping | unimplement | eval | blpop | hget | mget | multi | exec | multiGroup | jsonGet
  | zscore | zrank | zrange => cases hf

end RustKv.AofRoundTrip
