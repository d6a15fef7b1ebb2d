import RustKv.FrameRoundTrip

namespace RustKv.FrameGrammar

open Text Decimal Protocol FrameParser FrameRoundTrip

def IsDigit (b : UInt8) : Prop := 48 ≤ b ∧ b ≤ 57

def digitsValue (acc : Nat) (ds : Bytes) : Nat := ds.foldl (fun acc d => acc * 10 + (d.toNat - 48)) acc

/-- A length: an optional plus sign and one or more digits, with a value below
2^64. -/
def Len (l : Bytes) (n : Nat) : Prop :=
  ∃ ds, (l = ds ∨ l = 43 :: ds) ∧ ds ≠ [] ∧ (∀ d ∈ ds, IsDigit d) ∧ digitsValue 0 ds = n ∧ n < 2 ^ 64

mutual

/-- The grammar of a frame: the bytes that denote it. -/
inductive Derives : Frame → Bytes → Prop
  | bulk {l data : Bytes} (hl : Len l data.length) (hb : data.length + 2 < 2 ^ 64) :
      Derives (.bulk data) (dollar :: l ++ crlf ++ (data ++ crlf))
  | array {l bs : Bytes} {fs : List Frame} (hl : Len l fs.length) (h : DerivesAll fs bs) :
      Derives (.array fs) (star :: l ++ crlf ++ bs)

inductive DerivesAll : List Frame → Bytes → Prop
  | nil : DerivesAll [] []
  | cons {f : Frame} {fs : List Frame} {bs cs : Bytes} (hf : Derives f bs) (h : DerivesAll fs cs) :
      DerivesAll (f :: fs) (bs ++ cs)

end

theorem digitValue_eq {b : UInt8} {d : Nat} :
    digitValue b = some d ↔ IsDigit b ∧ d = b.toNat - 48 := by
  unfold digitValue IsDigit
  by_cases h : 48 ≤ b ∧ b ≤ 57
  · simp [h, eq_comm]
  · simp only [Bool.and_eq_true, decide_eq_true_eq, h, if_false, false_and, reduceCtorEq]

theorem le_digitsValue (acc : Nat) (ds : Bytes) : acc ≤ digitsValue acc ds := by
  induction ds generalizing acc with
  | nil => exact le_refl acc
  | cons d ds ih =>
      have := ih (acc * 10 + (d.toNat - 48))
      simp only [digitsValue, List.foldl_cons] at this ⊢
      omega

theorem parseDigits_iff (limit : Nat) (e : IntErrorKind) (acc : Nat) (ds : Bytes) (n : Nat)
    (ha : acc ≤ limit) :
    parseDigits limit e acc ds = .ok n ↔ (∀ d ∈ ds, IsDigit d) ∧ digitsValue acc ds = n ∧ n ≤ limit := by
  induction ds generalizing acc with
  | nil =>
      simp only [parseDigits, Except.ok.injEq, List.not_mem_nil, false_implies, implies_true,
        digitsValue, List.foldl_nil, true_and]
      constructor
      · rintro rfl
        exact ⟨rfl, ha⟩
      · exact And.left
  | cons d ds ih =>
      rw [parseDigits]
      cases hd : digitValue d with
      | none =>
          have hn : ¬ IsDigit d := by
            intro h
            rw [digitValue_eq.mpr ⟨h, rfl⟩] at hd
            cases hd
          simp [hn]
      | some v =>
          obtain ⟨hdig, rfl⟩ := digitValue_eq.mp hd
          have hv : digitsValue acc (d :: ds) = digitsValue (acc * 10 + (d.toNat - 48)) ds := rfl
          simp only [List.mem_cons, forall_eq_or_imp, hdig, true_and, hv]
          split
          · next hle => exact ih _ hle
          · next hgt =>
              have := le_digitsValue (acc * 10 + (d.toNat - 48)) ds
              simp only [reduceCtorEq, false_iff, not_and]
              rintro _ rfl
              omega

theorem not_isDigit_plus : ¬ IsDigit 43 := by
  unfold IsDigit
  decide

theorem not_isDigit_minus : ¬ IsDigit 45 := by
  unfold IsDigit
  decide

theorem parseUnsigned_iff (limit : Nat) (l : Bytes) (n : Nat) :
    parseUnsigned limit l = .ok n ↔
      ∃ ds, (l = ds ∨ l = 43 :: ds) ∧ ds ≠ [] ∧ (∀ d ∈ ds, IsDigit d) ∧ digitsValue 0 ds = n ∧
        n ≤ limit := by
  have hp := fun ds => parseDigits_iff limit .posOverflow 0 ds n (Nat.zero_le limit)
  match l with
  | [] => simp [parseUnsigned]
  | [b] =>
      rw [parseUnsigned]
      split
      · next hs =>
          simp only [reduceCtorEq, false_iff, not_exists]
          rintro ds ⟨rfl | he, hne, hd, -⟩
          · rcases Bool.or_eq_true_iff.mp hs with hs | hs
            · exact not_isDigit_plus (by simpa [of_decide_eq_true hs] using hd)
            · exact not_isDigit_minus (by simpa [of_decide_eq_true hs] using hd)
          · simp only [List.cons.injEq] at he
            exact hne he.2.symm
      · next hs =>
          rw [hp]
          constructor
          · intro h
            exact ⟨[b], .inl rfl, by simp, h⟩
          · rintro ⟨ds, rfl | he, hne, h⟩
            · exact h
            · simp only [List.cons.injEq] at he
              exact absurd he.2.symm hne
  | b :: c :: bs =>
      rw [parseUnsigned]
      · split
        · next hb =>
            rw [hp]
            constructor
            · intro h
              exact ⟨c :: bs, .inr (by rw [hb]), by simp, h⟩
            · rintro ⟨ds, rfl | he, hne, h⟩
              · exact absurd (h.1 b (by simp)) (hb ▸ not_isDigit_plus)
              · simp only [List.cons.injEq] at he
                rw [he.2]
                exact h
        · next hb =>
            rw [hp]
            constructor
            · intro h
              exact ⟨b :: c :: bs, .inl rfl, by simp, h⟩
            · rintro ⟨ds, rfl | he, hne, h⟩
              · exact h
              · simp only [List.cons.injEq] at he
                exact absurd he.1 hb
      · simp

theorem Len.ascii {l : Bytes} {n : Nat} (h : Len l n) : ∀ x ∈ l, x < 0x80 := by
  obtain ⟨ds, hl, -, hd, -⟩ := h
  have hdig : ∀ x ∈ ds, x < 0x80 := fun x hx => lt_of_le_of_lt (hd x hx).2 (by decide)
  rcases hl with rfl | rfl
  · exact hdig
  · intro x hx
    rcases List.mem_cons.mp hx with rfl | hx
    · decide
    · exact hdig x hx

theorem Len.no_cr {l : Bytes} {n : Nat} (h : Len l n) : CR ∉ l := by
  obtain ⟨ds, hl, -, hd, -⟩ := h
  have hdig : CR ∉ ds := fun hx => absurd (hd CR hx).1 (by decide)
  rcases hl with rfl | rfl
  · exact hdig
  · simp only [List.mem_cons, not_or]
    exact ⟨by decide, hdig⟩

theorem parseUsize_iff (l : Bytes) (n : Nat) : parseUsize l = .ok n ↔ Len l n := by
  rw [parseUsize, parseUnsigned_iff, Len]
  have hlim : n ≤ 2 ^ 64 - 1 ↔ n < 2 ^ 64 := by omega
  simp only [hlim]

theorem parseDecimal_iff (l : Bytes) (n : Nat) : parseDecimal l = .ok n ↔ Len l n := by
  constructor
  · intro h
    rw [parseDecimal] at h
    cases hs : fromUtf8 l with
    | error e => simp [hs] at h
    | ok s =>
        cases hp : parseUsize s.bytes with
        | error e => simp [hs, hp] at h
        | ok m =>
            simp only [hs, hp, Except.ok.injEq] at h
            rw [fromUtf8_ok hs, h] at hp
            exact (parseUsize_iff l n).mp hp
  · intro h
    have hs : fromUtf8 l = .ok (Str.ofAscii l h.ascii) := fromUtf8_bytes (Str.ofAscii l h.ascii)
    simp only [parseDecimal, hs, Str.ofAscii, (parseUsize_iff l n).mpr h]

theorem readLine_eq {cursor line rest : Bytes} (h : readLineFromCursor cursor = some (line, rest)) :
    cursor = line ++ crlf ++ rest := by
  have hpos : ∀ (b : Bytes) (pos : Nat), findCrlf b = some pos →
      b = b.take pos ++ crlf ++ b.drop (pos + 2) := by
    intro b
    induction b with
    | nil => intro pos hf; simp [findCrlf] at hf
    | cons a b ih =>
        intro pos hf
        cases b with
        | nil => simp [findCrlf] at hf
        | cons c b =>
            rw [findCrlf] at hf
            split at hf
            · next hc =>
                simp only [Bool.and_eq_true, decide_eq_true_eq] at hc
                cases hf
                simp [crlf, hc.1, hc.2]
            · obtain ⟨q, hq, rfl⟩ := Option.map_eq_some_iff.mp hf
              have hi := ih q hq
              simp only [List.take_succ_cons, List.cons_append]
              rw [show q + 1 + 2 = (q + 2) + 1 from rfl, List.drop_succ_cons, ← hi]
  obtain ⟨pos, hf, he⟩ := Option.map_eq_some_iff.mp h
  cases he
  exact hpos cursor pos hf

theorem findCrlf_more {b : Bytes} {pos : Nat} (h : findCrlf b = some pos) (r : Bytes) :
    findCrlf (b ++ r) = some pos := by
  induction b generalizing pos with
  | nil => simp [findCrlf] at h
  | cons a b ih =>
      cases b with
      | nil => simp [findCrlf] at h
      | cons c b =>
          simp only [List.cons_append, findCrlf] at h ih ⊢
          split at h
          · next hc => rw [if_pos hc, h]
          · next hc =>
              obtain ⟨q, hq, rfl⟩ := Option.map_eq_some_iff.mp h
              rw [if_neg hc, ih hq]
              rfl

theorem readLine_more {cursor line rest : Bytes}
    (h : readLineFromCursor cursor = some (line, rest)) (r : Bytes) :
    readLineFromCursor (cursor ++ r) = some (line, rest ++ r) := by
  have hlen := readLine_some h
  obtain ⟨pos, hf, he⟩ := Option.map_eq_some_iff.mp h
  have hpos : pos + 2 ≤ cursor.length := by
    have heq := congrArg List.length (readLine_eq h)
    cases he
    simp only [List.length_append, List.length_take, List.length_drop, crlf, List.length_cons,
      List.length_nil] at heq
    omega
  cases he
  rw [readLineFromCursor, findCrlf_more hf, Option.map_some, List.take_append_of_le_length (by omega),
    List.drop_append_of_le_length hpos]

theorem readLine_derived {tag : UInt8} (ht : tag ≠ CR) {l : Bytes} {n : Nat} (hl : Len l n)
    (rest : Bytes) : readLineFromCursor (tag :: l ++ crlf ++ rest) = some (tag :: l, rest) := by
  have hcr : CR ∉ tag :: l := by
    simp only [List.mem_cons, not_or]
    exact ⟨Ne.symm ht, hl.no_cr⟩
  have h := findCrlf_append (tag :: l) rest hcr
  simp only [readLineFromCursor, h, Option.map_some, Option.some.injEq, Prod.mk.injEq]
  constructor
  · simp [List.append_assoc]
  · rw [List.drop_append_of_le_length (by simp [crlf])]
    simp [crlf]

theorem readLine_tag {tag : UInt8} (ht : tag ≠ CR) (bs : Bytes) :
    readLineFromCursor (tag :: bs) = none ∨
      ∃ number rest, readLineFromCursor (tag :: bs) = some (tag :: number, rest) := by
  cases hl : readLineFromCursor (tag :: bs) with
  | none => exact .inl rfl
  | some p =>
      obtain ⟨line, rest⟩ := p
      have he := readLine_eq hl
      cases line with
      | nil => exact absurd (List.cons.inj he).1 ht
      | cons x number =>
          obtain ⟨rfl, -⟩ := List.cons.inj he
          exact .inr ⟨number, rest, rfl⟩

/-- What is left of the bulk parser once the length is known. -/
def bulkBody (n : Nat) (rest : Bytes) : Except KvError (Option (Frame × Bytes)) :=
  if 2 ^ 64 ≤ n + 2 then .error (.protocolError "批量字符串长度溢出")
  else if rest.length < n + 2 then .ok none
  else if (rest.drop n).take 2 ≠ crlf then .error (.protocolError "批量字符串结尾缺少 \\r\\n")
  else .ok (some (.bulk (rest.take n), rest.drop (n + 2)))

theorem parseBulk_header {cursor number rest : Bytes}
    (h : readLineFromCursor cursor = some (dollar :: number, rest)) :
    parseBulkStringFromCursor cursor = (parseDecimal number >>= fun n => bulkBody n rest) := by
  simp [parseBulkStringFromCursor, h, bulkBody]

theorem parseArray_header (child : Bytes → Except KvError (Option (Frame × Bytes)))
    {cursor number rest : Bytes} (h : readLineFromCursor cursor = some (star :: number, rest)) :
    parseArrayFromCursor child cursor = (parseDecimal number >>= fun n =>
      (parseElements child n rest).map (Option.map (fun p => (.array p.1, p.2)))) := by
  simp only [parseArrayFromCursor, h, ne_eq, not_true_eq_false, if_false]
  cases parseDecimal number with
  | error e => rfl
  | ok n =>
      simp only [bind, Except.bind]
      rcases parseElements child n rest with e | _ | ⟨fs, tail⟩ <;> rfl

theorem bulkBody_derived (data rest : Bytes) (hb : data.length + 2 < 2 ^ 64) :
    bulkBody data.length (data ++ crlf ++ rest) = .ok (some (.bulk data, rest)) := by
  have hdrop : (data ++ crlf ++ rest).drop data.length = crlf ++ rest := by simp
  have hdrop' : (data ++ crlf ++ rest).drop (data.length + 2) = rest := by
    rw [← List.drop_drop, hdrop]
    simp [crlf]
  rw [bulkBody, if_neg (by omega), if_neg (by simp [crlf]), hdrop, hdrop', if_neg (by simp [crlf])]
  simp

theorem bulkBody_ok {n : Nat} {rest tail : Bytes} {f : Frame}
    (h : bulkBody n rest = .ok (some (f, tail))) :
    ∃ data, f = .bulk data ∧ data.length = n ∧ n + 2 < 2 ^ 64 ∧ rest = data ++ crlf ++ tail := by
  unfold bulkBody at h
  split at h
  · cases h
  · next hlt =>
      split at h
      · cases h
      · next hlen =>
          split at h
          · cases h
          · next hcr =>
              cases h
              refine ⟨rest.take n, rfl, ?_, by omega, ?_⟩
              · rw [List.length_take]
                omega
              · have h2 : (rest.drop n).take 2 = crlf := not_not.mp hcr
                rw [← List.drop_drop, ← h2, List.append_assoc, List.take_append_drop,
                  List.take_append_drop]

/-- The outcome of the same call with more bytes behind the cursor. -/
def more {α : Type} (r : Bytes) (x : Except KvError (Option (α × Bytes))) :
    Except KvError (Option (α × Bytes)) :=
  x.map (Option.map (fun p => (p.1, p.2 ++ r)))

theorem bulkBody_more {n : Nat} {rest : Bytes} (h : bulkBody n rest ≠ .ok none) (r : Bytes) :
    bulkBody n (rest ++ r) = more r (bulkBody n rest) := by
  unfold bulkBody at h ⊢
  by_cases h1 : 2 ^ 64 ≤ n + 2
  · simp only [h1, if_true]
    rfl
  · by_cases h2 : rest.length < n + 2
    · rw [if_neg h1, if_pos h2] at h
      exact absurd rfl h
    · have h3 : (rest ++ r).drop n = rest.drop n ++ r := List.drop_append_of_le_length (by omega)
      have h4 : ((rest ++ r).drop n).take 2 = (rest.drop n).take 2 := by
        rw [h3]
        exact List.take_append_of_le_length (by rw [List.length_drop]; omega)
      have h5 : (rest ++ r).take n = rest.take n := List.take_append_of_le_length (by omega)
      have h6 : (rest ++ r).drop (n + 2) = rest.drop (n + 2) ++ r :=
        List.drop_append_of_le_length (by omega)
      have h7 : ¬ (rest ++ r).length < n + 2 := by
        rw [List.length_append]
        omega
      simp only [h1, h2, h7, h4, h5, h6, if_false]
      split <;> rfl

theorem parseElements_more {child child' : Bytes → Except KvError (Option (Frame × Bytes))} {r : Bytes}
    (hc : ∀ c, child c ≠ .ok none → child' (c ++ r) = more r (child c)) (n : Nat) (cursor : Bytes)
    (h : parseElements child n cursor ≠ .ok none) :
    parseElements child' n (cursor ++ r) = more r (parseElements child n cursor) := by
  induction n generalizing cursor with
  | zero => rfl
  | succ n ih =>
      rw [parseElements] at h ⊢
      have hf := hc cursor
      rw [parseElements]
      rcases hx : child cursor with e | _ | ⟨f, rest⟩
      · rw [hx] at hf
        rw [hf (by simp)]
        rfl
      · simp [hx] at h
      · rw [hx] at hf h
        rw [hf (by simp)]
        have ht := ih rest
        rcases hy : parseElements child n rest with e | _ | ⟨fs, rest'⟩
        · rw [hy] at ht
          simp [more, Except.map, ht (by simp), hy]
        · simp [hy] at h
        · rw [hy] at ht
          simp [more, Except.map, ht (by simp), hy]

theorem dollar_ne_star : dollar ≠ star := by decide

/-- A verdict, accepting or not, does not change when more bytes follow. -/
theorem parseFrameFromCursor_more (fuel fuel' : Nat) (hfuel : fuel ≤ fuel') (cursor r : Bytes)
    (h : parseFrameFromCursor fuel cursor ≠ .ok none) :
    parseFrameFromCursor fuel' (cursor ++ r) = more r (parseFrameFromCursor fuel cursor) := by
  induction fuel generalizing fuel' cursor with
  | zero => exact absurd rfl h
  | succ fuel ih =>
      obtain ⟨k, rfl⟩ := Nat.exists_eq_add_of_le' (show 1 ≤ fuel' by omega)
      cases cursor with
      | nil => exact absurd rfl h
      | cons b bs =>
          rw [List.cons_append, parseFrameFromCursor]
          rw [parseFrameFromCursor] at h ⊢
          by_cases hs : b = star
          · simp only [hs, if_true] at h ⊢
            rcases readLine_tag star_ne_cr bs with hl | ⟨number, rest, hl⟩
            · simp [parseArrayFromCursor, hl] at h
            · have hl' := readLine_more hl r
              rw [List.cons_append] at hl'
              rw [parseArray_header _ hl, parseArray_header _ hl']
              rw [parseArray_header _ hl] at h
              cases hd : parseDecimal number with
              | error e => rfl
              | ok n =>
                  simp only [hd, bind, Except.bind] at h ⊢
                  have hne : parseElements (parseFrameFromCursor fuel) n rest ≠ .ok none := by
                    intro he
                    rw [he] at h
                    exact h rfl
                  rw [parseElements_more (fun c hc => ih k (by omega) c hc) n rest hne]
                  rcases parseElements (parseFrameFromCursor fuel) n rest with e | _ | ⟨fs, tail⟩ <;> rfl
          · by_cases hd : b = dollar
            · simp only [hd, dollar_ne_star, if_false, if_true] at h ⊢
              rcases readLine_tag dollar_ne_cr bs with hl | ⟨number, rest, hl⟩
              · simp [parseBulkStringFromCursor, hl] at h
              · have hl' := readLine_more hl r
                rw [List.cons_append] at hl'
                rw [parseBulk_header hl, parseBulk_header hl']
                rw [parseBulk_header hl] at h
                cases hd : parseDecimal number with
                | error e => rfl
                | ok n =>
                    simp only [hd, bind, Except.bind] at h ⊢
                    exact bulkBody_more h r
            · simp only [hs, hd, if_false]
              rfl

theorem parseElements_sound {child : Bytes → Except KvError (Option (Frame × Bytes))}
    (hc : ∀ c f rest, child c = .ok (some (f, rest)) → ∃ bs, c = bs ++ rest ∧ Derives f bs)
    (n : Nat) (cursor rest : Bytes) (fs : List Frame)
    (h : parseElements child n cursor = .ok (some (fs, rest))) :
    ∃ bs, cursor = bs ++ rest ∧ fs.length = n ∧ DerivesAll fs bs := by
  induction n generalizing cursor fs with
  | zero =>
      simp only [parseElements, Except.ok.injEq, Option.some.injEq, Prod.mk.injEq] at h
      obtain ⟨rfl, rfl⟩ := h
      exact ⟨[], rfl, rfl, .nil⟩
  | succ n ih =>
      rw [parseElements] at h
      rcases hx : child cursor with e | _ | ⟨f, mid⟩
      · simp [hx] at h
      · simp [hx] at h
      · rcases hy : parseElements child n mid with e | _ | ⟨gs, tail⟩
        · simp [hx, hy] at h
        · simp [hx, hy] at h
        · simp only [hx, hy, Except.ok.injEq, Option.some.injEq, Prod.mk.injEq] at h
          obtain ⟨rfl, rfl⟩ := h
          obtain ⟨bs, rfl, hf⟩ := hc cursor f mid hx
          obtain ⟨cs, rfl, rfl, hg⟩ := ih mid gs hy
          exact ⟨bs ++ cs, by rw [List.append_assoc], rfl, .cons hf hg⟩

theorem parseFrameFromCursor_sound (fuel : Nat) (cursor rest : Bytes) (f : Frame)
    (h : parseFrameFromCursor fuel cursor = .ok (some (f, rest))) :
    ∃ bs, cursor = bs ++ rest ∧ Derives f bs := by
  induction fuel generalizing cursor rest f with
  | zero => simp [parseFrameFromCursor] at h
  | succ fuel ih =>
      cases cursor with
      | nil => simp [parseFrameFromCursor] at h
      | cons b bs =>
          rw [parseFrameFromCursor] at h
          by_cases hs : b = star
          · simp only [hs, if_true] at h ⊢
            rcases readLine_tag star_ne_cr bs with hl | ⟨number, tail, hl⟩
            · simp [parseArrayFromCursor, hl] at h
            · rw [parseArray_header _ hl] at h
              cases hd : parseDecimal number with
              | error e => simp [hd, bind, Except.bind] at h
              | ok n =>
                  simp only [hd, bind, Except.bind] at h
                  rcases he : parseElements (parseFrameFromCursor fuel) n tail with e | _ | ⟨fs, tail'⟩
                  · simp [he, Except.map] at h
                  · simp [he, Except.map] at h
                  · simp only [he, Except.map, Option.map_some, Except.ok.injEq, Option.some.injEq,
                      Prod.mk.injEq] at h
                    obtain ⟨rfl, rfl⟩ := h
                    obtain ⟨cs, rfl, hn, hcs⟩ := parseElements_sound
                      (fun c g r hg => ih c r g hg) n tail tail' fs he
                    refine ⟨star :: number ++ crlf ++ cs, ?_, .array ?_ hcs⟩
                    · rw [readLine_eq hl]
                      simp
                    · rw [hn]
                      exact (parseDecimal_iff number n).mp hd
          · by_cases hd : b = dollar
            · simp only [hd, dollar_ne_star, if_false, if_true] at h ⊢
              rcases readLine_tag dollar_ne_cr bs with hl | ⟨number, tail, hl⟩
              · simp [parseBulkStringFromCursor, hl] at h
              · rw [parseBulk_header hl] at h
                cases hd : parseDecimal number with
                | error e => simp [hd, bind, Except.bind] at h
                | ok n =>
                    simp only [hd, bind, Except.bind] at h
                    obtain ⟨data, rfl, rfl, hb, rfl⟩ := bulkBody_ok h
                    refine ⟨dollar :: number ++ crlf ++ (data ++ crlf), ?_,
                      .bulk ((parseDecimal_iff number _).mp hd) hb⟩
                    rw [readLine_eq hl]
                    simp
            · simp [hs, hd] at h

mutual

theorem parseFrameFromCursor_complete : ∀ {f : Frame} {bs : Bytes}, Derives f bs →
    ∀ (fuel : Nat) (rest : Bytes), bs.length ≤ fuel →
      parseFrameFromCursor fuel (bs ++ rest) = .ok (some (f, rest))
  | _, _, .bulk hl hb, 0, rest, hf => by simp at hf
  | _, _, @Derives.bulk l data hl hb, fuel + 1, rest, hf => by
      have hr := readLine_derived dollar_ne_cr hl (data ++ crlf ++ rest)
      simp only [List.cons_append, List.append_assoc] at hr ⊢
      rw [parseFrameFromCursor, if_neg dollar_ne_star, if_pos rfl, parseBulk_header hr,
        (parseDecimal_iff l data.length).mpr hl]
      have hbody := bulkBody_derived data rest hb
      rw [List.append_assoc] at hbody
      simp only [bind, Except.bind, hbody]
  | _, _, .array hl h, 0, rest, hf => by simp at hf
  | _, _, @Derives.array l bs fs hl h, fuel + 1, rest, hf => by
      have hr := readLine_derived star_ne_cr hl (bs ++ rest)
      have hlen : bs.length ≤ fuel := by
        simp only [List.cons_append, List.length_cons, List.length_append] at hf
        omega
      simp only [List.cons_append, List.append_assoc] at hr ⊢
      rw [parseFrameFromCursor, if_pos rfl, parseArray_header _ hr,
        (parseDecimal_iff l fs.length).mpr hl]
      simp only [bind, Except.bind, parseElements_complete h fuel rest hlen, Except.map,
        Option.map_some]

theorem parseElements_complete : ∀ {fs : List Frame} {bs : Bytes}, DerivesAll fs bs →
    ∀ (fuel : Nat) (rest : Bytes), bs.length ≤ fuel →
      parseElements (parseFrameFromCursor fuel) fs.length (bs ++ rest) = .ok (some (fs, rest))
  | _, _, .nil, fuel, rest, _ => rfl
  | _, _, @DerivesAll.cons _ _ bs cs hf h, fuel, rest, hl => by
      rw [List.length_append] at hl
      have hx := parseFrameFromCursor_complete hf fuel (cs ++ rest) (by omega)
      have hy := parseElements_complete h fuel rest (by omega)
      simp only [List.length_cons, List.append_assoc, parseElements, hx, hy]

end

mutual

/-- The calls of the recursive parser as they are made, with no bound on their
number: a derivation is a run that comes to its end. -/
inductive Returns : Bytes → Except KvError (Option (Frame × Bytes)) → Prop
  | exhausted : Returns [] (.ok none)
  | badTag {b : UInt8} {bs : Bytes} (hs : b ≠ star) (hd : b ≠ dollar) :
      Returns (b :: bs) (.error (.protocolError "无效的 Frame 类型前缀"))
  | bulk {bs : Bytes} : Returns (dollar :: bs) (parseBulkStringFromCursor (dollar :: bs))
  | noLine {bs : Bytes} (hl : readLineFromCursor (star :: bs) = none) : Returns (star :: bs) (.ok none)
  | badCount {bs number rest : Bytes} {e : KvError}
      (hl : readLineFromCursor (star :: bs) = some (star :: number, rest))
      (hd : parseDecimal number = .error e) : Returns (star :: bs) (.error e)
  | elements {bs number rest : Bytes} {n : Nat} {x : Except KvError (Option (List Frame × Bytes))}
      (hl : readLineFromCursor (star :: bs) = some (star :: number, rest))
      (hd : parseDecimal number = .ok n) (h : Loops n rest x) :
      Returns (star :: bs) (x.map (Option.map (fun p => (.array p.1, p.2))))

inductive Loops : Nat → Bytes → Except KvError (Option (List Frame × Bytes)) → Prop
  | done {cursor : Bytes} : Loops 0 cursor (.ok (some ([], cursor)))
  | failed {n : Nat} {cursor : Bytes} {e : KvError} (h : Returns cursor (.error e)) :
      Loops (n + 1) cursor (.error e)
  | short {n : Nat} {cursor : Bytes} (h : Returns cursor (.ok none)) :
      Loops (n + 1) cursor (.ok none)
  | next {n : Nat} {cursor rest : Bytes} {f : Frame}
      {x : Except KvError (Option (List Frame × Bytes))}
      (h : Returns cursor (.ok (some (f, rest)))) (hn : Loops n rest x) :
      Loops (n + 1) cursor (x.map (Option.map (fun p => (f :: p.1, p.2))))

end

theorem loops_parseElements {fuel : Nat}
    (hr : ∀ c : Bytes, c.length ≤ fuel → Returns c (parseFrameFromCursor fuel c)) (n : Nat)
    (cursor : Bytes) (hl : cursor.length ≤ fuel) :
    Loops n cursor (parseElements (parseFrameFromCursor fuel) n cursor) := by
  induction n generalizing cursor with
  | zero => exact .done
  | succ n ih =>
      have h := hr cursor hl
      rw [parseElements]
      rcases hx : parseFrameFromCursor fuel cursor with e | _ | ⟨f, rest⟩
      · rw [hx] at h
        exact .failed h
      · rw [hx] at h
        exact .short h
      · rw [hx] at h
        have hlt := (parseFrameFromCursor_ok fuel cursor rest f hx).2
        have hn := Loops.next h (ih rest (by omega))
        simp only
        rcases hy : parseElements (parseFrameFromCursor fuel) n rest with e | _ | ⟨fs, tail⟩
        · rw [hy] at hn
          exact hn
        · rw [hy] at hn
          exact hn
        · rw [hy] at hn
          exact hn

/-- The recursion comes to an end: as many levels as there are bytes are enough. -/
theorem returns_parseFrameFromCursor (fuel : Nat) (cursor : Bytes) (hl : cursor.length ≤ fuel) :
    Returns cursor (parseFrameFromCursor fuel cursor) := by
  induction fuel generalizing cursor with
  | zero =>
      rw [List.length_eq_zero_iff.mp (Nat.le_zero.mp hl)]
      exact .exhausted
  | succ fuel ih =>
      cases cursor with
      | nil => exact .exhausted
      | cons b bs =>
          rw [parseFrameFromCursor]
          by_cases hs : b = star
          · simp only [hs, if_true]
            rcases readLine_tag star_ne_cr bs with hline | ⟨number, rest, hline⟩
            · have hn : parseArrayFromCursor (parseFrameFromCursor fuel) (star :: bs) = .ok none := by
                simp [parseArrayFromCursor, hline]
              rw [hn]
              exact .noLine hline
            · rw [parseArray_header _ hline]
              cases hd : parseDecimal number with
              | error e => exact .badCount hline hd
              | ok n =>
                  have hrest := readLine_some hline
                  simp only [List.length_cons] at hrest hl
                  exact .elements hline hd (loops_parseElements ih n rest (by omega))
          · by_cases hd : b = dollar
            · simp only [hd, dollar_ne_star, if_false, if_true]
              exact .bulk
            · simp only [hs, hd, if_false]
              exact .badTag hs hd

theorem parseFrame_split {b : Bytes} {f : Frame} {n : Nat}
    (h : parseFrame b = .ok (some (f, n))) :
    ∃ rest, parseFrameFromCursor b.length b = .ok (some (f, rest)) ∧ n = b.length - rest.length := by
  rw [parseFrame] at h
  rcases hp : parseFrameFromCursor b.length b with e | _ | ⟨g, rest⟩
  · simp [hp] at h
  · simp [hp] at h
  · simp only [hp, Except.ok.injEq, Option.some.injEq, Prod.mk.injEq] at h
    obtain ⟨rfl, rfl⟩ := h
    exact ⟨rest, rfl, rfl⟩

theorem parseFrame_sound {b : Bytes} {f : Frame} {n : Nat} (h : parseFrame b = .ok (some (f, n))) :
    n ≤ b.length ∧ Derives f (b.take n) := by
  obtain ⟨rest, hp, rfl⟩ := parseFrame_split h
  obtain ⟨bs, he, hd⟩ := parseFrameFromCursor_sound _ _ _ _ hp
  refine ⟨by omega, ?_⟩
  have hlen : b.length - rest.length = bs.length := by
    rw [he, List.length_append]
    omega
  rw [hlen, he, List.take_left]
  exact hd

theorem parseFrame_complete {b : Bytes} {f : Frame} {n : Nat} (hn : n ≤ b.length)
    (h : Derives f (b.take n)) : parseFrame b = .ok (some (f, n)) := by
  have hp := parseFrameFromCursor_complete h b.length (b.drop n) (by rw [List.length_take]; omega)
  rw [List.take_append_drop] at hp
  rw [parseFrame, hp]
  simp only [List.length_drop, Except.ok.injEq, Option.some.injEq, Prod.mk.injEq, true_and]
  omega

theorem parseFrame_accepts_append {b r : Bytes} {f : Frame} {n : Nat}
    (h : parseFrame b = .ok (some (f, n))) : parseFrame (b ++ r) = .ok (some (f, n)) := by
  obtain ⟨hn, hd⟩ := parseFrame_sound h
  apply parseFrame_complete
  · rw [List.length_append]
    omega
  · rw [List.take_append_of_le_length hn]
    exact hd

theorem parseFrame_error_append {b r : Bytes} {e : KvError} (h : parseFrame b = .error e) :
    parseFrame (b ++ r) = .error e := by
  have hp : parseFrameFromCursor b.length b = .error e := by
    rw [parseFrame] at h
    rcases hp : parseFrameFromCursor b.length b with e' | _ | ⟨g, rest⟩
    · simpa [hp] using h
    · simp [hp] at h
    · simp [hp] at h
  have hm := parseFrameFromCursor_more b.length (b ++ r).length (by simp) b r (by simp [hp])
  rw [parseFrame, hm, hp]
  rfl

theorem parseFrame_derived {f : Frame} {bs : Bytes} (h : Derives f bs) (rest : Bytes) :
    parseFrame (bs ++ rest) = .ok (some (f, bs.length)) := by
  apply parseFrame_complete
  · simp
  · rw [List.take_left]
    exact h

/-- What is not yet a whole frame is waited for. -/
theorem parseFrame_cutShort {f : Frame} {bs p : Bytes} (h : Derives f bs) (hp : p <+: bs)
    (hne : p ≠ bs) : parseFrame p = .ok none := by
  obtain ⟨r, rfl⟩ := hp
  have hw := parseFrame_derived h []
  rw [List.append_nil] at hw
  rcases hv : parseFrame p with e | _ | ⟨g, n⟩
  · rw [parseFrame_error_append hv] at hw
    cases hw
  · rfl
  · rw [parseFrame_accepts_append hv] at hw
    simp only [Except.ok.injEq, Option.some.injEq, Prod.mk.injEq, List.length_append] at hw
    have hn := (parseFrame_sound hv).1
    have hr : r = [] := List.length_eq_zero_iff.mp (by omega)
    exact absurd (by simp [hr]) hne

theorem Derives.ne_nil {f : Frame} {bs : Bytes} (h : Derives f bs) : bs ≠ [] := by
  cases h <;> simp

theorem derives_serialize {f : Frame} (h : Fits f) : Derives f (serialize f) := by
  have hp := parseFrame_append h []
  rw [List.append_nil] at hp
  simpa using (parseFrame_sound hp).2

theorem derivesAll_serialize (fs : List Frame) (h : ∀ f ∈ fs, Fits f) :
    DerivesAll fs (serializeAll fs) := by
  induction fs with
  | nil => exact .nil
  | cons f fs ih =>
      exact .cons (derives_serialize (h f (by simp))) (ih (fun g hg => h g (by simp [hg])))

/-- The whole requests in front of a prefix of a stream, and the start of the next. -/
theorem DerivesAll.split {fs : List Frame} {stream p : Bytes} (h : DerivesAll fs stream)
    (hp : p <+: stream) : ∃ gs hs bs cs tail, fs = gs ++ hs ∧ DerivesAll gs bs ∧ DerivesAll hs cs ∧
      stream = bs ++ cs ∧ p = bs ++ tail ∧ parseFrame tail = .ok none := by
  induction fs generalizing stream p with
  | nil =>
      cases h
      exact ⟨[], [], [], [], [], rfl, .nil, .nil, rfl, List.prefix_nil.mp hp, rfl⟩
  | cons f fs ih =>
      cases h with
      | @cons _ _ bs cs hf h =>
          rcases prefix_append_cases hp with ⟨hp, hne⟩ | ⟨q, rfl, hq⟩
          · exact ⟨[], f :: fs, [], bs ++ cs, p, rfl, .nil, .cons hf h, rfl, rfl,
              parseFrame_cutShort hf hp hne⟩
          · obtain ⟨gs, hs, bs', cs', tail, rfl, hg, hh, rfl, rfl, ht⟩ := ih h hq
            exact ⟨f :: gs, hs, bs ++ bs', cs', tail, rfl, .cons hf hg, hh, by simp, by simp, ht⟩

theorem DerivesAll.nil_of_incomplete {fs : List Frame} {bs : Bytes} (h : DerivesAll fs bs)
    (hn : parseFrame bs = .ok none) : fs = [] ∧ bs = [] := by
  cases h with
  | nil => exact ⟨rfl, rfl⟩
  | @cons f _ bs cs hf h =>
      rw [parseFrame_derived hf cs] at hn
      cases hn

theorem DerivesAll.single {f : Frame} {bs : Bytes} (h : DerivesAll [f] bs) : Derives f bs := by
  cases h with
  | @cons _ _ bs cs hf h =>
      cases h
      rw [List.append_nil]
      exact hf

theorem DerivesAll.length_le {fs : List Frame} {bs : Bytes} (h : DerivesAll fs bs) :
    fs.length ≤ bs.length := by
  induction fs generalizing bs with
  | nil => simp
  | cons f fs ih =>
      cases h with
      | @cons _ _ bs cs hf h =>
          have h1 := List.length_pos_iff.mpr (hf.ne_nil)
          have h2 := ih h
          simp only [List.length_cons, List.length_append]
          omega

/-- The parser accepts exactly the prefixes its grammar derives, each buffer has
at most one, the recursion always ends, and a verdict once reached stays. -/
theorem parseFrame_grammar (b : Bytes) :
    (∀ f n, parseFrame b = .ok (some (f, n)) ↔ n ≤ b.length ∧ Derives f (b.take n)) ∧
    (∀ f n f' n', n ≤ b.length → Derives f (b.take n) → n' ≤ b.length → Derives f' (b.take n') →
      f = f' ∧ n = n') ∧
    Returns b (parseFrameFromCursor b.length b) ∧
    (∀ x r, parseFrame b = .ok (some x) → parseFrame (b ++ r) = .ok (some x)) ∧
    (∀ e r, parseFrame b = .error e → ∃ e', parseFrame (b ++ r) = .error e') := by
  refine ⟨?_, ?_, returns_parseFrameFromCursor b.length b (le_refl _), ?_, ?_⟩
  · intro f n
    exact ⟨parseFrame_sound, fun h => parseFrame_complete h.1 h.2⟩
  · intro f n f' n' hn hd hn' hd'
    have h := parseFrame_complete hn hd
    rw [parseFrame_complete hn' hd'] at h
    simp only [Except.ok.injEq, Option.some.injEq, Prod.mk.injEq] at h
    exact ⟨h.1.symm, h.2.symm⟩
  · rintro ⟨f, n⟩ r h
    exact parseFrame_accepts_append h
  · intro e r h
    exact ⟨e, parseFrame_error_append h⟩

end RustKv.FrameGrammar
