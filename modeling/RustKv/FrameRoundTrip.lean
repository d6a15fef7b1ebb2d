import RustKv.FrameParser

namespace RustKv.FrameRoundTrip

open Text Decimal Protocol FrameParser

theorem findCrlf_append (line rest : Bytes) (h : CR ∉ line) :
    findCrlf (line ++ crlf ++ rest) = some line.length := by
  induction line with
  | nil => rfl
  | cons a line ih =>
      simp only [List.mem_cons, not_or] at h
      have hi := ih h.2
      cases line with
      | nil =>
          simp only [List.cons_append, List.nil_append, crlf, findCrlf] at hi ⊢
          simp [Ne.symm h.1]
      | cons b line =>
          simp only [List.cons_append, findCrlf] at hi ⊢
          rw [hi]
          simp [Ne.symm h.1]

theorem findCrlf_prefix (line p : Bytes) (h : CR ∉ line) (hp : p <+: line ++ [CR]) :
    findCrlf p = none := by
  induction line generalizing p with
  | nil =>
      rcases p with _ | ⟨a, _ | ⟨b, p⟩⟩
      · rfl
      · rfl
      · have := hp.length_le
        simp at this
  | cons a line ih =>
      rcases p with _ | ⟨c, _ | ⟨d, p⟩⟩
      · rfl
      · rfl
      · simp only [List.mem_cons, not_or] at h
        obtain ⟨rfl, ht⟩ := List.cons_prefix_cons.mp hp
        simp [findCrlf, Ne.symm h.1, ih (d :: p) h.2 ht]

theorem parseDecimal_decimal {n : Nat} (hn : n < 2 ^ 64) : parseDecimal (decimal n) = .ok n := by
  have hv : ∀ x ∈ decimal n, x < 0x80 := by
    intro x hx
    exact lt_of_le_of_lt (decimal_bounds n x hx).2 (by decide)
  have hu : fromUtf8 (decimal n) = .ok (Str.ofAscii (decimal n) hv) :=
    fromUtf8_bytes (Str.ofAscii (decimal n) hv)
  have hd : parseUsize (decimal n) = .ok n := parseUnsigned_decimal (by omega)
  simp only [parseDecimal, hu, Str.ofAscii, hd]

theorem dollar_ne_cr : dollar ≠ CR := by decide

theorem star_ne_cr : star ≠ CR := by decide

theorem cr_not_mem_line {tag : UInt8} (ht : tag ≠ CR) (n : Nat) : CR ∉ tag :: decimal n := by
  simp only [List.mem_cons, not_or]
  exact ⟨Ne.symm ht, decimal_not_mem n (by decide)⟩

theorem readLine_header {tag : UInt8} (ht : tag ≠ CR) (n : Nat) (rest : Bytes) :
    readLineFromCursor (header tag n ++ rest) = some (tag :: decimal n, rest) := by
  have h := findCrlf_append (tag :: decimal n) rest (cr_not_mem_line ht n)
  simp only [readLineFromCursor, header, h, Option.map_some, Option.some.injEq, Prod.mk.injEq]
  constructor
  · simp [List.append_assoc]
  · rw [List.drop_append_of_le_length (by simp [crlf])]
    simp [crlf]

theorem strictPrefix_concat {p xs : Bytes} {x : UInt8} (hp : p <+: xs ++ [x])
    (hne : p ≠ xs ++ [x]) : p <+: xs := by
  rcases List.prefix_concat_iff.mp hp with h | h
  · exact absurd h hne
  · exact h

theorem readLine_header_prefix {tag : UInt8} (ht : tag ≠ CR) (n : Nat) (p : Bytes)
    (hp : p <+: header tag n) (hne : p ≠ header tag n) : readLineFromCursor p = none := by
  have hs : header tag n = (tag :: decimal n ++ [CR]) ++ [LF] := by simp [header, crlf]
  rw [hs] at hp hne
  simp [readLineFromCursor, findCrlf_prefix (tag :: decimal n) p (cr_not_mem_line ht n)
    (strictPrefix_concat hp hne)]

theorem parseBulk_serialize (data rest : Bytes) (h : data.length + 2 < 2 ^ 64) :
    parseBulkStringFromCursor (serializeBulk data ++ rest) = .ok (some (.bulk data, rest)) := by
  have hl : readLineFromCursor (serializeBulk data ++ rest) =
      some (dollar :: decimal data.length, data ++ crlf ++ rest) := by
    rw [serializeBulk, List.append_assoc, List.append_assoc, readLine_header dollar_ne_cr]
    simp
  have hlen : ¬ (data ++ crlf ++ rest).length < data.length + 2 := by
    simp [crlf]
  have hdrop : (data ++ crlf ++ rest).drop data.length = crlf ++ rest := by simp
  have hdrop' : (data ++ crlf ++ rest).drop (data.length + 2) = rest := by
    rw [← List.drop_drop, hdrop]
    simp [crlf]
  simp only [parseBulkStringFromCursor, hl, ne_eq, not_true_eq_false, if_false,
    parseDecimal_decimal (show data.length < 2 ^ 64 by omega), bind, Except.bind,
    show ¬ 2 ^ 64 ≤ data.length + 2 by omega, hlen, hdrop, hdrop']
  simp [crlf]

/-- What a strict prefix of a concatenation looks like. -/
theorem prefix_append_cases {p xs ys : Bytes} (hp : p <+: xs ++ ys) :
    (p <+: xs ∧ p ≠ xs) ∨ ∃ q, p = xs ++ q ∧ q <+: ys := by
  rcases List.prefix_or_prefix_of_prefix hp (List.prefix_append xs ys) with h | ⟨q, rfl⟩
  · by_cases he : p = xs
    · exact .inr ⟨[], by simp [he], List.nil_prefix⟩
    · exact .inl ⟨h, he⟩
  · exact .inr ⟨q, rfl, (List.prefix_append_right_inj xs).mp hp⟩

theorem parseBulk_prefix (data p : Bytes) (h : data.length + 2 < 2 ^ 64)
    (hp : p <+: serializeBulk data) (hne : p ≠ serializeBulk data) :
    parseBulkStringFromCursor p = .ok none := by
  rw [serializeBulk, List.append_assoc] at hp hne
  rcases prefix_append_cases hp with ⟨hp, hne'⟩ | ⟨q, rfl, hq⟩
  · simp [parseBulkStringFromCursor, readLine_header_prefix dollar_ne_cr data.length p hp hne']
  · have hlt : q.length < data.length + 2 := by
      have hle := hq.length_le
      rcases Nat.lt_or_ge q.length (data ++ crlf).length with hlt | hge
      · simpa [crlf] using hlt
      · exact absurd (congrArg (header dollar data.length ++ ·)
          (hq.eq_of_length (Nat.le_antisymm hle hge))) hne
    simp only [parseBulkStringFromCursor, readLine_header dollar_ne_cr, ne_eq, not_true_eq_false,
      if_false, parseDecimal_decimal (show data.length < 2 ^ 64 by omega), bind, Except.bind,
      show ¬ 2 ^ 64 ≤ data.length + 2 by omega, hlt, if_true]

theorem header_length_pos (tag : UInt8) (n : Nat) : 1 ≤ (header tag n).length := by
  simp [header]

mutual

/-- A frame that fits is read back from its own bytes, whatever follows. -/
theorem parseFrame_serialize : ∀ (f : Frame) (fuel : Nat) (rest : Bytes), Fits f →
    (serialize f).length ≤ fuel →
    parseFrameFromCursor fuel (serialize f ++ rest) = .ok (some (f, rest))
  | .bulk data, 0, rest, _, hl => by
      have := serialize_length_pos (.bulk data)
      omega
  | .bulk data, fuel + 1, rest, h, _ => by
      have hb := parseBulk_serialize data rest h
      simp only [serialize, serializeBulk, header, List.cons_append] at hb ⊢
      rw [parseFrameFromCursor, if_neg (by decide), if_pos rfl]
      exact hb
  | .array fs, 0, rest, _, hl => by
      have := serialize_length_pos (.array fs)
      omega
  | .array fs, fuel + 1, rest, h, hl => by
      have hlen : (serializeAll fs).length ≤ fuel := by
        have := header_length_pos star fs.length
        simp only [serialize, List.length_append] at hl
        omega
      have hc := parseElements_serialize fs fuel rest h.2 hlen
      have hr := readLine_header star_ne_cr fs.length (serializeAll fs ++ rest)
      rw [show serialize (.array fs) ++ rest = header star fs.length ++ (serializeAll fs ++ rest) by
        simp [serialize]]
      rw [show header star fs.length ++ (serializeAll fs ++ rest) =
        star :: (decimal fs.length ++ crlf ++ (serializeAll fs ++ rest)) by simp [header]] at hr ⊢
      rw [parseFrameFromCursor, if_pos rfl]
      simp only [parseArrayFromCursor, hr, ne_eq, not_true_eq_false, if_false,
        parseDecimal_decimal h.1, bind, Except.bind, hc]
  | .simple _, _, _, h, _ | .error _, _, _, h, _ | .integer _, _, _, h, _
  | .null, _, _, h, _ => by simp [Fits] at h

theorem parseElements_serialize : ∀ (fs : List Frame) (fuel : Nat) (rest : Bytes), FitsAll fs →
    (serializeAll fs).length ≤ fuel →
    parseElements (parseFrameFromCursor fuel) fs.length (serializeAll fs ++ rest) =
      .ok (some (fs, rest))
  | [], fuel, rest, _, _ => rfl
  | f :: fs, fuel, rest, h, hl => by
      simp only [serializeAll, List.length_append] at hl
      have hf := parseFrame_serialize f fuel (serializeAll fs ++ rest) h.1 (by omega)
      have ht := parseElements_serialize fs fuel rest h.2 (by omega)
      simp only [List.length_cons, serializeAll, List.append_assoc, parseElements, hf, ht]

end

mutual

/-- A frame cut short is never an error and never a shorter frame. -/
theorem parseFrame_prefix : ∀ (f : Frame) (fuel : Nat) (p : Bytes), Fits f →
    p <+: serialize f → p ≠ serialize f → p.length ≤ fuel →
    parseFrameFromCursor fuel p = .ok none
  | _, 0, _, _, _, _, _ => rfl
  | _, _ + 1, [], _, _, _, _ => rfl
  | .bulk data, fuel + 1, b :: p, h, hp, hne, _ => by
      have hb : b = dollar := by
        simp only [serialize, serializeBulk, header, List.cons_append] at hp
        exact (List.cons_prefix_cons.mp hp).1
      rw [parseFrameFromCursor, if_neg (by rw [hb]; decide), if_pos hb]
      exact parseBulk_prefix data (b :: p) h hp hne
  | .array fs, fuel + 1, b :: p, h, hp, hne, hl => by
      have hb : b = star := by
        simp only [serialize, header, List.cons_append] at hp
        exact (List.cons_prefix_cons.mp hp).1
      rw [parseFrameFromCursor, if_pos hb]
      rw [serialize] at hp hne
      rcases prefix_append_cases hp with ⟨hp, hne'⟩ | ⟨q, hq, hp⟩
      · simp [parseArrayFromCursor, readLine_header_prefix star_ne_cr fs.length (b :: p) hp hne']
      · have hqne : q ≠ serializeAll fs := by
          intro he
          exact hne (by rw [hq, he])
        have hql : q.length ≤ fuel := by
          have h1 := congrArg List.length hq
          have h2 := header_length_pos star fs.length
          simp only [List.length_append, List.length_cons] at h1 hl
          omega
        have hc := parseElements_prefix fs fuel q h.2 hp hqne hql
        rw [hq]
        simp only [parseArrayFromCursor, readLine_header star_ne_cr, ne_eq, not_true_eq_false,
          if_false, parseDecimal_decimal h.1, bind, Except.bind, hc]
  | .simple _, _ + 1, _ :: _, h, _, _, _ | .error _, _ + 1, _ :: _, h, _, _, _
  | .integer _, _ + 1, _ :: _, h, _, _, _ | .null, _ + 1, _ :: _, h, _, _, _ => by
      simp [Fits] at h

theorem parseElements_prefix : ∀ (fs : List Frame) (fuel : Nat) (p : Bytes), FitsAll fs →
    p <+: serializeAll fs → p ≠ serializeAll fs → p.length ≤ fuel →
    parseElements (parseFrameFromCursor fuel) fs.length p = .ok none
  | [], fuel, p, _, hp, hne, _ => absurd (List.prefix_nil.mp hp) hne
  | f :: fs, fuel, p, h, hp, hne, hl => by
      rw [serializeAll] at hp hne
      rcases prefix_append_cases hp with ⟨hp, hne'⟩ | ⟨q, rfl, hq⟩
      · have hf := parseFrame_prefix f fuel p h.1 hp hne' hl
        simp only [List.length_cons, parseElements, hf]
      · simp only [List.length_append] at hl
        have hf := parseFrame_serialize f fuel q h.1 (by omega)
        have hqne : q ≠ serializeAll fs := by
          intro he
          exact hne (by rw [he])
        have ht := parseElements_prefix fs fuel q h.2 hq hqne (by omega)
        simp only [List.length_cons, parseElements, hf, ht]

end

theorem parseFrame_append {f : Frame} (h : Fits f) (rest : Bytes) :
    parseFrame (serialize f ++ rest) = .ok (some (f, (serialize f).length)) := by
  have hp := parseFrame_serialize f (serialize f ++ rest).length rest h (by simp)
  simp only [parseFrame, hp]
  simp

theorem parseFrame_strictPrefix {f : Frame} (h : Fits f) {p : Bytes} (hp : p <+: serialize f)
    (hne : p ≠ serialize f) : parseFrame p = .ok none := by
  simp only [parseFrame, parseFrame_prefix f p.length p h hp hne (le_refl _)]

/-- Reading undoes writing, and a frame that has not arrived whole is waited for. -/
theorem decode_encode {f : Frame} (h : Fits f) :
    (∀ rest, parseFrame (serialize f ++ rest) = .ok (some (f, (serialize f).length))) ∧
      ∀ p, p <+: serialize f → p ≠ serialize f → parseFrame p = .ok none := by
  constructor
  · intro rest
    exact parseFrame_append h rest
  · intro p hp hne
    exact parseFrame_strictPrefix h hp hne

/-- A nested frame whose payloads hold CRLF and both tags. -/
def nestedFrame : Frame := .array [.bulk [CR, LF, star, dollar], .array [.bulk [], .array []]]

theorem decode_encode_nested : Fits nestedFrame ∧
    (∀ rest, parseFrame (serialize nestedFrame ++ rest) =
      .ok (some (nestedFrame, (serialize nestedFrame).length))) ∧
    ∀ p, p <+: serialize nestedFrame → p ≠ serialize nestedFrame → parseFrame p = .ok none := by
  have h : Fits nestedFrame := by simp [nestedFrame, Fits, FitsAll]
  exact ⟨h, decode_encode h⟩

theorem readLine_some {cursor line rest : Bytes}
    (h : readLineFromCursor cursor = some (line, rest)) : rest.length + 2 ≤ cursor.length := by
  have hpos : ∀ (b : Bytes) (pos : Nat), findCrlf b = some pos → pos + 2 ≤ b.length := by
    intro b
    induction b with
    | nil => intro pos hf; simp [findCrlf] at hf
    | cons a b ih =>
        intro pos hf
        cases b with
        | nil => simp [findCrlf] at hf
        | cons c b =>
            rw [findCrlf] at hf
            split at hf
            · cases hf; simp
            · obtain ⟨q, hq, rfl⟩ := Option.map_eq_some_iff.mp hf
              have := ih q hq
              simp only [List.length_cons] at this ⊢
              omega
  obtain ⟨pos, hf, he⟩ := Option.map_eq_some_iff.mp h
  have := hpos cursor pos hf
  cases he
  simp only [List.length_drop]
  omega

theorem parseBulk_ok {cursor rest : Bytes} {f : Frame}
    (h : parseBulkStringFromCursor cursor = .ok (some (f, rest))) :
    Fits f ∧ rest.length < cursor.length := by
  rw [parseBulkStringFromCursor] at h
  cases hl : readLineFromCursor cursor with
  | none => simp [hl] at h
  | some p =>
      obtain ⟨line, tail⟩ := p
      have hlen := readLine_some hl
      rw [hl] at h
      cases line with
      | nil => simp at h
      | cons tag number =>
          simp only at h
          split at h
          · cases h
          · cases hd : parseDecimal number with
            | error e => simp [hd, bind, Except.bind] at h
            | ok n =>
                simp only [hd, bind, Except.bind] at h
                split at h
                · cases h
                · split at h
                  · cases h
                  · split at h
                    · cases h
                    · cases h
                      constructor
                      · rw [Fits, List.length_take]
                        omega
                      · rw [List.length_drop]
                        omega

theorem parseElements_ok {child : Bytes → Except KvError (Option (Frame × Bytes))}
    (hc : ∀ c f rest, child c = .ok (some (f, rest)) → Fits f ∧ rest.length < c.length)
    (n : Nat) (cursor rest : Bytes) (fs : List Frame)
    (h : parseElements child n cursor = .ok (some (fs, rest))) :
    FitsAll fs ∧ fs.length = n ∧ rest.length ≤ cursor.length := by
  induction n generalizing cursor fs with
  | zero =>
      simp only [parseElements, Except.ok.injEq, Option.some.injEq, Prod.mk.injEq] at h
      obtain ⟨rfl, rfl⟩ := h
      exact ⟨trivial, rfl, le_refl _⟩
  | succ n ih =>
      rw [parseElements] at h
      cases hf : child cursor with
      | error e => simp [hf] at h
      | ok o =>
          cases o with
          | none => simp [hf] at h
          | some p =>
              obtain ⟨f, tail⟩ := p
              obtain ⟨hfit, hlt⟩ := hc cursor f tail hf
              cases ht : parseElements child n tail with
              | error e => simp [hf, ht] at h
              | ok o =>
                  cases o with
                  | none => simp [hf, ht] at h
                  | some q =>
                      obtain ⟨gs, tail'⟩ := q
                      simp only [hf, ht, Except.ok.injEq, Option.some.injEq, Prod.mk.injEq] at h
                      obtain ⟨rfl, rfl⟩ := h
                      obtain ⟨hg, hn, hle⟩ := ih tail gs ht
                      exact ⟨⟨hfit, hg⟩, by simp [hn], by omega⟩

theorem parseDecimal_bound {b : Bytes} {n : Nat} (h : parseDecimal b = .ok n) : n < 2 ^ 64 := by
  rw [parseDecimal] at h
  cases hu : fromUtf8 b with
  | error e => simp [hu] at h
  | ok s =>
      simp only [hu] at h
      cases hp : parseUsize s.bytes with
      | error e => simp [hp] at h
      | ok m =>
          simp only [hp, Except.ok.injEq] at h
          have := parseUnsigned_le hp
          omega

theorem parseFrameFromCursor_ok (fuel : Nat) (cursor rest : Bytes) (f : Frame)
    (h : parseFrameFromCursor fuel cursor = .ok (some (f, rest))) :
    Fits f ∧ rest.length < cursor.length := by
  induction fuel generalizing cursor rest f with
  | zero => simp [parseFrameFromCursor] at h
  | succ fuel ih =>
      cases cursor with
      | nil => simp [parseFrameFromCursor] at h
      | cons b bs =>
          rw [parseFrameFromCursor] at h
          split at h
          · rw [parseArrayFromCursor] at h
            cases hl : readLineFromCursor (b :: bs) with
            | none => simp [hl] at h
            | some p =>
                obtain ⟨line, tail⟩ := p
                have hlen := readLine_some hl
                rw [hl] at h
                cases line with
                | nil => simp at h
                | cons tag number =>
                    simp only at h
                    split at h
                    · cases h
                    · cases hd : parseDecimal number with
                      | error e => simp [hd, bind, Except.bind] at h
                      | ok n =>
                          simp only [hd, bind, Except.bind] at h
                          cases he : parseElements (parseFrameFromCursor fuel) n tail with
                          | error e => simp [he] at h
                          | ok o =>
                              cases o with
                              | none => simp [he] at h
                              | some q =>
                                  obtain ⟨fs, tail'⟩ := q
                                  simp only [he, Except.ok.injEq, Option.some.injEq,
                                    Prod.mk.injEq] at h
                                  obtain ⟨rfl, rfl⟩ := h
                                  obtain ⟨hf, hn, hle⟩ := parseElements_ok
                                    (fun c g r hg => ih c r g hg) n tail tail' fs he
                                  refine ⟨⟨?_, hf⟩, by omega⟩
                                  rw [hn]
                                  exact parseDecimal_bound hd
          · split at h
            · exact parseBulk_ok h
            · cases h

/-- Every frame the parser accepts can be written back and read again, and the
parser always makes progress. -/
theorem parseFrame_ok {buf : Bytes} {f : Frame} {n : Nat}
    (h : parseFrame buf = .ok (some (f, n))) : Fits f ∧ 0 < n ∧ n ≤ buf.length := by
  rw [parseFrame] at h
  cases hp : parseFrameFromCursor buf.length buf with
  | error e => simp [hp] at h
  | ok o =>
      cases o with
      | none => simp [hp] at h
      | some q =>
          obtain ⟨g, rest⟩ := q
          simp only [hp, Except.ok.injEq, Option.some.injEq, Prod.mk.injEq] at h
          obtain ⟨rfl, rfl⟩ := h
          obtain ⟨hf, hlt⟩ := parseFrameFromCursor_ok _ _ _ _ hp
          exact ⟨hf, by omega, by omega⟩

end RustKv.FrameRoundTrip
