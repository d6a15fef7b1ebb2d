import RustKv.FrameGrammar
import RustKv.RequestReading
import RustKv.Values

namespace RustKv.Capacities

open Text Decimal Protocol Domain FrameParser FrameRoundTrip FrameGrammar CommandParser
  RequestReading

def isizeMax : Nat := 2 ^ 63 - 1

/-- The slice of the first `n` bytes; one past the end panics. -/
def sliceTo (b : Bytes) (n : Nat) : Option Bytes := if n ≤ b.length then some (b.take n) else none

/-- The cursor `n` bytes further; it cannot go past the end. -/
def advance (b : Bytes) (n : Nat) : Option Bytes := if n ≤ b.length then some (b.drop n) else none

/-- Vec::with_capacity for `n` elements of `size` bytes. -/
def withCapacity (size n : Nat) : Option Unit := if n * size ≤ isizeMax then some () else none

/-! The parser with its panics: in what follows the outer none is a panic, and the
rest is the result that is returned otherwise. -/

def readLineChecked (cursor : Bytes) : Option (Option (Bytes × Bytes)) :=
  match findCrlf cursor with
  | none => some none
  | some pos => do
      let line ← sliceTo cursor pos
      let rest ← advance cursor (pos + 2)
      some (some (line, rest))

def parseBulkChecked (cursor : Bytes) : Option (Except KvError (Option (Frame × Bytes))) := do
  match ← readLineChecked cursor with
  | none => some (.ok none)
  | some (line, rest) =>
      let tag ← (line)[0]?
      if tag ≠ dollar then some (.error (.protocolError "期望是批量字符串 '$'"))
      else
        let number ← advance line 1
        match parseDecimal number with
        | .error e => some (.error e)
        | .ok dataLen =>
            if 2 ^ 64 ≤ dataLen + 2 then some (.error (.protocolError "批量字符串长度溢出"))
            else if rest.length < dataLen + 2 then some (.ok none)
            else
              let data ← sliceTo rest dataLen
              let rest ← advance rest dataLen
              let trailer ← sliceTo rest 2
              if trailer ≠ crlf then
                some (.error (.protocolError "批量字符串结尾缺少 \\r\\n"))
              else
                let rest ← advance rest 2
                some (.ok (some (.bulk data, rest)))

def parseElementsChecked (child : Bytes → Option (Except KvError (Option (Frame × Bytes)))) :
    Nat → Bytes → Option (Except KvError (Option (List Frame × Bytes)))
  | 0, cursor => some (.ok (some ([], cursor)))
  | n + 1, cursor => do
      match ← child cursor with
      | .error e => some (.error e)
      | .ok none => some (.ok none)
      | .ok (some (f, rest)) =>
          match ← parseElementsChecked child n rest with
          | .error e => some (.error e)
          | .ok none => some (.ok none)
          | .ok (some (fs, rest')) => some (.ok (some (f :: fs, rest')))

def parseArrayChecked (sizeOfFrame : Nat) (child : Bytes → Option (Except KvError (Option (Frame × Bytes))))
    (cursor : Bytes) : Option (Except KvError (Option (Frame × Bytes))) := do
  match ← readLineChecked cursor with
  | none => some (.ok none)
  | some (line, rest) =>
      let tag ← (line)[0]?
      if tag ≠ star then some (.error (.protocolError "期望是数组 '*'"))
      else
        let number ← advance line 1
        match parseDecimal number with
        | .error e => some (.error e)
        | .ok numElements =>
            withCapacity sizeOfFrame numElements
            match ← parseElementsChecked child numElements rest with
            | .error e => some (.error e)
            | .ok none => some (.ok none)
            | .ok (some (fs, rest')) => some (.ok (some (.array fs, rest')))

def parseFrameFromCursorChecked (sizeOfFrame : Nat) :
    Nat → Bytes → Option (Except KvError (Option (Frame × Bytes)))
  | 0, _ => some (.ok none)
  | _ + 1, [] => some (.ok none)
  | fuel + 1, b :: bs =>
      if b = star then
        parseArrayChecked sizeOfFrame (parseFrameFromCursorChecked sizeOfFrame fuel) (b :: bs)
      else if b = dollar then parseBulkChecked (b :: bs)
      else some (.error (.protocolError "无效的 Frame 类型前缀"))

/-- parse_frame with the panics of its slices and of its allocations. -/
def parseFrameChecked (sizeOfFrame : Nat) (buf : Bytes) : Option (Except KvError (Option (Frame × Nat))) := do
  match ← parseFrameFromCursorChecked sizeOfFrame buf.length buf with
  | .error e => some (.error e)
  | .ok none => some (.ok none)
  | .ok (some (f, rest)) => some (.ok (some (f, buf.length - rest.length)))

section Reading

variable {cursor number rest : Bytes}

theorem readLineChecked_eq (cursor : Bytes) :
    readLineChecked cursor = some (readLineFromCursor cursor) := by
  cases h : findCrlf cursor with
  | none => simp [readLineChecked, readLineFromCursor, h]
  | some pos =>
      have hl : readLineFromCursor cursor = some (cursor.take pos, cursor.drop (pos + 2)) := by
        simp [readLineFromCursor, h]
      have hlen := congrArg List.length (readLine_eq hl)
      simp only [List.length_append, List.length_take, List.length_drop, crlf, List.length_cons,
        List.length_nil] at hlen
      rw [hl]
      simp [readLineChecked, h, sliceTo, advance, show pos ≤ cursor.length by omega,
        show pos + 2 ≤ cursor.length by omega]

/-- The length was compared with the bytes that are left, so no slice is out of range. -/
theorem parseBulkChecked_header (h : readLineFromCursor cursor = some (dollar :: number, rest)) :
    parseBulkChecked cursor = some (parseBulkStringFromCursor cursor) := by
  rw [parseBulk_header h]
  simp only [parseBulkChecked, readLineChecked_eq, h, Option.bind_eq_bind, Option.bind_some,
    List.getElem?_cons_zero, ne_eq, not_true_eq_false, if_false, advance, List.length_cons,
    Nat.le_add_left, if_true, List.drop_succ_cons, List.drop_zero]
  cases parseDecimal number with
  | error e => rfl
  | ok n =>
      simp only [bind, Except.bind, bulkBody]
      split
      · rfl
      · split
        · rfl
        · next hlen =>
          have h1 : n ≤ rest.length := by omega
          have h2 : 2 ≤ (rest.drop n).length := by
            rw [List.length_drop]
            omega
          simp only [sliceTo, if_pos h1, if_pos h2, Option.bind_some]
          split
          · rfl
          · rw [List.drop_drop]

theorem parseArrayChecked_header (sizeOfFrame : Nat)
    (child : Bytes → Option (Except KvError (Option (Frame × Bytes))))
    (h : readLineFromCursor cursor = some (star :: number, rest)) {n : Nat}
    (hn : parseDecimal number = .ok n) :
    parseArrayChecked sizeOfFrame child cursor = (withCapacity sizeOfFrame n).bind (fun _ =>
      (parseElementsChecked child n rest).map
        (Except.map (Option.map (fun p => (.array p.1, p.2))))) := by
  simp only [parseArrayChecked, readLineChecked_eq, h, Option.bind_eq_bind, Option.bind_some,
    List.getElem?_cons_zero, ne_eq, not_true_eq_false, if_false, advance, List.length_cons,
    Nat.le_add_left, if_true, List.drop_succ_cons, List.drop_zero, hn]
  cases withCapacity sizeOfFrame n with
  | none => rfl
  | some _ =>
      simp only [Option.bind_some]
      rcases parseElementsChecked child n rest with _ | e | _ | ⟨fs, tail⟩ <;> rfl

end Reading

theorem parseElementsChecked_or {child : Bytes → Except KvError (Option (Frame × Bytes))}
    {checked : Bytes → Option (Except KvError (Option (Frame × Bytes)))}
    (h : ∀ c, checked c = none ∨ checked c = some (child c)) (n : Nat) (cursor : Bytes) :
    parseElementsChecked checked n cursor = none ∨
      parseElementsChecked checked n cursor = some (parseElements child n cursor) := by
  induction n generalizing cursor with
  | zero => exact .inr rfl
  | succ n ih =>
      rw [parseElementsChecked, parseElements]
      rcases h cursor with hc | hc
      · rw [hc]
        exact .inl rfl
      · rw [hc]
        rcases child cursor with e | _ | ⟨f, rest⟩
        · exact .inr rfl
        · exact .inr rfl
        · rcases ih rest with hr | hr
          · simp only [Option.bind_eq_bind, Option.bind_some, hr, Option.bind_none]
            exact .inl trivial
          · simp only [Option.bind_eq_bind, Option.bind_some, hr]
            rcases parseElements child n rest with e | _ | ⟨fs, tail⟩ <;> exact .inr rfl

theorem parseFrameFromCursorChecked_or (sizeOfFrame fuel : Nat) (cursor : Bytes) :
    parseFrameFromCursorChecked sizeOfFrame fuel cursor = none ∨
      parseFrameFromCursorChecked sizeOfFrame fuel cursor = some (parseFrameFromCursor fuel cursor) := by
  induction fuel generalizing cursor with
  | zero => exact .inr rfl
  | succ fuel ih =>
      cases cursor with
      | nil => exact .inr rfl
      | cons b bs =>
          rw [parseFrameFromCursorChecked, parseFrameFromCursor]
          by_cases hs : b = star
          · subst hs
            simp only [if_true]
            rcases readLine_tag star_ne_cr bs with hl | ⟨number, rest, hl⟩
            · simp [parseArrayChecked, parseArrayFromCursor, readLineChecked_eq, hl]
            · cases hd : parseDecimal number with
              | error e =>
                  rw [parseArray_header _ hl, hd]
                  simp [parseArrayChecked, readLineChecked_eq, hl, hd, advance, bind, Except.bind]
              | ok n =>
                  rw [parseArray_header _ hl, parseArrayChecked_header _ _ hl hd, hd]
                  cases withCapacity sizeOfFrame n with
                  | none => exact .inl rfl
                  | some _ =>
                      rcases parseElementsChecked_or ih n rest with hr | hr <;> rw [hr]
                      · exact .inl rfl
                      · exact .inr rfl
          · by_cases hd : b = dollar
            · subst hd
              simp only [dollar_ne_star, if_false, if_true]
              rcases readLine_tag dollar_ne_cr bs with hl | ⟨number, rest, hl⟩
              · simp [parseBulkChecked, parseBulkStringFromCursor, readLineChecked_eq, hl]
              · exact .inr (parseBulkChecked_header hl)
            · simp only [hs, hd, if_false]
              exact .inr trivial

theorem parseFrameFromCursorChecked_sound {sizeOfFrame fuel : Nat} {cursor rest : Bytes} {f : Frame}
    (h : parseFrameFromCursorChecked sizeOfFrame fuel cursor = some (.ok (some (f, rest)))) :
    ∃ bs, cursor = bs ++ rest ∧ Derives f bs := by
  rcases parseFrameFromCursorChecked_or sizeOfFrame fuel cursor with hn | hn
  · rw [hn] at h
    cases h
  · rw [hn] at h
    exact parseFrameFromCursor_sound fuel cursor rest f (Option.some_inj.mp h)

/-- Reading `b` comes to the header of an array that announces `n` elements: the
array itself, or one that follows some, but not all, of its elements. -/
inductive Announces : Bytes → Nat → Prop
  | header {l rest : Bytes} {n : Nat} (hl : Len l n) : Announces (star :: l ++ crlf ++ rest) n
  | element {l bs rest : Bytes} {fs : List Frame} {n m : Nat} (hl : Len l n) (h : DerivesAll fs bs)
      (hlt : fs.length < n) (hr : Announces rest m) : Announces (star :: l ++ crlf ++ (bs ++ rest)) m

theorem parseElementsChecked_none {checked : Bytes → Option (Except KvError (Option (Frame × Bytes)))}
    (hsound : ∀ c f rest, checked c = some (.ok (some (f, rest))) → ∃ bs, c = bs ++ rest ∧ Derives f bs)
    {n : Nat} {cursor : Bytes} (h : parseElementsChecked checked n cursor = none) :
    ∃ fs bs rest, cursor = bs ++ rest ∧ DerivesAll fs bs ∧ fs.length < n ∧ checked rest = none := by
  induction n generalizing cursor with
  | zero => cases h
  | succ n ih =>
      rw [parseElementsChecked] at h
      rcases hc : checked cursor with _ | e | _ | ⟨f, rest⟩
      · exact ⟨[], [], cursor, rfl, .nil, Nat.succ_pos n, hc⟩
      · simp [hc] at h
      · simp [hc] at h
      · obtain ⟨bs, rfl, hf⟩ := hsound cursor f rest hc
        simp only [hc, Option.bind_eq_bind, Option.bind_some] at h
        rcases hr : parseElementsChecked checked n rest with _ | e | _ | ⟨gs, tail⟩
        · obtain ⟨fs, cs, tail, rfl, hfs, hlt, hnone⟩ := ih hr
          refine ⟨f :: fs, bs ++ cs, tail, by rw [List.append_assoc], .cons hf hfs, ?_, hnone⟩
          exact Nat.succ_lt_succ hlt
        · simp [hr] at h
        · simp [hr] at h
        · simp [hr] at h

theorem withCapacity_eq_none {size n : Nat} : withCapacity size n = none ↔ isizeMax < n * size := by
  simp [withCapacity]

theorem announces_of_panic {sizeOfFrame fuel : Nat} {cursor : Bytes}
    (h : parseFrameFromCursorChecked sizeOfFrame fuel cursor = none) :
    ∃ n, Announces cursor n ∧ isizeMax < n * sizeOfFrame := by
  induction fuel generalizing cursor with
  | zero => cases h
  | succ fuel ih =>
      cases cursor with
      | nil => cases h
      | cons b bs =>
          rw [parseFrameFromCursorChecked] at h
          by_cases hs : b = star
          · subst hs
            simp only [if_true] at h
            rcases readLine_tag star_ne_cr bs with hl | ⟨number, rest, hl⟩
            · simp [parseArrayChecked, readLineChecked_eq, hl] at h
            · rw [readLine_eq hl]
              cases hd : parseDecimal number with
              | error e => simp [parseArrayChecked, readLineChecked_eq, hl, hd, advance] at h
              | ok n =>
                  have hlen := (parseDecimal_iff number n).mp hd
                  rw [parseArrayChecked_header _ _ hl hd, Option.bind_eq_none_iff] at h
                  cases hcap : withCapacity sizeOfFrame n with
                  | none => exact ⟨n, .header hlen, withCapacity_eq_none.mp hcap⟩
                  | some u =>
                      obtain ⟨fs, bs, tail, rfl, hfs, hlt, hnone⟩ := parseElementsChecked_none
                        (fun c f rest hc => parseFrameFromCursorChecked_sound hc)
                        (Option.map_eq_none_iff.mp (h u hcap))
                      obtain ⟨m, hm, hbig⟩ := ih hnone
                      exact ⟨m, .element hlen hfs hlt hm, hbig⟩
          · by_cases hd : b = dollar
            · subst hd
              simp only [dollar_ne_star, if_false, if_true] at h
              rcases readLine_tag dollar_ne_cr bs with hl | ⟨number, rest, hl⟩
              · simp [parseBulkChecked, readLineChecked_eq, hl] at h
              · rw [parseBulkChecked_header hl] at h
                cases h
            · simp [hs, hd] at h

theorem parseElementsChecked_reach {sizeOfFrame fuel n : Nat} {fs : List Frame} {bs rest : Bytes}
    (hfs : DerivesAll fs bs) (hlt : fs.length < n) (hfuel : bs.length ≤ fuel)
    (h : parseFrameFromCursorChecked sizeOfFrame fuel rest = none) :
    parseElementsChecked (parseFrameFromCursorChecked sizeOfFrame fuel) n (bs ++ rest) = none := by
  induction fs generalizing n bs with
  | nil =>
      cases hfs
      obtain ⟨m, rfl⟩ := Nat.exists_eq_succ_of_ne_zero (Nat.ne_of_gt hlt)
      rw [List.nil_append, Nat.succ_eq_add_one, parseElementsChecked, h]
      rfl
  | cons f fs ih =>
      cases hfs with
      | @cons _ _ bs cs hf hfs =>
          obtain ⟨m, rfl⟩ := Nat.exists_eq_succ_of_ne_zero (Nat.ne_of_gt (Nat.zero_lt_of_lt hlt))
          rw [List.length_append] at hfuel
          rw [List.append_assoc, Nat.succ_eq_add_one, parseElementsChecked]
          rcases parseFrameFromCursorChecked_or sizeOfFrame fuel (bs ++ (cs ++ rest)) with hn | hn
          · rw [hn]
            rfl
          · have hrest := ih hfs (Nat.lt_of_succ_lt_succ hlt) (by omega)
            rw [hn, parseFrameFromCursor_complete hf fuel (cs ++ rest) (by omega)]
            simp only [Option.bind_eq_bind, Option.bind_some, hrest, Option.bind_none]

theorem panic_of_announces {sizeOfFrame n : Nat} {cursor : Bytes} (h : Announces cursor n)
    (hbig : isizeMax < n * sizeOfFrame) {fuel : Nat} (hfuel : cursor.length ≤ fuel) :
    parseFrameFromCursorChecked sizeOfFrame fuel cursor = none := by
  induction h generalizing fuel with
  | @header l rest n hl =>
      have hr := readLine_derived star_ne_cr hl rest
      obtain ⟨k, rfl⟩ := Nat.exists_eq_add_of_le' (show 1 ≤ fuel by simp at hfuel; omega)
      simp only [List.cons_append] at hr ⊢
      rw [parseFrameFromCursorChecked, if_pos rfl,
        parseArrayChecked_header _ _ hr ((parseDecimal_iff l n).mpr hl), withCapacity_eq_none.mpr hbig]
      rfl
  | @element l bs rest fs n m hl hfs hlt hm ih =>
      have hr := readLine_derived star_ne_cr hl (bs ++ rest)
      obtain ⟨k, rfl⟩ := Nat.exists_eq_add_of_le' (show 1 ≤ fuel by simp at hfuel; omega)
      simp only [List.cons_append, List.length_cons, List.length_append] at hr hfuel ⊢
      rw [parseFrameFromCursorChecked, if_pos rfl,
        parseArrayChecked_header _ _ hr ((parseDecimal_iff l n).mpr hl),
        parseElementsChecked_reach hfs hlt (by omega) (ih hbig (by omega))]
      cases withCapacity sizeOfFrame n <;> rfl

theorem parseFrameChecked_or (sizeOfFrame : Nat) (b : Bytes) :
    (parseFrameChecked sizeOfFrame b = none ∧ ∃ n, Announces b n ∧ isizeMax < n * sizeOfFrame) ∨
      (parseFrameChecked sizeOfFrame b = some (parseFrame b) ∧
        ∀ n, Announces b n → n * sizeOfFrame ≤ isizeMax) := by
  rcases parseFrameFromCursorChecked_or sizeOfFrame b.length b with hn | hn
  · refine .inl ⟨?_, announces_of_panic hn⟩
    simp only [parseFrameChecked, hn, Option.bind_eq_bind, Option.bind_none]
  · refine .inr ⟨?_, ?_⟩
    · simp only [parseFrameChecked, parseFrame, hn, Option.bind_eq_bind, Option.bind_some]
      rcases parseFrameFromCursor b.length b with e | _ | ⟨f, rest⟩ <;> rfl
    · intro n h
      by_contra hbig
      rw [panic_of_announces h (Nat.not_le.mp hbig) (le_refl _)] at hn
      cases hn

section Command

variable {S : Type} [Host] [F64 S]

/-- The name under which a script is sent. -/
def evalName : Bytes := ascii ['E', 'V', 'A', 'L']

def parseEvalChecked (itor : List Frame) : Option (Except KvError (Command S)) :=
  match extractBulkString itor.head? with
  | .error e => some (.error e)
  | .ok script =>
      match extractBulkString itor.tail.head? with
      | .error e => some (.error e)
      | .ok numkeysStr =>
          match parseUsize numkeysStr.bytes with
          | .error _ => some (protocolError "numkeys must be an integer")
          | .ok numkeys => do
              withCapacity Host.sizeOfString numkeys
              some (do
                let (keys, rest) ← parseEvalKeys numkeys itor.tail.tail
                let args ← extractAllStrings rest
                return .eval ⟨script, keys, args⟩)

/-- Command::try_from with its panics. Only EVAL allocates by a number it was sent,
and none of the others takes a slice. -/
def tryFromChecked (frame : Frame) : Option (Except KvError (Command S)) :=
  match frame with
  | .array (.bulk start :: iter) =>
      match fromUtf8 start with
      | .error _ => some (protocolError "zhuan huan yi chang ")
      | .ok s =>
          if (Host.toUppercase s).bytes = evalName then parseEvalChecked iter
          else some (dispatch (Host.toUppercase s) (iter.length + 1) iter)
  | frame => some (tryFrom frame)

/-- The frame is an EVAL of some script that announces `n` keys. -/
def AsksKeys (frame : Frame) (n : Nat) : Prop :=
  ∃ (name script : Str) (number : Bytes) (iter : List Frame),
    frame = .array (.bulk name.bytes :: .bulk script.bytes :: .bulk number :: iter) ∧
      (Host.toUppercase name).bytes = evalName ∧ Len number n

/-- Both calls return: neither the parser on `b` nor, on the frame it yields, the
conversion to a command panics. -/
def Decodes (S : Type) [F64 S] (sizeOfFrame : Nat) (b : Bytes) : Prop :=
  ∃ x, parseFrameChecked sizeOfFrame b = some x ∧
    ∀ f n, x = .ok (some (f, n)) → ∃ y : Except KvError (Command S), tryFromChecked f = some y

omit [F64 S] in
theorem parseEvalChecked_none_iff (itor : List Frame) :
    (parseEvalChecked itor : Option (Except KvError (Command S))) = none ↔
      ∃ (script : Str) (number : Bytes) (iter : List Frame) (n : Nat),
        itor = .bulk script.bytes :: .bulk number :: iter ∧ Len number n ∧
          isizeMax < n * Host.sizeOfString := by
  constructor
  · intro h
    unfold parseEvalChecked at h
    split at h
    · cases h
    · next script hscript =>
      split at h
      · cases h
      · next number hnumber =>
        split at h
        · cases h
        · next n hn =>
          have hs := extractBulkString_iff.mp hscript
          have hk := extractBulkString_iff.mp hnumber
          obtain ⟨iter, rfl⟩ : ∃ iter, itor = .bulk script.bytes :: .bulk number.bytes :: iter := by
            rcases itor with _ | ⟨f, _ | ⟨g, iter⟩⟩
            · cases hs
            · cases hk
            · cases hs
              cases hk
              exact ⟨iter, rfl⟩
          refine ⟨script, number.bytes, iter, n, rfl, (parseUsize_iff number.bytes n).mp hn, ?_⟩
          rw [Option.bind_eq_bind, Option.bind_eq_none_iff] at h
          refine withCapacity_eq_none.mp ?_
          cases hcap : withCapacity Host.sizeOfString n with
          | none => rfl
          | some u => cases h u hcap
  · rintro ⟨script, number, iter, n, rfl, hn, hbig⟩
    have hnumber : extractBulkString (some (.bulk number)) = .ok (Str.ofAscii number hn.ascii) :=
      extractBulkString_iff.mpr rfl
    simp [parseEvalChecked, extractBulkString_bytes, hnumber, Str.ofAscii,
      (parseUsize_iff number n).mpr hn, withCapacity_eq_none.mpr hbig]

theorem tryFromChecked_none_iff (frame : Frame) :
    (tryFromChecked frame : Option (Except KvError (Command S))) = none ↔
      ∃ n, AsksKeys frame n ∧ isizeMax < n * Host.sizeOfString := by
  constructor
  · intro h
    unfold tryFromChecked at h
    split at h
    · next start iter =>
      split at h
      · cases h
      · next name hs =>
        obtain rfl := fromUtf8_ok hs
        split at h
        · next hname =>
          obtain ⟨script, number, iter, n, rfl, hn, hbig⟩ := (parseEvalChecked_none_iff iter).mp h
          exact ⟨n, ⟨name, script, number, iter, rfl, hname, hn⟩, hbig⟩
        · cases h
    · cases h
  · rintro ⟨n, ⟨name, script, number, iter, rfl, hname, hn⟩, hbig⟩
    simp only [tryFromChecked, fromUtf8_bytes, hname, if_true]
    exact (parseEvalChecked_none_iff _).mpr ⟨script, number, iter, n, rfl, hn, hbig⟩

omit [F64 S] in
theorem parseEvalChecked_eq {itor : List Frame} {x : Except KvError (Command S)}
    (h : parseEvalChecked itor = some x) : parseEval itor = x := by
  unfold parseEvalChecked at h
  unfold parseEval
  cases hscript : extractBulkString itor.head? with
  | error e =>
      rw [hscript] at h
      exact Option.some_inj.mp h
  | ok script =>
      cases hnumber : extractBulkString itor.tail.head? with
      | error e =>
          rw [hscript, hnumber] at h
          exact Option.some_inj.mp h
      | ok number =>
          simp only [hscript, hnumber] at h
          simp only [bind, Except.bind]
          cases hn : parseUsize number.bytes with
          | error e =>
              rw [hn] at h
              exact Option.some_inj.mp h
          | ok n =>
              simp only [hn] at h
              obtain ⟨-, -, h⟩ := Option.bind_eq_some_iff.mp h
              exact Option.some_inj.mp h

/-- Where it does not panic, the conversion has the result of try_from. -/
theorem tryFromChecked_eq {frame : Frame} {x : Except KvError (Command S)}
    (h : tryFromChecked frame = some x) : tryFrom frame = x := by
  unfold tryFromChecked at h
  split at h
  · next start iter =>
    split at h
    · next hs =>
      simp only [tryFrom, hs]
      exact Option.some_inj.mp h
    · next name hs =>
      simp only [tryFrom, hs]
      split at h
      · next hname =>
        have heval : dispatch (Host.toUppercase name) (iter.length + 1) iter =
            (parseEval iter : Except KvError (Command S)) := by
          simp [dispatch, hname, evalName, ascii]
        simp only [heval]
        exact parseEvalChecked_eq h
      · exact Option.some_inj.mp h
  · exact Option.some_inj.mp h

theorem tryFromChecked_or (frame : Frame) :
    ((tryFromChecked frame : Option (Except KvError (Command S))) = none ∧
        ∃ n, AsksKeys frame n ∧ isizeMax < n * Host.sizeOfString) ∨
      ((tryFromChecked frame : Option (Except KvError (Command S))) = some (tryFrom frame) ∧
        ∀ n, AsksKeys frame n → n * Host.sizeOfString ≤ isizeMax) := by
  cases h : (tryFromChecked frame : Option (Except KvError (Command S))) with
  | none => exact .inl ⟨rfl, (tryFromChecked_none_iff frame).mp h⟩
  | some x =>
      refine .inr ⟨by rw [tryFromChecked_eq h], fun n hn => ?_⟩
      by_contra hbig
      rw [(tryFromChecked_none_iff frame).mpr ⟨n, hn, Nat.not_le.mp hbig⟩] at h
      cases h

/-- Decoding returns without a panic exactly if no array header that is read
announces more elements, and no EVAL asks for more keys, than fit into isize::MAX
bytes. The slices are always in range. -/
theorem decodes_iff (sizeOfFrame : Nat) (b : Bytes) :
    Decodes S sizeOfFrame b ↔
      (∀ n, Announces b n → n * sizeOfFrame ≤ isizeMax) ∧
        ∀ k f n, k ≤ b.length → Derives f (b.take k) → AsksKeys f n →
          n * Host.sizeOfString ≤ isizeMax := by
  constructor
  · rintro ⟨x, hx, hcommand⟩
    rcases parseFrameChecked_or sizeOfFrame b with ⟨hnone, -⟩ | ⟨hsome, hfits⟩
    · rw [hnone] at hx
      cases hx
    · refine ⟨hfits, ?_⟩
      intro k f n hk hf hkeys
      rw [hsome, parseFrame_complete hk hf] at hx
      obtain ⟨y, hy⟩ := hcommand f k (Option.some_inj.mp hx).symm
      rcases tryFromChecked_or (S := S) f with ⟨hnone, -⟩ | ⟨-, hall⟩
      · rw [hnone] at hy
        cases hy
      · exact hall n hkeys
  · rintro ⟨hfits, hkeys⟩
    rcases parseFrameChecked_or sizeOfFrame b with ⟨-, n, hn, hbig⟩ | ⟨hsome, -⟩
    · exact absurd (hfits n hn) (Nat.not_le.mpr hbig)
    · refine ⟨parseFrame b, hsome, ?_⟩
      intro f k hf
      obtain ⟨hk, hd⟩ := parseFrame_sound hf
      rcases tryFromChecked_or (S := S) f with ⟨-, n, hn, hbig⟩ | ⟨hsome, -⟩
      · exact absurd (hkeys k f n hk hd hn) (Nat.not_le.mpr hbig)
      · exact ⟨tryFrom f, hsome⟩

end Command

section Sample

attribute [local instance] Types.singleShard Types.wholeScore

/-- The header of an array of 9223372036854775807 elements. -/
def hugeArray : Bytes := header star 9223372036854775807

def evalFrame : Frame := .array [.bulk evalName, .bulk [], .bulk (decimal 9223372036854775807)]

/-- EVAL with an empty script and 9223372036854775807 keys. -/
def hugeEval : Bytes := serialize evalFrame

theorem huge_requests_panic : ¬ Decodes UInt64 40 hugeArray ∧ ¬ Decodes UInt64 40 hugeEval := by
  constructor
  · rintro ⟨x, hx, -⟩
    have hnone : (parseFrameChecked 40 hugeArray).isNone = true := by decide +kernel
    rw [hx] at hnone
    cases hnone
  · rintro ⟨x, hx, hcommand⟩
    have hparse : parseFrameChecked 40 hugeEval = some (.ok (some (evalFrame, hugeEval.length))) := by
      rfl
    obtain ⟨y, hy⟩ := hcommand evalFrame hugeEval.length (Option.some_inj.mp (hx.symm.trans hparse))
    have hnone : (tryFromChecked evalFrame : Option (Except KvError (Command UInt64))).isNone = true := by
      decide +kernel
    rw [hy] at hnone
    cases hnone

end Sample

end RustKv.Capacities
