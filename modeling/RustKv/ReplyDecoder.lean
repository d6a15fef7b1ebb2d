import Mathlib.Data.List.Infix
import RustKv.Protocol

namespace RustKv.ReplyDecoder

open Text Decimal Protocol

section Numbers

/-- An unsigned decimal number of any size. -/
def number : Bytes → Option Nat
  | [] => none
  | d :: ds => (d :: ds).foldlM (fun acc d => (digitValue d).map (fun v => acc * 10 + v)) 0

/-- A decimal number with or without a minus sign. -/
def signed : Bytes → Option Int
  | 45 :: ds => (number ds).map (fun n : Nat => -(n : Int))
  | ds => (number ds).map (fun n : Nat => (n : Int))

theorem number_decimal (n : Nat) : number (decimal n) = some n := by
  have hfold : (decimal n).foldlM (fun acc d => (digitValue d).map (fun v => acc * 10 + v)) 0 = some n := by
    induction n using Nat.strong_induction_on with
    | _ n ih =>
        by_cases h : n < 10
        · have hd : decimal n = [digit n] := by rw [decimal, digitsAux, if_pos h]
          simp [hd, digitValue_digit h]
        · have hmod : n % 10 < 10 := Nat.mod_lt n (by decide)
          have hstep := decimal_step (show 0 < n / 10 by omega) hmod
          rw [Nat.div_add_mod'] at hstep
          rw [hstep, List.foldlM_append, ih (n / 10) (by omega)]
          simp [digitValue_digit hmod, Nat.div_add_mod']
  cases hd : decimal n with
  | nil => exact absurd hd (decimal_ne_nil n)
  | cons d ds =>
      rw [hd] at hfold
      exact hfold

theorem signed_decimalInt (i : Int) : signed (decimalInt i) = some i := by
  rw [decimalInt]
  split
  · rw [signed, number_decimal, Option.map_some, Option.some.injEq]
    omega
  · have h45 : (45 : UInt8) ∉ decimal i.natAbs := decimal_not_mem _ (by decide)
    rw [signed, number_decimal]
    · rw [Option.map_some, Option.some.injEq]
      omega
    · intro ds hds
      rw [hds] at h45
      exact h45 List.mem_cons_self

end Numbers

section Lines

/-- The bytes before the first CRLF, and those behind it. -/
def line : Bytes → Option (Bytes × Bytes)
  | a :: b :: rest =>
      if a = CR ∧ b = LF then some ([], rest)
      else (line (b :: rest)).map (fun r => (a :: r.1, r.2))
  | _ => none

/-- A text that a line can hold. -/
def OneLine (t : Bytes) : Prop := ¬ crlf <:+: t

instance (t : Bytes) : Decidable (OneLine t) := inferInstanceAs (Decidable (¬ crlf <:+: t))

theorem crlf_infix_cons {a b : UInt8} {t : Bytes} :
    crlf <:+: a :: b :: t ↔ (a = CR ∧ b = LF) ∨ crlf <:+: b :: t := by
  rw [List.infix_cons_iff]
  simp [crlf, eq_comm]

/-- A text ends at the first CRLF, so it is read back exactly when it has none. -/
theorem line_append (t rest : Bytes) :
    (OneLine t → line (t ++ crlf ++ rest) = some (t, rest)) ∧
      ∀ rest', line (t ++ crlf ++ rest) = some (t, rest') → OneLine t := by
  induction t with
  | nil => exact ⟨fun _ => rfl, fun _ _ => by decide⟩
  | cons a t ih =>
      cases t with
      | nil =>
          have hone : OneLine [a] := by
            intro h
            have := h.length_le
            simp [crlf] at this
          refine ⟨fun _ => ?_, fun _ _ => hone⟩
          simp [line, crlf, CR, LF]
      | cons b t =>
          simp only [List.cons_append, line] at ih ⊢
          constructor
          · intro h
            rw [OneLine, crlf_infix_cons, not_or] at h
            rw [if_neg h.1, ih.1 h.2]
            rfl
          · intro rest' h
            split at h
            · cases h
            · next hab =>
              obtain ⟨⟨l, r⟩, hl, hp⟩ := Option.map_eq_some_iff.mp h
              cases hp
              rw [OneLine, crlf_infix_cons, not_or]
              exact ⟨hab, ih.2 _ hl⟩

theorem oneLine_of_not_mem {t : Bytes} (h : CR ∉ t) : OneLine t := by
  intro hin
  exact h (hin.subset (by simp [crlf]))

theorem line_decimal (n : Nat) (rest : Bytes) : line (decimal n ++ crlf ++ rest) = some (decimal n, rest) :=
  (line_append _ rest).1 (oneLine_of_not_mem (decimal_not_mem n (by decide)))

end Lines

section Decoder

/-- As many replies as an array announces. -/
def many (decode : Bytes → Option (Frame × Bytes)) : Nat → Bytes → Option (List Frame × Bytes)
  | 0, b => some ([], b)
  | n + 1, b => do
      let (f, b) ← decode b
      let (fs, b) ← many decode n b
      return (f :: fs, b)

/-- A decoder of RESP2 replies: one reply from the front of the stream. A reply is at
most `fuel` deep. -/
def decodeReply : Nat → Bytes → Option (Frame × Bytes)
  | 0, _ => none
  | _ + 1, [] => none
  | fuel + 1, tag :: b => do
      let (l, rest) ← line b
      if tag = 43 then return (.simple l, rest)
      else if tag = 45 then return (.error l, rest)
      else if tag = 58 then return (.integer (← signed l), rest)
      else if tag = dollar then
        if l = [45, 49] then return (.null, rest)
        else
          let n ← number l
          if (rest.drop n).take 2 = crlf then return (.bulk (rest.take n), rest.drop (n + 2)) else none
      else if tag = star then
        if l = [45, 49] then return (.null, rest)
        else
          let (fs, rest) ← many (decodeReply fuel) (← number l) rest
          return (.array fs, rest)
      else none

def decodeFrom : Nat → Bytes → Option (List Frame)
  | _, [] => some []
  | 0, _ :: _ => none
  | fuel + 1, b => do
      let (f, b) ← decodeReply fuel b
      let fs ← decodeFrom fuel b
      return f :: fs

/-- The replies of a whole stream. Every reply takes a byte, so `fuel` may be one more
than the length. -/
def decode (b : Bytes) : Option (List Frame) := decodeFrom (b.length + 1) b

mutual

/-- A frame whose texts are lines. -/
def Plain : Frame → Prop
  | .simple text => OneLine text
  | .error text => OneLine text
  | .array frames => PlainAll frames
  | .bulk _ | .integer _ | .null => True

def PlainAll : List Frame → Prop
  | [] => True
  | f :: fs => Plain f ∧ PlainAll fs

end

theorem plainAll_iff (fs : List Frame) : PlainAll fs ↔ ∀ f ∈ fs, Plain f := by
  induction fs with
  | nil => simp [PlainAll]
  | cons f fs ih => simp [PlainAll, ih]

theorem decimal_ne_minus (n : Nat) : decimal n ≠ [45, 49] := by
  intro h
  have h45 : (45 : UInt8) ∉ decimal n := decimal_not_mem n (by decide)
  rw [h] at h45
  exact h45 List.mem_cons_self

theorem decodeReply_bulk (fuel : Nat) (data rest : Bytes) :
    decodeReply (fuel + 1) (serialize (.bulk data) ++ rest) = some (.bulk data, rest) := by
  have hs : serialize (.bulk data) ++ rest =
      dollar :: (decimal data.length ++ crlf ++ (data ++ crlf ++ rest)) := by
    simp [serialize, serializeBulk, header]
  rw [hs, decodeReply, line_decimal]
  simp [dollar, decimal_ne_minus, number_decimal, crlf]

theorem decodeReply_integer (fuel : Nat) (i : Int) (rest : Bytes) :
    decodeReply (fuel + 1) (serialize (.integer i) ++ rest) = some (.integer i, rest) := by
  have hcr : CR ∉ decimalInt i := by
    rw [decimalInt]
    split
    · rw [List.mem_cons, not_or]
      exact ⟨by decide, decimal_not_mem _ (by decide)⟩
    · exact decimal_not_mem _ (by decide)
  have hs : serialize (.integer i) ++ rest = 58 :: (decimalInt i ++ crlf ++ rest) := by simp [serialize]
  rw [hs, decodeReply, (line_append _ rest).1 (oneLine_of_not_mem hcr)]
  simp [signed_decimalInt]

theorem decodeReply_array (fuel : Nat) (fs : List Frame) (rest : Bytes) :
    decodeReply (fuel + 1) (serialize (.array fs) ++ rest) =
      (many (decodeReply fuel) fs.length (serializeAll fs ++ rest)).map (fun r => (.array r.1, r.2)) := by
  have hs : serialize (.array fs) ++ rest =
      star :: (decimal fs.length ++ crlf ++ (serializeAll fs ++ rest)) := by
    simp [serialize, header]
  rw [hs, decodeReply, line_decimal]
  simp [Protocol.star, dollar, decimal_ne_minus, number_decimal]
  exact (Option.map_eq_bind ..).symm

mutual

theorem decodeReply_plain : ∀ (f : Frame) (fuel : Nat) (rest : Bytes), Plain f →
    (serialize f).length ≤ fuel → decodeReply fuel (serialize f ++ rest) = some (f, rest)
  | f, 0, rest, _, hl => by
      have := serialize_length_pos f
      omega
  | .simple t, fuel + 1, rest, h, _ => by
      have hs : serialize (.simple t) ++ rest = 43 :: (t ++ crlf ++ rest) := by simp [serialize]
      rw [hs, decodeReply, (line_append t rest).1 h]
      rfl
  | .error t, fuel + 1, rest, h, _ => by
      have hs : serialize (.error t) ++ rest = 45 :: (t ++ crlf ++ rest) := by simp [serialize]
      rw [hs, decodeReply, (line_append t rest).1 h]
      rfl
  | .integer i, fuel + 1, rest, _, _ => decodeReply_integer fuel i rest
  | .null, fuel + 1, rest, _, _ => rfl
  | .bulk data, fuel + 1, rest, _, _ => decodeReply_bulk fuel data rest
  | .array fs, fuel + 1, rest, h, hl => by
      have hlen : (serializeAll fs).length ≤ fuel := by
        simp only [serialize, header, List.length_append, List.length_cons] at hl
        omega
      rw [decodeReply_array, many_plain fs fuel rest h hlen]
      rfl

theorem many_plain : ∀ (fs : List Frame) (fuel : Nat) (rest : Bytes), PlainAll fs →
    (serializeAll fs).length ≤ fuel →
    many (decodeReply fuel) fs.length (serializeAll fs ++ rest) = some (fs, rest)
  | [], _, _, _, _ => rfl
  | f :: fs, fuel, rest, h, hl => by
      simp only [serializeAll, List.length_append] at hl
      have hf := decodeReply_plain f fuel (serializeAll fs ++ rest) h.1 (by omega)
      have hfs := many_plain fs fuel rest h.2 (by omega)
      simp [many, serializeAll, hf, hfs]

end

mutual

theorem plain_of_decodeReply : ∀ (f : Frame) (fuel : Nat) (rest rest' : Bytes),
    (serialize f).length ≤ fuel → decodeReply fuel (serialize f ++ rest) = some (f, rest') → Plain f
  | _, 0, _, _, _, h => by cases h
  | .simple t, fuel + 1, rest, rest', _, h => by
      have hs : serialize (.simple t) ++ rest = 43 :: (t ++ crlf ++ rest) := by simp [serialize]
      rw [hs, decodeReply] at h
      obtain ⟨⟨l, r⟩, hl, hr⟩ := Option.bind_eq_some_iff.mp h
      cases hr
      exact (line_append t rest).2 _ hl
  | .error t, fuel + 1, rest, rest', _, h => by
      have hs : serialize (.error t) ++ rest = 45 :: (t ++ crlf ++ rest) := by simp [serialize]
      rw [hs, decodeReply] at h
      obtain ⟨⟨l, r⟩, hl, hr⟩ := Option.bind_eq_some_iff.mp h
      cases hr
      exact (line_append t rest).2 _ hl
  | .integer _, _ + 1, _, _, _, _ | .null, _ + 1, _, _, _, _ | .bulk _, _ + 1, _, _, _, _ => trivial
  | .array fs, fuel + 1, rest, rest', hl, h => by
      have hlen : (serializeAll fs).length ≤ fuel := by
        simp only [serialize, header, List.length_append, List.length_cons] at hl
        omega
      rw [decodeReply_array] at h
      obtain ⟨⟨gs, r⟩, hm, hr⟩ := Option.map_eq_some_iff.mp h
      cases hr
      exact plain_of_many _ fuel rest _ hlen hm

theorem plain_of_many : ∀ (fs : List Frame) (fuel : Nat) (rest rest' : Bytes),
    (serializeAll fs).length ≤ fuel →
    many (decodeReply fuel) fs.length (serializeAll fs ++ rest) = some (fs, rest') → PlainAll fs
  | [], _, _, _, _, _ => trivial
  | f :: fs, fuel, rest, rest', hl, h => by
      simp only [serializeAll, List.length_append] at hl
      rw [List.length_cons, serializeAll, List.append_assoc, many] at h
      obtain ⟨⟨g, r⟩, hf, h⟩ := Option.bind_eq_some_iff.mp h
      obtain ⟨⟨gs, r'⟩, hfs, hr⟩ := Option.bind_eq_some_iff.mp h
      cases hr
      have hplain := plain_of_decodeReply f fuel (serializeAll fs ++ rest) r (by omega) hf
      -- a plain frame uses up its own bytes
      cases hf.symm.trans (decodeReply_plain f fuel (serializeAll fs ++ rest) hplain (by omega))
      exact ⟨hplain, plain_of_many fs fuel rest _ (by omega) hfs⟩

end

theorem decodeFrom_cons (f : Frame) (fuel : Nat) (rest : Bytes) :
    decodeFrom (fuel + 1) (serialize f ++ rest) =
      (decodeReply fuel (serialize f ++ rest)).bind (fun r => (decodeFrom fuel r.2).map (fun fs => r.1 :: fs)) := by
  cases hs : serialize f ++ rest with
  | nil => exact absurd (List.append_eq_nil_iff.mp hs).1 (serialize_ne_nil f)
  | cons b bs =>
      rw [decodeFrom]
      · simp [Option.map_eq_bind]
      · simp

theorem decodeFrom_iff (fs : List Frame) (fuel : Nat) (h : (serializeAll fs).length < fuel) :
    decodeFrom fuel (serializeAll fs) = some fs ↔ PlainAll fs := by
  induction fs generalizing fuel with
  | nil =>
      refine iff_of_true ?_ trivial
      cases fuel <;> rfl
  | cons f fs ih =>
      cases fuel with
      | zero => omega
      | succ fuel =>
          have hpos := serialize_length_pos f
          simp only [serializeAll, List.length_append] at h
          rw [serializeAll, decodeFrom_cons]
          constructor
          · intro hd
            obtain ⟨⟨g, r⟩, hf, hd⟩ := Option.bind_eq_some_iff.mp hd
            obtain ⟨gs, hgs, hr⟩ := Option.map_eq_some_iff.mp hd
            cases hr
            have hplain := plain_of_decodeReply _ fuel (serializeAll fs) r (by omega) hf
            cases hf.symm.trans (decodeReply_plain _ fuel (serializeAll fs) hplain (by omega))
            exact ⟨hplain, (ih fuel (by omega)).mp hgs⟩
          · intro hp
            rw [decodeReply_plain f fuel (serializeAll fs) hp.1 (by omega), Option.bind_some,
              (ih fuel (by omega)).mpr hp.2]
            rfl

/-- A stream of replies is read back exactly when all of them are plain. -/
theorem decode_serializeAll_iff (fs : List Frame) :
    decode (serializeAll fs) = some fs ↔ ∀ f ∈ fs, Plain f := by
  rw [decode, decodeFrom_iff fs _ (Nat.lt_succ_self _), plainAll_iff]

end Decoder

end RustKv.ReplyDecoder
