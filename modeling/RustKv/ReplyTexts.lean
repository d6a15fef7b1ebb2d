import RustKv.CommandParser
import RustKv.ReplyDecoder

namespace RustKv.Replies

open Text Protocol Domain CommandParser ReplyDecoder

section Texts

theorem toList_loop (b : ByteArray) (i : Nat) (r : List UInt8) :
    ByteArray.toList.loop b i r = r.reverse ++ b.data.toList.drop i := by
  have hsize : b.data.toList.length = b.size := by simp
  induction hn : b.size - i generalizing i r with
  | zero =>
      rw [ByteArray.toList.loop, if_neg (by omega), List.drop_eq_nil_of_le (by omega), List.append_nil]
  | succ n ih =>
      have hi : i < b.data.toList.length := by omega
      have hget : b.get! i = b.data.toList[i] := by
        have hd : i < b.data.size := by simpa using hi
        simp [ByteArray.get!, getElem!_pos b.data i hd]
      rw [ByteArray.toList.loop, if_pos (by omega), ih (i + 1) _ (by omega), List.drop_eq_getElem_cons hi, hget]
      simp

theorem utf8_eq (s : String) : utf8 s = s.toList.flatMap String.utf8EncodeChar := by
  rw [utf8, ByteArray.toList, toList_loop, String.toUTF8_eq_toByteArray, ← String.utf8Encode_toList,
    List.utf8Encode, List.toList_data_toByteArray]
  rfl

theorem utf8_append (s t : String) : utf8 (s ++ t) = utf8 s ++ utf8 t := by
  rw [utf8_eq, utf8_eq, utf8_eq, String.toList_append, List.flatMap_append]

/-- Only the encoding of a carriage return has its byte: the other bytes of this size
belong to characters of one byte. -/
theorem cr_of_encode {c : Char} (h : CR ∈ String.utf8EncodeChar c) : c = '\r' := by
  have hbyte (v : Nat) : CR = UInt8.ofNat v ↔ v % 256 = 13 := by
    rw [← UInt8.toNat_inj, UInt8.toNat_ofNat']
    exact eq_comm
  have hc : c.val.toNat = 13 := by
    simp only [String.utf8EncodeChar] at h
    split at h
    · simp only [List.mem_singleton, hbyte] at h
      omega
    · repeat' split at h
      all_goals
        simp only [List.mem_cons, List.not_mem_nil, or_false, hbyte] at h
        omega
  exact Char.ext (UInt32.toNat_inj.mp hc)

/-- A text without carriage returns. -/
def NoCr (s : String) : Prop := '\r' ∉ s.toList

theorem noCr_ofList {cs : List Char} (h : '\r' ∉ cs) : NoCr (String.ofList cs) := by
  simpa [NoCr] using h

theorem noCr_append {s t : String} : NoCr (s ++ t) ↔ NoCr s ∧ NoCr t := by
  simp [NoCr, String.toList_append]

theorem noCr_toString (n : Nat) : NoCr (toString n) := by
  intro h
  have hd : '\r' ∈ Nat.toDigits 10 n := by
    rw [← Nat.toList_repr]
    exact h
  exact absurd (Nat.isDigit_of_mem_toDigits (by decide) (by decide) hd) (by decide)

theorem NoCr.not_mem {s : String} (h : NoCr s) : CR ∉ utf8 s := by
  rw [utf8_eq, List.mem_flatMap]
  rintro ⟨c, hc, hcr⟩
  rw [cr_of_encode hcr] at hc
  exact h hc

theorem NoCr.oneLine {s : String} (h : NoCr s) : OneLine (utf8 s) := oneLine_of_not_mem h.not_mem

/-- What stands before a text has no part in its line breaks. -/
theorem oneLine_append {a t : Bytes} (h : CR ∉ a) : OneLine (a ++ t) ↔ OneLine t := by
  induction a with
  | nil => rfl
  | cons x a ih =>
      rw [List.mem_cons, not_or] at h
      rw [← ih h.2, OneLine, OneLine, List.cons_append, List.infix_cons_iff]
      have hx : ¬ crlf <+: x :: (a ++ t) := by
        intro hp
        exact h.1 (List.cons_prefix_cons.mp hp).1
      simp [hx]

theorem oneLine_concat {t : Bytes} {x : UInt8} (h : x ≠ LF) : OneLine (t ++ [x]) ↔ OneLine t := by
  rw [OneLine, OneLine, List.infix_concat_iff]
  have hx : ¬ crlf <:+ t ++ [x] := by
    intro hs
    have hlast := List.IsSuffix.getLast hs (by simp [crlf])
    simp [crlf] at hlast
    exact h hlast.symm
  simp [hx]

end Texts

section Errors

variable {α β : Type}

/-- An error has a text of one line. -/
def Clean (x : Except KvError α) : Prop := ∀ e, x = .error e → NoCr e.text

theorem clean_ok (a : α) : Clean (.ok a : Except KvError α) := by
  rintro e ⟨⟩

theorem noCr_protocolError {text : String} (h : NoCr text) : NoCr (KvError.protocolError text).text :=
  noCr_append.mpr ⟨noCr_ofList (by decide), h⟩

theorem clean_protocolError {text : String} (h : NoCr text) : Clean (protocolError text : Except KvError α) := by
  rintro e ⟨⟩
  exact noCr_protocolError h

theorem Clean.bind {x : Except KvError α} {f : α → Except KvError β} (hx : Clean x) (hf : ∀ a, Clean (f a)) :
    Clean (x >>= f) := by
  cases x with
  | error e =>
      rintro e' ⟨⟩
      exact hx e rfl
  | ok a => exact hf a

theorem clean_ite {c : Prop} [Decidable c] {x y : Except KvError α} (hx : Clean x) (hy : Clean y) :
    Clean (if c then x else y) := by
  split
  · exact hx
  · exact hy

end Errors

section Parsers

variable {S : Type}

theorem utf8Error_noCr (e : Utf8Error) : NoCr e.text := by
  unfold Utf8Error.text
  split
  · next n _ =>
      have hfront : NoCr ("invalid utf-8 sequence of " ++ toString n) :=
        noCr_append.mpr ⟨noCr_ofList (by decide), noCr_toString n⟩
      exact noCr_append.mpr ⟨noCr_append.mpr ⟨hfront, noCr_ofList (by decide)⟩, noCr_toString _⟩
  · exact noCr_append.mpr ⟨noCr_ofList (by decide), noCr_toString _⟩

theorem intError_noCr (e : Decimal.IntErrorKind) : NoCr e.text := by
  cases e <;> exact noCr_ofList (by decide)

theorem extractBulkString_clean (frame : Option Frame) : Clean (extractBulkString frame) := by
  unfold extractBulkString
  split
  · split
    · exact clean_ok _
    · exact clean_protocolError (utf8Error_noCr _)
  · exact clean_protocolError (noCr_ofList (by decide))

theorem extractBulkInteger_clean (frame : Option Frame) : Clean (extractBulkInteger frame) := by
  apply (extractBulkString_clean frame).bind
  intro s
  split
  · exact clean_ok _
  · exact clean_protocolError (intError_noCr _)

theorem extractBulkBytes_clean (frame : Option Frame) : Clean (extractBulkBytes frame) := by
  unfold extractBulkBytes
  split
  · exact clean_ok _
  · exact clean_protocolError (noCr_ofList (by decide))

theorem expirationOption_noCr {name : Bytes} {text : String} {build : Nat → Expiration}
    (h : expirationOption name = some (text, build)) : NoCr text := by
  unfold expirationOption at h
  repeat' split at h
  all_goals cases h <;> exact noCr_ofList (by decide)

theorem parseSetOptions_clean (itor : List Frame) (expiration : Option Expiration)
    (condition : Option SetCondition) : Clean (parseSetOptions itor expiration condition) := by
  fun_induction parseSetOptions itor expiration condition with
  | case1 => exact clean_ok _
  | case2 expiration condition name text build ho =>
      exact clean_protocolError (noCr_append.mpr ⟨expirationOption_noCr ho, noCr_ofList (by decide)⟩)
  | case3 expiration condition name text build ho timeFrame itor ih =>
      apply (extractBulkInteger_clean (some timeFrame)).bind
      intro time
      apply clean_ite
      · exact clean_protocolError (noCr_append.mpr ⟨expirationOption_noCr ho, noCr_ofList (by decide)⟩)
      · exact ih time
  | case4 | case6 | case7 => exact clean_protocolError (noCr_ofList (by decide))
  | case5 expiration condition name itor ho c hc hn ih => exact ih

theorem parseSet_clean (itor : List Frame) : Clean (parseSet (S := S) itor) :=
  (extractBulkString_clean _).bind fun _ => (extractBulkBytes_clean _).bind fun _ =>
    (parseSetOptions_clean _ _ _).bind fun _ => clean_ok _

theorem parsePairs_clean (itor : List Frame) : Clean (parsePairs itor) := by
  fun_induction parsePairs itor with
  | case1 | case2 => exact clean_ok _
  | case3 | case4 => exact clean_protocolError (noCr_ofList (by decide))
  | case5 frame key hk valueFrame itor value hv ih => exact ih.bind fun _ => clean_ok _

theorem parseMSet_clean (itor : List Frame) : Clean (parseMSet (S := S) itor) := by
  apply (parsePairs_clean itor).bind
  intro pairs
  exact clean_ite (clean_protocolError (noCr_ofList (by decide))) (clean_ok _)

theorem extractAllBytes_clean (itor : List Frame) : Clean (extractAllBytes itor) := by
  induction itor with
  | nil => exact clean_ok _
  | cons frame itor ih => exact (extractBulkBytes_clean _).bind fun _ => ih.bind fun _ => clean_ok _

theorem extractAllStrings_clean (itor : List Frame) : Clean (extractAllStrings itor) := by
  induction itor with
  | nil => exact clean_ok _
  | cons frame itor ih => exact (extractBulkString_clean _).bind fun _ => ih.bind fun _ => clean_ok _

theorem parseBLPop_clean (itor : List Frame) : Clean (parseBLPop (S := S) itor) := by
  apply (extractBulkString_clean _).bind
  intro key
  apply (extractBulkString_clean _).bind
  intro timeoutStr
  split
  · exact clean_protocolError (noCr_ofList (by decide))
  · exact clean_ok _

theorem parseFieldValues_clean (itor : List Frame) : Clean (parseFieldValues itor) := by
  fun_induction parseFieldValues itor with
  | case1 => exact clean_ok _
  | case2 frame =>
      exact (extractBulkString_clean _).bind fun _ => (extractBulkBytes_clean _).bind fun _ => clean_ok _
  | case3 fieldFrame valueFrame itor ih =>
      exact (extractBulkString_clean _).bind fun _ => (extractBulkBytes_clean _).bind fun _ =>
        ih.bind fun _ => clean_ok _

theorem requiredString_clean (frame : Option Frame) {missing : String} (h : NoCr missing) :
    Clean (requiredString frame missing) := by
  cases frame with
  | none => exact clean_protocolError h
  | some f => exact extractBulkString_clean _

theorem parseKeyMember_clean {name : String} (h : NoCr name) (build : Str → Bytes → Command S)
    (iter : List Frame) : Clean (parseKeyMember name build iter) :=
  (requiredString_clean _ (noCr_append.mpr ⟨h, noCr_ofList (by decide)⟩)).bind fun _ =>
    (requiredString_clean _ (noCr_append.mpr ⟨h, noCr_ofList (by decide)⟩)).bind fun _ => clean_ok _

theorem parseIsize_clean (s : Str) {text : String} (h : NoCr text) : Clean (parseIsize s text) := by
  unfold parseIsize
  split
  · exact clean_ok _
  · exact clean_protocolError h

theorem parseZRange_clean (iter : List Frame) : Clean (parseZRange (S := S) iter) := by
  apply (requiredString_clean _ (noCr_ofList (by decide))).bind
  intro key
  apply (requiredString_clean _ (noCr_ofList (by decide))).bind
  intro start
  apply (parseIsize_clean _ (noCr_ofList (by decide))).bind
  intro start
  apply (requiredString_clean _ (noCr_ofList (by decide))).bind
  intro stop
  apply (parseIsize_clean _ (noCr_ofList (by decide))).bind
  intro stop
  exact clean_ok _

theorem parsePing_clean (itor : List Frame) : Clean (parsePing (S := S) itor) := by
  unfold parsePing
  split
  · exact clean_ok _
  · exact (extractBulkString_clean _).bind fun _ => clean_ok _
  · exact clean_protocolError (noCr_ofList (by decide))

theorem bulkArguments_clean (itor : List Frame) : Clean (bulkArguments itor) := by
  fun_induction bulkArguments itor with
  | case1 => exact clean_ok _
  | case2 data itor ih => exact ih.bind fun _ => clean_ok _
  | case3 => exact clean_protocolError (noCr_ofList (by decide))

theorem parseEvalKeys_clean (n : Nat) (itor : List Frame) : Clean (parseEvalKeys n itor) := by
  fun_induction parseEvalKeys n itor with
  | case1 => exact clean_ok _
  | case2 => exact clean_protocolError (noCr_ofList (by decide))
  | case3 n frame itor ih => exact (extractBulkString_clean _).bind fun _ => ih.bind fun _ => clean_ok _

theorem parseEval_clean (itor : List Frame) : Clean (parseEval (S := S) itor) := by
  apply (extractBulkString_clean _).bind
  intro script
  apply (extractBulkString_clean _).bind
  intro numkeysStr
  split
  · exact clean_protocolError (noCr_ofList (by decide))
  · exact (parseEvalKeys_clean _ _).bind fun _ => (extractAllStrings_clean _).bind fun _ => clean_ok _

theorem guardArity_clean (bad : Bool) {text : String} {parse : Except KvError (Command S)} (h : NoCr text)
    (hp : Clean parse) : Clean (guardArity bad text parse) :=
  clean_ite (clean_protocolError h) hp

variable [F64 S]

theorem parseZAdd_clean (iter : List Frame) : Clean (parseZAdd (S := S) iter) := by
  apply (requiredString_clean _ (noCr_ofList (by decide))).bind
  intro key
  apply (requiredString_clean _ (noCr_ofList (by decide))).bind
  intro scoreStr
  split
  · exact clean_protocolError (noCr_ofList (by decide))
  · exact (requiredString_clean _ (noCr_ofList (by decide))).bind fun _ => clean_ok _

theorem dispatch_clean (name : Str) (length : Nat) (iter : List Frame) :
    Clean (dispatch (S := S) name length iter) := by
  rw [dispatch]
  apply clean_ite
  · exact guardArity_clean _ (noCr_ofList (by decide)) ((extractBulkString_clean _).bind fun _ => clean_ok _)
  apply clean_ite
  · exact guardArity_clean _ (noCr_ofList (by decide)) (parseSet_clean iter)
  apply clean_ite
  · exact guardArity_clean _ (noCr_ofList (by decide)) (parseMSet_clean iter)
  apply clean_ite
  · apply guardArity_clean _ (noCr_ofList (by decide))
    exact clean_ite (clean_protocolError (noCr_ofList (by decide))) (clean_ok _)
  apply clean_ite
  · exact guardArity_clean _ (noCr_ofList (by decide)) ((extractBulkString_clean _).bind fun _ =>
      (extractAllBytes_clean _).bind fun _ => clean_ok _)
  apply clean_ite
  · exact guardArity_clean _ (noCr_ofList (by decide)) ((extractBulkString_clean _).bind fun _ => clean_ok _)
  apply clean_ite
  · exact guardArity_clean _ (noCr_ofList (by decide)) (parseBLPop_clean iter)
  apply clean_ite
  · exact guardArity_clean _ (noCr_ofList (by decide)) ((extractBulkString_clean _).bind fun _ =>
      (parseFieldValues_clean _).bind fun _ => clean_ok _)
  apply clean_ite
  · exact guardArity_clean _ (noCr_ofList (by decide)) ((extractBulkString_clean _).bind fun _ =>
      (extractBulkString_clean _).bind fun _ => clean_ok _)
  apply clean_ite
  · exact guardArity_clean _ (noCr_ofList (by decide)) ((extractBulkString_clean _).bind fun _ =>
      (extractAllStrings_clean _).bind fun _ => clean_ok _)
  apply clean_ite
  · apply guardArity_clean _ (noCr_ofList (by decide))
    apply (requiredString_clean _ (noCr_ofList (by decide))).bind
    intro key
    apply (requiredString_clean _ (noCr_ofList (by decide))).bind
    intro path
    exact (requiredString_clean _ (noCr_ofList (by decide))).bind fun _ => clean_ok _
  apply clean_ite
  · apply guardArity_clean _ (noCr_ofList (by decide))
    apply (requiredString_clean _ (noCr_ofList (by decide))).bind
    intro key
    exact (requiredString_clean _ (noCr_ofList (by decide))).bind fun _ => clean_ok _
  apply clean_ite
  · exact guardArity_clean _ (noCr_ofList (by decide)) (parseZAdd_clean iter)
  apply clean_ite
  · exact guardArity_clean _ (noCr_ofList (by decide)) (parseKeyMember_clean (noCr_ofList (by decide)) _ iter)
  apply clean_ite
  · exact guardArity_clean _ (noCr_ofList (by decide)) (parseKeyMember_clean (noCr_ofList (by decide)) _ iter)
  apply clean_ite
  · exact guardArity_clean _ (noCr_ofList (by decide)) (parseZRange_clean iter)
  apply clean_ite
  · exact guardArity_clean _ (noCr_ofList (by decide)) (parseKeyMember_clean (noCr_ofList (by decide)) _ iter)
  apply clean_ite (parsePing_clean iter)
  apply clean_ite (clean_ok _)
  apply clean_ite (clean_ok _)
  apply clean_ite (parseEval_clean iter)
  exact (bulkArguments_clean _).bind fun _ => clean_ok _

/-- A request that is refused is refused in one line. -/
theorem tryFrom_clean [Host] (frame : Frame) : Clean (tryFrom (S := S) frame) := by
  unfold tryFrom
  split
  · exact clean_protocolError (noCr_ofList (by decide))
  · split
    · exact clean_protocolError (noCr_ofList (by decide))
    · exact dispatch_clean _ _ _
  · exact clean_protocolError (noCr_ofList (by decide))
  · exact clean_protocolError (noCr_ofList (by decide))

end Parsers

end RustKv.Replies
