import Mathlib.Order.Basic
import Mathlib.Data.List.Lex

namespace RustKv.Text

abbrev Bytes := List UInt8

def ascii (cs : List Char) : Bytes := cs.map (fun c => c.toNat.toUInt8)

def utf8 (s : String) : Bytes := s.toUTF8.toList

instance byteOrder : LinearOrder UInt8 where
  le_refl := UInt8.le_refl
  le_trans _ _ _ := UInt8.le_trans
  lt_iff_le_not_ge a b := by
    rw [UInt8.not_le, UInt8.lt_iff_toNat_lt, UInt8.le_iff_toNat_le]
    omega
  le_antisymm _ _ := UInt8.le_antisymm
  le_total := UInt8.le_total
  toDecidableLE := inferInstance

instance decidableAllBytes {P : UInt8 → Prop} [DecidablePred P] (p : Bytes) : Decidable (∀ b ∈ p, P b) :=
  List.decidableBAll P p

theorem ascii_k : ∀ b ∈ ascii ['k'], b < 0x80 := by decide

def isContinuation (b : UInt8) : Bool := 0x80 ≤ b && b ≤ 0xBF

/-- The second byte a three-byte sequence may have, by its first byte. -/
def threeByteSecond (b c : UInt8) : Bool :=
  if b = 0xE0 then 0xA0 ≤ c && c ≤ 0xBF
  else if b = 0xED then 0x80 ≤ c && c ≤ 0x9F
  else isContinuation c

/-- The second byte a four-byte sequence may have, by its first byte. -/
def fourByteSecond (b c : UInt8) : Bool :=
  if b = 0xF0 then 0x90 ≤ c && c ≤ 0xBF
  else if b = 0xF4 then 0x80 ≤ c && c ≤ 0x8F
  else isContinuation c

structure Utf8Error where
  validUpTo : Nat
  errorLen : Option Nat
  deriving DecidableEq, Repr

/-- The scan of String::from_utf8: where the first ill-formed sequence starts
and how many bytes of it are bad, none when the input only ends too early. -/
def utf8ErrorFrom (i : Nat) : Bytes → Option Utf8Error
  | [] => none
  | b :: bs =>
      if b < 0x80 then utf8ErrorFrom (i + 1) bs
      else if 0xC2 ≤ b && b ≤ 0xDF then
        match bs with
        | [] => some ⟨i, none⟩
        | c :: cs => if isContinuation c then utf8ErrorFrom (i + 2) cs else some ⟨i, some 1⟩
      else if 0xE0 ≤ b && b ≤ 0xEF then
        match bs with
        | [] => some ⟨i, none⟩
        | [c] => if threeByteSecond b c then some ⟨i, none⟩ else some ⟨i, some 1⟩
        | c :: d :: ds =>
            if !threeByteSecond b c then some ⟨i, some 1⟩
            else if !isContinuation d then some ⟨i, some 2⟩
            else utf8ErrorFrom (i + 3) ds
      else if 0xF0 ≤ b && b ≤ 0xF4 then
        match bs with
        | [] => some ⟨i, none⟩
        | [c] => if fourByteSecond b c then some ⟨i, none⟩ else some ⟨i, some 1⟩
        | [c, d] =>
            if !fourByteSecond b c then some ⟨i, some 1⟩
            else if !isContinuation d then some ⟨i, some 2⟩
            else some ⟨i, none⟩
        | c :: d :: e :: es =>
            if !fourByteSecond b c then some ⟨i, some 1⟩
            else if !isContinuation d then some ⟨i, some 2⟩
            else if !isContinuation e then some ⟨i, some 3⟩
            else utf8ErrorFrom (i + 4) es
      else some ⟨i, some 1⟩

def utf8Error (b : Bytes) : Option Utf8Error := utf8ErrorFrom 0 b

def Utf8Error.text (e : Utf8Error) : String :=
  match e.errorLen with
  | some n => "invalid utf-8 sequence of " ++ toString n ++ " bytes from index " ++ toString e.validUpTo
  | none => "incomplete utf-8 byte sequence from index " ++ toString e.validUpTo

/-- A Rust String: bytes together with the fact that they are UTF-8. -/
structure Str where
  bytes : Bytes
  valid : utf8Error bytes = none
  deriving DecidableEq

theorem Str.ext {s t : Str} (h : s.bytes = t.bytes) : s = t := by
  cases s
  cases t
  cases h
  rfl

def Str.len (s : Str) : Nat := s.bytes.length

def fromUtf8 (b : Bytes) : Except Utf8Error Str :=
  match h : utf8Error b with
  | none => .ok ⟨b, h⟩
  | some e => .error e

@[simp] theorem fromUtf8_bytes (s : Str) : fromUtf8 s.bytes = .ok s := by
  unfold fromUtf8
  split
  · rfl
  · next e h => rw [s.valid] at h; cases h

theorem fromUtf8_ok {b : Bytes} {s : Str} (h : fromUtf8 b = .ok s) : s.bytes = b := by
  unfold fromUtf8 at h
  split at h
  · cases h; rfl
  · cases h

theorem utf8ErrorFrom_ascii (i : Nat) (b : Bytes) (h : ∀ x ∈ b, x < 0x80) :
    utf8ErrorFrom i b = none := by
  induction b generalizing i with
  | nil => rfl
  | cons x xs ih =>
      unfold utf8ErrorFrom
      rw [if_pos (h x (by simp))]
      exact ih (i + 1) (fun y hy => h y (List.mem_cons_of_mem x hy))

def Str.ofAscii (b : Bytes) (h : ∀ x ∈ b, x < 0x80) : Str := ⟨b, utf8ErrorFrom_ascii 0 b h⟩

def upperByte (b : UInt8) : UInt8 := if 0x61 ≤ b && b ≤ 0x7A then b - 0x20 else b

def eqIgnoreAsciiCase (a b : Bytes) : Bool := a.map upperByte == b.map upperByte

end RustKv.Text
