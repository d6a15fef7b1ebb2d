import RustKv.CacheNodes
import RustKv.ZSet

namespace RustKv.Types

open Text Decimal Domain CacheStore Zset

variable {S J : Type} [Host]

/-- The functions of serde_json the program uses. `assign` is pointer_mut with an
assignment through the reference it gives. -/
class SerdeJson (J : Type) where
  fromStr : Str → Option J
  toStr : J → Option Str
  pointer : J → Str → Option J
  assign : J → Str → J → Option J

inductive Element
  | string (bytes : Bytes)
  | int (i : Int)
  deriving DecidableEq, Repr

inductive Value (S J : Type)
  | simple (element : Element)
  | list (deque : List Element) (capacity elementsHeap : UInt64)
  | hash (map : Finmap (fun _ : Str => Element)) (capacity elementsHeap : UInt64)
  | zset (zset : ZSet S) (size : UInt64)
  | json (root : J) (size : UInt64)

def Element.heapSize : Element → UInt64
  | .string b => UInt64.ofNat b.length
  | .int _ => 0

def parseIntFromBytes (i : Int) : Bytes := decimalInt i

def Element.reply : Element → Bytes
  | .string b => b
  | .int i => parseIntFromBytes i

def Value.heapMemorySize : Value S J → UInt64
  | .simple el => el.heapSize
  | .list _ capacity elementsHeap => elementsHeap + capacity * UInt64.ofNat Host.sizeOfElement
  | .hash _ capacity elementsHeap =>
      elementsHeap + capacity * (UInt64.ofNat Host.sizeOfString + UInt64.ofNat Host.sizeOfElement)
  | .zset _ size => size
  | .json _ size => size

def newEntry (data : Value S J) (expiresAt : Option Nat) : ValueEntry (Value S J) where
  data := data
  expiresAt := expiresAt
  dataSize := UInt64.ofNat Host.sizeOfValueEntry + data.heapMemorySize

@[simp] theorem newEntry_data (data : Value S J) (expiresAt : Option Nat) :
    (newEntry data expiresAt).data = data := rfl

@[simp] theorem newEntry_expiresAt (data : Value S J) (expiresAt : Option Nat) :
    (newEntry data expiresAt).expiresAt = expiresAt := rfl

/-- The value a string command stores: a number where the bytes read as one. -/
def simpleValue (value : Bytes) : Value S J :=
  match Host.lexicalParse value with
  | some i => .simple (.int i)
  | none => .simple (.string value)

section Platform

omit [Host] in
theorem upperByte_ascii {b : UInt8} (h : b < 0x80) : upperByte b < 0x80 := by
  unfold upperByte
  split
  · next hb =>
    rw [UInt8.lt_iff_toNat_lt] at h ⊢
    simp only [Bool.and_eq_true, decide_eq_true_eq, UInt8.le_iff_toNat_le] at hb
    rw [UInt8.toNat_sub_of_le _ _ (UInt8.le_iff_toNat_le.mpr (le_trans (by decide) hb.1))]
    omega
  · exact h

/-- to_uppercase on text without other letters than the ASCII ones. -/
def asciiUppercase (s : Str) : Str :=
  if h : ∀ b ∈ s.bytes, b < 0x80 then
    Str.ofAscii (s.bytes.map upperByte) (by
      intro b hb
      obtain ⟨x, hx, rfl⟩ := List.mem_map.mp hb
      exact upperByte_ascii (h x hx))
  else s

/-- A platform with a single shard, to run small inputs on. -/
@[reducible] def singleShard : Host where
  toUppercase := asciiUppercase
  toUppercase_ascii s h := by
    rw [asciiUppercase, dif_pos h]
    rfl
  lexicalParse b := (parseI64 b).toOption
  numShards := 1
  shardIndex _ := 0
  sizeOfValueEntry := 88
  sizeOfElement := 32
  sizeOfString := 24
  sizeOfBytes := 32
  sizeOfSkipNode := 72

/-- Two shards, the second for the keys that start with `m`. -/
@[reducible] def twoShards : Host := { singleShard with
  numShards := 2
  shardIndex := fun k => if k.bytes.head? = some 109 then ⟨1, Nat.one_lt_two⟩ else ⟨0, Nat.zero_lt_two⟩ }

/-- A key of the second shard. -/
def farKey : Str := Str.ofAscii (ascii ['m']) (by decide)

/-- Scores that are whole numbers below 2^64, for the same purpose. -/
@[reducible] def wholeScore : F64 UInt64 where
  less a b := decide (a < b)
  equal a b := decide (a = b)
  zero := 0
  parse s := (parseU64 s.bytes).toOption.map UInt64.ofNat
  display n := Str.ofAscii (decimal n.toNat) (fun x hx =>
    lt_of_le_of_lt (decimal_bounds n.toNat x hx).2 (by decide))
  parse_display n := by
    have hn : n.toNat ≤ 2 ^ 64 - 1 := Nat.le_pred_of_lt n.toNat_lt
    have hp : parseU64 (decimal n.toNat) = .ok n.toNat := parseUnsigned_decimal hn
    simp only [Str.ofAscii, hp, Except.toOption, Option.map_some, UInt64.ofNat_toNat]
  display_length n := by
    have := decimal_length_le n.toNat_lt
    simp only [Str.ofAscii]
    omega

/-- Documents without members, kept as their text. -/
@[reducible] def flatJson : SerdeJson Str where
  fromStr := some
  toStr := some
  pointer _ _ := none
  assign _ _ _ := none

end Platform

end RustKv.Types
