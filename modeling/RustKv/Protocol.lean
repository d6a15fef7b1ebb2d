import RustKv.Decimal

namespace RustKv.Protocol

open Text Decimal

inductive KvError
  | io (text : String)
  | protocolError (text : String)
  | unexpectedEof
  | unimplement
  | none
  deriving DecidableEq, Repr

def KvError.text : KvError → String
  | .io e => "IO 错误: " ++ e
  | .protocolError e => "协议解析错误: " ++ e
  | .unexpectedEof => "意外的连接关闭"
  | .unimplement => "暂时没有实现"
  | .none => "无意义错误"

/-- A RESP frame. The text of a simple or error frame is kept as its bytes. -/
inductive Frame
  | simple (text : Bytes)
  | bulk (data : Bytes)
  | array (frames : List Frame)
  | integer (i : Int)
  | null
  | error (text : Bytes)
  deriving Repr

def CR : UInt8 := 13

def LF : UInt8 := 10

def crlf : Bytes := [CR, LF]

def star : UInt8 := 42

def dollar : UInt8 := 36

def header (tag : UInt8) (n : Nat) : Bytes := tag :: decimal n ++ crlf

def serializeBulk (data : Bytes) : Bytes := header dollar data.length ++ data ++ crlf

mutual

def serialize : Frame → Bytes
  | .simple s => 43 :: s ++ crlf
  | .error s => 45 :: s ++ crlf
  | .integer i => 58 :: decimalInt i ++ crlf
  | .null => [36, 45, 49, 13, 10]
  | .bulk data => serializeBulk data
  | .array frames => header star frames.length ++ serializeAll frames

def serializeAll : List Frame → Bytes
  | [] => []
  | f :: fs => serialize f ++ serializeAll fs

end

mutual

/-- The frames a request or a log record is made of, with every length a usize
that the parser can read back. -/
def Fits : Frame → Prop
  | .bulk data => data.length + 2 < 2 ^ 64
  | .array frames => frames.length < 2 ^ 64 ∧ FitsAll frames
  | _ => False

def FitsAll : List Frame → Prop
  | [] => True
  | f :: fs => Fits f ∧ FitsAll fs

end

theorem fitsAll_iff (fs : List Frame) : FitsAll fs ↔ ∀ f ∈ fs, Fits f := by
  induction fs with
  | nil => simp [FitsAll]
  | cons f fs ih => simp [FitsAll, ih]

theorem serializeAll_eq_flatMap (fs : List Frame) : serializeAll fs = fs.flatMap serialize := by
  induction fs with
  | nil => rfl
  | cons f fs ih => rw [serializeAll, ih, List.flatMap_cons]

theorem serialize_ne_nil (f : Frame) : serialize f ≠ [] := by
  cases f with
  | simple | error | integer | null => simp [serialize]
  | bulk | array => simp [serialize, serializeBulk, header]

theorem serialize_length_pos (f : Frame) : 0 < (serialize f).length :=
  List.length_pos_iff.mpr (serialize_ne_nil f)

end RustKv.Protocol
