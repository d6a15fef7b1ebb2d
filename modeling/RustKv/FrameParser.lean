import RustKv.Protocol

namespace RustKv.FrameParser

open Text Decimal Protocol

/-- Position of the first CRLF. -/
def findCrlf : Bytes → Option Nat
  | [] => none
  | [_] => none
  | a :: b :: rest => if a = CR && b = LF then some 0 else (findCrlf (b :: rest)).map (· + 1)

/-- A cursor is kept as the bytes that follow its position. -/
def readLineFromCursor (cursor : Bytes) : Option (Bytes × Bytes) :=
  (findCrlf cursor).map (fun pos => (cursor.take pos, cursor.drop (pos + 2)))

def parseDecimal (b : Bytes) : Except KvError Nat :=
  match fromUtf8 b with
  | .error _ => .error (.protocolError "无效的 UTF-8 数字序列")
  | .ok s =>
      match parseUsize s.bytes with
      | .error _ => .error (.protocolError "无效的十进制格式")
      | .ok n => .ok n

def parseBulkStringFromCursor (cursor : Bytes) : Except KvError (Option (Frame × Bytes)) :=
  match readLineFromCursor cursor with
  | none => .ok none
  | some (line, rest) =>
      match line with
      | [] => .error (.protocolError "期望是批量字符串 '$'")
      | tag :: number =>
          if tag ≠ dollar then .error (.protocolError "期望是批量字符串 '$'")
          else do
            let dataLen ← parseDecimal number
            if 2 ^ 64 ≤ dataLen + 2 then .error (.protocolError "批量字符串长度溢出")
            else if rest.length < dataLen + 2 then .ok none
            else if (rest.drop dataLen).take 2 ≠ crlf then
              .error (.protocolError "批量字符串结尾缺少 \\r\\n")
            else .ok (some (.bulk (rest.take dataLen), rest.drop (dataLen + 2)))

/-- The loop over the elements of an array, with the parser for one frame as a
parameter. -/
def parseElements (child : Bytes → Except KvError (Option (Frame × Bytes))) :
    Nat → Bytes → Except KvError (Option (List Frame × Bytes))
  | 0, cursor => .ok (some ([], cursor))
  | n + 1, cursor =>
      match child cursor with
      | .error e => .error e
      | .ok none => .ok none
      | .ok (some (f, rest)) =>
          match parseElements child n rest with
          | .error e => .error e
          | .ok none => .ok none
          | .ok (some (fs, rest')) => .ok (some (f :: fs, rest'))

def parseArrayFromCursor (child : Bytes → Except KvError (Option (Frame × Bytes)))
    (cursor : Bytes) : Except KvError (Option (Frame × Bytes)) :=
  match readLineFromCursor cursor with
  | none => .ok none
  | some (line, rest) =>
      match line with
      | [] => .error (.protocolError "期望是数组 '*'")
      | tag :: number =>
          if tag ≠ star then .error (.protocolError "期望是数组 '*'")
          else do
            let numElements ← parseDecimal number
            match parseElements child numElements rest with
            | .error e => .error e
            | .ok none => .ok none
            | .ok (some (fs, rest')) => .ok (some (.array fs, rest'))

/-- The recursion is bounded by the bytes left: a nested frame starts after at
least one more byte, and with no byte left the answer is none. -/
def parseFrameFromCursor : Nat → Bytes → Except KvError (Option (Frame × Bytes))
  | 0, _ => .ok none
  | _ + 1, [] => .ok none
  | fuel + 1, b :: bs =>
      if b = star then parseArrayFromCursor (parseFrameFromCursor fuel) (b :: bs)
      else if b = dollar then parseBulkStringFromCursor (b :: bs)
      else .error (.protocolError "无效的 Frame 类型前缀")

def parseFrame (buf : Bytes) : Except KvError (Option (Frame × Nat)) :=
  match parseFrameFromCursor buf.length buf with
  | .error e => .error e
  | .ok none => .ok none
  | .ok (some (f, rest)) => .ok (some (f, buf.length - rest.length))

end RustKv.FrameParser
