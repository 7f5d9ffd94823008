/-!
# Errors — why a reading failed, and where
-/

namespace TableJson

/-! ## Texts -/

/-- The kinds of failure. -/
inductive ErrorCode where
  /-- The binary form is malformed. -/
  | parseError
  /-- A number or an escape cannot be decoded. -/
  | badNumber
  /-- The text is not JSON. -/
  | badJson
  /-- Something follows a complete value. -/
  | excessSource
  /-- The consumer stopped the reading. -/
  | aborted
  /-- Containers nest too deep. -/
  | tooDeep
deriving DecidableEq, Repr

namespace ErrorCode

/-- Every code. -/
def all : List ErrorCode := [parseError, badNumber, badJson, excessSource, aborted, tooDeep]

/-- The name of a code. -/
def name : ErrorCode → String
  | parseError => "ParseError"
  | badNumber => "BadNumber"
  | badJson => "BadJson"
  | excessSource => "ExcessSource"
  | aborted => "Aborted"
  | tooDeep => "TooDeep"

/-- The text of a code. -/
def message : ErrorCode → String
  | parseError => "parse error"
  | badNumber => "bad number"
  | badJson => "bad json"
  | excessSource => "excess source"
  | aborted => "aborted by consumer"
  | tooDeep => "nesting too deep"

end ErrorCode

/-- A failed reading of text: why, and where as a byte offset, a line and a column; lines and columns count
characters from 1. -/
structure ParseError where
  code : ErrorCode
  offset : Nat
  line : Nat
  column : Nat
deriving DecidableEq, Repr

namespace ParseError

/-- The characters that end at `offset` or before. -/
def charsBefore : Nat → List Char → List Char
  | _, [] => []
  | offset, c :: cs => if c.utf8Size ≤ offset then c :: charsBefore (offset - c.utf8Size) cs else []

/-- The line and the column after some characters, counted on from a line and a column. -/
def position : Nat → Nat → List Char → Nat × Nat
  | line, column, [] => (line, column)
  | line, column, c :: cs => if c = '\n' then position (line + 1) 1 cs else position line (column + 1) cs

/-- A failure at a byte offset of `text`, or at its end if the offset lies beyond. -/
def locate (code : ErrorCode) (text : String) (offset : Nat) : ParseError :=
  let offset := min offset text.utf8ByteSize
  let (line, column) := position 1 1 (charsBefore offset text.toList)
  { code, offset, line, column }

/-- The text of an error. -/
def message (e : ParseError) : String :=
  e.code.message ++ " at " ++ toString e.line ++ ":" ++ toString e.column

end ParseError

/-! ## The binary form -/

/-- Why bytes are no encoding. -/
inductive DecodeError where
  | unknownTag (tag : UInt8)
  | invalidBoolean (byte : UInt8)
  | unexpectedEnd
  | invalidUtf8
  | trailingBytes (n : Nat)
  | tooDeep
deriving DecidableEq, Repr

/-- A byte as two digits in base 16. -/
def hexByte (b : UInt8) : List Char :=
  let ds := Nat.toDigits 16 b.toNat
  List.replicate (2 - ds.length) '0' ++ ds

namespace DecodeError

/-- The name of an error. -/
def name : DecodeError → String
  | unknownTag _ => "UnknownTag"
  | invalidBoolean _ => "InvalidBoolean"
  | unexpectedEnd => "UnexpectedEnd"
  | invalidUtf8 => "InvalidUtf8"
  | trailingBytes _ => "TrailingBytes"
  | tooDeep => "TooDeep"

/-- The text of an error. -/
def message : DecodeError → String
  | unknownTag tag => "unknown value tag 0x" ++ String.ofList (hexByte tag)
  | invalidBoolean byte => "invalid boolean byte 0x" ++ String.ofList (hexByte byte)
  | unexpectedEnd => "unexpected end of input"
  | invalidUtf8 => "string payload is not valid UTF-8"
  | trailingBytes n => toString n ++ " trailing bytes after value"
  | tooDeep => "nesting too deep"

/-- Every failure of the binary form has one code. -/
def code (_ : DecodeError) : ErrorCode := .parseError

end DecodeError

/-- Why a value has no encoding: the length of a string or container does not fit 32 bits. -/
inductive EncodeError where
  | lengthOverflow (length : Nat)
deriving DecidableEq, Repr

/-- The text of an error. -/
def EncodeError.message : EncodeError → String
  | lengthOverflow length => "length " ++ toString length ++ " does not fit the 32-bit prefix"

end TableJson
