import TableJson.Machine.Table

/-!
# Rules — the grammar of JSON text as tables

```text
JSON-text = ws value ws
value     = false / null / true / number / string / object / array
object    = begin-object [ member *( value-separator member ) ] end-object
member    = string name-separator value
array     = begin-array [ value *( value-separator value ) ] end-array
number    = [ minus ] int [ frac ] [ exp ]
int       = zero / ( digit1-9 *DIGIT )
frac      = decimal-point 1*DIGIT
exp       = e [ minus / plus ] 1*DIGIT
string    = quotation-mark *char quotation-mark
char      = unescaped / escape ( ["\/bfnrt] / ( u / U ) 4HEXDIG )
unescaped = %x20-21 / %x23-5B / %x5D-10FFFF
```

Brackets, braces, colons and commas take the blanks around them along.  A decimal point and an exponent marker commit
to a number: without digits after them the whole text is rejected.  The alternatives of a value start with different
characters, so one that fails after the first character is never followed by one that succeeds.
-/

namespace TableJson.Grammar

open Machine

/-- The tables of the grammar. -/
inductive Rule where
  | exp
  | frac
  | decimal
  | int
  | number
  | beginArray
  | endArray
  | beginObject
  | endObject
  | nameSeparator
  | valueSeparator
  | unescaped
  | unicode
  | escapedChar
  | escaped
  | char
  | string
  | value
  | member
  | nextMember
  | objectBody
  | object
  | nextValue
  | arrayBody
  | array
  | jsonText
deriving DecidableEq, Repr

/-- What a matching row means. -/
inductive Action where
  | beginJson
  | successEndJson
  | failedEndJson
  | falseValue
  | nullValue
  | trueValue
  | numberSign
  | numberIntegral
  | numberFrac
  | numberExp
  | numberValue
  | malformedNumber
  | stringValue
  | beginMember
  | endMember
  | beginObject
  | endObject
  | beginArray
  | endArray
deriving DecidableEq, Repr

/-! ## Character sets -/

/-- The blanks. -/
def blanks : String := " \t\n\r"

/-- The decimal digits. -/
def digits : String := "0123456789"

/-- The digits in base 16. -/
def hexDigits : String := "0123456789ABCDEFabcdef"

/-- Any number of blanks. -/
def anyBlanks : Matcher Rule := .repeatOneOf blanks 0 none

/-- Any number of digits. -/
def anyDigits : Matcher Rule := .repeatOneOf digits 0 none

/-- One digit or more. -/
def someDigits : Matcher Rule := .repeatOneOf digits 1 none

/-- The last character there is. -/
def lastChar : Char := Char.ofNat 0x10FFFF

/-! ## Tables -/

/-- One character with the blanks around it. -/
def punctuation (c : String) : List (Row Rule Action) := [
  { matcher := anyBlanks, onMatch := .row 1 },
  { matcher := .oneOf c, onMatch := .row 2 },
  { matcher := anyBlanks, status := .accept }]

/-- The rows of every table. -/
def rows : Program Rule Action
  | .exp => [
    { matcher := .oneOf "eE", onMatch := .row 1 },
    { matcher := .optOneOf "-+", onMatch := .row 2 },
    { matcher := someDigits, onFail := .row 3, status := .accept },
    { matcher := .nothing, status := .reject, action := some .malformedNumber }]
  | .frac => [
    { matcher := .oneOf ".", onMatch := .row 1 },
    { matcher := someDigits, onFail := .row 2, status := .accept },
    { matcher := .nothing, status := .reject, action := some .malformedNumber }]
  | .decimal => [
    { matcher := .oneOf "123456789", onMatch := .row 1 },
    { matcher := anyDigits, status := .accept }]
  | .int => [
    { matcher := .oneOf "0", onFail := .row 1, status := .accept },
    { matcher := .table .decimal, status := .accept }]
  | .number => [
    { matcher := .optOneOf "-", onMatch := .row 1, onFail := .row 1, action := some .numberSign },
    { matcher := .table .int, onMatch := .row 2, action := some .numberIntegral },
    { matcher := .optTable .frac, onMatch := .row 3, action := some .numberFrac },
    { matcher := .optTable .exp, status := .accept, action := some .numberExp }]
  | .beginArray => punctuation "["
  | .endArray => punctuation "]"
  | .beginObject => punctuation "\x7b"
  | .endObject => punctuation "\x7d"
  | .nameSeparator => punctuation ":"
  | .valueSeparator => punctuation ","
  | .unescaped => [
    { matcher := .range ' ' '!', onFail := .row 1, status := .accept },
    { matcher := .range '#' '[', onFail := .row 2, status := .accept },
    { matcher := .range ']' lastChar, status := .accept }]
  | .unicode => [
    { matcher := .oneOf "uU", onMatch := .row 1 },
    { matcher := .repeatOneOf hexDigits 4 (some 4), status := .accept }]
  | .escapedChar => [
    { matcher := .oneOf "\"\\/bfnrt", onFail := .row 1, status := .accept },
    { matcher := .table .unicode, status := .accept }]
  | .escaped => [
    { matcher := .oneOf "\\", onMatch := .row 1 },
    { matcher := .table .escapedChar, status := .accept }]
  | .char => [
    { matcher := .table .unescaped, onFail := .row 1, status := .accept },
    { matcher := .table .escaped, status := .accept }]
  | .string => [
    { matcher := .oneOf "\"", onMatch := .row 1 },
    { matcher := .repeatTable .char 0 none, onMatch := .row 2 },
    { matcher := .oneOf "\"", status := .accept }]
  | .value => [
    { matcher := .seq "false", onFail := .row 1, status := .accept, action := some .falseValue },
    { matcher := .seq "null", onFail := .row 2, status := .accept, action := some .nullValue },
    { matcher := .seq "true", onFail := .row 3, status := .accept, action := some .trueValue },
    { matcher := .table .number, onFail := .row 4, status := .accept, action := some .numberValue },
    { matcher := .table .string, onFail := .row 5, status := .accept, action := some .stringValue },
    { matcher := .table .object, onFail := .row 6, status := .accept },
    { matcher := .table .array, status := .accept }]
  | .member => [
    { matcher := .table .string, onMatch := .row 1, action := some .beginMember },
    { matcher := .table .nameSeparator, onMatch := .row 2 },
    { matcher := .table .value, status := .accept, action := some .endMember }]
  | .nextMember => [
    { matcher := .table .valueSeparator, onMatch := .row 1 },
    { matcher := .table .member, status := .accept }]
  | .objectBody => [
    { matcher := .table .member, onMatch := .row 1 },
    { matcher := .repeatTable .nextMember 0 none, status := .accept }]
  | .object => [
    { matcher := .table .beginObject, onMatch := .row 1, action := some .beginObject },
    { matcher := .optTable .objectBody, onMatch := .row 2 },
    { matcher := .table .endObject, status := .accept, action := some .endObject }]
  | .nextValue => [
    { matcher := .table .valueSeparator, onMatch := .row 1 },
    { matcher := .table .value, status := .accept }]
  | .arrayBody => [
    { matcher := .table .value, onMatch := .row 1 },
    { matcher := .repeatTable .nextValue 0 none, status := .accept }]
  | .array => [
    { matcher := .table .beginArray, onMatch := .row 1, action := some .beginArray },
    { matcher := .optTable .arrayBody, onMatch := .row 2 },
    { matcher := .table .endArray, status := .accept, action := some .endArray }]
  | .jsonText => [
    { matcher := .nothing, onMatch := .row 1, action := some .beginJson },
    { matcher := anyBlanks, onMatch := .row 2 },
    { matcher := .table .value, onMatch := .row 3, onFail := .row 5 },
    { matcher := anyBlanks, onMatch := .row 4 },
    { matcher := .nothing, status := .accept, action := some .successEndJson },
    { matcher := .nothing, status := .reject, action := some .failedEndJson }]

end TableJson.Grammar
