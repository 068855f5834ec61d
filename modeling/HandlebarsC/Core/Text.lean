import HandlebarsC.Core.Map

/-!
The functions on strings and numbers that templates and values are printed with.
-/

namespace HandlebarsC

/-- The bits of a `double`. -/
abbrev Double := UInt64

/-- What the code takes from the C library and from `handlebars_string_hash`. -/
structure Platform where
  hash : StringHash
  /-- `strtol` of a number that `strtod` reads as the same nonzero value. -/
  numberLong : Str → Option Int
  /-- `sscanf(string, "%10ld")` -/
  scanLong10 : Str → Int
  /-- `%g` -/
  formatDouble : Double → Str

namespace Double

def magnitude (double : Double) : UInt64 := double &&& 0x7fffffffffffffff

def isZero (double : Double) : Bool := magnitude double == 0

def isNan (double : Double) : Bool := 0x7ff0000000000000 < magnitude double

/-- `==` -/
def same (left right : Double) : Bool :=
  !isNan left && !isNan right && (left == right || (isZero left && isZero right))

end Double

/-- `%ld` -/
def formatLong : Int → Str
  | .ofNat number => decimal number
  | .negSucc number => bytes "-" ++ decimal (number + 1)

/-- What `sscanf(string, "%ld", &index)` does. -/
inductive ScanResult where
  | eof
  | mismatch
  | number (value : Int)
  deriving DecidableEq, Repr

def isSpace (char : UInt8) : Bool := char == 32 || (9 ≤ char && char ≤ 13)

def isDigit (char : UInt8) : Bool := 48 ≤ char && char ≤ 57

def digitsValue (digits : Str) : Nat :=
  digits.foldl (fun value digit => value * 10 + (digit.toNat - 48)) 0

/-- `strtol` saturates. -/
def clampLong (value : Int) : Int := max (-(2 ^ 63)) (min value (2 ^ 63 - 1))

def scanDigits (sign : Int) (text : Str) : ScanResult :=
  match text.takeWhile isDigit with
  | [] => .mismatch
  | digits => .number (clampLong (sign * digitsValue digits))

def scanLong (text : Str) : ScanResult :=
  match text.dropWhile isSpace with
  | [] => .eof
  | char :: rest =>
    if char = 45 then scanDigits (-1) rest
    else if char = 43 then scanDigits 1 rest
    else scanDigits 1 (char :: rest)

/-- The C string at the start of a text, which its first NUL byte ends. -/
def cstring (text : Str) : Str := text.takeWhile (· != 0)

/-- `handlebars_string_truncate`. There is no result where the length would wrap around. -/
def truncate (string : Str) (start stop : Nat) : Option Str :=
  let string := if stop < string.length then string.take stop else string
  if start ≤ string.length then some (string.drop start) else none

/-- `htmlspecialchars` -/
def htmlspecialchar (char : UInt8) : Str :=
  if char = 38 then bytes "&amp;"
  else if char = 34 then bytes "&quot;"
  else if char = 39 then bytes "&#x27;"
  else if char = 60 then bytes "&lt;"
  else if char = 62 then bytes "&gt;"
  else if char = 96 then bytes "&#x60;"
  else [char]

/-- `handlebars_string_htmlspecialchars_append` -/
def htmlspecialchars (text : Str) : Str := text.flatMap htmlspecialchar

/-- `handlebars_string_indent`. The byte before an empty text is not a line end. -/
def indentText (text indent : Str) : Str :=
  let endsInLine := text.getLast? = some 10
  let body := if endsInLine then text.dropLast else text
  indent ++ body.flatMap (fun char => if char = 10 then 10 :: indent else [char]) ++
    (if endsInLine then [10] else [])

end HandlebarsC
