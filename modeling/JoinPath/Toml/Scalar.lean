import JoinPath.Timestamp.Basic
import JoinPath.Toml.Text
import JoinPath.Toml.Value
/-!
# TOML scalars

Numbers, booleans and dates are words without quotes. Each word is taken as a whole and then told
apart by its form.
-/

namespace JoinPath.Toml

/-- Digits with single underscores between them, and the digits alone. -/
def plainDigits? (isDigit : Char → Bool) : List Char → Option (List Char)
  | [c] => if isDigit c then some [c] else none
  | c :: '_' :: rest =>
    if isDigit c then (plainDigits? isDigit rest).map (c :: ·) else none
  | c :: rest => if isDigit c then (plainDigits? isDigit rest).map (c :: ·) else none
  | [] => none

/-- Decimal digits that do not begin with a zero, unless it is all there is. -/
def wholeDigits? (text : List Char) : Option (List Char) :=
  match plainDigits? isDecimalDigit text with
  | some ('0' :: _ :: _) => none
  | digits => digits

def boundedInt? (n : Int) : Option Toml := (int64OfInt? n).map .integer

/-- A number in hexadecimal, octal or binary digits, which has no sign. -/
def basedInt? (base : Nat) (isDigit : Char → Bool) (text : List Char) : Option Toml := do
  boundedInt? (natOfDigits base (← plainDigits? isDigit text))

def isOctalDigit (c : Char) : Bool := '0' ≤ c && c ≤ '7'

def isBinaryDigit (c : Char) : Bool := c == '0' || c == '1'

/-- The exponent of a float, with its letter. -/
def floatExponent? : List Char → Option Int
  | 'e' :: rest | 'E' :: rest => do
    let (negative, rest) := Decimal.sign rest
    let n := natOfDigits 10 (← plainDigits? isDecimalDigit rest)
    some (if negative then -n else n)
  | _ => none

def isDigitOrUnderscore (c : Char) : Bool := isDecimalDigit c || c == '_'

/-- A decimal with a fraction or an exponent. A float that is too large is refused, except below
zero, where it is the infinity. -/
def decimalFloat? (negative : Bool) (text : List Char) : Option Toml := do
  let whole ← wholeDigits? (text.takeWhile isDigitOrUnderscore)
  let (part, exponent) ← match text.dropWhile isDigitOrUnderscore with
    | '.' :: rest => do
      let part ← plainDigits? isDecimalDigit (rest.takeWhile isDigitOrUnderscore)
      match rest.dropWhile isDigitOrUnderscore with
      | [] => some (part, 0)
      | rest => (floatExponent? rest).map fun e => (part, e)
    | rest => (floatExponent? rest).map fun e => ([], e)
  let x := Decimal.toBinary64 ⟨negative, natOfDigits 10 (whole ++ part), exponent - part.length⟩
  if x = .infinity false then none else some (.float x)

/-- A word that begins with a digit or a sign and is no date. -/
def number? (word : List Char) : Option Toml :=
  let (negative, rest) := Decimal.sign word
  match word with
  | '0' :: 'x' :: digits => basedInt? 16 isHexDigit digits
  | '0' :: 'o' :: digits => basedInt? 8 isOctalDigit digits
  | '0' :: 'b' :: digits => basedInt? 2 isBinaryDigit digits
  | _ =>
    if rest = "inf".toList then some (.float (.infinity negative))
    else if rest = "nan".toList then some (.float .nan)
    else match wholeDigits? rest with
      | some digits =>
        let n : Int := natOfDigits 10 digits
        boundedInt? (if negative then -n else n)
      | none => decimalFloat? negative rest

/-! ## Dates -/

/-- The number of two digits, if it is not too large. -/
def twoDigits? (most : Nat) (a b : Char) : Option Nat :=
  let n := natOfDigits 10 [a, b]
  if isDecimalDigit a ∧ isDecimalDigit b ∧ n ≤ most then some n else none

/-- Whether four, two and two digits are a day of the calendar. -/
def isDate (year month day : List Char) : Bool :=
  (year ++ month ++ day).all isDecimalDigit &&
    decide (Calendar.IsDate (natOfDigits 10 year) (natOfDigits 10 month) (natOfDigits 10 day))

/-- Reads a date, which has only one form. -/
def date? : List Char → Option (List Char × List Char)
  | y₁ :: y₂ :: y₃ :: y₄ :: '-' :: m₁ :: m₂ :: '-' :: d₁ :: d₂ :: rest =>
    if isDate [y₁, y₂, y₃, y₄] [m₁, m₂] [d₁, d₂] then
      some ([y₁, y₂, y₃, y₄, '-', m₁, m₂, '-', d₁, d₂], rest)
    else none
  | _ => none

/-- The fraction of a second in normal form: at most nine digits, the last of them no zero. -/
def normalFraction (digits : List Char) : List Char :=
  match ((digits.take 9).reverse.dropWhile (· == '0')).reverse with
  | [] => []
  | digits => '.' :: digits

/-- Reads a fraction of a second, or nothing, before an offset. -/
def fraction? : List Char → Option (List Char × List Char)
  | '.' :: rest =>
    match rest.takeWhile isDecimalDigit with
    | [] => none
    | digits => some (normalFraction digits, rest.dropWhile isDecimalDigit)
  | rest => some ([], rest)

/-- Reads a time of day. Second 60 is allowed at any time. -/
def time? : List Char → Option (List Char × List Char)
  | h₁ :: h₂ :: ':' :: m₁ :: m₂ :: ':' :: s₁ :: s₂ :: rest => do
    let _ ← twoDigits? 23 h₁ h₂
    let _ ← twoDigits? 59 m₁ m₂
    let _ ← twoDigits? 60 s₁ s₂
    let (fraction, rest) ← fraction? rest
    some ([h₁, h₂, ':', m₁, m₂, ':', s₁, s₂] ++ fraction, rest)
  | _ => none

/-- The offset of a time zone in normal form, or nothing. No offset is a negative zero. -/
def offset? : List Char → Option (List Char)
  | [] => some []
  | ['Z'] | ['z'] => some ['Z']
  | [sign, h₁, h₂, ':', m₁, m₂] => do
    if sign ≠ '+' ∧ sign ≠ '-' then none
    let hours ← twoDigits? 23 h₁ h₂
    let minutes ← twoDigits? 59 m₁ m₂
    some [if hours = 0 ∧ minutes = 0 then '+' else sign, h₁, h₂, ':', m₁, m₂]
  | _ => none

def isDateSeparator (c : Char) : Bool := c == 'T' || c == 't' || c == ' '

/-- The normal form of a date, a time, or a date and a time with or without an offset. -/
def datetime? (word : List Char) : Option (List Char) :=
  match date? word with
  | some (date, []) => some date
  | some (date, separator :: text) => do
    if !isDateSeparator separator then none
    let (time, rest) ← time? text
    some (date ++ 'T' :: time ++ (← offset? rest))
  | none => (time? word).bind fun (time, rest) => if rest = [] then some time else none

/-! ## Words -/

def isWordChar (c : Char) : Bool := isBareKeyChar c || c == '+' || c == '.' || c == ':'

/-- Whether a word may be a date that a space and a time follow. -/
def isFullDate (word : List Char) : Bool := (date? word).any fun (_, rest) => rest == []

/-- Reads a word; a date and a time may have a space between them. -/
def word (text : List Char) : List Char × List Char :=
  let found := text.takeWhile isWordChar
  match text.dropWhile isWordChar with
  | ' ' :: c :: rest =>
    if isFullDate found ∧ isDecimalDigit c then
      (found ++ ' ' :: (c :: rest).takeWhile isWordChar, (c :: rest).dropWhile isWordChar)
    else (found, ' ' :: c :: rest)
  | rest => (found, rest)

/-- The value of a word. -/
def scalarOfWord? (w : List Char) : Option Toml :=
  if w = "true".toList then some (.boolean true)
  else if w = "false".toList then some (.boolean false)
  else match datetime? w with
    | some text => some (.datetime (.ofList text))
    | none => number? w

/-- Reads a value that is a word. -/
def scalar? (text : List Char) : Option (Toml × List Char) :=
  let (w, rest) := word text
  (scalarOfWord? w).map fun v => (v, rest)

end JoinPath.Toml
