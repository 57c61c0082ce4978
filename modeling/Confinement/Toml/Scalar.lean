/-!
# TOML scalars

Strings in four forms, and the values that are written without quotes: truth values, integers,
floats, dates and times. Of floats and of dates and times only the form is kept; a number that is
too large for its kind is refused.
-/

namespace Confinement.Toml

/-- A value that contains no other. -/
inductive Scalar
  | string (text : String)
  | integer (n : Int)
  | float
  | bool (b : Bool)
  | time
  deriving DecidableEq, Repr

namespace Scalar

def isBlank (c : Char) : Bool := c == ' ' || c == '\t'

/-- Whether comments and strings on one line may contain `c`. -/
def isPrintable (c : Char) : Bool := c == '\t' || (0x20 ≤ c.toNat && c.toNat ≠ 0x7F)

/-- The rest of a text behind a line break that starts it. -/
def afterBreak? : List Char → Option (List Char)
  | '\n' :: rest => some rest
  | '\r' :: '\n' :: rest => some rest
  | _ => none

/-- The value of a digit of a base up to sixteen. -/
def digit? (base : Nat) (c : Char) : Option Nat :=
  let value :=
    if c.isDigit then c.toNat - '0'.toNat
    else if 'a' ≤ c ∧ c ≤ 'f' then c.toNat - 'a'.toNat + 10
    else if 'A' ≤ c ∧ c ≤ 'F' then c.toNat - 'A'.toNat + 10
    else base
  if value < base then some value else none

def digits? (base : Nat) (cs : List Char) : Option Nat :=
  cs.foldlM (fun n c => (digit? base c).map (n * base + ·)) 0

/-- The character with a number, if there is one. -/
def numbered? (n : Nat) : Option Char :=
  if h : n.isValidChar then some (Char.ofNatAux n h) else none

def shortEscape? : Char → Option Char
  | 'b' => some '\x08'
  | 't' => some '\t'
  | 'n' => some '\n'
  | 'f' => some '\x0c'
  | 'r' => some '\r'
  | 'e' => some '\x1b'
  | '"' => some '"'
  | '\\' => some '\\'
  | _ => none

/-- How many digits follow the letter of a numeric escape. -/
def escapeWidth? : Char → Option Nat
  | 'x' => some 2
  | 'u' => some 4
  | 'U' => some 8
  | _ => none

/-- The character of an escape, behind the backslash. -/
def escape? : List Char → Option (Char × List Char)
  | [] => none
  | c :: rest =>
    match shortEscape? c with
    | some d => some (d, rest)
    | none => do
      let width ← escapeWidth? c
      let digits := rest.take width
      if digits.length = width then
        let n ← digits? 16 digits
        let d ← numbered? n
        some (d, rest.drop width)
      else none

def passLines : List Char → List Char
  | ' ' :: rest => passLines rest
  | '\t' :: rest => passLines rest
  | '\n' :: rest => passLines rest
  | '\r' :: '\n' :: rest => passLines rest
  | s => s

/-- The rest behind a backslash that ends a line, with the white space after it. -/
def afterContinuation? (s : List Char) : Option (List Char) :=
  (afterBreak? (s.dropWhile isBlank)).map passLines

/-- Reads a string on one line, behind its opening quote. -/
def basic : Nat → List Char → List Char → Option (List Char × List Char)
  | 0, _, _ => none
  | _, _, [] => none
  | fuel + 1, text, c :: rest =>
    if c = '"' then some (text.reverse, rest)
    else if c = '\\' then
      match escape? rest with
      | some (d, rest) => basic fuel (d :: text) rest
      | none => none
    else if isPrintable c then basic fuel (c :: text) rest
    else none

/-- Reads a literal string on one line, behind its opening quote. -/
def literal (text : List Char) : List Char → Option (List Char × List Char)
  | [] => none
  | c :: rest =>
    if c = '\'' then some (text.reverse, rest)
    else if isPrintable c then literal (c :: text) rest
    else none

/-- The quotes at the start of a text. Three of them end a string of several lines, and up to two
more before them belong to it. -/
def closing? (quote : Char) (s : List Char) : Option (List Char × List Char) :=
  let n := (s.takeWhile (· = quote)).length
  if n < 3 then none
  else
    let inner := min (n - 3) 2
    some (List.replicate inner quote, s.drop (inner + 3))

/-- Reads a string of several lines, behind its opening quotes. -/
def basicLines : Nat → List Char → List Char → Option (List Char × List Char)
  | 0, _, _ => none
  | _, _, [] => none
  | fuel + 1, text, c :: rest =>
    if c = '"' then
      match closing? '"' (c :: rest) with
      | some (inner, rest) => some (text.reverse ++ inner, rest)
      | none => basicLines fuel (c :: text) rest
    else if c = '\\' then
      match escape? rest, afterContinuation? rest with
      | some (d, rest), _ => basicLines fuel (d :: text) rest
      | none, some rest => basicLines fuel text rest
      | none, none => none
    else if c = '\r' then
      if rest.head? = some '\n' then basicLines fuel (c :: text) rest else none
    else if isPrintable c ∨ c = '\n' then basicLines fuel (c :: text) rest
    else none

/-- Reads a literal string of several lines, behind its opening quotes. -/
def literalLines : Nat → List Char → List Char → Option (List Char × List Char)
  | 0, _, _ => none
  | _, _, [] => none
  | fuel + 1, text, c :: rest =>
    if c = '\'' then
      match closing? '\'' (c :: rest) with
      | some (inner, rest) => some (text.reverse ++ inner, rest)
      | none => literalLines fuel (c :: text) rest
    else if c = '\r' then
      if rest.head? = some '\n' then literalLines fuel (c :: text) rest else none
    else if isPrintable c ∨ c = '\n' then literalLines fuel (c :: text) rest
    else none

/-- A line break right behind the opening quotes does not count. -/
def dropFirstBreak (s : List Char) : List Char := (afterBreak? s).getD s

def lineString? : List Char → Option (List Char × List Char)
  | '"' :: rest => basic (rest.length + 1) [] rest
  | '\'' :: rest => literal [] rest
  | _ => none

def string? (s : List Char) : Option (List Char × List Char) :=
  match s with
  | '"' :: '"' :: '"' :: rest => basicLines (rest.length + 1) [] (dropFirstBreak rest)
  | '\'' :: '\'' :: '\'' :: rest => literalLines (rest.length + 1) [] (dropFirstBreak rest)
  | s => lineString? s

/-- The digits of a number, without the lines between them. A line stands between two digits. -/
def groups? (isDigit : Char → Bool) : List Char → Option (List Char)
  | [] => none
  | [c] => if isDigit c then some [c] else none
  | c :: '_' :: rest =>
    if isDigit c then (groups? isDigit rest).map (c :: ·) else none
  | c :: rest => if isDigit c then (groups? isDigit rest).map (c :: ·) else none

/-- The value of a decimal number, without a leading zero. -/
def decimal? (s : List Char) : Option Nat := do
  let ds ← groups? Char.isDigit s
  if ds.head? = some '0' ∧ 1 < ds.length then none else digits? 10 ds

def based? (base : Nat) (s : List Char) : Option Nat := do
  let ds ← groups? (fun c => (digit? base c).isSome) s
  digits? base ds

def sign : List Char → Int × List Char
  | '+' :: rest => (1, rest)
  | '-' :: rest => (-1, rest)
  | s => (1, s)

/-- The numbers that an integer may be, in words of 128 bits with and without a sign. -/
def isInteger : Int → Bool
  | .ofNat n => n < 1 <<< 128
  | .negSucc n => n < 1 <<< 127

def integer? (s : List Char) : Option Int := do
  let n ← match s with
    | '0' :: 'x' :: rest => (based? 16 rest).map Int.ofNat
    | '0' :: 'o' :: rest => (based? 8 rest).map Int.ofNat
    | '0' :: 'b' :: rest => (based? 2 rest).map Int.ofNat
    | _ =>
      let (factor, rest) := sign s
      (decimal? rest).map fun n => factor * n
  if isInteger n then some n else none

/-- Whether `m` times ten to the power `e` is too large for a float of 64 bits. -/
def isTooLarge (m : Nat) (e : Int) : Bool :=
  if m = 0 then false
  else if 400 < e then true
  else if e < -(m.repr.length : Int) then false
  else
    let limit := (1 <<< 54 - 1) <<< 970
    if 0 ≤ e then limit ≤ m * Nat.pow 10 e.toNat else limit * Nat.pow 10 (-e).toNat ≤ m

/-- The exponent of a float, behind its letter. -/
def exponent? (s : List Char) : Option Int := do
  let (factor, rest) := sign s
  let ds ← groups? Char.isDigit rest
  let n ← digits? 10 ds
  some (factor * n)

def cutAt (p : Char → Bool) (s : List Char) : List Char × Option (List Char) :=
  match s.dropWhile fun c => !p c with
  | [] => (s, none)
  | _ :: after => (s.takeWhile fun c => !p c, some after)

/-- Whether a text is a float: a point, an exponent or both, or the words for the special ones. -/
def isFloat (s : List Char) : Bool :=
  let rest := (sign s).2
  if rest = "inf".toList ∨ rest = "nan".toList then true
  else
    let (base, exponent) := cutAt (fun c => c == 'e' || c == 'E') rest
    let (whole, fraction) := cutAt (· == '.') base
    let parts : Option (Nat × Int) := do
      let _ ← decimal? whole
      let wholeDigits ← groups? Char.isDigit whole
      let fractionDigits ← match fraction with
        | some f => groups? Char.isDigit f
        | none => some []
      let e ← match exponent with
        | some e => exponent? e
        | none => some 0
      let m ← digits? 10 (wholeDigits ++ fractionDigits)
      some (m, e - fractionDigits.length)
    match parts with
    | some (m, e) => (fraction.isSome || exponent.isSome) && !isTooLarge m e
    | none => false

def fixed? (n : Nat) (s : List Char) : Option (Nat × List Char) :=
  let ds := s.take n
  if ds.length = n then (digits? 10 ds).map fun v => (v, s.drop n) else none

def expect? (c : Char) : List Char → Option (List Char)
  | d :: rest => if c = d then some rest else none
  | [] => none

def isLeapYear (y : Nat) : Bool := y % 4 = 0 && (y % 100 ≠ 0 || y % 400 = 0)

def daysInMonth (year month : Nat) : Nat :=
  if month = 2 then if isLeapYear year then 29 else 28
  else if [4, 6, 9, 11].contains month then 30
  else 31

def afterDate? (s : List Char) : Option (List Char) := do
  let (year, s) ← fixed? 4 s
  let s ← expect? '-' s
  let (month, s) ← fixed? 2 s
  let s ← expect? '-' s
  let (day, s) ← fixed? 2 s
  if 1 ≤ month ∧ month ≤ 12 ∧ 1 ≤ day ∧ day ≤ daysInMonth year month then some s else none

/-- The rest behind the seconds and their fraction, which may be missing. -/
def afterSeconds? (s : List Char) : Option (List Char) :=
  match s with
  | ':' :: s => do
    let (second, s) ← fixed? 2 s
    if 60 < second then none
    else match s with
      | '.' :: s =>
        if (s.head?.any Char.isDigit) then some (s.dropWhile Char.isDigit) else none
      | s => some s
  | s => some s

/-- The rest behind a time of the day. -/
def afterTime? (s : List Char) : Option (List Char) := do
  let (hour, s) ← fixed? 2 s
  let s ← expect? ':' s
  let (minute, s) ← fixed? 2 s
  if hour ≤ 23 ∧ minute ≤ 59 then afterSeconds? s else none

/-- Whether a text is a distance from universal time, or nothing. -/
def isOffset : List Char → Bool
  | [] => true
  | ['Z'] => true
  | ['z'] => true
  | c :: s =>
    if c = '+' ∨ c = '-' then
      match fixed? 2 s with
      | some (hour, ':' :: s) =>
        match fixed? 2 s with
        | some (minute, []) => hour * 60 + minute ≤ 24 * 60 && minute ≤ 59
        | _ => false
      | _ => false
    else false

/-- Whether `c` stands between a date and a time. -/
def isDateEnd (c : Char) : Bool := c == 'T' || c == 't' || c == ' '

def isTime (s : List Char) : Bool :=
  match afterDate? s with
  | some [] => true
  | some (c :: rest) => isDateEnd c && (afterTime? rest).any isOffset
  | none => (afterTime? s).any (· = [])

def bare? (s : List Char) : Option Scalar :=
  if s = "true".toList then some (.bool true)
  else if s = "false".toList then some (.bool false)
  else match integer? s with
    | some n => some (.integer n)
    | none => if isTime s then some .time else if isFloat s then some .float else none

def isBare (c : Char) : Bool := c.isAlphanum || "+-_.:".toList.contains c

/-- Cuts a text without quotes off. A blank between a date and a time belongs to it. -/
def bareText (s : List Char) : List Char × List Char :=
  let text := s.takeWhile isBare
  let rest := s.dropWhile isBare
  match rest with
  | ' ' :: d :: more =>
    if d.isDigit ∧ afterDate? text = some [] then
      (text ++ ' ' :: (d :: more).takeWhile isBare, (d :: more).dropWhile isBare)
    else (text, rest)
  | _ => (text, rest)

def read (s : List Char) : Option (Scalar × List Char) :=
  match s with
  | '"' :: _ => (string? s).map fun (text, rest) => (.string (String.ofList text), rest)
  | '\'' :: _ => (string? s).map fun (text, rest) => (.string (String.ofList text), rest)
  | _ =>
    let (text, rest) := bareText s
    (bare? text).map fun v => (v, rest)

end Scalar

end Confinement.Toml
