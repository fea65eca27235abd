import Agmem.Json.Number

/-! JSON and its text. Values are printed without whitespace, with the short escapes where there
are any; a reader takes whitespace between the tokens, every escape, and no more nesting than it
is given. A number is kept as it is written, and an object as the list of its members, in order
and with their repetitions. -/

namespace Agmem.Json

def quote : Char := Char.ofNat 34

def backslash : Char := Char.ofNat 92

def leftBrace : Char := Char.ofNat 123

def rightBrace : Char := Char.ofNat 125

/-! ### Strings -/

def hexDigits : List Char :=
  ['0', '1', '2', '3', '4', '5', '6', '7', '8', '9', 'a', 'b', 'c', 'd', 'e', 'f']

def hexDigit (n : ℕ) : Char := hexDigits.getD n '0'

def hexValue (c : Char) : Option ℕ :=
  if '0' ≤ c ∧ c ≤ '9' then some (c.toNat - 48)
  else if 'a' ≤ c ∧ c ≤ 'f' then some (c.toNat - 87)
  else if 'A' ≤ c ∧ c ≤ 'F' then some (c.toNat - 55)
  else none

/-- The escapes of one letter, with what they stand for. -/
def short : List (Char × Char) :=
  [(quote, quote), (backslash, backslash), ('b', Char.ofNat 8), ('f', Char.ofNat 12),
    ('n', Char.ofNat 10), ('r', Char.ofNat 13), ('t', Char.ofNat 9)]

def escape (c : Char) : Chars :=
  match short.find? fun entry => decide (entry.2 = c) with
  | some entry => [backslash, entry.1]
  | none =>
    if c.toNat < 32 then
      [backslash, 'u', '0', '0', hexDigit (c.toNat / 16), hexDigit (c.toNat % 16)]
    else [c]

def printString (text : Chars) : Chars := quote :: text.flatMap escape ++ [quote]

def readHex : Chars → Option (ℕ × Chars)
  | a :: b :: c :: d :: text =>
    match hexValue a, hexValue b, hexValue c, hexValue d with
    | some a, some b, some c, some d => some (((a * 16 + b) * 16 + c) * 16 + d, text)
    | _, _, _, _ => none
  | _ => none

def isLeading (n : ℕ) : Bool := decide (0xD800 ≤ n ∧ n ≤ 0xDBFF)

def isTrailing (n : ℕ) : Bool := decide (0xDC00 ≤ n ∧ n ≤ 0xDFFF)

/-- What follows `\u`: a character, or the two halves of one. -/
def readUnicode (text : Chars) : Option (Char × Chars) :=
  match readHex text with
  | none => none
  | some (n, text) =>
    if isTrailing n then none
    else if isLeading n then
      match text with
      | slash :: u :: text =>
        if slash = backslash ∧ u = 'u' then
          match readHex text with
          | none => none
          | some (m, text) =>
            if isTrailing m then
              some (Char.ofNat (0x10000 + (n - 0xD800) * 0x400 + (m - 0xDC00)), text)
            else none
        else none
      | _ => none
    else some (Char.ofNat n, text)

/-- What follows a backslash. -/
def readEscape : Chars → Option (Char × Chars)
  | [] => none
  | c :: text =>
    if c = 'u' then readUnicode text
    else if c = '/' then some (c, text)
    else (short.lookup c).map fun meant => (meant, text)

/-- The rest of a string, up to its closing quote; `fuel` bounds its characters. -/
def readString : ℕ → Chars → Option (Chars × Chars)
  | 0, _ => none
  | _ + 1, [] => none
  | fuel + 1, c :: text =>
    if c = quote then some ([], text)
    else if c = backslash then
      match readEscape text with
      | none => none
      | some (c, text) => (readString fuel text).map fun read => (c :: read.1, read.2)
    else if c.toNat < 32 then none
    else (readString fuel text).map fun read => (c :: read.1, read.2)

end Agmem.Json

namespace Agmem

/-! ### Values -/

inductive Json where
  | null
  | bool (b : Bool)
  | num (n : Json.Number)
  | str (text : List Char)
  | arr (elements : List Json)
  | obj (members : List (List Char × Json))

end Agmem

namespace Agmem.Json

mutual

/-- `serde_json::to_string` -/
def print : Json → Chars
  | .null => ['n', 'u', 'l', 'l']
  | .bool true => ['t', 'r', 'u', 'e']
  | .bool false => ['f', 'a', 'l', 's', 'e']
  | .num n => n.text
  | .str text => printString text
  | .arr elements => '[' :: printElements elements ++ [']']
  | .obj members => leftBrace :: printMembers members ++ [rightBrace]

def printElements : List Json → Chars
  | [] => []
  | [v] => print v
  | v :: elements => print v ++ ',' :: printElements elements

def printMembers : List (Chars × Json) → Chars
  | [] => []
  | [(key, v)] => printString key ++ ':' :: print v
  | (key, v) :: members => printString key ++ ':' :: print v ++ ',' :: printMembers members

end

def isSpace (c : Char) : Bool := decide (c = ' ' ∨ c = '\n' ∨ c = '\t' ∨ c = '\r')

def skip (text : Chars) : Chars := text.dropWhile isSpace

/-- The rest of a word of the grammar. -/
def readWord : Chars → Chars → Option Chars
  | [], text => some text
  | _ :: _, [] => none
  | w :: word, c :: text => if w = c then readWord word text else none

mutual

/-- A value; `depth` is how much deeper the reader may go, and `fuel` bounds the steps. -/
def readValue : ℕ → ℕ → Chars → Option (Json × Chars)
  | 0, _, _ => none
  | fuel + 1, depth, text =>
    match skip text with
    | [] => none
    | c :: text =>
      if c = quote then (readString fuel text).map fun read => (.str read.1, read.2)
      else if c = '[' then
        if depth ≤ 1 then none
        else
          match skip text with
          | [] => none
          | d :: rest =>
            if d = ']' then some (.arr [], rest)
            else (readElements fuel (depth - 1) (d :: rest)).map fun read => (.arr read.1, read.2)
      else if c = leftBrace then
        if depth ≤ 1 then none
        else
          match skip text with
          | [] => none
          | d :: rest =>
            if d = rightBrace then some (.obj [], rest)
            else (readMembers fuel (depth - 1) (d :: rest)).map fun read => (.obj read.1, read.2)
      else if c = 'n' then (readWord ['u', 'l', 'l'] text).map fun rest => (.null, rest)
      else if c = 't' then (readWord ['r', 'u', 'e'] text).map fun rest => (.bool true, rest)
      else if c = 'f' then (readWord ['a', 'l', 's', 'e'] text).map fun rest => (.bool false, rest)
      else
        match h : readNumber (c :: text) with
        | none => none
        | some (number, rest) => some (.num ⟨number, readNumber_self h⟩, rest)

/-- The elements of an array that has one, and its bracket. -/
def readElements : ℕ → ℕ → Chars → Option (List Json × Chars)
  | 0, _, _ => none
  | fuel + 1, depth, text =>
    match readValue fuel depth text with
    | none => none
    | some (v, text) =>
      match skip text with
      | [] => none
      | c :: text =>
        if c = ']' then some ([v], text)
        else if c = ',' then
          (readElements fuel depth text).map fun read => (v :: read.1, read.2)
        else none

/-- The members of an object that has one, and its brace. -/
def readMembers : ℕ → ℕ → Chars → Option (List (Chars × Json) × Chars)
  | 0, _, _ => none
  | fuel + 1, depth, text =>
    match skip text with
    | [] => none
    | c :: text =>
      if c = quote then
        match readString fuel text with
        | none => none
        | some (key, text) =>
          match skip text with
          | [] => none
          | d :: text =>
            if d = ':' then
              match readValue fuel depth text with
              | none => none
              | some (v, text) =>
                match skip text with
                | [] => none
                | e :: text =>
                  if e = rightBrace then some ([(key, v)], text)
                  else if e = ',' then
                    (readMembers fuel depth text).map fun read => ((key, v) :: read.1, read.2)
                  else none
            else none
      else none

end

/-- How deep a reader goes. -/
def RECURSION_LIMIT : ℕ := 128

/-- `serde_json::from_str`: one value, with nothing but whitespace around it. -/
def parse (text : Chars) : Option Json :=
  match readValue (text.length + 1) RECURSION_LIMIT text with
  | none => none
  | some (v, rest) => if skip rest = [] then some v else none

example : parse [' ', 'n', 'u', 'l', 'l', '\n'] = some .null := by
  rw [parse, readValue]
  rfl

end Agmem.Json
