import RangeAdvisor.Json.Basic

/-!
# Reading JSON text

The grammar of RFC 8259, read strictly: blanks are space, tab, line feed and carriage return; a
number has no leading zero, a point needs a digit after it and so does an exponent; a string holds
no raw control character. After the value only blanks may follow. Numbers are kept as written
(`Numeral`).

A `\u` escape of a surrogate must pair a high one with a low one for the string to be text. A
strict reading refuses a text with an unpaired one; a lenient reading keeps the string, and any
object with such a key, as `Json.unpaired`, which a reader of documents may skip but not use.

A strict reading lets at most `maxNesting` arrays and objects be open at once. A lenient reading
sets no such limit: a reader of documents checks the values it skips for grammar only, and the
values it uses nest only a few levels. The recursion is bounded by a fuel for values, which
`Json.readText` starts at the length of the text and each level of nesting lowers by one, and by a
width for the members of one array or object, which starts at the fuel left at that level. Neither
runs out on a text of that length: each level opens with a character, and each member takes one.
-/

namespace RangeAdvisor.Json

/-- Why a text is not a JSON value. -/
inductive ReadError where
  | unexpectedEnd
  | unexpected (c : Char)
  | badNumber
  | badEscape
  | loneSurrogate
  | controlCharacter
  | trailing
  | tooDeep
  | tooLong
  deriving DecidableEq

/-- Drops leading blanks. -/
def skipBlank : List Char → List Char
  | [] => []
  | c :: cs => if c = ' ' ∨ c = '\t' ∨ c = '\n' ∨ c = '\r' then skipBlank cs else c :: cs

/-- The value of a hexadecimal digit. -/
def hexDigit (c : Char) : Option Nat :=
  if '0' ≤ c ∧ c ≤ '9' then some (c.toNat - '0'.toNat)
  else if 'a' ≤ c ∧ c ≤ 'f' then some (c.toNat - 'a'.toNat + 10)
  else if 'A' ≤ c ∧ c ≤ 'F' then some (c.toNat - 'A'.toNat + 10)
  else none

/-- The value of four hexadecimal digits. -/
def hex4 (a b c d : Char) : Option Nat := do
  pure ((← hexDigit a) * 4096 + (← hexDigit b) * 256 + (← hexDigit c) * 16 + (← hexDigit d))

/-- The character of a simple escape `\x`. -/
def simpleEscape : Char → Option Char
  | '"' => some '"'
  | '\\' => some '\\'
  | '/' => some '/'
  | 'b' => some (Char.ofNat 8)
  | 'f' => some (Char.ofNat 12)
  | 'n' => some '\n'
  | 'r' => some '\r'
  | 't' => some '\t'
  | _ => none

/-- A pending high surrogate that no low one follows: an error unless `lenient`, when the string
stops being text. -/
def closeHigh (lenient : Bool) (high : Option Nat) (whole : Bool) : Except ReadError Bool :=
  match high with
  | none => .ok whole
  | some _ => if lenient then .ok false else .error .loneSurrogate

/-- The code unit `n` of a `\u` escape with no high surrogate pending: a high surrogate waits for
its low half, a low one is unpaired, any other unit is a character. -/
def startUnit (lenient : Bool) (n : Nat) (acc : List Char) (whole : Bool) :
    Except ReadError (List Char × Option Nat × Bool) :=
  if 0xD800 ≤ n ∧ n ≤ 0xDBFF then .ok (acc, some n, whole)
  else if 0xDC00 ≤ n ∧ n ≤ 0xDFFF then
    if lenient then .ok (acc, none, false) else .error .loneSurrogate
  else .ok (Char.ofNat n :: acc, none, whole)

/-- The code unit `n` of a `\u` escape: a low surrogate completes a pending high one into one
character; otherwise a pending high surrogate is unpaired and `n` starts afresh. -/
def takeUnit (lenient : Bool) (n : Nat) (acc : List Char) (high : Option Nat) (whole : Bool) :
    Except ReadError (List Char × Option Nat × Bool) :=
  match high with
  | some hi =>
    if 0xDC00 ≤ n ∧ n ≤ 0xDFFF then
      .ok (Char.ofNat (0x10000 + (hi - 0xD800) * 0x400 + (n - 0xDC00)) :: acc, none, whole)
    else if lenient then startUnit lenient n acc false
    else .error .loneSurrogate
  | none => startUnit lenient n acc whole

/-- Reads the rest of a string after its opening quote. `acc` holds the characters so far, last
first; `high` a high surrogate waiting for its low half; `whole` says whether every surrogate so
far was paired. An unpaired surrogate is an error unless `lenient`; the string then reads as
`none`. -/
def readString (lenient : Bool) : List Char → List Char → Option Nat → Bool →
    Except ReadError (Option String × List Char)
  | [], _, _, _ => .error .unexpectedEnd
  | '\\' :: 'u' :: a :: b :: c :: d :: rest, acc, high, whole =>
    match hex4 a b c d with
    | none => .error .badEscape
    | some n =>
      match takeUnit lenient n acc high whole with
      | .ok (acc, high, whole) => readString lenient rest acc high whole
      | .error e => .error e
  | c :: rest, acc, high, whole =>
    match closeHigh lenient high whole with
    | .error e => .error e
    | .ok whole =>
      if c = '"' then .ok (if whole then some (String.ofList acc.reverse) else none, rest)
      else if c = '\\' then
        match rest with
        | e :: more =>
          match simpleEscape e with
          | some x => readString lenient more (x :: acc) none whole
          | none => .error .badEscape
        | [] => .error .unexpectedEnd
      else if c.toNat < 0x20 then .error .controlCharacter
      else readString lenient rest (c :: acc) none whole

/-- The value of a digit character. -/
def digitValue (c : Char) : Nat := c.toNat - '0'.toNat

/-- Reads a number: `-`, then `0` or a digit run not starting with `0`, then optionally a point
with at least one digit, then optionally an exponent with at least one digit. -/
def readNumber (cs : List Char) : Except ReadError (Numeral × List Char) := do
  let (neg, cs) := match cs with
    | '-' :: r => (true, r)
    | _ => (false, cs)
  let (whole, cs) ← match cs with
    | '0' :: r =>
      match r with
      | c :: _ => if c.isDigit then .error .badNumber else .ok ([0], r)
      | [] => .ok ([0], r)
    | c :: r =>
      if c.isDigit then .ok (digitValue c :: (r.takeWhile Char.isDigit).map digitValue,
        r.dropWhile Char.isDigit)
      else .error .badNumber
    | [] => .error .unexpectedEnd
  let (frac, cs) ← match cs with
    | '.' :: r =>
      let ds := r.takeWhile Char.isDigit
      if ds.isEmpty then .error .badNumber else .ok (ds.map digitValue, r.dropWhile Char.isDigit)
    | _ => .ok ([], cs)
  let (exp, cs) ← match cs with
    | e :: r =>
      if e = 'e' ∨ e = 'E' then
        let (expNeg, r) := match r with
          | '+' :: r' => (false, r')
          | '-' :: r' => (true, r')
          | _ => (false, r)
        let ds := r.takeWhile Char.isDigit
        if ds.isEmpty then .error .badNumber
        else
          let v : Nat := ds.foldl (fun a c => a * 10 + digitValue c) 0
          .ok (some (if expNeg then -(v : Int) else (v : Int)), r.dropWhile Char.isDigit)
      else .ok (none, cs)
    | [] => .ok (none, cs)
  pure (⟨neg, whole, frac, exp⟩, cs)

/-- How many arrays and objects may be open at once. -/
def maxNesting : Nat := 127

mutual

/-- Reads one value after optional blanks, where `room` more arrays or objects may open. -/
def readValue (lenient : Bool) : Nat → Nat → List Char → Except ReadError (Json × List Char)
  | 0, _, _ => .error .tooLong
  | fuel + 1, room, cs =>
    match skipBlank cs with
    | [] => .error .unexpectedEnd
    | 'n' :: 'u' :: 'l' :: 'l' :: rest => .ok (.null, rest)
    | 't' :: 'r' :: 'u' :: 'e' :: rest => .ok (.bool true, rest)
    | 'f' :: 'a' :: 'l' :: 's' :: 'e' :: rest => .ok (.bool false, rest)
    | '"' :: rest =>
      (readString lenient rest [] none true).map fun (s, r) => (s.elim .unpaired .str, r)
    | '[' :: rest =>
      match room with
      | 0 => .error .tooDeep
      | room + 1 =>
        match skipBlank rest with
        | ']' :: r => .ok (.arr [], r)
        | r => readItems lenient fuel room fuel r []
    | '{' :: rest =>
      match room with
      | 0 => .error .tooDeep
      | room + 1 =>
        match skipBlank rest with
        | '}' :: r => .ok (.obj [], r)
        | r => readMembers lenient fuel room fuel r [] true
    | c :: rest =>
      if c = '-' ∨ c.isDigit then (readNumber (c :: rest)).map fun (n, r) => (.num n, r)
      else .error (.unexpected c)

/-- Reads array items, each followed by `,` or the closing `]`; `acc` holds the items so far,
last first. -/
def readItems (lenient : Bool) : Nat → Nat → Nat → List Char → List Json →
    Except ReadError (Json × List Char)
  | _, _, 0, _, _ => .error .tooLong
  | fuel, room, width + 1, cs, acc =>
    match readValue lenient fuel room cs with
    | .error e => .error e
    | .ok (v, rest) =>
      match skipBlank rest with
      | ',' :: r => readItems lenient fuel room width r (v :: acc)
      | ']' :: r => .ok (.arr (v :: acc).reverse, r)
      | c :: _ => .error (.unexpected c)
      | [] => .error .unexpectedEnd

/-- Reads object members `"key": value`, each followed by `,` or the closing brace; `acc` holds
the members so far, last first, and `whole` says whether every key so far was text. An object
with a key that is not text reads as `unpaired`. -/
def readMembers (lenient : Bool) : Nat → Nat → Nat → List Char → List (String × Json) → Bool →
    Except ReadError (Json × List Char)
  | _, _, 0, _, _, _ => .error .tooLong
  | fuel, room, width + 1, cs, acc, whole =>
    match skipBlank cs with
    | '"' :: rest =>
      match readString lenient rest [] none true with
      | .error e => .error e
      | .ok (key, rest) =>
        match skipBlank rest with
        | ':' :: rest =>
          match readValue lenient fuel room rest with
          | .error e => .error e
          | .ok (v, rest) =>
            let acc := match key with
              | some k => (k, v) :: acc
              | none => acc
            let whole := whole && key.isSome
            match skipBlank rest with
            | ',' :: r => readMembers lenient fuel room width r acc whole
            | '}' :: r => .ok (if whole then .obj acc.reverse else .unpaired, r)
            | c :: _ => .error (.unexpected c)
            | [] => .error .unexpectedEnd
        | c :: _ => .error (.unexpected c)
        | [] => .error .unexpectedEnd
    | c :: _ => .error (.unexpected c)
    | [] => .error .unexpectedEnd

end

/-- Reads a whole text as one JSON value, with nothing but blanks after it. A `lenient` reading
keeps strings with unpaired surrogates as `Json.unpaired` instead of refusing the text, and allows
any nesting that the text's length allows. -/
def readText (lenient : Bool) (s : String) : Except ReadError Json :=
  let cs := s.toList
  let room := if lenient then cs.length else maxNesting
  match readValue lenient (cs.length + 1) room cs with
  | .error e => .error e
  | .ok (v, rest) => if skipBlank rest = [] then .ok v else .error .trailing

/-- Reads a text whose strings must all be text, nesting at most `maxNesting` deep. -/
def parse (s : String) : Except ReadError Json := readText false s

/-- Reads a text, keeping strings with unpaired surrogates as `Json.unpaired`, nested to any
depth. -/
def parseLenient (s : String) : Except ReadError Json := readText true s

end RangeAdvisor.Json
