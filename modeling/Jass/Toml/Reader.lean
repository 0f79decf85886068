/-!
# Reading TOML text

The reader turns a TOML document into its statements: table headers and key/value pairs, each
key a dotted path. It reads what a project file can hold: comments, bare and quoted keys,
dotted keys, basic and literal strings (single- and multi-line), integers in every TOML
notation, arrays of strings and inline tables. Anything else (floats, booleans, dates, arrays
of tables, arrays of non-strings) cannot appear in a valid project file, so the reader rejects
it outright.

Every reader returns `none` on malformed input, otherwise its value and the unread rest.
-/

namespace Jass

namespace Toml

inductive Value where
  | str (s : String)
  | int (i : Int)
  | strings (items : List String)
  | table (entries : List (List String × Value))
  deriving Repr, Inhabited

inductive Statement where
  | header (path : List String)
  | keyValue (key : List String) (v : Value)
  deriving Repr, Inhabited

def skipBlanks : List Char → List Char
  | ' ' :: r => skipBlanks r
  | '\t' :: r => skipBlanks r
  | r => r

/-- Characters that may not stand raw in a comment or a single-line string. -/
def isForbiddenControl (c : Char) : Bool :=
  (c.toNat < 0x20 && c != '\t') || c.toNat == 0x7f

def newline? : List Char → Option (List Char)
  | '\n' :: r => some r
  | '\r' :: '\n' :: r => some r
  | _ => none

def skipCommentBody : List Char → Option (List Char)
  | [] => some []
  | '\n' :: r => some ('\n' :: r)
  | '\r' :: '\n' :: r => some ('\r' :: '\n' :: r)
  | c :: r => if isForbiddenControl c then none else skipCommentBody r

def lineEnd (cs : List Char) : Option (List Char) :=
  let cs := skipBlanks cs
  let cs? := match cs with
    | '#' :: r => skipCommentBody r
    | _ => some cs
  cs?.bind fun cs =>
    match cs with
    | [] => some []
    | _ => newline? cs

def skipSpace : Nat → List Char → Option (List Char)
  | 0, cs => some cs
  | fuel + 1, cs =>
    match skipBlanks cs with
    | '#' :: r => (skipCommentBody r).bind (skipSpace fuel)
    | '\n' :: r => skipSpace fuel r
    | '\r' :: '\n' :: r => skipSpace fuel r
    | r => some r

def hexDigit? (c : Char) : Option Nat :=
  if c.isDigit then some (c.toNat - '0'.toNat)
  else if 'a' ≤ c && c ≤ 'f' then some (c.toNat - 'a'.toNat + 10)
  else if 'A' ≤ c && c ≤ 'F' then some (c.toNat - 'A'.toNat + 10)
  else none

def codePoint? (ds : List Char) : Option Char := do
  let n ← ds.foldlM (fun acc c => (hexDigit? c).map (acc * 16 + ·)) 0
  if n < 0xd800 || (0xdfff < n && n < 0x110000) then some (Char.ofNat n) else none

def simpleEscape? : Char → Option Char
  | 'b' => some '\x08'
  | 't' => some '\t'
  | 'n' => some '\n'
  | 'f' => some '\x0c'
  | 'r' => some '\r'
  | '"' => some '"'
  | '\\' => some '\\'
  | _ => none

/-- A basic string after its opening quote; `acc` holds the characters read, reversed. -/
def basicString (acc : List Char) : List Char → Option (String × List Char)
  | [] => none
  | '"' :: r => some (String.ofList acc.reverse, r)
  | '\\' :: 'u' :: a :: b :: c :: d :: r =>
    (codePoint? [a, b, c, d]).bind fun ch => basicString (ch :: acc) r
  | '\\' :: 'U' :: a :: b :: c :: d :: e :: f :: g :: h :: r =>
    (codePoint? [a, b, c, d, e, f, g, h]).bind fun ch => basicString (ch :: acc) r
  | '\\' :: e :: r => (simpleEscape? e).bind fun ch => basicString (ch :: acc) r
  | c :: r => if isForbiddenControl c then none else basicString (c :: acc) r

def literalString (acc : List Char) : List Char → Option (String × List Char)
  | [] => none
  | '\'' :: r => some (String.ofList acc.reverse, r)
  | c :: r => if isForbiddenControl c then none else literalString (c :: acc) r

def dropFirstNewline (cs : List Char) : List Char := (newline? cs).getD cs

/-- The text of a multi-line string that ends with `quotes` pending quote characters: a run of
three to five closes it, and all but the last three of them belong to the text. -/
def closeMultiline (quote : Char) (quotes : Nat) (acc rest : List Char) : Option (String × List Char) :=
  if 3 ≤ quotes && quotes ≤ 5 then
    some (String.ofList (List.replicate (quotes - 3) quote ++ acc).reverse, rest)
  else none

/-- The body of a multi-line string after its opening delimiter. `quotes` counts the quote
characters just read and not yet placed; `trimming` is set after a backslash that ends a line,
which removes the line break and all blanks and line breaks after it. Escapes are read only
when `escapes` is set. -/
def multiline (quote : Char) (escapes : Bool) :
    Nat → Bool → List Char → List Char → Option (String × List Char)
  | quotes, _, acc, [] => closeMultiline quote quotes acc []
  | quotes, trimming, acc, c :: r =>
    if c == quote then multiline quote escapes (quotes + 1) false acc r
    else if 3 ≤ quotes then closeMultiline quote quotes acc (c :: r)
    else
      let acc := List.replicate quotes quote ++ acc
      if trimming && (c == ' ' || c == '\t' || c == '\n') then multiline quote escapes 0 true acc r
      else if c == '\r' then
        match r with
        | '\n' :: r' => multiline quote escapes 0 trimming (if trimming then acc else '\n' :: acc) r'
        | _ => none
      else if c == '\\' && escapes then
        if (newline? (skipBlanks r)).isSome then multiline quote escapes 0 true acc r
        else
          match r with
          | 'u' :: a :: b :: d :: e :: r' =>
            (codePoint? [a, b, d, e]).bind fun ch => multiline quote escapes 0 false (ch :: acc) r'
          | 'U' :: a :: b :: d :: e :: f :: g :: h :: i :: r' =>
            (codePoint? [a, b, d, e, f, g, h, i]).bind fun ch =>
              multiline quote escapes 0 false (ch :: acc) r'
          | e :: r' => (simpleEscape? e).bind fun ch => multiline quote escapes 0 false (ch :: acc) r'
          | [] => none
      else if c == '\n' then multiline quote escapes 0 false ('\n' :: acc) r
      else if isForbiddenControl c then none
      else multiline quote escapes 0 false (c :: acc) r

def isBareKeyChar (c : Char) : Bool := c.isAlphanum || c == '_' || c == '-'

def keyPart : List Char → Option (String × List Char)
  | '"' :: r => basicString [] r
  | '\'' :: r => literalString [] r
  | cs =>
    let w := cs.takeWhile isBareKeyChar
    if w.isEmpty then none else some (String.ofList w, cs.dropWhile isBareKeyChar)

def dottedKey : Nat → List Char → Option ((List String) × List Char)
  | 0, _ => none
  | fuel + 1, cs => do
    let (k, r) ← keyPart cs
    match skipBlanks r with
    | '.' :: r' =>
      let (ks, r'') ← dottedKey fuel (skipBlanks r')
      return (k :: ks, r'')
    | _ => return ([k], r)

def digitsWithUnderscores (base : Nat) : List Char → Option Nat
  | [] => none
  | cs =>
    let ok := cs.head? != some '_' && cs.getLast? != some '_' &&
      !(cs.zip cs.tail).any (fun (a, b) => a == '_' && b == '_')
    let ds := cs.filter (· != '_')
    if ok && ds.all (fun c => ((hexDigit? c).map fun v => decide (v < base)).getD false) then
      some (ds.foldl (fun acc c => acc * base + (hexDigit? c).getD 0) 0)
    else none

def decimal? : List Char → Option Nat
  | ['0'] => some 0
  | '0' :: _ => none
  | cs => digitsWithUnderscores 10 cs

/-- An integer in any TOML notation, within the 64-bit signed range. -/
def integer? (cs : List Char) : Option Int :=
  let v : Option Int := match cs with
    | '0' :: 'x' :: ds => (digitsWithUnderscores 16 ds).map Int.ofNat
    | '0' :: 'o' :: ds => (digitsWithUnderscores 8 ds).map Int.ofNat
    | '0' :: 'b' :: ds => (digitsWithUnderscores 2 ds).map Int.ofNat
    | '+' :: ds => (decimal? ds).map Int.ofNat
    | '-' :: ds => (decimal? ds).map fun n => -(n : Int)
    | ds => (decimal? ds).map Int.ofNat
  v.bind fun i => if -Int.pow 2 63 ≤ i && i < Int.pow 2 63 then some i else none

def endsBareValue (c : Char) : Bool :=
  c == ' ' || c == '\t' || c == '\n' || c == '\r' || c == ',' || c == ']' || c == '}' || c == '#'

mutual

def value : Nat → List Char → Option (Value × List Char)
  | 0, _ => none
  | fuel + 1, cs =>
    match cs with
    | '"' :: '"' :: '"' :: r => (multiline '"' true 0 false [] (dropFirstNewline r)).map fun (s, r) => (.str s, r)
    | '"' :: r => (basicString [] r).map fun (s, r) => (.str s, r)
    | '\'' :: '\'' :: '\'' :: r =>
      (multiline '\'' false 0 false [] (dropFirstNewline r)).map fun (s, r) => (.str s, r)
    | '\'' :: r => (literalString [] r).map fun (s, r) => (.str s, r)
    | '[' :: r => do
      let r ← skipSpace r.length r
      match r with
      | ']' :: r' => return (.strings [], r')
      | _ =>
        let (items, r') ← arrayItems fuel r
        return (.strings items, r')
    | '{' :: r =>
      match skipBlanks r with
      | '}' :: r' => some (.table [], r')
      | r' => (inlineEntries fuel r').map fun (es, r'') => (.table es, r'')
    | _ =>
      let w := cs.takeWhile (!endsBareValue ·)
      (integer? w).map fun i => (.int i, cs.dropWhile (!endsBareValue ·))

def arrayItems : Nat → List Char → Option ((List String) × List Char)
  | 0, _ => none
  | fuel + 1, cs => do
    let (v, r) ← value fuel cs
    let s ← match v with
      | .str s => some s
      | _ => none
    let r ← skipSpace r.length r
    match r with
    | ']' :: r' => return ([s], r')
    | ',' :: r' =>
      let r' ← skipSpace r'.length r'
      match r' with
      | ']' :: r'' => return ([s], r'')
      | _ =>
        let (rest, r'') ← arrayItems fuel r'
        return (s :: rest, r'')
    | _ => none

def inlineEntries : Nat → List Char → Option ((List (List String × Value)) × List Char)
  | 0, _ => none
  | fuel + 1, cs => do
    let (k, r) ← dottedKey cs.length cs
    let r ← match skipBlanks r with
      | '=' :: r' => some (skipBlanks r')
      | _ => none
    let (v, r) ← value fuel r
    match skipBlanks r with
    | '}' :: r' => return ([(k, v)], r')
    | ',' :: r' =>
      let (rest, r'') ← inlineEntries fuel (skipBlanks r')
      return ((k, v) :: rest, r'')
    | _ => none

end

def statements : Nat → List Char → Option (List Statement)
  | 0, _ => none
  | fuel + 1, cs =>
    match skipBlanks cs with
    | [] => some []
    | '[' :: '[' :: _ => none
    | '[' :: r => do
      let (path, r) ← dottedKey r.length (skipBlanks r)
      let r ← match skipBlanks r with
        | ']' :: r' => some r'
        | _ => none
      let r ← lineEnd r
      return .header path :: (← statements fuel r)
    | cs' =>
      match lineEnd cs' with
      | some r =>
        if r.length < cs'.length then statements fuel r
        else some []
      | none => do
        let (key, r) ← dottedKey cs'.length cs'
        let r ← match skipBlanks r with
          | '=' :: r' => some (skipBlanks r')
          | _ => none
        let (v, r) ← value r.length r
        let r ← lineEnd r
        return .keyValue key v :: (← statements fuel r)

def parse (text : String) : Option (List Statement) :=
  let cs := match text.toList with
    | '\uFEFF' :: r => r
    | cs => cs
  statements (cs.length + 1) cs

end Toml

end Jass
