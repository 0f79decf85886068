import Jass.Limits
import Jass.Lex.Token
/-!
# The lexer

`Jass.lex` turns source text into lexemes, ending with one `eof`. Blanks (space, tab, carriage
return) separate tokens; a comment runs from `//` to the line break, which stays a token.
Numbers are decimal, octal (a leading `0`), hexadecimal (`0x`, `0X` or `$`) or real (digits with
a point); an integer literal is a 32-bit word, so `$FFFFFFFF` is `-1`. Strings take the escapes
`\" \\ \n \t \r \b \f` and keep any other backslash pair as written. A quoted run of four bytes
is a four-character code; a single quoted byte is its integer code.

Positions count lines and characters from one. A lexical error stands where the scanner noticed
it; a limit error is raised as soon as a bound is passed: before a token when the token count
is reached, after the character that makes a comment or string too long, after an identifier.
-/

namespace Jass

inductive LexFault where
  | unexpectedChar (c : Char)
  | missingHexDigits
  | badInteger (digits : String) (base : Nat)
  | unterminatedString
  | unterminatedEscape
  | unterminatedFourCC
  | fourCCSize (bytes : Nat)
  | inputTooLarge (size max : Nat)
  | tooManyTokens (count max : Nat)
  | identifierTooLong (size max : Nat)
  | stringTooLong (size max : Nat)
  | commentTooLong (size max : Nat)
  deriving Repr, DecidableEq

namespace LexFault

def isLimit : LexFault → Bool
  | .inputTooLarge .. | .tooManyTokens .. | .identifierTooLong .. | .stringTooLong ..
  | .commentTooLong .. => true
  | _ => false

def message : LexFault → String
  | .unexpectedChar c => "Unexpected character: '" ++ c.toString ++ "'"
  | .missingHexDigits => "Hex number must have at least one digit"
  | .badInteger digits base =>
    s!"Invalid or out of range integer literal '{digits}' (base {base})"
  | .unterminatedString => "Unterminated string literal"
  | .unterminatedEscape => "Unterminated escape sequence"
  | .unterminatedFourCC => "Unterminated four-character code"
  | .fourCCSize n => s!"Four-character code must be exactly 4 bytes, found {n}"
  | .inputTooLarge size max => s!"Input too large: {size} bytes (max: {max} bytes)"
  | .tooManyTokens count max => s!"Token limit exceeded: {count} tokens (max: {max})"
  | .identifierTooLong size max => s!"Identifier too long: {size} bytes (max: {max} bytes)"
  | .stringTooLong size max => s!"String literal too long: {size} bytes (max: {max} bytes)"
  | .commentTooLong size max => s!"Comment too long: {size} bytes (max: {max} bytes)"

end LexFault

structure LexError where
  fault : LexFault
  pos : Pos
  deriving Repr, DecidableEq

namespace Lexer

structure Mark where
  line : Nat := 1
  column : Nat := 1
  offset : Nat := 0
  deriving Repr, DecidableEq, Inhabited

def Mark.next (m : Mark) (c : Char) : Mark :=
  if c = '\n' then { line := m.line + 1, column := 1, offset := m.offset + c.utf8Size }
  else { m with column := m.column + 1, offset := m.offset + c.utf8Size }

def Mark.advance (m : Mark) (cs : List Char) : Mark := cs.foldl Mark.next m

def Mark.pos (m : Mark) : Pos := ⟨m.line, m.column⟩

def isIdentStart (c : Char) : Bool := c.isAlpha || c == '_'

def isIdentContinue (c : Char) : Bool := c.isAlphanum || c == '_'

def isHexDigit (c : Char) : Bool :=
  c.isDigit || ('a' ≤ c && c ≤ 'f') || ('A' ≤ c && c ≤ 'F')

/-- The value of a digit character in any base up to sixteen (a non-digit is worth 16). -/
def digitValue (c : Char) : Nat :=
  if c.isDigit then c.toNat - '0'.toNat
  else if 'a' ≤ c && c ≤ 'f' then c.toNat - 'a'.toNat + 10
  else if 'A' ≤ c && c ≤ 'F' then c.toNat - 'A'.toNat + 10
  else 16

def digitsValue (base : Nat) (ds : List Char) : Nat :=
  ds.foldl (fun acc c => acc * base + digitValue c) 0

/-- A run of digits read as an unsigned 32-bit number and kept as the signed word with the
same bits; the run must be nonempty, valid in its base and below `2 ^ 32`. -/
def wordLiteral (ds : List Char) (base : Nat) (m : Mark) : Except LexError Token :=
  let n := digitsValue base ds
  if !ds.isEmpty && ds.all (fun c => digitValue c < base) && n < Nat.pow 2 32 then
    .ok (.integer (Int32.ofNat n))
  else
    .error ⟨.badInteger (String.ofList ds) base, m.pos⟩

abbrev Scan := Except LexError (Token × List Char × Mark)

def scanHex (cs : List Char) (m : Mark) : Scan :=
  let ds := cs.takeWhile isHexDigit
  if ds.isEmpty then .error ⟨.missingHexDigits, m.pos⟩
  else
    let m' := m.advance ds
    return (← wordLiteral ds 16 m', cs.dropWhile isHexDigit, m')

def scanNumber (cs : List Char) (m : Mark) : Scan :=
  let ints := cs.takeWhile Char.isDigit
  let m1 := m.advance ints
  match cs.dropWhile Char.isDigit with
  | '.' :: r =>
    let fracs := r.takeWhile Char.isDigit
    let x := Float32.ofScientific (digitsValue 10 (ints ++ fracs)) true fracs.length
    .ok (.real x, r.dropWhile Char.isDigit, (m1.next '.').advance fracs)
  | rest =>
    match ints with
    | '0' :: tail@(_ :: _) => return (← wordLiteral tail 8 m1, rest, m1)
    | _ => return (← wordLiteral ints 10 m1, rest, m1)

def scanWord (lim : Limits) (cs : List Char) (m : Mark) : Scan :=
  let w := cs.takeWhile isIdentContinue
  let m' := m.advance w
  if w.length > lim.maxIdentifierLength then
    .error ⟨.identifierTooLong w.length lim.maxIdentifierLength, m'.pos⟩
  else
    let word := String.ofList w
    let tok := match Keyword.ofText? word with
      | some k => .keyword k
      | none => .ident word
    .ok (tok, cs.dropWhile isIdentContinue, m')

def unescape : Char → List Char
  | '"' => ['"']
  | '\\' => ['\\']
  | 'n' => ['\n']
  | 't' => ['\t']
  | 'r' => ['\r']
  | 'b' => ['\x08']
  | 'f' => ['\x0c']
  | c => ['\\', c]

/-- The body of a string literal after its opening quote, which stands at byte `start`.
The characters read so far are kept reversed in `acc`. -/
def scanString (lim : Limits) (start : Nat) (acc : List Char) :
    List Char → Mark → Scan
  | [], m => .error ⟨.unterminatedString, m.pos⟩
  | '"' :: r, m => .ok (.string (String.ofList acc.reverse), r, m.next '"')
  | ['\\'], m => .error ⟨.unterminatedEscape, (m.next '\\').pos⟩
  | '\\' :: e :: r, m =>
    let m' := (m.next '\\').next e
    if m'.offset - start > lim.maxStringLength then
      .error ⟨.stringTooLong (m'.offset - start) lim.maxStringLength, m'.pos⟩
    else scanString lim start ((unescape e).reverse ++ acc) r m'
  | c :: r, m =>
    let m' := m.next c
    if m'.offset - start > lim.maxStringLength then
      .error ⟨.stringTooLong (m'.offset - start) lim.maxStringLength, m'.pos⟩
    else scanString lim start (c :: acc) r m'

def scanQuoted (acc : List Char) : List Char → Mark →
    Except LexError (List Char × List Char × Mark)
  | [], m => .error ⟨.unterminatedFourCC, m.pos⟩
  | '\n' :: _, m => .error ⟨.unterminatedFourCC, m.pos⟩
  | '\'' :: r, m => .ok (acc.reverse, r, m.next '\'')
  | c :: r, m => scanQuoted (c :: acc) r (m.next c)

/-- A four-character code after its opening quote: four bytes make a code, one byte is an
integer. -/
def scanFourCC (cs : List Char) (m : Mark) : Scan := do
  let (body, rest, m') ← scanQuoted [] cs m
  let bytes := (String.ofList body).toUTF8.toList
  match FourCC.ofBytes? bytes, bytes with
  | some c, _ => return (.fourcc c, rest, m')
  | none, [b] => return (.integer (Int32.ofNat b.toNat), rest, m')
  | none, _ => throw ⟨.fourCCSize bytes.length, m'.pos⟩

def scanSymbol (c : Char) (r : List Char) (m : Mark) : Scan :=
  let m1 := m.next c
  let one (s : Symbol) : Scan := .ok (.symbol s, r, m1)
  let two (s : Symbol) (r' : List Char) : Scan := .ok (.symbol s, r', m1.next '=')
  match c, r with
  | '+', _ => one .plus
  | '-', _ => one .minus
  | '*', _ => one .star
  | '/', _ => one .slash
  | '(', _ => one .lParen
  | ')', _ => one .rParen
  | '[', _ => one .lBracket
  | ']', _ => one .rBracket
  | ',', _ => one .comma
  | '=', '=' :: r' => two .eqEq r'
  | '=', _ => one .assign
  | '!', '=' :: r' => two .notEq r'
  | '<', '=' :: r' => two .ltEq r'
  | '<', _ => one .lt
  | '>', '=' :: r' => two .gtEq r'
  | '>', _ => one .gt
  | _, _ => .error ⟨.unexpectedChar c, m1.pos⟩

def scanToken (lim : Limits) (cs : List Char) (m : Mark) : Scan :=
  match cs with
  | [] => .ok (.eof, [], m)
  | '\n' :: r => .ok (.newline, r, m.next '\n')
  | '0' :: x :: r =>
    if x = 'x' ∨ x = 'X' then scanHex r ((m.next '0').next x) else scanNumber cs m
  | c :: r =>
    if c.isDigit then scanNumber cs m
    else if c = '.' ∧ (r.head?.map Char.isDigit).getD false then scanNumber cs m
    else if c = '$' then scanHex r (m.next '$')
    else if isIdentStart c then scanWord lim cs m
    else if c = '"' then scanString lim m.offset [] r (m.next '"')
    else if c = '\'' then scanFourCC r (m.next '\'')
    else scanSymbol c r m

def skipBlanks : List Char → Mark → List Char × Mark
  | c :: r, m =>
    if c = ' ' ∨ c = '\t' ∨ c = '\r' then skipBlanks r (m.next c) else (c :: r, m)
  | [], m => ([], m)

def skipComment (lim : Limits) (start : Nat) : List Char → Mark →
    Except LexError (List Char × Mark)
  | [], m => .ok ([], m)
  | c :: r, m =>
    if c = '\n' then .ok (c :: r, m)
    else
      let m' := m.next c
      if m'.offset - start > lim.maxCommentLength then
        .error ⟨.commentTooLong (m'.offset - start) lim.maxCommentLength, m'.pos⟩
      else skipComment lim start r m'

def nextLexeme (lim : Limits) (count : Nat) (cs : List Char) (m : Mark) :
    Except LexError (Lexeme × List Char × Mark) := do
  if count ≥ lim.maxTokenCount then
    throw ⟨.tooManyTokens count lim.maxTokenCount, m.pos⟩
  let (cs, m) := skipBlanks cs m
  let (cs, m) ← match cs with
    | '/' :: '/' :: _ => skipComment lim m.offset cs m
    | _ => pure (cs, m)
  let (tok, rest, m') ← scanToken lim cs m
  return (⟨tok, m.pos⟩, rest, m')

/-- Lexemes until the end of the text. Every lexeme but the last consumes a character, so
`fuel` one more than the number of characters suffices. -/
def lexemes (lim : Limits) : Nat → Nat → List Char → Mark → Array Lexeme →
    Except LexError (Array Lexeme)
  | 0, _, _, _, acc => .ok acc
  | fuel + 1, count, cs, m, acc => do
    let (lx, rest, m') ← nextLexeme lim count cs m
    match lx.token with
    | .eof => return acc.push lx
    | _ => lexemes lim fuel (count + 1) rest m' (acc.push lx)

end Lexer

/-- Splits source text into lexemes ending with `eof`, after checking the size bound. -/
def lex (src : String) (lim : Limits) : Except LexError (Array Lexeme) :=
  if src.utf8ByteSize > lim.maxInputSize then
    .error ⟨.inputTooLarge src.utf8ByteSize lim.maxInputSize, ⟨1, 1⟩⟩
  else
    Lexer.lexemes lim (src.length + 1) 0 src.toList {} #[]

end Jass
