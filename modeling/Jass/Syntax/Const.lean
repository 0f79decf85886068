import Jass.Lex.Token
/-!
# Constants

The literal values of the language: 32-bit integers, single-precision reals, four-character
codes, booleans, strings and `null`. `Const.text` writes a constant the way source text and
answers show it: a real always carries a decimal point, a string is quoted with its escapes,
and a four-character code that is printable text stands between single quotes.
-/

namespace Jass

inductive Const where
  | integer (v : Int32)
  | real (x : Float32)
  | fourcc (c : FourCC)
  | boolean (b : Bool)
  | string (s : String)
  | null

/-- The integer zero is the constant an expression has when it cannot be folded. -/
instance : Inhabited Const := ⟨.integer 0⟩

namespace Const

def typeName : Const → String
  | .integer _ => "integer"
  | .real _ => "real"
  | .fourcc _ => "fourcc"
  | .boolean _ => "boolean"
  | .string _ => "string"
  | .null => "null"

end Const

def hexWord (n : Nat) : String :=
  let digits := Nat.toDigits 16 (n % Nat.pow 2 32)
  "$" ++ String.ofList ((List.replicate (8 - digits.length) '0' ++ digits).map Char.toUpper)

def realText (x : Float32) : String :=
  let t := Decimal.text x
  if t.contains '.' then t else t ++ ".0"

def escapeChar : Char → List Char
  | '"' => ['\\', '"']
  | '\\' => ['\\', '\\']
  | '\n' => ['\\', 'n']
  | '\r' => ['\\', 'r']
  | '\t' => ['\\', 't']
  | '\x08' => ['\\', 'b']
  | '\x0c' => ['\\', 'f']
  | c => [c]

def quote (s : String) : String :=
  String.ofList ('"' :: s.toList.flatMap escapeChar ++ ['"'])

/-- A four-character code between single quotes when its bytes are text without a quote or
a line break, otherwise as a hexadecimal word. -/
def FourCC.text (c : FourCC) : String :=
  match String.fromUTF8? (ByteArray.mk c.bytes.toArray) with
  | some t => if t.contains '\'' || t.contains '\n' then hexWord c.toNat else "'" ++ t ++ "'"
  | none => hexWord c.toNat

def Const.text : Const → String
  | .integer v => toString v.toInt
  | .real x => realText x
  | .fourcc c => c.text
  | .boolean b => if b then "true" else "false"
  | .string s => quote s
  | .null => "null"

end Jass
