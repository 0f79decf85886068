import Jass.Decimal.Shortest
/-!
# Tokens

The words of JASS source: 31 keywords, 16 operator symbols, identifiers, four kinds of literal,
line breaks and the end of the input. Each token knows how a parse error describes it
(`Token.describe`), and each lexeme carries the line and column where it starts.
-/

namespace Jass

/-- A line and a column, both counted from one; columns count characters. -/
structure Pos where
  line : Nat
  column : Nat
  deriving Repr, DecidableEq, Inhabited

inductive Keyword where
  | kwType | kwExtends | kwGlobals | kwEndglobals | kwConstant | kwNative | kwArray
  | kwAnd | kwOr | kwNot | kwTakes | kwReturns | kwNothing | kwFunction | kwEndfunction
  | kwLocal | kwSet | kwCall | kwIf | kwThen | kwElseif | kwElse | kwEndif | kwLoop
  | kwEndloop | kwExitwhen | kwReturn | kwDebug | kwTrue | kwFalse | kwNull
  deriving Repr, DecidableEq, Inhabited

namespace Keyword

/-- Every keyword, in the order of the language's keyword table. -/
def all : List Keyword :=
  [kwType, kwExtends, kwGlobals, kwEndglobals, kwConstant, kwNative, kwArray, kwAnd, kwOr,
   kwNot, kwTakes, kwReturns, kwNothing, kwFunction, kwEndfunction, kwLocal, kwSet, kwCall,
   kwIf, kwThen, kwElseif, kwElse, kwEndif, kwLoop, kwEndloop, kwExitwhen, kwReturn, kwDebug,
   kwTrue, kwFalse, kwNull]

def text : Keyword → String
  | kwType => "type" | kwExtends => "extends" | kwGlobals => "globals"
  | kwEndglobals => "endglobals" | kwConstant => "constant" | kwNative => "native"
  | kwArray => "array" | kwAnd => "and" | kwOr => "or" | kwNot => "not"
  | kwTakes => "takes" | kwReturns => "returns" | kwNothing => "nothing"
  | kwFunction => "function" | kwEndfunction => "endfunction" | kwLocal => "local"
  | kwSet => "set" | kwCall => "call" | kwIf => "if" | kwThen => "then"
  | kwElseif => "elseif" | kwElse => "else" | kwEndif => "endif" | kwLoop => "loop"
  | kwEndloop => "endloop" | kwExitwhen => "exitwhen" | kwReturn => "return"
  | kwDebug => "debug" | kwTrue => "true" | kwFalse => "false" | kwNull => "null"

def ofText? (word : String) : Option Keyword :=
  all.find? (·.text == word)

end Keyword

inductive Symbol where
  | plus | minus | star | slash | assign | eqEq | notEq | lt | ltEq | gt | gtEq
  | lParen | rParen | lBracket | rBracket | comma
  deriving Repr, DecidableEq, Inhabited

def Symbol.text : Symbol → String
  | .plus => "+" | .minus => "-" | .star => "*" | .slash => "/" | .assign => "="
  | .eqEq => "==" | .notEq => "!=" | .lt => "<" | .ltEq => "<=" | .gt => ">"
  | .gtEq => ">=" | .lParen => "(" | .rParen => ")" | .lBracket => "[" | .rBracket => "]"
  | .comma => ","

/-- A four-character code: four bytes, read as one big-endian 32-bit integer. -/
structure FourCC where
  b0 : UInt8
  b1 : UInt8
  b2 : UInt8
  b3 : UInt8
  deriving Repr, DecidableEq, Inhabited

namespace FourCC

def bytes (c : FourCC) : List UInt8 := [c.b0, c.b1, c.b2, c.b3]

def toNat (c : FourCC) : Nat :=
  ((c.b0.toNat * 256 + c.b1.toNat) * 256 + c.b2.toNat) * 256 + c.b3.toNat

def value (c : FourCC) : Int32 := Int32.ofNat c.toNat

def ofBytes? : List UInt8 → Option FourCC
  | [a, b, c, d] => some ⟨a, b, c, d⟩
  | _ => none

end FourCC

inductive Token where
  | keyword (k : Keyword)
  | symbol (s : Symbol)
  | ident (name : String)
  | integer (v : Int32)
  | real (x : Float32)
  | string (s : String)
  | fourcc (c : FourCC)
  | newline
  | eof
  deriving Inhabited

def Token.describe : Token → String
  | .keyword k => "'" ++ k.text ++ "'"
  | .symbol s => "'" ++ s.text ++ "'"
  | .ident name => "identifier '" ++ name ++ "'"
  | .integer v => "integer " ++ toString v.toInt
  | .real x => "real " ++ Decimal.text x
  | .string _ => "string literal"
  | .fourcc _ => "four-character code"
  | .newline => "newline"
  | .eof => "end of file"

structure Lexeme where
  token : Token
  pos : Pos
  deriving Inhabited

end Jass
