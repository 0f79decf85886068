import Jass.Parse.Basic
/-!
# Parsing expressions

```
expression := operand [binary-operator expression]
operand    := unary | call | element | 'function' ID | constant | variable | '(' expression ')'
```

The left operand of a binary operation is never itself a binary operation, so `a + b + c`
reads as `a + (b + c)`: operators nest to the right and there is no precedence. Each
`expression` is one nesting level deeper than the one containing it, and the depth is checked
before its first token is read.

Every function takes a step budget `fuel` that each call lowers by one. A chain of calls
consumes a token at least every few steps, so a budget proportional to the number of tokens
is never used up (`Parse.budget`).
-/

namespace Jass

namespace Parse

def binOp : Parser BinOp := do
  let op? : Option BinOp := match ← peek with
    | .symbol .plus => some .add
    | .symbol .minus => some .sub
    | .symbol .star => some .mul
    | .symbol .slash => some .div
    | .symbol .gt => some .greater
    | .symbol .lt => some .less
    | .symbol .eqEq => some .equal
    | .symbol .notEq => some .notEqual
    | .symbol .gtEq => some .greaterEq
    | .symbol .ltEq => some .lessEq
    | .keyword .kwAnd => some .logicalAnd
    | .keyword .kwOr => some .logicalOr
    | _ => none
  match op? with
  | some op => advance; return op
  | none => fail .binaryOperator

def unOp : Parser UnOp := do
  let op? : Option UnOp := match ← peek with
    | .symbol .plus => some .plus
    | .symbol .minus => some .minus
    | .keyword .kwNot => some .logicalNot
    | _ => none
  match op? with
  | some op => advance; return op
  | none => fail .unaryOperator

/-- A literal; a sign is never part of it. -/
def constant : Parser Const := do
  let c? : Option Const := match ← peek with
    | .integer v => some (.integer v)
    | .real x => some (.real x)
    | .fourcc c => some (.fourcc c)
    | .string s => some (.string s)
    | .keyword .kwTrue => some (.boolean true)
    | .keyword .kwFalse => some (.boolean false)
    | .keyword .kwNull => some .null
    | _ => none
  match c? with
  | some c => advance; return c
  | none => fail .constant

def funRef : Parser Expr := do
  keyword .kwFunction
  let name ← ident .functionName
  return .funRef (← resolveFun name)

def varRef : Parser Expr := do
  let name ← ident .variableName
  return .var (← resolveVar name)

mutual

def expr : Nat → Nat → Parser Expr
  | 0, _ => outOfFuel
  | fuel + 1, depth => do
    checkDepth depth
    let left ← operand fuel (depth + 1)
    match ← attempt (binaryTail fuel (depth + 1)) with
    | some (op, right) => return .binary left op right
    | none => return left

def binaryTail : Nat → Nat → Parser (BinOp × Expr)
  | 0, _ => outOfFuel
  | fuel + 1, depth => do
    let op ← binOp
    let right ← expr fuel depth
    return (op, right)

def operand : Nat → Nat → Parser Expr
  | 0, _ => outOfFuel
  | fuel + 1, depth =>
    firstOf .expression
      [unary fuel depth, callExpr fuel depth, element fuel depth, funRef,
       .const <$> constant, varRef, paren fuel depth]

def unary : Nat → Nat → Parser Expr
  | 0, _ => outOfFuel
  | fuel + 1, depth => do
    let op ← unOp
    let e ← expr fuel depth
    return .unary op e

def callExpr : Nat → Nat → Parser Expr
  | 0, _ => outOfFuel
  | fuel + 1, depth => do
    let (fn, args) ← funCall fuel depth
    return .call fn args

/-- `ID '(' [expression (',' expression)*] ')'`; the name is resolved after the arguments. -/
def funCall : Nat → Nat → Parser (Ref FunId × List Expr)
  | 0, _ => outOfFuel
  | fuel + 1, depth => do
    let name ← ident .functionName
    symbol .lParen
    let args ← if ← eatSymbol .rParen then pure [] else do
      let args ← argList fuel depth
      symbol .rParen
      pure args
    return (← resolveFun name, args)

def argList : Nat → Nat → Parser (List Expr)
  | 0, _ => outOfFuel
  | fuel + 1, depth => do
    let e ← expr fuel depth
    if ← eatSymbol .comma then
      return e :: (← argList fuel depth)
    else return [e]

/-- `ID '[' expression ']'`; the name is resolved after the index. -/
def element : Nat → Nat → Parser Expr
  | 0, _ => outOfFuel
  | fuel + 1, depth => do
    let name ← ident .arrayName
    symbol .lBracket
    let index ← expr fuel depth
    symbol .rBracket
    return .element (← resolveVar name) index

def paren : Nat → Nat → Parser Expr
  | 0, _ => outOfFuel
  | fuel + 1, depth => do
    symbol .lParen
    let inner ← expr fuel depth
    symbol .rParen
    return .paren inner

end

/-- A step budget that no parse of `n` tokens can use up. -/
def budget (n : Nat) : Nat := 8 * (n + 2)

end Parse

def parseExprTokens (tokens : Array Lexeme) (tables : Tables) (lim : Limits) :
    Except ParseError Expr :=
  (Parser.runOn (do
    let e ← Parse.expr (Parse.budget tokens.size) 0
    Parse.endOfInput
    return e) tokens tables lim).1

def parseExpr (src : String) (tables : Tables) (lim : Limits) : Except ParseError Expr :=
  match lex src lim with
  | .error e => .error ⟨.lexical e.fault, e.pos⟩
  | .ok tokens => parseExprTokens tokens tables lim

end Jass
