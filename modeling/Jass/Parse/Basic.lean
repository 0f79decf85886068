import Std.Data.HashMap
import Jass.Lex.Lexer
import Jass.Symbols
/-!
# Parsing: errors, state and the grammar's building blocks

The grammar is an ordered choice. An alternative that fails with a syntax error gives the
token cursor back (`attempt`); everything else it did stays: the declarations it registered
and the failure it recorded. Lexical and limit errors are never alternatives' business and
end the parse.

A syntax error names the rule that was expected and the token found instead. Each one is
remembered when it stands at least as far into the input as the furthest one so far, and a
parse that fails with a syntax error reports that furthest failure: the last failure recorded
at the largest token index reached.
-/

namespace Jass

inductive Rule where
  | keyword (k : Keyword)
  | symbol (s : Symbol)
  | newline
  | endOfFile
  | typeName
  | parentType
  | functionName
  | parameterType
  | parameterName
  | returnType
  | variableName
  | arrayName
  | expression
  | binaryOperator
  | unaryOperator
  | constant
  | statement
  | debugBody
  deriving Repr, DecidableEq

def Rule.text : Rule → String
  | .keyword k => "'" ++ k.text ++ "'"
  | .symbol s => "'" ++ s.text ++ "'"
  | .newline => "newline"
  | .endOfFile => "end of file"
  | .typeName => "type name"
  | .parentType => "parent type"
  | .functionName => "function name"
  | .parameterType => "parameter type"
  | .parameterName => "parameter name"
  | .returnType => "return type"
  | .variableName => "variable name"
  | .arrayName => "array name"
  | .expression => "expression"
  | .binaryOperator => "binary operator"
  | .unaryOperator => "unary operator"
  | .constant => "constant"
  | .statement => "statement"
  | .debugBody => "set, call, if or loop after 'debug'"

inductive ParseFault where
  | expected (rule : Rule) (found : Token)
  | tooDeep (depth max : Nat)
  | lexical (fault : LexFault)
  /-- The parser used up its step budget, which is sized so that this cannot happen. -/
  | outOfFuel

/-- The three classes of parse failure; only syntax errors are backtracked over. -/
inductive ErrorClass where
  | syntactic
  | lexical
  | limitExceeded
  deriving Repr, DecidableEq

namespace ParseFault

def errorClass : ParseFault → ErrorClass
  | .expected .. => .syntactic
  | .tooDeep .. => .limitExceeded
  | .lexical f => if f.isLimit then .limitExceeded else .lexical
  | .outOfFuel => .limitExceeded

def isSyntax (f : ParseFault) : Bool := f.errorClass == .syntactic

def rule : ParseFault → String
  | .expected r _ => r.text
  | .tooDeep .. => "nesting limit"
  | .lexical _ => "token"
  | .outOfFuel => "nesting limit"

def message : ParseFault → String
  | .expected r found => "Expected " ++ r.text ++ ", found " ++ found.describe
  | .tooDeep depth max =>
    s!"Parsing nesting too deep: {depth} levels (max {max}). Consider simplifying."
  | .lexical f => f.message
  | .outOfFuel => "Parsing ran out of steps"

end ParseFault

structure ParseError where
  fault : ParseFault
  pos : Pos

def ParseError.display (e : ParseError) (path : String) : String :=
  path ++ ":" ++ toString e.pos.line ++ ":" ++ toString e.pos.column ++ ": " ++ e.fault.message

structure ParseState where
  tokens : Array Lexeme
  maxDepth : Nat
  cursor : Nat := 0
  tables : Tables
  scope : Std.HashMap String VarId := {}
  furthest : Option (Nat × ParseError) := none
  /-- The furthest index the cursor has stood at. No rule reads it: it says how far the input
  was read, for the statements about where errors are reported. -/
  reach : Nat := 0
  /-- Every syntax failure raised so far, the latest first, with the cursor it was raised at.
  No rule reads it either. -/
  failures : List (Nat × ParseError) := []

/-- A parser: it changes the state and yields a value or a failure. The state persists
through failures. -/
abbrev Parser := ExceptT ParseError (StateM ParseState)

namespace ParseState

/-- The token under the cursor; past the end, the last token (which is `eof`). -/
def current (s : ParseState) : Lexeme :=
  s.tokens.getD (min s.cursor (s.tokens.size - 1)) ⟨.eof, ⟨0, 0⟩⟩

def atFurthest (s : ParseState) : Bool :=
  match s.furthest with
  | none => true
  | some (i, _) => s.cursor ≥ i

def moveTo (s : ParseState) (c : Nat) : ParseState :=
  { s with cursor := c, reach := max s.reach c }

/-- The state after the syntax failure `e` at the cursor: logged, and remembered as the furthest
one when it is at least as far as the furthest so far. -/
def record (s : ParseState) (e : ParseError) : ParseState :=
  { s with
    failures := (s.cursor, e) :: s.failures
    furthest := if s.atFurthest then some (s.cursor, e) else s.furthest }

end ParseState

def skipLineBreaks (ts : Array Lexeme) (i : Nat) : Nat :=
  if h : i < ts.size then
    match ts[i].token with
    | .newline => skipLineBreaks ts (i + 1)
    | _ => i
  else i
termination_by ts.size - i

namespace Parse

variable {α : Type}

def peek : Parser Token := return (← get).current.token

def here : Parser Pos := return (← get).current.pos

def advance : Parser Unit :=
  modify fun s => s.moveTo (min (s.cursor + 1) s.tokens.size)

def fail (rule : Rule) : Parser α := do
  let s ← get
  let e : ParseError := ⟨.expected rule s.current.token, s.current.pos⟩
  set (s.record e)
  throw e

def outOfFuel : Parser α := do throw ⟨.outOfFuel, (← get).current.pos⟩

def isKeyword (k : Keyword) : Token → Bool
  | .keyword k' => k == k'
  | _ => false

def isSymbol (s : Symbol) : Token → Bool
  | .symbol s' => s == s'
  | _ => false

def eatKeyword (k : Keyword) : Parser Bool := do
  if isKeyword k (← peek) then advance; return true
  return false

def eatSymbol (s : Symbol) : Parser Bool := do
  if isSymbol s (← peek) then advance; return true
  return false

def keyword (k : Keyword) : Parser Unit := do
  unless ← eatKeyword k do fail (.keyword k)

def symbol (s : Symbol) : Parser Unit := do
  unless ← eatSymbol s do fail (.symbol s)

def ident (rule : Rule) : Parser String := do
  match ← peek with
  | .ident name => advance; return name
  | _ => fail rule

def skipNewlines : Parser Unit :=
  modify fun s => s.moveTo (skipLineBreaks s.tokens s.cursor)

/-- One or more line breaks; the end of the input also ends a line. -/
def lineBreak : Parser Unit := do
  match ← peek with
  | .eof => return
  | .newline => advance; skipNewlines
  | _ => fail .newline

def endOfInput : Parser Unit := do
  skipNewlines
  match ← peek with
  | .eof => return
  | _ => fail .endOfFile

/-- Runs `p`; on a syntax failure gives the cursor back and yields `none`. -/
def attempt (p : Parser α) : Parser (Option α) := do
  let start := (← get).cursor
  tryCatch (some <$> p) fun e =>
    if e.fault.isSyntax then do
      modify fun s => { s with cursor := start }
      return none
    else throw e

def firstOf (rule : Rule) : List (Parser α) → Parser α
  | [] => fail rule
  | p :: ps => do
    match ← attempt p with
    | some v => return v
    | none => firstOf rule ps

def checkDepth (depth : Nat) : Parser Unit := do
  let s ← get
  if depth ≥ s.maxDepth then throw ⟨.tooDeep depth s.maxDepth, s.current.pos⟩

def resolveVar (name : String) : Parser (Ref VarId) := do
  let s ← get
  match s.scope[name]? with
  | some id => return .resolved id
  | none => return s.tables.resolveVar name

def resolveType (name : String) : Parser (Ref TypeId) :=
  return (← get).tables.resolveType name

def resolveFun (name : String) : Parser (Ref FunId) :=
  return (← get).tables.resolveFun name

def insertType (d : TypeDecl) : Parser TypeId :=
  modifyGet fun s =>
    let (t, i) := s.tables.types.insert d.name d
    (⟨i⟩, { s with tables := { s.tables with types := t } })

def insertVar (d : VarDecl) : Parser VarId :=
  modifyGet fun s =>
    let (t, i) := s.tables.vars.insert d.name d
    (⟨i⟩, { s with tables := { s.tables with vars := t } })

def pushScoped (d : VarDecl) : Parser VarId :=
  modifyGet fun s =>
    let (t, i) := s.tables.vars.push d
    (⟨i⟩, { s with tables := { s.tables with vars := t }, scope := s.scope.insert d.name ⟨i⟩ })

def insertFun (d : FunDecl) : Parser FunId :=
  modifyGet fun s =>
    let (t, i) := s.tables.funs.insert d.name d
    (⟨i⟩, { s with tables := { s.tables with funs := t } })

def clearScope : Parser Unit := modify fun s => { s with scope := {} }

end Parse

/-- The error a failed parse reports: for a syntax error, the furthest one recorded. -/
def ParseState.report (s : ParseState) (e : ParseError) : ParseError :=
  match e.fault.errorClass, s.furthest with
  | .syntactic, some (_, f) => f
  | _, _ => e

def ParseState.start (tokens : Array Lexeme) (tables : Tables) (lim : Limits) : ParseState :=
  { tokens, maxDepth := lim.maxExprDepth, tables }

def Parser.runOn {α : Type} (p : Parser α) (tokens : Array Lexeme) (tables : Tables)
    (lim : Limits) : Except ParseError α × Tables :=
  let (r, s) := (p.run).run (ParseState.start tokens tables lim)
  match r with
  | .ok v => (.ok v, s.tables)
  | .error e => (.error (s.report e), s.tables)

end Jass
