import Jass.Parse.Stmt
/-!
# Parsing files

```
file         := NL* (type-decl | globals | native) line-break)* function* NL* EOF
type-decl    := 'type' ID 'extends' ID
globals      := 'globals' line-break (global line-break)* 'endglobals'
global       := ['constant'] ID ['array'] ID ['=' expression]
native       := ['constant'] 'native' head
head         := ID 'takes' ('nothing' | ID ID (',' ID ID)*) 'returns' ('nothing' | ID)
function     := ['constant'] 'function' head line-break (local line-break)* statements
                'endfunction' line-break
```

Declarations are registered in the session's tables the moment they are read, so later rules
resolve names against them, and they stay registered when a rule around them fails. A function
signature is registered before its body, so that a function can call itself; its parameters
and locals are stored as variables and found through the function's scope.
-/

namespace Jass

namespace Parse

/-- A variable declaration after its optional `constant` or `local`: type, `array`, name and
initializer. The type is resolved after the initializer is read. -/
def varDecl (fuel : Nat) (pos : Pos) : Parser VarDecl := do
  let typeName ← ident .typeName
  let isArray ← eatKeyword .kwArray
  let name ← ident .variableName
  let init ← if ← eatSymbol .assign then do
      let e ← expr fuel 0
      pure (some e)
    else pure none
  return { type := ← resolveType typeName, isArray, name, init, pos }

/-- `'type' ID 'extends' ID`; the parent is resolved before the new type is registered. -/
def typeDecl : Parser TypeId := do
  let pos ← here
  keyword .kwType
  let name ← ident .typeName
  keyword .kwExtends
  let parent ← ident .parentType
  let parent ← resolveType parent
  insertType { name, parent := some parent, pos := some pos }

def global (fuel : Nat) : Parser Global := do
  let pos ← here
  let isConstant ← eatKeyword .kwConstant
  let d ← varDecl fuel pos
  return { isConstant, var := ← insertVar d }

def params : Nat → Parser (List Param)
  | 0 => outOfFuel
  | fuel + 1 => do
    let typeName ← ident .parameterType
    let name ← ident .parameterName
    let p : Param := { type := ← resolveType typeName, name }
    if ← eatSymbol .comma then return p :: (← params fuel) else return [p]

def head (fuel : Nat) (pos : Pos) : Parser FunDecl := do
  let name ← ident .functionName
  keyword .kwTakes
  let ps ← if ← eatKeyword .kwNothing then pure [] else params fuel
  keyword .kwReturns
  let result ← if ← eatKeyword .kwNothing then pure none else do
    let t ← ident .returnType
    pure (some (← resolveType t))
  return { name, params := ps, result, pos }

def native (fuel : Nat) : Parser Native := do
  let pos ← here
  let isConstant ← eatKeyword .kwConstant
  keyword .kwNative
  let d ← head fuel pos
  return { isConstant, fn := ← insertFun d }

def globalLines : Nat → Parser (List Global)
  | 0 => outOfFuel
  | fuel + 1 => do
    match ← attempt (global fuel) with
    | some g =>
      lineBreak
      return g :: (← globalLines fuel)
    | none => return []

def globalsBlock (fuel : Nat) : Parser (List Global) := do
  keyword .kwGlobals
  lineBreak
  let gs ← globalLines fuel
  keyword .kwEndglobals
  return gs

structure DeclPart where
  types : List TypeId := []
  globals : List Global := []
  natives : List Native := []

def declItem (fuel : Nat) (acc : DeclPart) : Parser (Option DeclPart) := do
  if let some id ← attempt typeDecl then
    return some { acc with types := acc.types ++ [id] }
  if let some gs ← attempt (globalsBlock fuel) then
    return some { acc with globals := acc.globals ++ gs }
  if let some n ← attempt (native fuel) then
    return some { acc with natives := acc.natives ++ [n] }
  return none

def declarations : Nat → DeclPart → Parser DeclPart
  | 0, _ => outOfFuel
  | fuel + 1, acc => do
    match ← declItem fuel acc with
    | some acc =>
      lineBreak
      declarations fuel acc
    | none => return acc

/-- `'local' declaration`: stored without a name and put in the function's scope after its
initializer is read. -/
def localDecl (fuel : Nat) : Parser VarId := do
  let pos ← here
  keyword .kwLocal
  let d ← varDecl fuel pos
  pushScoped d

def localLines : Nat → Parser (List VarId)
  | 0 => outOfFuel
  | fuel + 1 => do
    match ← attempt (localDecl fuel) with
    | some v =>
      lineBreak
      return v :: (← localLines fuel)
    | none => return []

def functionBody (fuel : Nat) : Parser (List VarId × List Statement) := do
  lineBreak
  let locals ← localLines fuel
  let body ← statements fuel 0
  keyword .kwEndfunction
  lineBreak
  return (locals, body)

/-- `['constant'] 'function' head body`. The signature is registered before the body; each
parameter is stored as a variable in a fresh scope, which is emptied again afterwards, also
when the body fails. -/
def function (fuel : Nat) : Parser FunctionDef := do
  let pos ← here
  let isConstant ← eatKeyword .kwConstant
  keyword .kwFunction
  let d ← head fuel pos
  let fn ← insertFun d
  clearScope
  for p in d.params do
    discard <| pushScoped { type := p.type, isArray := false, name := p.name, init := none, pos }
  let body ← tryCatch (Except.ok <$> functionBody fuel) fun e => pure (.error e)
  clearScope
  match body with
  | .ok (locals, stmts) => return { isConstant, fn, locals, body := stmts }
  | .error e => throw e

def functions : Nat → Parser (List FunctionDef)
  | 0 => outOfFuel
  | fuel + 1 => do
    match ← attempt (function fuel) with
    | some f => return f :: (← functions fuel)
    | none => return []

def file (fuel : Nat) (path : String) : Parser File := do
  skipNewlines
  let decls ← declarations fuel {}
  let fns ← functions fuel
  endOfInput
  return { path, types := decls.types, globals := decls.globals, natives := decls.natives,
           functions := fns }

end Parse

/-- Parses source text as a file named `path`, registering its declarations in `tables`.
Returns the file or the reported error, and the tables as the parse left them: a failed parse
keeps what it registered. -/
def parseFile (src path : String) (tables : Tables) (lim : Limits) :
    Except ParseError File × Tables :=
  match lex src lim with
  | .error e => (.error ⟨.lexical e.fault, e.pos⟩, tables)
  | .ok tokens => Parser.runOn (Parse.file (Parse.budget tokens.size) path) tokens tables lim

end Jass
