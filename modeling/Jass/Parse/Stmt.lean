import Jass.Parse.Expr
/-!
# Parsing statements

```
statements := (statement line-break)*
statement  := set | call | if | loop | exitwhen | return | debug
```

A statement list ends at the first line that is not a statement. `if` and `loop` are one
nesting level deeper than the list that holds them; the depth is checked before the keyword is
read, so a block at the depth bound fails even where no block was written.
-/

namespace Jass

namespace Parse

mutual

def statements : Nat → Nat → Parser (List Statement)
  | 0, _ => outOfFuel
  | fuel + 1, depth => do
    match ← attempt (statement fuel depth) with
    | some s =>
      lineBreak
      return s :: (← statements fuel depth)
    | none => return []

def statement : Nat → Nat → Parser Statement
  | 0, _ => outOfFuel
  | fuel + 1, depth => do
    let pos ← here
    let s ← firstOf .statement
      [setStmt fuel depth, callStmt fuel depth, ifStmt fuel depth, loopStmt fuel depth,
       exitWhenStmt fuel depth, returnStmt fuel depth, debugStmt fuel depth]
    return ⟨pos, s⟩

/-- `'set' ID ['[' expression ']'] '=' expression`; the name is resolved when read. -/
def setStmt : Nat → Nat → Parser Stmt
  | 0, _ => outOfFuel
  | fuel + 1, depth => do
    keyword .kwSet
    let name ← ident .variableName
    let target ← resolveVar name
    let index ← if ← eatSymbol .lBracket then do
        let i ← expr fuel depth
        symbol .rBracket
        pure (some i)
      else pure none
    symbol .assign
    let value ← expr fuel depth
    return .set target index value

def callStmt : Nat → Nat → Parser Stmt
  | 0, _ => outOfFuel
  | fuel + 1, depth => do
    keyword .kwCall
    let (fn, args) ← funCall fuel depth
    return .call fn args

def ifStmt : Nat → Nat → Parser Stmt
  | 0, _ => outOfFuel
  | fuel + 1, depth => do
    checkDepth depth
    keyword .kwIf
    let cond ← expr fuel (depth + 1)
    keyword .kwThen
    lineBreak
    let thenBody ← statements fuel (depth + 1)
    let elseIfs ← elseIfBranches fuel (depth + 1)
    let elseBody ← if ← eatKeyword .kwElse then do
        lineBreak
        pure (some (← statements fuel (depth + 1)))
      else pure none
    keyword .kwEndif
    return .ifThen cond thenBody elseIfs elseBody

def elseIfBranches : Nat → Nat → Parser (List (Expr × List Statement))
  | 0, _ => outOfFuel
  | fuel + 1, depth => do
    if ← eatKeyword .kwElseif then
      let cond ← expr fuel depth
      keyword .kwThen
      lineBreak
      let body ← statements fuel depth
      return (cond, body) :: (← elseIfBranches fuel depth)
    else return []

def loopStmt : Nat → Nat → Parser Stmt
  | 0, _ => outOfFuel
  | fuel + 1, depth => do
    checkDepth depth
    keyword .kwLoop
    lineBreak
    let body ← statements fuel (depth + 1)
    keyword .kwEndloop
    return .loop body

def exitWhenStmt : Nat → Nat → Parser Stmt
  | 0, _ => outOfFuel
  | fuel + 1, depth => do
    keyword .kwExitwhen
    return .exitWhen (← expr fuel depth)

def returnStmt : Nat → Nat → Parser Stmt
  | 0, _ => outOfFuel
  | fuel + 1, depth => do
    keyword .kwReturn
    return .ret (← attempt (expr fuel depth))

/-- `'debug'` followed by a `set`, `call`, `if` or `loop`. -/
def debugStmt : Nat → Nat → Parser Stmt
  | 0, _ => outOfFuel
  | fuel + 1, depth => do
    keyword .kwDebug
    if let some s ← attempt (setStmt fuel depth) then return .debug s
    if let some s ← attempt (callStmt fuel depth) then return .debug s
    if let some s ← attempt (ifStmt fuel depth) then return .debug s
    if let some s ← attempt (loopStmt fuel depth) then return .debug s
    fail .debugBody

end

end Parse

end Jass
