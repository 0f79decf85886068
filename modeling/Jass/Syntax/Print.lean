import Jass.Symbols
/-!
# Printing source text

`Expr.toSource` and `File.toSource` write a parsed tree back as JASS text. Expressions keep
the nesting they were read with: parentheses are the ones written, operators are surrounded by
spaces and `not` is followed by one. A negative integer literal can only have come from a
wrapped hexadecimal literal, so it is written as one (`$FFFFFFFB`).

A file is written with its types, globals and natives in source order, consecutive globals
sharing one `globals` block, then each function after a blank line, with blocks indented by
four spaces.
-/

namespace Jass

/-- The text of a literal in source: a negative integer as a hexadecimal word. -/
def Const.toSource : Const → String
  | .integer v => if v.toInt < 0 then hexWord v.toBitVec.toNat else toString v.toInt
  | c => c.text

mutual

def Expr.toSource (ts : Tables) : Expr → String
  | .const c => c.toSource
  | .binary l op r => l.toSource ts ++ " " ++ op.symbol ++ " " ++ r.toSource ts
  | .unary .logicalNot e => "not " ++ e.toSource ts
  | .unary op e => op.symbol ++ e.toSource ts
  | .call fn args => ts.funRefName fn ++ "(" ++ Expr.listToSource ts args ++ ")"
  | .element v i => ts.varRefName v ++ "[" ++ i.toSource ts ++ "]"
  | .funRef fn => "function " ++ ts.funRefName fn
  | .var v => ts.varRefName v
  | .paren e => "(" ++ e.toSource ts ++ ")"

def Expr.listToSource (ts : Tables) : List Expr → String
  | [] => ""
  | [e] => e.toSource ts
  | e :: rest => e.toSource ts ++ ", " ++ Expr.listToSource ts rest

end

def indentText (level : Nat) : String := String.join (List.replicate level "    ")

def callToSource (ts : Tables) (fn : Ref FunId) (args : List Expr) : String :=
  ts.funRefName fn ++ "(" ++ Expr.listToSource ts args ++ ")"

mutual

/-- A statement's text after its indentation, up to (not including) the line break that ends
it; inner lines of a block carry their own indentation. -/
def Stmt.toSource (ts : Tables) (level : Nat) : Stmt → String
  | .set v index value =>
    let target := match index with
      | some i => ts.varRefName v ++ "[" ++ i.toSource ts ++ "]"
      | none => ts.varRefName v
    "set " ++ target ++ " = " ++ value.toSource ts
  | .call fn args => "call " ++ callToSource ts fn args
  | .ifThen cond thenBody elseIfs elseBody =>
    let elseText := match elseBody with
      | some body => indentText level ++ "else\n" ++ Stmt.blockToSource ts (level + 1) body
      | none => ""
    "if " ++ cond.toSource ts ++ " then\n" ++ Stmt.blockToSource ts (level + 1) thenBody ++
      Stmt.elseIfsToSource ts level elseIfs ++ elseText ++ indentText level ++ "endif"
  | .loop body => "loop\n" ++ Stmt.blockToSource ts (level + 1) body ++ indentText level ++ "endloop"
  | .exitWhen cond => "exitwhen " ++ cond.toSource ts
  | .ret none => "return"
  | .ret (some e) => "return " ++ e.toSource ts
  | .debug inner => "debug " ++ inner.toSource ts level

def Stmt.blockToSource (ts : Tables) (level : Nat) : List Statement → String
  | [] => ""
  | ⟨_, s⟩ :: rest =>
    indentText level ++ s.toSource ts level ++ "\n" ++ Stmt.blockToSource ts level rest

def Stmt.elseIfsToSource (ts : Tables) (level : Nat) : List (Expr × List Statement) → String
  | [] => ""
  | (cond, body) :: rest =>
    indentText level ++ "elseif " ++ cond.toSource ts ++ " then\n" ++
      Stmt.blockToSource ts (level + 1) body ++ Stmt.elseIfsToSource ts level rest

end

def VarDecl.toSource (ts : Tables) (d : VarDecl) : String :=
  let init := match d.init with
    | some e => " = " ++ e.toSource ts
    | none => ""
  ts.typeRefName d.type ++ (if d.isArray then " array" else "") ++ " " ++ d.name ++ init

def FunDecl.toSource (ts : Tables) (d : FunDecl) : String :=
  let params := match d.params with
    | [] => "nothing"
    | ps => ", ".intercalate (ps.map fun p => ts.typeRefName p.type ++ " " ++ p.name)
  let result := match d.result with
    | some t => ts.typeRefName t
    | none => "nothing"
  d.name ++ " takes " ++ params ++ " returns " ++ result

inductive TopItem where
  | type (id : TypeId)
  | global (g : Global)
  | native (n : Native)

def TopItem.pos (ts : Tables) : TopItem → Pos
  | .type id => ((ts.type? id).bind (·.pos)).getD ⟨0, 0⟩
  | .global g => ((ts.var? g.var).map (·.pos)).getD ⟨0, 0⟩
  | .native n => ((ts.fn? n.fn).map (·.pos)).getD ⟨0, 0⟩

def Pos.le (a b : Pos) : Bool := a.line < b.line || (a.line == b.line && a.column ≤ b.column)

/-- Types, globals and natives merged back into source order; the sort is stable. -/
def File.topItems (ts : Tables) (f : File) : List TopItem :=
  (f.types.map TopItem.type ++ f.globals.map TopItem.global ++ f.natives.map TopItem.native).mergeSort
    fun a b => Pos.le (a.pos ts) (b.pos ts)

/-- The lines of the first part of a file, opening and closing `globals` blocks around runs
of globals. -/
def topItemsToSource (ts : Tables) : Bool → List TopItem → String
  | inGlobals, [] => if inGlobals then "endglobals\n" else ""
  | inGlobals, .global g :: rest =>
    let line := indentText 1 ++ (if g.isConstant then "constant " else "") ++
      (((ts.var? g.var).map (·.toSource ts)).getD "") ++ "\n"
    (if inGlobals then "" else "globals\n") ++ line ++ topItemsToSource ts true rest
  | inGlobals, item :: rest =>
    let close := if inGlobals then "endglobals\n" else ""
    let line := match item with
      | .type id =>
        match ts.type? id with
        | some d =>
          let parent := match d.parent with
            | some p => " extends " ++ ts.typeRefName p
            | none => ""
          "type " ++ d.name ++ parent ++ "\n"
        | none => "\n"
      | .native n =>
        (if n.isConstant then "constant " else "") ++ "native " ++
          (((ts.fn? n.fn).map (·.toSource ts)).getD "") ++ "\n"
      | .global _ => ""
    close ++ line ++ topItemsToSource ts false rest

def FunctionDef.toSource (ts : Tables) (f : FunctionDef) : String :=
  let head := ((ts.fn? f.fn).map (·.toSource ts)).getD ""
  let locals := f.locals.map fun id =>
    indentText 1 ++ "local " ++ (((ts.var? id).map (·.toSource ts)).getD "") ++ "\n"
  "\n" ++ (if f.isConstant then "constant " else "") ++ "function " ++ head ++ "\n" ++
    String.join locals ++ Stmt.blockToSource ts 1 f.body ++ "endfunction\n"

def File.toSource (ts : Tables) (f : File) : String :=
  topItemsToSource ts false (f.topItems ts) ++ String.join (f.functions.map (·.toSource ts))

end Jass
