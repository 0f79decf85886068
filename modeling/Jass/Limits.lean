/-!
# Front-end limits

Six bounds on the work one source file can cause: its size in bytes, its number of tokens, the
byte length of an identifier, a string literal and a comment, and the nesting depth of
expressions and blocks. The defaults are permissive; a project can override any of them, and
`Limits.validate` accepts only positive values below a ceiling per bound.
-/

namespace Jass

structure Limits where
  maxInputSize : Nat := 32000000
  maxTokenCount : Nat := 4000000
  maxIdentifierLength : Nat := 1000
  maxStringLength : Nat := 1000000
  maxCommentLength : Nat := 100000
  maxExprDepth : Nat := 256
  deriving Repr, DecidableEq, Inhabited

namespace Limits

/-- One of the six bounds, in the order in which they are validated. -/
inductive Field where
  | inputSize
  | tokenCount
  | identifierLength
  | stringLength
  | commentLength
  | exprDepth
  deriving Repr, DecidableEq, Inhabited

def Field.all : List Field :=
  [.inputSize, .tokenCount, .identifierLength, .stringLength, .commentLength, .exprDepth]

def Field.key : Field → String
  | .inputSize => "max_input_size"
  | .tokenCount => "max_token_count"
  | .identifierLength => "max_identifier_length"
  | .stringLength => "max_string_length"
  | .commentLength => "max_comment_length"
  | .exprDepth => "max_expr_depth"

def Field.ofKey? (key : String) : Option Field :=
  Field.all.find? (·.key == key)

/-- The largest value a bound may take; the token count has none. -/
def Field.ceiling : Field → Option Nat
  | .inputSize => some 256000000
  | .tokenCount => none
  | .identifierLength => some 100000
  | .stringLength => some 256000000
  | .commentLength => some 256000000
  | .exprDepth => some 10000

def get (l : Limits) : Field → Nat
  | .inputSize => l.maxInputSize
  | .tokenCount => l.maxTokenCount
  | .identifierLength => l.maxIdentifierLength
  | .stringLength => l.maxStringLength
  | .commentLength => l.maxCommentLength
  | .exprDepth => l.maxExprDepth

def set (l : Limits) : Field → Nat → Limits
  | .inputSize, v => { l with maxInputSize := v }
  | .tokenCount, v => { l with maxTokenCount := v }
  | .identifierLength, v => { l with maxIdentifierLength := v }
  | .stringLength, v => { l with maxStringLength := v }
  | .commentLength, v => { l with maxCommentLength := v }
  | .exprDepth, v => { l with maxExprDepth := v }

def override (l : Limits) (changes : List (Field × Nat)) : Limits :=
  changes.foldl (fun acc (f, v) => acc.set f v) l

def Field.accepts (f : Field) (v : Nat) : Bool :=
  v != 0 && f.ceiling.all (v ≤ ·)

structure Invalid where
  field : Field
  value : Nat
  deriving Repr, DecidableEq

def Invalid.message (e : Invalid) : String :=
  s!"invalid limit '{e.field.key}': {e.value} (must be positive and reasonable)"

/-- The first bound, in validation order, that is zero or above its ceiling. -/
def firstInvalid (l : Limits) : Option Invalid :=
  (Field.all.find? fun f => !f.accepts (l.get f)).map fun f => ⟨f, l.get f⟩

def validate (l : Limits) : Except Invalid Unit :=
  match l.firstInvalid with
  | some e => .error e
  | none => .ok ()

end Limits

end Jass
