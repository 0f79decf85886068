import Std.Data.HashMap
import Jass.Syntax.Decl
/-!
# Symbol tables

Every declaration of a session is stored in an append-only table and named by its index. A
declaration may also be registered under its name; a later registration of the same name hides
the earlier one from lookups, and both stay stored. Locals and parameters are stored without
being registered: they are found through the scope of the function being read.

A session starts with the six base types `integer`, `real`, `boolean`, `string`, `handle` and
`code` registered, and with no variables or functions.
-/

namespace Jass

/-- An append-only sequence of declarations with an index from names to positions. -/
structure Table (α : Type) where
  entries : Array α := #[]
  names : Std.HashMap String Nat := {}
  deriving Inhabited

namespace Table

variable {α : Type}

def size (t : Table α) : Nat := t.entries.size

def push (t : Table α) (x : α) : Table α × Nat :=
  ({ t with entries := t.entries.push x }, t.entries.size)

/-- Stores a declaration and registers it under `name`, hiding any earlier declaration of the
name; returns its position. -/
def insert (t : Table α) (name : String) (x : α) : Table α × Nat :=
  ({ entries := t.entries.push x, names := t.names.insert name t.entries.size },
    t.entries.size)

def lookup? (t : Table α) (name : String) : Option Nat := t.names[name]?

def get? (t : Table α) (i : Nat) : Option α := t.entries[i]?

/-! ## What each operation does to the sequence and to the names -/

@[simp]
theorem push_position (t : Table α) (x : α) : (t.push x).2 = t.size := rfl

@[simp]
theorem insert_position (t : Table α) (n : String) (x : α) : (t.insert n x).2 = t.size := rfl

@[simp]
theorem size_push (t : Table α) (x : α) : (t.push x).1.size = t.size + 1 := by
  simp [push, size]

@[simp]
theorem size_insert (t : Table α) (n : String) (x : α) : (t.insert n x).1.size = t.size + 1 := by
  simp [insert, size]

@[simp]
theorem lookup?_push (t : Table α) (x : α) (m : String) : (t.push x).1.lookup? m = t.lookup? m :=
  rfl

/-- A registration answers lookups of its own name and leaves the other names alone. -/
theorem lookup?_insert (t : Table α) (n m : String) (x : α) :
    (t.insert n x).1.lookup? m = if n = m then some t.size else t.lookup? m := by
  simp only [insert, lookup?, size, Std.HashMap.getElem?_insert, beq_iff_eq]

theorem get?_push (t : Table α) (x : α) (i : Nat) :
    (t.push x).1.get? i = if i = t.size then some x else t.get? i := by
  by_cases h : i = t.size <;> simp_all [push, get?, size, Array.getElem?_push]

theorem get?_insert (t : Table α) (n : String) (x : α) (i : Nat) :
    (t.insert n x).1.get? i = if i = t.size then some x else t.get? i := by
  by_cases h : i = t.size <;> simp_all [insert, get?, size, Array.getElem?_push]

/-! ## Handles

The table hands out a handle for each position it stores. The handle keeps the position's low
32 bits only, so after `2 ^ 32` entries positions share handles. The parser's references name
positions directly; the handles below are the table's own answers. -/

/-- A handle into a table: the low 32 bits of a position. -/
structure Handle where
  index : UInt32
  deriving Repr, DecidableEq

/-- The handle of position `i`. -/
def Handle.new (i : Nat) : Handle := ⟨UInt32.ofNat i⟩

/-- Stores a declaration, registers it under `name`, and returns the handle of its position. -/
def insertHandle (t : Table α) (name : String) (x : α) : Table α × Handle :=
  ((t.insert name x).1, Handle.new t.size)

/-- Stores a declaration without registering it, and returns the handle of its position. -/
def pushHandle (t : Table α) (x : α) : Table α × Handle :=
  ((t.push x).1, Handle.new t.size)

/-- The handle registered under `name`. -/
def lookupHandle (t : Table α) (name : String) : Option Handle := (t.lookup? name).map Handle.new

/-- The declaration a handle points at; `none` where the code panics. -/
def getHandle (t : Table α) (h : Handle) : Option α := t.get? h.index.toNat

/-- The registered handle of a name, or the name itself. -/
def resolveHandle (t : Table α) (name : String) : Ref Handle :=
  match t.lookupHandle name with
  | some h => .resolved h
  | none => .unresolved name

/-- The stored declarations in order, each with the handle of its position. -/
def iterHandles (t : Table α) : List (Handle × α) :=
  t.entries.toList.mapIdx fun i x => (Handle.new i, x)

end Table

structure Tables where
  types : Table TypeDecl
  vars : Table VarDecl
  funs : Table FunDecl
  deriving Inhabited

/-- The six types every program starts with, in table order. -/
def baseTypeNames : List String := ["integer", "real", "boolean", "string", "handle", "code"]

namespace Tables

def initial : Tables :=
  { types := baseTypeNames.foldl (fun t n => (t.insert n ⟨n, none, none⟩).1) {}
    vars := {}
    funs := {} }

def resolveType (ts : Tables) (name : String) : Ref TypeId :=
  match ts.types.lookup? name with
  | some i => .resolved ⟨i⟩
  | none => .unresolved name

def resolveVar (ts : Tables) (name : String) : Ref VarId :=
  match ts.vars.lookup? name with
  | some i => .resolved ⟨i⟩
  | none => .unresolved name

def resolveFun (ts : Tables) (name : String) : Ref FunId :=
  match ts.funs.lookup? name with
  | some i => .resolved ⟨i⟩
  | none => .unresolved name

def type? (ts : Tables) (id : TypeId) : Option TypeDecl := ts.types.get? id.index

def var? (ts : Tables) (id : VarId) : Option VarDecl := ts.vars.get? id.index

def fn? (ts : Tables) (id : FunId) : Option FunDecl := ts.funs.get? id.index

def typeRefName (ts : Tables) : Ref TypeId → String
  | .resolved id => ((ts.type? id).map (·.name)).getD ""
  | .unresolved name => name

def varRefName (ts : Tables) : Ref VarId → String
  | .resolved id => ((ts.var? id).map (·.name)).getD ""
  | .unresolved name => name

def funRefName (ts : Tables) : Ref FunId → String
  | .resolved id => ((ts.fn? id).map (·.name)).getD ""
  | .unresolved name => name

end Tables

end Jass
