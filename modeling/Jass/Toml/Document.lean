import Jass.Toml.Reader
/-!
# TOML documents

A document is the list of the keys and tables it defines, each under its full dotted path, in
the order they were defined. Building it from statements enforces that a name is defined once:

* a `[header]` defines its table, and creates the tables on the way to it when they do not
  exist yet; a table that was only created on the way may be defined by a later header;
* a dotted key defines tables on the way to its value; such tables may receive more dotted
  keys, but never a header;
* an inline table is closed: nothing may be added to it afterwards.
-/

namespace Jass

namespace Toml

inductive Origin where
  | header
  | implicit
  | dotted
  | inline
  deriving Repr, DecidableEq

inductive Entry where
  | table (origin : Origin)
  | leaf (v : Value)
  deriving Repr

abbrev Document := List (List String × Entry)

namespace Document

def get? (d : Document) (p : List String) : Option Entry := (d.find? (·.1 == p)).map (·.2)

def children (d : Document) (p : List String) : List (String × Entry) :=
  d.filterMap fun (q, e) =>
    match q.drop p.length with
    | [c] => if q.take p.length == p then some (c, e) else none
    | _ => none

def prefixes (p : List String) : List (List String) :=
  (List.range (p.length - 1)).map fun i => p.take (i + 1)

def defineHeader (d : Document) (p : List String) : Option Document := do
  let d ← (prefixes p).foldlM (fun d q =>
    match d.get? q with
    | none => some (d ++ [(q, .table .implicit)])
    | some (.table .inline) => none
    | some (.table _) => some d
    | some (.leaf _) => none) d
  match d.get? p with
  | none => some (d ++ [(p, .table .header)])
  | some (.table .implicit) =>
    some (d.map fun (q, e) => if q == p then (q, .table .header) else (q, e))
  | some _ => none

/-- Opens the tables on the way to a dotted key inside `base`, creating missing ones, and
checks that the key itself is still free. -/
def openDotted (d : Document) (base k : List String) : Option Document := do
  let d ← (prefixes k).foldlM (fun d q =>
    match d.get? (base ++ q) with
    | none => some (d ++ [(base ++ q, .table .dotted)])
    | some (.table .dotted) => some d
    | some _ => none) d
  match d.get? (base ++ k) with
  | some _ => none
  | none => some d

mutual

def defineKey (d : Document) (base : List String) (k : List String) : Value → Option Document
  | .table entries =>
    (openDotted d base k).bind fun d =>
      defineEntries (d ++ [(base ++ k, .table .inline)]) (base ++ k) entries
  | v => (openDotted d base k).map fun d => d ++ [(base ++ k, .leaf v)]

def defineEntries (d : Document) (base : List String) :
    List (List String × Value) → Option Document
  | [] => some d
  | (k, v) :: rest => (defineKey d base k v).bind fun d => defineEntries d base rest

end

/-- Defines the statements of a text in order; `current` is the table of the last header. -/
def build (d : Document) (current : List String) : List Statement → Option Document
  | [] => some d
  | .header p :: rest => (defineHeader d p).bind fun d => build d p rest
  | .keyValue k v :: rest => (defineKey d current k v).bind fun d => build d current rest

end Document

def read (text : String) : Option Document :=
  (parse text).bind (Document.build [] [])

end Toml

end Jass
