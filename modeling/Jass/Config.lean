import Jass.Limits
import Jass.Destructors
import Jass.Toml.Document
/-!
# Project configuration

A project file (`jass.toml`) may hold two tables and nothing else:

* `[limits]`, whose keys are the six bounds of `Limits`, each a nonnegative integer; bounds it
  does not mention keep their defaults;
* `[destructors]`, whose keys are handle type names and whose values are arrays of function
  names; they are added to the well-known destructors, by type name and then in array order.

A text that is not well-formed TOML, or holds anything else, is malformed. The resulting
limits must then pass `Limits.validate`.
-/

namespace Jass

structure Config where
  limits : Limits := {}
  destructors : Destructors := .builtin

inductive ConfigError where
  | malformed
  | invalidLimit (e : Limits.Invalid)

namespace Config

/-- The overrides of a `[limits]` table: known keys with nonnegative integer values. -/
def limitOverrides (entries : List (String × Toml.Entry)) : Option (List (Limits.Field × Nat)) :=
  entries.mapM fun (k, e) => do
    let f ← Limits.Field.ofKey? k
    match e with
    | .leaf (.int i) => if 0 ≤ i then some (f, i.toNat) else none
    | _ => none

def destructorEntries (entries : List (String × Toml.Entry)) :
    Option (List (String × List String)) :=
  entries.mapM fun (k, e) =>
    match e with
    | .leaf (.strings fs) => some (k, fs)
    | _ => none

def tableChildren (d : Toml.Document) (name : String) : Option (List (String × Toml.Entry)) :=
  match d.get? [name] with
  | none => some []
  | some (.table _) => some (d.children [name])
  | some (.leaf _) => none

def ofDocument? (d : Toml.Document) : Option Config := do
  guard ((d.children []).all fun (k, _) => k == "limits" || k == "destructors")
  let changes ← limitOverrides (← tableChildren d "limits")
  let extra ← destructorEntries (← tableChildren d "destructors")
  let pairs := extra.flatMap fun (t, fs) => fs.map (t, ·)
  return { limits := ({} : Limits).override changes
           destructors := pairs.foldl (fun acc (t, f) => acc.insert t f) .builtin }

def ofToml (text : String) : Except ConfigError Config :=
  match (Toml.read text).bind ofDocument? with
  | none => .error .malformed
  | some c =>
    match c.limits.validate with
    | .ok () => .ok c
    | .error e => .error (.invalidLimit e)

end Config

end Jass
