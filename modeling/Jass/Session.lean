import Jass.Parse.File
import Jass.Check.Program
/-!
# Sessions

A session reads files one after another into one set of tables, so each file sees the
declarations of those before it. A file that fails to parse is left out of the program, but
what it registered before failing stays in the tables and resolves in later files.
-/

namespace Jass

structure Session where
  tables : Tables := Tables.initial
  files : List File := []
  limits : Limits := {}
  destructors : Destructors := .builtin

namespace Session

def parse (s : Session) (src path : String) : Session × Except ParseError File :=
  match parseFile src path s.tables s.limits with
  | (.ok f, ts) => ({ s with tables := ts, files := s.files ++ [f] }, .ok f)
  | (.error e, ts) => ({ s with tables := ts }, .error e)

/-- Parses files in order; every file is attempted. -/
def parseAll (s : Session) : List (String × String) → Session × List (Except ParseError File)
  | [] => (s, [])
  | (path, src) :: rest =>
    let (s, r) := s.parse src path
    let (s, rs) := s.parseAll rest
    (s, r :: rs)

def check (s : Session) : List Report := s.tables.check s.destructors s.files

def leakingVars (s : Session) : List VarId := (s.tables.leaks s.destructors s.files).map (·.1)

end Session

end Jass
