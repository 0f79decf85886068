import Jass.Decimal.Shortest
import Jass.Limits
import Jass.Lex.Token
import Jass.Lex.Lexer
import Jass.Syntax.Const
import Jass.Syntax.Expr
import Jass.Syntax.Stmt
import Jass.Syntax.Decl
import Jass.Symbols
import Jass.Syntax.Print
import Jass.Parse.Basic
import Jass.Parse.Expr
import Jass.Parse.Stmt
import Jass.Parse.File
import Jass.Check.Types
import Jass.Check.Fold
import Jass.Check.Report
import Jass.Check.Expr
import Jass.Check.Stmt
import Jass.Destructors
import Jass.Check.Leaks
import Jass.Check.Program
import Jass.Session
import Jass.Toml.Reader
import Jass.Toml.Document
import Jass.Config
import Jass.Main
import Jass.Proofs.Refs
import Jass.Proofs.Parse.Discipline
import Jass.Proofs.Parse.Declarations
import Jass.Proofs.Handles
import Jass.Proofs.Lex.Progress
import Jass.Proofs.Parse.Furthest
import Jass.Proofs.Names
import Jass.Proofs.Parse.Reading
import Jass.Proofs.Parse.Scope
import Jass.Proofs.Lex.RealText
import Jass.Proofs.Bounds
import Jass.Proofs.Parse.Twin
import Jass.Proofs.Lex.Bounds
import Jass.Proofs.Bounds
import Jass.Proofs.Parse.Contents
import Jass.Proofs.Parse.Nesting
import Jass.Proofs.Parse.Fresh
import Jass.Proofs.Leaks
import Jass.Proofs.Lex.Printed
import Jass.Proofs.Real.Grid
import Jass.Proofs.Real.Rounding
import Jass.Proofs.Real.Reading
import Jass.Proofs.Lex.Printable
import Jass.Proofs.Parse.Reread
import Jass.Proofs.Parse.RoundTrip
import Jass.Proofs.Check.WordArithmetic
import Jass.Proofs.Check.FoldedCategory
import Jass.Proofs.Check.Undeclared
import Jass.Proofs.Parse.DepthLimit
import Jass.Proofs.Lex.Positions
import Jass.Proofs.Lex.Raised
import Jass.Proofs.Check.Ancestry
import Jass.Proofs.Check.Locations
import Jass.Proofs.Lex.Order
import Jass.Proofs.Parse.Registration
import Jass.Proofs.Parse.Accounting
import Jass.Proofs.TableGrowth
import Jass.Proofs.TableOps
import Jass.Proofs.DestructorTable
import Jass.Proofs.Lex.Thresholds
import Jass.Proofs.Parse.Budget
