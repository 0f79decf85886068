/-!
# Destructor tables

A destructor table maps handle type names to the functions that release a value of the type.
It is kept as a list of entries sorted by type name, each with its functions in the order they
were added; adding a pair that is already present changes nothing. Walking the table therefore
lists the pairs by type name (in code-point order, which is the byte order of their UTF-8
text) and, within a type, in insertion order.
-/

namespace Jass

/-- Handle types with the functions that release them, sorted by type name. -/
structure Destructors where
  entries : List (String × List String) := []
  deriving Repr, DecidableEq, Inhabited

namespace Destructors

def insertInto (type fn : String) : List (String × List String) → List (String × List String)
  | [] => [(type, [fn])]
  | (t, fs) :: rest =>
    if type == t then (t, if fs.contains fn then fs else fs ++ [fn]) :: rest
    else if type < t then (type, [fn]) :: (t, fs) :: rest
    else (t, fs) :: insertInto type fn rest

/-- Adds a destructor for a type; a pair already present is ignored. -/
def insert (d : Destructors) (type fn : String) : Destructors :=
  ⟨insertInto type fn d.entries⟩

def forType (d : Destructors) (type : String) : List String :=
  ((d.entries.find? (·.1 == type)).map (·.2)).getD []

def isDestructor (d : Destructors) (type fn : String) : Bool :=
  (d.forType type).contains fn

def pairs (d : Destructors) : List (String × String) :=
  d.entries.flatMap fun (t, fs) => fs.map (t, ·)

def size (d : Destructors) : Nat := d.entries.foldr (fun e n => e.2.length + n) 0

def isEmpty (d : Destructors) : Bool := d.size == 0

def ofPairs (ps : List (String × String)) : Destructors :=
  ps.foldl (fun d (t, f) => d.insert t f) {}

def builtinPairs : List (String × String) :=
  [("boolexpr", "DestroyBoolExpr"), ("conditionfunc", "DestroyCondition"),
   ("defeatcondition", "DestroyDefeatCondition"), ("destructable", "RemoveDestructable"),
   ("dialog", "DialogDestroy"), ("effect", "DestroyEffect"), ("filterfunc", "DestroyFilter"),
   ("fogmodifier", "DestroyFogModifier"), ("force", "DestroyForce"),
   ("gamecache", "FlushGameCache"), ("group", "DestroyGroup"), ("image", "DestroyImage"),
   ("item", "RemoveItem"), ("itempool", "DestroyItemPool"),
   ("leaderboard", "DestroyLeaderboard"), ("lightning", "DestroyLightning"),
   ("location", "RemoveLocation"), ("multiboard", "DestroyMultiboard"),
   ("quest", "DestroyQuest"), ("rect", "RemoveRect"), ("region", "RemoveRegion"),
   ("sound", "KillSoundWhenDone"), ("texttag", "DestroyTextTag"), ("timer", "DestroyTimer"),
   ("timerdialog", "DestroyTimerDialog"), ("trigger", "DestroyTrigger"),
   ("ubersplat", "DestroyUbersplat"), ("unitpool", "DestroyUnitPool")]

def builtin : Destructors := ofPairs builtinPairs

end Destructors

end Jass
