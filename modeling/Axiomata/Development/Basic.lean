import Axiomata.Development.File

/-!
# Developments

A development is a number of files in a dependency order. A file sees the tables of the files before
it in the order, as they were last compiled.
-/

namespace Axiomata

structure Development where
  order : List String := []
  /-- The last compilation of each file, the latest one first. -/
  files : List CompiledFile := []
deriving Inhabited

namespace Development

variable (d : Development)

def arrange (order : List String) : Development := { d with order }

def file? (name : String) : Option CompiledFile := d.files.find? (·.name == name)

/-- The files in front of the first place of a file in the order. A file that is not in the order
depends on none. -/
def before (name : String) : List String :=
  if d.order.contains name then d.order.takeWhile (· != name) else []

/-- The tables that a file depends on, as far as they are compiled. -/
def depsOf (name : String) : List Table :=
  (d.before name).filterMap fun other => (d.file? other).map CompiledFile.table

/-- Compiles a file, in place of what was known of it. -/
def compile (s : Source) : Development :=
  { d with files := s.compile (d.depsOf s.name) :: d.files.filter (·.name != s.name) }

end Development

end Axiomata
