/-
How much of a program is checked.

Atoms are counted by kind, for each visited file and in total.  The share of checked
atoms is a 64-bit float, printed to one place; of nothing, all is checked.
-/
import PointerKinds.Program.Basic
import PointerKinds.Text.Fixed

namespace PointerKinds

/-- How many atoms have each kind. -/
structure KindCounts where
  ptr : Nat := 0
  arr : Nat := 0
  ntArr : Nat := 0
  wild : Nat := 0
deriving DecidableEq

namespace KindCounts

/-- Counts are 64-bit numbers. -/
def countLimit : Nat := 18446744073709551616

/-- Counts one more atom. -/
def add (c : KindCounts) : Kind → KindCounts
  | .ptr => { c with ptr := c.ptr + 1 }
  | .arr => { c with arr := c.arr + 1 }
  | .ntArr => { c with ntArr := c.ntArr + 1 }
  | .wild => { c with wild := c.wild + 1 }

/-- Counts both. -/
def merge (c d : KindCounts) : KindCounts :=
  ⟨c.ptr + d.ptr, c.arr + d.arr, c.ntArr + d.ntArr, c.wild + d.wild⟩

/-- How many atoms there are. -/
def total (c : KindCounts) : Nat := c.ptr + c.arr + c.ntArr + c.wild

/-- How many of them are checked. -/
def checked (c : KindCounts) : Nat := c.total - c.wild

/-- Whether every count is in the space of counts. -/
def countsFit (c : KindCounts) : Bool :=
  c.ptr < countLimit && c.arr < countLimit && c.ntArr < countLimit && c.wild < countLimit

/-- Whether the total, and with it every count, is in the space of counts. -/
def fits (c : KindCounts) : Bool := c.total < countLimit

/-- The share of checked atoms, in percent. -/
def percentage (c : KindCounts) : Float :=
  if c.total = 0 then 100 else c.checked.toUInt64.toFloat / c.total.toUInt64.toFloat * 100

/-- One line for a reader. -/
def text (c : KindCounts) : String :=
  "ptr=" ++ toString c.ptr ++ " arr=" ++ toString c.arr ++ " ntarr=" ++ toString c.ntArr ++
    " wild=" ++ toString c.wild ++ " (" ++ floatText c.percentage ++ "% checked)"

end KindCounts

/-- The counts of a program. -/
structure Statistics where
  files : SortedMap String KindCounts := ∅
  total : KindCounts := {}
  /-- How many root causes there are. -/
  roots : Nat := 0
deriving DecidableEq

namespace Statistics

/-- Counts an atom of a file. -/
def count (s : Statistics) (file : String) (k : Kind) : Statistics :=
  { s with
    files := s.files.insert file ((s.files.getD file {}).add k)
    total := s.total.add k }

/-- Counts the atoms declared in the visited files. -/
def ofProgram (p : Program) : Statistics :=
  let located := p.atomLocations.entries.filter fun e => p.files.contains e.2.file
  located.foldl (fun s e => s.count e.2.file (p.store.value e.1))
    { roots := p.rootCauses.roots.length }

/-- Whether every total is in the space of counts. -/
def fits (s : Statistics) : Bool := s.files.values.all (·.fits) && s.total.fits

/-- A line for each file, and the totals. -/
def summary (s : Statistics) : String :=
  "Conversion statistics\n" ++
    String.join (s.files.entries.map fun e => "  " ++ e.1 ++ ": " ++ e.2.text ++ "\n") ++
    "  total: " ++ s.total.text ++ "\n" ++
    "  wild root causes: " ++ toString s.roots ++ "\n"

end Statistics

end PointerKinds
