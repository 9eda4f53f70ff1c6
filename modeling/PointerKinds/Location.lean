/-
Places in source text.

A location names a file, a line and a column, and sometimes the column where the
range ends.  Locations are ordered by file, line, column and end column, in that
order, with a missing end column first; tables keyed by location are listed in this
order, and two locations that differ in the end column alone are different keys.
-/

namespace PointerKinds

/-- A place in a source file. -/
structure Location where
  file : String
  line : Nat
  col : Nat
  /-- Where the range ends, if that is known. -/
  endCol : Option Nat := none
deriving DecidableEq

namespace Location

instance : Ord Location :=
  ⟨compareLex (compareOn file) (compareLex (compareOn line) (compareLex (compareOn col) (compareOn endCol)))⟩

instance : Std.TransOrd Location :=
  inferInstanceAs <| Std.TransCmp <|
    compareLex (compareOn file) (compareLex (compareOn line) (compareLex (compareOn col) (compareOn endCol)))

theorem eq_of_compareOn {κ : Type} [Ord κ] [Std.LawfulEqOrd κ] {f : Location → κ} {a b : Location}
    (h : compareOn f a b = .eq) : f a = f b := Std.LawfulEqOrd.eq_of_compare h

instance : Std.LawfulEqOrd Location where
  eq_of_compare := by
    intro a b h
    simp only [compare, compareLex_eq_eq] at h
    obtain ⟨hf, hl, hc, he⟩ := h
    have := eq_of_compareOn hf
    have := eq_of_compareOn hl
    have := eq_of_compareOn hc
    have := eq_of_compareOn he
    cases a; cases b; simp_all

/-- The location of nothing: no file, line zero. -/
def invalid : Location := ⟨"", 0, 0, none⟩

/-- A location is usable if it names a file and a line; lines count from one. -/
def isValid (l : Location) : Bool := l.file != "" && 0 < l.line

/-- The usual three-part spelling. -/
def text (l : Location) : String :=
  if l.isValid then s!"{l.file}:{l.line}:{l.col}" else "<invalid>"

end Location

end PointerKinds
