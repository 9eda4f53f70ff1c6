/-
The text of a formula.

A dump shows a constraint by its text, and whoever looks two constraints up in it takes those
that read alike for one.  So a text must not be the text of two formulas, however deep they nest.

It is not, because it is always clear where a part ends.  The name of an operand ends where no
name can go on.  A body, a premise or a conclusion ends at the bracket that closes it; and as a
closing bracket is no part of a name, the last operand inside ends there too.  No bracket need
ever be counted: what is proved is not about texts but about texts with something after them
that is no part of a name, and says that where two of these agree, the formulas are the same and
so is what comes after.  In this form it can be used for a premise, which has a conclusion
after it.

The other half is that operands are told apart by their names: the name of an atom starts with
a letter that no kind starts with, and its number can be read off its digits.
-/
import PointerKinds.Constraint.Formula
import Mathlib.Data.List.TakeWhile

namespace PointerKinds

/-! ### Where names end -/

/-- A character that the name of an operand may have. -/
def isNamePart (c : Char) : Bool := c.isAlphanum || c == '_'

/-- No name goes on here. -/
def AtBreak (l : List Char) : Prop := ∀ c ∈ l.head?, isNamePart c = false

variable {l m : List Char} {c : Char}

theorem atBreak_nil : AtBreak [] := fun _ hc => nomatch hc

theorem atBreak_cons : AtBreak (c :: l) ↔ isNamePart c = false := by
  simp [AtBreak]

theorem AtBreak.takeWhile (h : AtBreak l) : l.takeWhile isNamePart = [] := by
  cases l with
  | nil => rfl
  | cons c rest => exact List.takeWhile_cons_of_neg (by simpa using atBreak_cons.1 h)

/-! ### Operands -/

namespace Operand

variable {a b : Operand}

theorem toList_text_atom (key : AtomKey) : (atom key).text.toList = 'q' :: '_' :: Nat.toDigits 10 key := by
  simp [text, show (toString "q_").toList = ['q', '_'] from rfl]

theorem isNamePart_of_mem_text (h : c ∈ a.text.toList) : isNamePart c = true := by
  cases a with
  | atom key =>
      rw [toList_text_atom, List.mem_cons, List.mem_cons] at h
      rcases h with rfl | rfl | h
      · rfl
      · rfl
      · have hdigit : c.isDigit = true := Nat.isDigit_of_mem_toDigits (by decide) (by decide) h
        simp [isNamePart, Char.isAlphanum, hdigit]
  | kind k =>
      have hname : k.name.toList.all isNamePart = true := by cases k <;> decide
      exact List.all_eq_true.1 hname c h

theorem toList_text_ne_nil (a : Operand) : a.text.toList ≠ [] := by
  cases a with
  | atom key => simp [toList_text_atom]
  | kind k => cases k <;> decide

theorem text_atom_inj {x y : AtomKey} (h : (atom x).text = (atom y).text) : x = y := by
  have hdigits : Nat.toDigits 10 x = Nat.toDigits 10 y := by
    simpa [toList_text_atom] using congrArg String.toList h
  simpa using congrArg (Nat.ofDigitChars 10 · 0) hdigits

theorem text_kind_inj {k l : Kind} (h : (kind k).text = (kind l).text) : k = l := by
  have hread : Kind.ofName? k.name = Kind.ofName? l.name := congrArg Kind.ofName? h
  rwa [Kind.ofName?_name, Kind.ofName?_name, Option.some.injEq] at hread

theorem text_atom_ne_kind (key : AtomKey) (k : Kind) : (atom key).text ≠ (kind k).text := by
  intro h
  have hhead := congrArg (·.toList.head?) h
  simp only [toList_text_atom, List.head?_cons] at hhead
  cases k <;> exact absurd hhead (by decide)

/-- Operands are told apart by their names. -/
theorem text_inj : a.text = b.text ↔ a = b := by
  refine ⟨fun h => ?_, congrArg text⟩
  cases a with
  | atom x =>
      cases b with
      | atom y => rw [text_atom_inj h]
      | kind l => exact absurd h (text_atom_ne_kind x l)
  | kind k =>
      cases b with
      | atom y => exact absurd h.symm (text_atom_ne_kind y k)
      | kind l => rw [text_kind_inj h]

theorem takeWhile_text_append (a : Operand) (hl : AtBreak l) :
    (a.text.toList ++ l).takeWhile isNamePart = a.text.toList := by
  rw [List.takeWhile_append_of_pos fun c => isNamePart_of_mem_text, hl.takeWhile, List.append_nil]

theorem text_append_inj (hl : AtBreak l) (hm : AtBreak m) (h : a.text.toList ++ l = b.text.toList ++ m) :
    a = b ∧ l = m := by
  have hname : a.text.toList = b.text.toList := by
    rw [← a.takeWhile_text_append hl, h, b.takeWhile_text_append hm]
  exact ⟨text_inj.1 (String.toList_inj.1 hname), List.append_cancel_left (hname ▸ h)⟩

theorem not_atBreak_text_append (a : Operand) (l : List Char) : ¬ AtBreak (a.text.toList ++ l) := by
  intro h
  cases hname : a.text.toList with
  | nil => exact a.toList_text_ne_nil hname
  | cons c rest =>
      have hpart : isNamePart c = true := isNamePart_of_mem_text (hname ▸ List.mem_cons_self)
      rw [hname] at h
      exact absurd (hpart.symm.trans (atBreak_cons.1 h)) (by decide)

end Operand

/-! ### Formulas -/

namespace Formula

variable {f g : Formula}

theorem text_eq_append (lhs rhs : Operand) (l : List Char) :
    (eq lhs rhs).text.toList ++ l = lhs.text.toList ++ ' ' :: '=' :: '=' :: ' ' :: (rhs.text.toList ++ l) := by
  simp [text]

theorem text_not_append (body : Formula) (l : List Char) :
    (not body).text.toList ++ l = '~' :: '(' :: (body.text.toList ++ ')' :: l) := by
  simp [text]

theorem text_implies_append (premise conclusion : Formula) (l : List Char) :
    (implies premise conclusion).text.toList ++ l =
      '(' :: (premise.text.toList ++
        ')' :: ' ' :: '=' :: '>' :: ' ' :: '(' :: (conclusion.text.toList ++ ')' :: l)) := by
  simp [text]

/-- The text of an equality starts with a name. -/
theorem text_eq_append_ne (hc : isNamePart c = false) (lhs rhs : Operand) :
    (eq lhs rhs).text.toList ++ l ≠ c :: m := by
  rw [text_eq_append]
  exact fun h => lhs.not_atBreak_text_append _ (h ▸ atBreak_cons.2 hc)

/-- Where the texts of two formulas are followed by something that is no part of a name, both the
formulas and what follows can be read off. -/
theorem text_append_inj (hl : AtBreak l) (hm : AtBreak m) (h : f.text.toList ++ l = g.text.toList ++ m) :
    f = g ∧ l = m := by
  have hclose : ∀ l : List Char, AtBreak (')' :: l) := fun _ => atBreak_cons.2 rfl
  -- On `f`, for all that may follow: the premise of an implication is followed by its conclusion.
  induction f generalizing g l m with
  | eq a b =>
      cases g with
      | eq a' b' =>
          rw [text_eq_append, text_eq_append] at h
          obtain ⟨rfl, hsign⟩ := Operand.text_append_inj (atBreak_cons.2 rfl) (atBreak_cons.2 rfl) h
          simp only [List.cons.injEq, true_and] at hsign
          obtain ⟨rfl, hrest⟩ := Operand.text_append_inj hl hm hsign
          exact ⟨rfl, hrest⟩
      | not body' =>
          rw [text_not_append] at h
          exact absurd h (text_eq_append_ne rfl a b)
      | implies p' c' =>
          rw [text_implies_append] at h
          exact absurd h (text_eq_append_ne rfl a b)
  | not body ih =>
      rw [text_not_append] at h
      cases g with
      | eq a' b' => exact absurd h.symm (text_eq_append_ne rfl a' b')
      | not body' =>
          rw [text_not_append] at h
          simp only [List.cons.injEq, true_and] at h
          obtain ⟨rfl, hrest⟩ := ih (hclose l) (hclose m) h
          exact ⟨rfl, (List.cons.inj hrest).2⟩
      | implies p' c' =>
          rw [text_implies_append] at h
          exact absurd (List.cons.inj h).1 (by decide)
  | implies p c ihp ihc =>
      rw [text_implies_append] at h
      cases g with
      | eq a' b' => exact absurd h.symm (text_eq_append_ne rfl a' b')
      | not body' =>
          rw [text_not_append] at h
          exact absurd (List.cons.inj h).1 (by decide)
      | implies p' c' =>
          rw [text_implies_append] at h
          simp only [List.cons.injEq, true_and] at h
          obtain ⟨rfl, harrow⟩ := ihp (hclose _) (hclose _) h
          simp only [List.cons.injEq, true_and] at harrow
          obtain ⟨rfl, hrest⟩ := ihc (hclose l) (hclose m) harrow
          exact ⟨rfl, (List.cons.inj hrest).2⟩

/-- Formulas are told apart by their texts. -/
theorem text_inj : f.text = g.text ↔ f = g :=
  ⟨fun h => (text_append_inj atBreak_nil atBreak_nil (congrArg (·.toList ++ []) h)).1, congrArg text⟩

end Formula

end PointerKinds
