import Deduction.Proposition.Basic

/-!
# Propositional skeletons

A formula is prime when it is an equality, a relation applied to terms, or quantified. The skeleton
of a formula has an atom in the place of each prime formula that stands under no other one. The
atoms are numbered from zero in the order in which their formulas first occur, and equal formulas
share an atom.
-/

namespace Deduction

/-- A proposition with the formula behind each of its atoms. -/
structure Skeleton where
  proposition : Proposition
  atoms : List Formula
  covered : proposition.atomCount ≤ atoms.length

/-- The number of a formula in a table, where it is put at the end if it is not yet there. -/
def numberIn (f : Formula) (atoms : List Formula) : Nat × List Formula :=
  match atoms.idxOf? f with
  | some i => (i, atoms)
  | none => (atoms.length, atoms ++ [f])

namespace Formula

/-- The skeleton of a formula over the table of the prime formulas that came before it, and the
table that it leaves. -/
def abstract (atoms : List Formula) : Formula → Proposition × List Formula
  | .neg f =>
    let (p, atoms) := f.abstract atoms
    (.neg p, atoms)
  | .binary op l r =>
    let (p, atoms) := l.abstract atoms
    let (q, atoms) := r.abstract atoms
    (.binary op p q, atoms)
  | f =>
    let (i, atoms) := numberIn f atoms
    (.atom i, atoms)

end Formula

theorem length_le_numberIn (f : Formula) (atoms : List Formula) :
    atoms.length ≤ (numberIn f atoms).2.length := by
  rw [numberIn]
  split <;> simp

theorem numberIn_lt (f : Formula) (atoms : List Formula) :
    (numberIn f atoms).1 < (numberIn f atoms).2.length := by
  rw [numberIn]
  split
  · next i h =>
    obtain ⟨hlt, -⟩ := List.findIdx?_eq_some_iff_getElem.1 h
    exact hlt
  · simp

namespace Formula

theorem length_le_abstract : ∀ (f : Formula) (atoms : List Formula),
    atoms.length ≤ (f.abstract atoms).2.length
  | .neg f, atoms => f.length_le_abstract atoms
  | .binary _ l r, atoms => Nat.le_trans (l.length_le_abstract atoms) (r.length_le_abstract _)
  | .equality .., atoms | .relation .., atoms | .quantified .., atoms => length_le_numberIn _ atoms

theorem atomCount_abstract : ∀ (f : Formula) (atoms : List Formula),
    (f.abstract atoms).1.atomCount ≤ (f.abstract atoms).2.length
  | .neg f, atoms => f.atomCount_abstract atoms
  | .binary _ l r, atoms =>
    Nat.max_le.2 ⟨Nat.le_trans (l.atomCount_abstract atoms) (r.length_le_abstract _),
      r.atomCount_abstract _⟩
  | .equality .., atoms | .relation .., atoms | .quantified .., atoms => numberIn_lt _ atoms

def skeleton (f : Formula) : Skeleton :=
  ⟨(f.abstract []).1, (f.abstract []).2, f.atomCount_abstract []⟩

/-- The skeleton of the formula is a tautology. -/
def isTautology (f : Formula) : Bool := f.skeleton.proposition.isTautology

end Formula

namespace Skeleton

/-- The table is accepted for the proposition: it has no fewer formulas than the word says that there
are atoms. -/
def accepts? (overflow : Overflow) (p : Proposition) (atoms : List Formula) : Option Bool := do
  return (← p.count? overflow) ≤ atoms.length

/-- The formula with each atom of `p` looked up in the table, if they are all found there. -/
def rebuild? (atoms : List Formula) : (p : Proposition) → Option Formula
  | .atom i => atoms[i]?
  | .neg p => (rebuild? atoms p).map .neg
  | .binary op p q => (rebuild? atoms p).bind fun l => (rebuild? atoms q).map (.binary op l)

/-- The formula with each atom of `p` replaced by its formula in the table. -/
def rebuild (atoms : List Formula) : (p : Proposition) → p.atomCount ≤ atoms.length → Formula
  | .atom i, h => atoms.get ⟨i, h⟩
  | .neg p, h => .neg (rebuild atoms p h)
  | .binary op p q, h =>
    .binary op (rebuild atoms p (Nat.max_le.1 h).1) (rebuild atoms q (Nat.max_le.1 h).2)

def toFormula (s : Skeleton) : Formula := rebuild s.atoms s.proposition s.covered

end Skeleton

end Deduction
