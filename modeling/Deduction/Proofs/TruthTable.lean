import Deduction.Proofs.Meaning
import Mathlib.Algebra.Group.Nat.Defs
import Mathlib.Tactic.Set

/-!
# What a truth table decides

Read as a binary number, the assignment that follows another is one more, and the last one of its
length is all ones. So counting through the assignments of a length meets each of them, and a
proposition is a tautology just when it is true under every assignment of any length
(`Proposition.isTautology_iff`). The truth table whose columns are counted in machine words gives
this verdict as long as a list has room for them (`Proposition.tautology?_eq_isTautology`).

A valuation of the prime formulas gives every formula a truth value. The skeleton of a formula has
that value under an assignment which gives each prime formula in its table the same value as the
valuation (`Formula.eval_abstract`). So the skeleton is a tautology just when the formula is true
under every valuation (`Formula.isTautology_iff`), and then it is true in every structure.
-/

namespace Deduction

/-! ## Counting -/

/-- The assignment as a binary number, the lowest digit first. -/
def numeral : List Bool → Nat
  | [] => 0
  | b :: rest => b.toNat + 2 * numeral rest

theorem numeral_lt : ∀ a : List Bool, numeral a < 2 ^ a.length
  | [] => by simp [numeral]
  | b :: rest => by
    have ih := numeral_lt rest
    have hb := Bool.toNat_le b
    simp only [numeral, List.length_cons, Nat.pow_succ]
    omega

theorem numeral_inj : ∀ {a b : List Bool}, a.length = b.length → numeral a = numeral b → a = b
  | [], [], _, _ => rfl
  | x :: a, y :: b, hlen, h => by
    have hx := Bool.toNat_le x
    have hy := Bool.toNat_le y
    simp only [numeral] at h
    have hbit : x.toNat = y.toNat := by omega
    have hxy : x = y := by
      revert hbit
      cases x <;> cases y <;> decide
    rw [hxy, numeral_inj (by simpa using hlen) (show numeral a = numeral b by omega)]

theorem nextAssignment?_some : ∀ {a b : List Bool}, nextAssignment? a = some b →
    b.length = a.length ∧ numeral b = numeral a + 1
  | [], b, h => by simp [nextAssignment?] at h
  | false :: rest, b, h => by
    simp only [nextAssignment?, Option.some.injEq] at h
    subst h
    refine ⟨rfl, ?_⟩
    simp only [numeral, Bool.toNat_true, Bool.toNat_false]
    omega
  | true :: rest, b, h => by
    simp only [nextAssignment?, Option.map_eq_some_iff] at h
    obtain ⟨c, hc, rfl⟩ := h
    obtain ⟨hlen, hnum⟩ := nextAssignment?_some hc
    refine ⟨congrArg (· + 1) hlen, ?_⟩
    simp only [numeral, Bool.toNat_true, Bool.toNat_false]
    omega

theorem nextAssignment?_none : ∀ {a : List Bool}, nextAssignment? a = none →
    numeral a + 1 = 2 ^ a.length
  | [], _ => by simp [numeral]
  | false :: rest, h => by simp [nextAssignment?] at h
  | true :: rest, h => by
    simp only [nextAssignment?, Option.map_eq_none_iff] at h
    have ih := nextAssignment?_none h
    simp only [numeral, List.length_cons, Bool.toNat_true, Nat.pow_succ]
    omega

theorem numeral_replicate (n : Nat) : numeral (List.replicate n false) = 0 := by
  induction n with
  | zero => rfl
  | succ n ih => simp [List.replicate_succ, numeral, ih]

namespace Proposition

/-- A run through the assignments meets those whose numbers come next, `count` of them. -/
theorem holdsFrom_iff (p : Proposition) : ∀ (count : Nat) (a : List Bool),
    p.holdsFrom count a = true ↔ ∀ b, b.length = a.length → numeral a ≤ numeral b →
      numeral b < numeral a + count → p.eval b = true
  | 0, a => by
    simp only [holdsFrom, true_iff]
    intro b _ h h'
    omega
  | count + 1, a => by
    simp only [holdsFrom, Bool.and_eq_true]
    constructor
    · rintro ⟨ha, hrest⟩ b hlen hle hlt
      by_cases hab : numeral b = numeral a
      · rw [numeral_inj hlen hab]
        exact ha
      cases hnext : nextAssignment? a with
      | none =>
        have hlast := nextAssignment?_none hnext
        have hbound := numeral_lt b
        rw [hlen] at hbound
        omega
      | some c =>
        obtain ⟨hclen, hcnum⟩ := nextAssignment?_some hnext
        simp only [hnext] at hrest
        exact (holdsFrom_iff p count c).1 hrest b (hlen.trans hclen.symm) (by omega) (by omega)
    · intro h
      refine ⟨h a rfl (Nat.le_refl _) (by omega), ?_⟩
      cases hnext : nextAssignment? a with
      | none => rfl
      | some c =>
        obtain ⟨hclen, hcnum⟩ := nextAssignment?_some hnext
        exact (holdsFrom_iff p count c).2 fun b hlen hle hlt =>
          h b (hlen.trans hclen) (by omega) (by omega)

theorem eval_congr : ∀ {p : Proposition} {a b : List Bool},
    (∀ i < p.atomCount, a.getD i false = b.getD i false) → p.eval a = p.eval b
  | .atom i, a, b, h => h i (Nat.lt_succ_self i)
  | .neg p, a, b, h => by
    simp only [eval, eval_congr (p := p) h]
  | .binary op p q, a, b, h => by
    have hp : p.eval a = p.eval b :=
      eval_congr fun i hi => h i (Nat.lt_of_lt_of_le hi (Nat.le_max_left ..))
    have hq : q.eval a = q.eval b :=
      eval_congr fun i hi => h i (Nat.lt_of_lt_of_le hi (Nat.le_max_right ..))
    simp only [eval, hp, hq]

/-- The truth table says yes just when the proposition is true under all assignments. -/
theorem isTautology_iff (p : Proposition) :
    p.isTautology = true ↔ ∀ a : List Bool, p.eval a = true := by
  rw [isTautology, holdsFrom_iff]
  simp only [List.length_replicate, numeral_replicate]
  constructor
  · intro h a
    -- Cut or padded to the number of atoms, the assignment is one of those in the table.
    set b := (List.range p.atomCount).map fun i => a.getD i false with hb
    have hlen : b.length = p.atomCount := by simp [hb]
    have hnum := numeral_lt b
    rw [eval_congr (b := b), h b hlen (Nat.zero_le _)]
    · rw [hlen] at hnum
      simpa using hnum
    · intro i hi
      simp [hb, List.getD_eq_getElem?_getD, hi]
  · intro h b _ _ _
    exact h b

end Proposition

/-! ## Machine words -/

theorem maxLength_lt_wordCount : maxLength < wordCount := by decide

theorem Overflow.succ?_eq_some (overflow : Overflow) {n : Nat} (h : n + 1 < wordCount) :
    overflow.succ? n = some (n + 1) := if_pos h

namespace Proposition

variable (overflow : Overflow) {p : Proposition}

theorem count?_eq_atomCount : ∀ {p : Proposition}, p.atomCount < wordCount →
    p.count? overflow = some p.atomCount
  | .atom i, h => overflow.succ?_eq_some h
  | .neg p, h => count?_eq_atomCount (p := p) h
  | .binary _ p q, h => by
    obtain ⟨hp, hq⟩ := Nat.max_lt.1 h
    rw [count?, count?_eq_atomCount hp, count?_eq_atomCount hq]
    rfl

theorem tautology?_eq_some_iff {answer : Bool} (h : p.atomCount < wordCount) :
    p.tautology? overflow = some answer ↔ p.atomCount ≤ maxLength ∧ answer = p.isTautology := by
  rw [tautology?, count?_eq_atomCount overflow h, isTautology]
  by_cases hroom : p.atomCount ≤ maxLength
  · simp [hroom, eq_comm]
  · simp [hroom]

/-- With room for its columns, the truth table gives its verdict whatever becomes of large sums. -/
theorem tautology?_eq_isTautology (h : p.atomCount ≤ maxLength) :
    p.tautology? overflow = some p.isTautology :=
  (tautology?_eq_some_iff overflow (Nat.lt_of_le_of_lt h maxLength_lt_wordCount)).2 ⟨h, rfl⟩

end Proposition

/-! ## Prime formulas -/

/-- The truth value of a formula under a valuation of the prime ones. -/
def Formula.truth (v : Formula → Bool) : Formula → Bool
  | .neg f => !f.truth v
  | .binary op l r => op.eval (l.truth v) (r.truth v)
  | f => v f

theorem prefix_numberIn (f : Formula) (atoms : List Formula) :
    atoms <+: (numberIn f atoms).2 := by
  rw [numberIn]
  split
  · exact List.prefix_rfl
  · exact List.prefix_append ..

/-- The number of a formula is its place in every table that begins with the one it was left in. -/
theorem idxOf_eq_numberIn {f : Formula} {atoms table : List Formula}
    (h : (numberIn f atoms).2 <+: table) : table.idxOf f = (numberIn f atoms).1 := by
  obtain ⟨more, rfl⟩ := h
  rw [numberIn]
  cases hi : atoms.idxOf? f with
  | some i =>
    obtain ⟨hlt, hidx⟩ : i < atoms.length ∧ atoms.idxOf f = i :=
      List.findIdx?_eq_some_iff_findIdx_eq.1 hi
    have hmem : f ∈ atoms := List.idxOf_lt_length_iff.1 (hidx.symm ▸ hlt)
    rw [List.idxOf_append, if_pos hmem, hidx]
  | none =>
    have hmem : f ∉ atoms := List.idxOf?_eq_none_iff.1 hi
    simp [List.idxOf_append, hmem]

theorem mem_of_numberIn {f : Formula} {atoms table : List Formula}
    (h : (numberIn f atoms).2 <+: table) : f ∈ table := by
  rw [← List.idxOf_lt_length_iff, idxOf_eq_numberIn h]
  exact Nat.lt_of_lt_of_le (numberIn_lt f atoms) h.length_le

namespace Formula

theorem prefix_abstract : ∀ (f : Formula) (atoms : List Formula), atoms <+: (f.abstract atoms).2
  | .neg f, atoms => f.prefix_abstract atoms
  | .binary _ l r, atoms => (l.prefix_abstract atoms).trans (r.prefix_abstract _)
  | .equality .., atoms | .relation .., atoms | .quantified .., atoms => prefix_numberIn _ atoms

section

variable {v : Formula → Bool} {a : List Bool} {table : List Formula}
  (hv : ∀ g ∈ table, a.getD (table.idxOf g) false = v g)

include hv

theorem getD_numberIn {f : Formula} {atoms : List Formula} (h : (numberIn f atoms).2 <+: table) :
    a.getD (numberIn f atoms).1 false = v f := by
  rw [← idxOf_eq_numberIn h, hv f (mem_of_numberIn h)]

/-- The numbers that a formula was given stay good when the table grows, so the skeleton has the
value of the formula under an assignment that goes by any table which begins with its own. -/
theorem eval_abstract : ∀ (f : Formula) (atoms : List Formula), (f.abstract atoms).2 <+: table →
    (f.abstract atoms).1.eval a = f.truth v
  | .neg f, atoms, h => by
    simp only [abstract, Proposition.eval, truth, eval_abstract f atoms h]
  | .binary op l r, atoms, h => by
    simp only [abstract] at h
    simp only [abstract, Proposition.eval, truth, eval_abstract r _ h,
      eval_abstract l atoms ((r.prefix_abstract _).trans h)]
  | .equality .., _, h | .relation .., _, h | .quantified .., _, h => getD_numberIn hv h

end

/-- The skeleton of a formula is a tautology just when the formula is true under every valuation of
the prime formulas. -/
theorem isTautology_iff (f : Formula) : f.isTautology = true ↔ ∀ v, f.truth v = true := by
  rw [isTautology, Proposition.isTautology_iff]
  constructor
  · intro h v
    have hv : ∀ g ∈ (f.abstract []).2,
        ((f.abstract []).2.map v).getD ((f.abstract []).2.idxOf g) false = v g := by
      intro g hg
      have hlt := List.idxOf_lt_length_iff.2 hg
      rw [List.getD_eq_getElem?_getD, List.getElem?_map, List.getElem?_eq_getElem hlt,
        List.getElem_idxOf hlt]
      rfl
    rw [← eval_abstract hv f [] List.prefix_rfl]
    exact h _
  · -- An assignment is a valuation by the places of the prime formulas in the table.
    intro h a
    rw [skeleton, eval_abstract (fun _ _ => rfl) f [] List.prefix_rfl]
    exact h _

end Formula

/-! ## Truth in a structure -/

theorem Connective.eval_iff {a b : Bool} {p q : Prop} (hp : a = true ↔ p) (hq : b = true ↔ q)
    (op : Connective) : op.eval a b = true ↔ op.Joins p q := by
  rw [← propext hp, ← propext hq]
  cases op <;> cases a <;> cases b <;> simp [eval, Joins]

universe u

variable {D : Type u} {M : Interpretation D} {s : String → D}

/-- Truth in a structure is truth under a valuation of the prime formulas. -/
theorem Formula.truth_iff_holds {v : Formula → Bool} (hv : ∀ g, v g = true ↔ g.Holds M s) :
    ∀ f : Formula, f.truth v = true ↔ f.Holds M s
  | .neg f => by
    simp only [truth, Holds, ← truth_iff_holds hv f, Bool.not_eq_true', Bool.not_eq_true]
  | .binary op l r => Connective.eval_iff (truth_iff_holds hv l) (truth_iff_holds hv r) op
  | .equality .. | .relation .. | .quantified .. => hv _

theorem Formula.holds_of_isTautology {f : Formula} (h : f.isTautology = true) : f.Holds M s := by
  classical
  have hv : ∀ g : Formula, decide (g.Holds M s) = true ↔ g.Holds M s := fun g => decide_eq_true_iff
  exact (truth_iff_holds hv f).1 ((isTautology_iff f).1 h _)

end Deduction
