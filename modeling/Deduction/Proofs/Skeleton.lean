import Deduction.Proofs.OrderedSet
import Deduction.Proofs.TruthTable
import Mathlib.Data.List.Basic
import Mathlib.Data.Subtype

/-!
# Tautologies and the formulas behind their atoms

The prime formulas of a formula are those in it that stand under no other one. A valuation of these
alone gives the formula a truth value. It is what is left of some valuation of all formulas, and the
truth value is the same under both (`Formula.Valuation.exists_total`, `Formula.value_restrict`). So
what a truth table goes through are the valuations of the prime formulas that occur.

The other way round a formula is built from a proposition by putting formulas in the place of its
atoms. It has the truth value of the proposition under the values of these formulas, whatever they
are (`Skeleton.truth_rebuild`). Its own skeleton may be quite another proposition: the formulas that
were put in need not be prime, and may share prime formulas with each other. The table has a formula
for each atom that is looked up just when it has as many as there are atoms
(`Skeleton.isSome_rebuild?`). It is accepted by a count in machine words, which is the number of
atoms unless one of them has the largest word for its number. In the skeleton of a formula none has
it, unless there are too many prime formulas to hold (`Formula.tautology?_skeleton`).

The skeleton that was taken from a formula gives it back. While it is taken the table grows, and the
numbers that were given before stay good, so they are the places of the prime formulas in the table
at the end (`Formula.rebuild?_abstract`, `Formula.numbers_abstract`). What is in that table are the
prime formulas with repetitions dropped (`Formula.toList_abstract`).
-/

namespace Deduction

namespace Formula

/-! ## Valuations of the prime formulas -/

/-- The prime formulas that stand under no other one, from left to right, with repetition. -/
def primes : Formula → List Formula
  | .neg f => f.primes
  | .binary _ l r => l.primes ++ r.primes
  | f => [f]

/-- A truth value for each prime formula in `f`. -/
abbrev Valuation (f : Formula) : Type := {g // g ∈ f.primes} → Bool

namespace Valuation

def left {op : Connective} {l r : Formula} (v : (binary op l r).Valuation) : l.Valuation :=
  fun g => v ⟨g, List.mem_append_left _ g.2⟩

def right {op : Connective} {l r : Formula} (v : (binary op l r).Valuation) : r.Valuation :=
  fun g => v ⟨g, List.mem_append_right _ g.2⟩

theorem exists_total {f : Formula} (v : f.Valuation) :
    ∃ w : Formula → Bool, v = w ∘ Subtype.val :=
  ⟨Function.extend Subtype.val v fun _ => false,
    funext fun g => (Subtype.val_injective.extend_apply v _ g).symm⟩

end Valuation

/-- The truth value of a formula under a valuation of the prime formulas in it. -/
def value : (f : Formula) → f.Valuation → Bool
  | .neg f, v => !f.value v
  | .binary op l r, v => op.eval (l.value v.left) (r.value v.right)
  | .equality a b, v => v ⟨.equality a b, List.mem_singleton_self _⟩
  | .relation symbol args, v => v ⟨.relation symbol args, List.mem_singleton_self _⟩
  | .quantified q x f, v => v ⟨.quantified q x f, List.mem_singleton_self _⟩

theorem value_restrict (w : Formula → Bool) : ∀ f : Formula,
    f.value (w ∘ Subtype.val) = f.truth w
  | .neg f => congrArg (!·) (value_restrict w f)
  | .binary op l r => congrArg₂ op.eval (value_restrict w l) (value_restrict w r)
  | .equality .. | .relation .. | .quantified .. => rfl

/-- The skeleton of a formula is a tautology just when the formula is true under every valuation of
the prime formulas in it: each has one value in all its places, and different ones have any values
side by side. -/
theorem isTautology_iff_valuation (f : Formula) :
    f.isTautology = true ↔ ∀ v : f.Valuation, f.value v = true := by
  rw [isTautology_iff]
  constructor
  · intro h v
    obtain ⟨w, rfl⟩ := v.exists_total
    rw [value_restrict]
    exact h w
  · intro h w
    rw [← value_restrict]
    exact h _

/-- A quantified formula counts as a whole, so what it says of a constant does not follow. -/
example :
    let P := all "x" (holds "R" [.var "x"])
    let Q := holds "Q" []
    (imp (imp P Q) (imp (neg Q) (neg P))).isTautology = true ∧
      (imp P (holds "R" [.const "c"])).isTautology = false := by
  decide

end Formula

/-! ## The size of a skeleton -/

theorem length_numberIn_le (f : Formula) (atoms : List Formula) :
    (numberIn f atoms).2.length ≤ atoms.length + 1 := by
  rw [numberIn]
  split <;> simp

namespace Formula

theorem length_abstract_le : ∀ (f : Formula) (atoms : List Formula),
    (f.abstract atoms).2.length ≤ atoms.length + f.primes.length
  | .neg f, atoms => f.length_abstract_le atoms
  | .binary _ l r, atoms => by
    have hl := l.length_abstract_le atoms
    have hr := r.length_abstract_le (l.abstract atoms).2
    simp only [abstract, primes, List.length_append]
    omega
  | .equality .., atoms | .relation .., atoms | .quantified .., atoms => length_numberIn_le _ atoms

/-- A skeleton has no more atoms than there are prime formulas, so its truth table has room if these
have. -/
theorem tautology?_skeleton (overflow : Overflow) {f : Formula} (h : f.primes.length ≤ maxLength) :
    f.skeleton.proposition.tautology? overflow = some f.isTautology := by
  have hatoms : f.skeleton.atoms.length ≤ f.primes.length := by
    simpa [skeleton] using f.length_abstract_le []
  have hroom : f.skeleton.proposition.atomCount ≤ maxLength := by
    have hcovered := f.skeleton.covered
    omega
  exact Proposition.tautology?_eq_isTautology overflow hroom

end Formula

/-! ## Formulas in the place of atoms -/

namespace Skeleton

theorem rebuild?_eq_some {atoms : List Formula} : ∀ {p : Proposition}
    (h : p.atomCount ≤ atoms.length), rebuild? atoms p = some (rebuild atoms p h)
  | .atom i, h => List.getElem?_eq_getElem h
  | .neg p, h => by
    rw [rebuild?, rebuild?_eq_some (p := p) h]
    rfl
  | .binary op p q, h => by
    obtain ⟨hp, hq⟩ := Nat.max_le.1 h
    rw [rebuild?, rebuild?_eq_some hp, rebuild?_eq_some hq]
    rfl

theorem atomCount_le_of_rebuild? {atoms : List Formula} : ∀ {p : Proposition} {f : Formula},
    rebuild? atoms p = some f → p.atomCount ≤ atoms.length
  | .atom i, f, h => (List.getElem?_eq_some_iff.1 h).1
  | .neg p, f, h => by
    obtain ⟨g, hg, -⟩ := Option.map_eq_some_iff.1 h
    exact atomCount_le_of_rebuild? (p := p) hg
  | .binary op p q, f, h => by
    obtain ⟨l, hl, h⟩ := Option.bind_eq_some_iff.1 h
    obtain ⟨r, hr, -⟩ := Option.map_eq_some_iff.1 h
    exact Nat.max_le.2 ⟨atomCount_le_of_rebuild? hl, atomCount_le_of_rebuild? hr⟩

theorem truth_rebuild (v : Formula → Bool) (atoms : List Formula) : ∀ (p : Proposition)
    (h : p.atomCount ≤ atoms.length),
      (rebuild atoms p h).truth v = p.eval (atoms.map fun f => f.truth v)
  | .atom i, h => by
    have hi : i < atoms.length := h
    simp [rebuild, Proposition.eval, hi]
  | .neg p, h => by
    simp only [rebuild, Formula.truth, Proposition.eval, truth_rebuild v atoms p h]
  | .binary op p q, h => by
    obtain ⟨hp, hq⟩ := Nat.max_le.1 h
    simp only [rebuild, Formula.truth, Proposition.eval, truth_rebuild v atoms p hp,
      truth_rebuild v atoms q hq]

theorem isSome_rebuild? {atoms : List Formula} {p : Proposition} :
    (rebuild? atoms p).isSome = decide (p.atomCount ≤ atoms.length) := by
  by_cases h : p.atomCount ≤ atoms.length
  · simp [rebuild?_eq_some h, h]
  · have hnone : rebuild? atoms p = none :=
      Option.eq_none_iff_forall_ne_some.2 fun f hf => h (atomCount_le_of_rebuild? hf)
    simp [hnone, h]

end Skeleton

/-! ## The skeleton of a formula -/

theorem getElem?_numberIn {f : Formula} {atoms table : List Formula}
    (h : (numberIn f atoms).2 <+: table) : table[(numberIn f atoms).1]? = some f := by
  rw [← idxOf_eq_numberIn h, List.getElem?_idxOf (mem_of_numberIn h)]

theorem numberIn_toList (f : Formula) (atoms : OrderedSet Formula) :
    (numberIn f atoms.toList).2 = (atoms.insert f).toList := by
  rw [numberIn, OrderedSet.toList_insert]
  cases hi : atoms.toList.idxOf? f with
  | some i =>
    have hmem : f ∈ atoms := by
      by_contra hmem
      rw [List.idxOf?_eq_none_iff.2 hmem] at hi
      cases hi
    rw [if_pos hmem]
  | none =>
    have hmem : f ∉ atoms := List.idxOf?_eq_none_iff.1 hi
    rw [if_neg hmem]

/-- The numbers of the atoms, from left to right, with repetition. -/
def Proposition.numbers : Proposition → List Nat
  | .atom i => [i]
  | .neg p => p.numbers
  | .binary _ p q => p.numbers ++ q.numbers

theorem Proposition.lt_atomCount {i : Nat} : ∀ {p : Proposition}, i ∈ p.numbers → i < p.atomCount
  | .atom j, h => by
    simp only [numbers, List.mem_singleton] at h
    rw [h]
    exact Nat.lt_succ_self j
  | .neg p, h => lt_atomCount (p := p) h
  | .binary _ p q, h => by
    simp only [numbers, List.mem_append] at h
    rcases h with h | h
    · exact Nat.lt_of_lt_of_le (lt_atomCount h) (Nat.le_max_left ..)
    · exact Nat.lt_of_lt_of_le (lt_atomCount h) (Nat.le_max_right ..)

namespace Formula

/-- What a formula adds to the table are its prime formulas, one after the other. -/
theorem toList_abstract : ∀ (f : Formula) (atoms : OrderedSet Formula),
    (f.abstract atoms.toList).2 = (atoms.insertMany f.primes).toList
  | .neg f, atoms => f.toList_abstract atoms
  | .binary _ l r, atoms => by
    simp only [abstract, primes]
    rw [toList_abstract l, toList_abstract r, OrderedSet.insertMany, OrderedSet.insertMany,
      OrderedSet.insertMany, List.foldl_append]
  | .equality .., atoms | .relation .., atoms | .quantified .., atoms => numberIn_toList _ atoms

/-- The formula is found again in every table that begins with the one it has left. -/
theorem rebuild?_abstract {table : List Formula} : ∀ (f : Formula) (atoms : List Formula),
    (f.abstract atoms).2 <+: table → Skeleton.rebuild? table (f.abstract atoms).1 = some f
  | .neg f, atoms, h => by
    simp only [abstract, Skeleton.rebuild?, rebuild?_abstract f atoms h, Option.map_some]
  | .binary op l r, atoms, h => by
    simp only [abstract] at h
    have hl := rebuild?_abstract l atoms ((r.prefix_abstract _).trans h)
    have hr := rebuild?_abstract r _ h
    simp only [abstract, Skeleton.rebuild?, hl, hr, Option.bind_some, Option.map_some]
  | .equality .., _, h | .relation .., _, h | .quantified .., _, h => getElem?_numberIn h

theorem numbers_abstract {table : List Formula} : ∀ (f : Formula) (atoms : List Formula),
    (f.abstract atoms).2 <+: table →
      (f.abstract atoms).1.numbers = f.primes.map fun g => table.idxOf g
  | .neg f, atoms, h => numbers_abstract f atoms h
  | .binary op l r, atoms, h => by
    simp only [abstract] at h
    have hl := numbers_abstract l atoms ((r.prefix_abstract _).trans h)
    have hr := numbers_abstract r _ h
    simp only [abstract, Proposition.numbers, primes, List.map_append, hl, hr]
  | .equality .., _, h | .relation .., _, h | .quantified .., _, h =>
    congrArg (fun i => [i]) (idxOf_eq_numberIn h).symm

/-- The skeleton of a formula gives the formula back. Its table has the prime formulas, each once,
in the order in which they first occur. The proposition has as many atoms as the table has formulas,
and leaves out none of their numbers. -/
theorem skeleton_canonical (f : Formula) :
    f.skeleton.toFormula = f ∧ f.skeleton.atoms.Nodup ∧
      f.skeleton.atoms = f.primes.eraseDups ∧
      f.skeleton.proposition.atomCount = f.skeleton.atoms.length ∧
      ∀ i < f.skeleton.proposition.atomCount, i ∈ f.skeleton.proposition.numbers := by
  have htable : f.skeleton.atoms = (OrderedSet.ofList f.primes).toList :=
    f.toList_abstract .empty
  have hnodup : f.skeleton.atoms.Nodup := htable ▸ (OrderedSet.ofList f.primes).nodup
  have hatoms : f.skeleton.atoms = f.primes.eraseDups :=
    htable.trans (OrderedSet.toList_ofList f.primes)
  have hback : some f.skeleton.toFormula = some f :=
    (Skeleton.rebuild?_eq_some f.skeleton.covered).symm.trans
      (f.rebuild?_abstract [] List.prefix_rfl)
  -- The number of a prime formula is its place, and at each place there is one.
  have hnumbers : ∀ i < f.skeleton.atoms.length, i ∈ f.skeleton.proposition.numbers := by
    intro i hi
    have hprime : f.skeleton.atoms[i] ∈ f.primes :=
      List.mem_eraseDups.1 (hatoms ▸ List.getElem_mem hi)
    rw [show f.skeleton.proposition.numbers = f.primes.map fun g => f.skeleton.atoms.idxOf g from
      f.numbers_abstract [] List.prefix_rfl]
    exact List.mem_map.2 ⟨_, hprime, hnodup.idxOf_getElem i hi⟩
  have hcount : f.skeleton.proposition.atomCount = f.skeleton.atoms.length := by
    refine Nat.le_antisymm f.skeleton.covered (Nat.le_of_not_lt fun hlt => ?_)
    exact Nat.lt_irrefl _ (Proposition.lt_atomCount (hnumbers _ hlt))
  exact ⟨Option.some.inj hback, hnodup, hatoms, hcount, fun i hi => hnumbers i (hcount ▸ hi)⟩

/-- In `((R(x)|Q(y))->(Ax[R(x)]&~R(x)))` the formula `R(x)` has one number in two places, and in the
third it is part of another prime formula. -/
example :
    let R := holds "R" [.var "x"]
    let Q := holds "Q" [.var "y"]
    let f := imp (disj R Q) (conj (all "x" R) (neg R))
    f.skeleton.atoms = [R, Q, all "x" R] ∧ f.skeleton.proposition.numbers = [0, 1, 2, 0] := by
  decide

end Formula

end Deduction
