import Deduction.Proofs.Substitution
import Mathlib.Tactic.SplitIfs

/-!
# What verification establishes

A line passes its check just when its reason is a good one (`Line.check_eq_ok_iff`). The check
looks at the lines before it only, though it is given all of them (`Line.justified_take`). A proof
verifies just when its last line states its conclusion and every line passes
(`Proof.verify_eq_ok_iff`).
-/

namespace Deduction

theorem Formula.quantified?_eq_some {q : Quantifier} {f body : Formula} {x : String} :
    f.quantified? q = some (x, body) ↔ f = .quantified q x body := by
  cases f with
  | quantified q' y g =>
    simp only [quantified?]
    split_ifs with hq
    · simp [hq]
    · simp [hq]
  | _ => simp [quantified?]

namespace Line

/-- The formula `f` is stated by the line `reference`, which stands before the line `index`. -/
def States (lines : List Line) (index reference : Nat) (f : Formula) : Prop :=
  reference < index ∧ lines[reference]?.map Line.formula = some f

theorem earlier_eq_ok {lines : List Line} {index reference : Nat} {f : Formula} :
    earlier lines index reference = .ok f ↔ States lines index reference f := by
  simp only [earlier, States]
  split
  · rename_i line hline
    split_ifs with hlt
    · simp [hlt, hline]
    · simp [hlt]
  · rename_i hline
    simp [hline]

theorem States.take {lines : List Line} {index reference : Nat} {f : Formula} :
    States (lines.take index) index reference f ↔ States lines index reference f := by
  simp only [States]
  refine and_congr_right fun h => ?_
  rw [List.getElem?_take_of_lt h]

/-- The reason of the line, as line number `index`, is a good one, if those propositions are taken
for tautologies that are accepted as such. -/
def Justified (accepted : Proposition → Prop) (assumptions : OrderedSet Schema) (lines : List Line)
    (index : Nat) (line : Line) : Prop :=
  match line.reason with
  | .assumption schema bindings =>
    schema ∈ assumptions ∧ schema.instantiate bindings = .ok line.formula
  | .tautology => accepted line.formula.skeleton.proposition
  | .modusPonens antecedent conditional => ∃ premise, States lines index antecedent premise ∧
      States lines index conditional (.imp premise line.formula)
  | .generalization predicate => ∃ x body, line.formula = .all x body ∧
      States lines index predicate body

theorem Justified.imp {accepted accepted' : Proposition → Prop}
    (h : ∀ p, accepted p → accepted' p) {assumptions : OrderedSet Schema} {lines : List Line}
    {index : Nat} {line : Line} (hj : line.Justified accepted assumptions lines index) :
    line.Justified accepted' assumptions lines index := by
  obtain ⟨formula, reason⟩ := line
  cases reason with
  | tautology => exact h _ hj
  | _ => exact hj

theorem checkAssumption_eq_ok {assumptions : OrderedSet Schema} {schema : Schema}
    {bindings : Bindings} {f : Formula} :
    checkAssumption assumptions schema bindings f = .ok () ↔
      schema ∈ assumptions ∧ schema.instantiate bindings = .ok f := by
  simp only [checkAssumption]
  split_ifs with hs
  · split
    · rename_i h
      simp [h]
    · rename_i expected h
      split_ifs with he
      · simp [hs, h, he]
      · simp [h, he]
  · simp [hs]

theorem checkModusPonens_eq_ok {lines : List Line} {index antecedent conditional : Nat}
    {f : Formula} : checkModusPonens lines index antecedent conditional f = .ok () ↔
      ∃ premise, States lines index antecedent premise ∧
        States lines index conditional (.imp premise f) := by
  simp only [checkModusPonens, bind_eq_ok, earlier_eq_ok]
  constructor
  · rintro ⟨premise, hp, found, hf, h⟩
    split_ifs at h with he
    exact ⟨premise, hp, he ▸ hf⟩
  · rintro ⟨premise, hp, hf⟩
    exact ⟨premise, hp, _, hf, if_pos rfl⟩

theorem checkGeneralization_eq_ok {lines : List Line} {index predicate : Nat} {f : Formula} :
    checkGeneralization lines index predicate f = .ok () ↔
      ∃ x body, f = .all x body ∧ States lines index predicate body := by
  simp only [checkGeneralization, bind_eq_ok, earlier_eq_ok]
  constructor
  · rintro ⟨body, hb, h⟩
    split at h
    · rename_i x g hq
      split_ifs at h with he
      exact ⟨x, body, he ▸ Formula.quantified?_eq_some.1 hq, hb⟩
    · cases h
  · rintro ⟨x, body, rfl, hb⟩
    refine ⟨body, hb, ?_⟩
    simp [Formula.all, Formula.quantified?]

theorem check_eq_ok_iff {oracle : Proposition → Bool} {assumptions : OrderedSet Schema}
    {lines : List Line} {index : Nat} {line : Line} :
    line.check oracle assumptions lines index = .ok () ↔
      line.Justified (oracle · = true) assumptions lines index := by
  obtain ⟨formula, reason⟩ := line
  cases reason with
  | assumption schema bindings => exact checkAssumption_eq_ok
  | tautology =>
    simp only [check, checkM, Justified, pure_bind]
    split_ifs with h
    · simp [h]
    · simp [h]
  | modusPonens antecedent conditional => exact checkModusPonens_eq_ok
  | generalization predicate => exact checkGeneralization_eq_ok

/-- Only the lines before the line are looked at. -/
theorem justified_take {accepted : Proposition → Prop} {assumptions : OrderedSet Schema}
    {lines : List Line} {index : Nat} {line : Line} :
    line.Justified accepted assumptions (lines.take index) index ↔
      line.Justified accepted assumptions lines index := by
  simp only [Justified, States.take]

end Line

namespace Proof

theorem checkLinesM_cons (oracle : Proposition → Bool) (assumptions : OrderedSet Schema)
    (lines pending : List Line) (index : Nat) (line : Line) :
    Id.run (checkLinesM (fun q => pure (oracle q)) assumptions lines index (line :: pending))
      = match line.check oracle assumptions lines index with
        | .ok () =>
          Id.run (checkLinesM (fun q => pure (oracle q)) assumptions lines (index + 1) pending)
        | .error cause => .error (.invalidLine index cause) := by
  simp only [checkLinesM, Line.checkM_pure, pure_bind]
  cases line.check oracle assumptions lines index with
  | ok _ => rfl
  | error cause => rfl

theorem checkLinesM_eq_ok (oracle : Proposition → Bool) (assumptions : OrderedSet Schema)
    (lines : List Line) : ∀ (pending : List Line) (index : Nat),
      Id.run (checkLinesM (fun q => pure (oracle q)) assumptions lines index pending) = .ok () ↔
        ∀ (i : Nat) (line : Line), pending[i]? = some line →
          line.check oracle assumptions lines (index + i) = .ok ()
  | [], index => by simp [checkLinesM]
  | line :: pending, index => by
    have ih := checkLinesM_eq_ok oracle assumptions lines pending (index + 1)
    have hstep : Id.run (checkLinesM (fun q => pure (oracle q)) assumptions lines index
          (line :: pending)) = .ok () ↔
        line.check oracle assumptions lines index = .ok () ∧
          Id.run (checkLinesM (fun q => pure (oracle q)) assumptions lines (index + 1) pending)
            = .ok () := by
      rw [checkLinesM_cons]
      cases line.check oracle assumptions lines index with
      | ok _ => simp
      | error cause => simp
    rw [hstep, ih]
    constructor
    · rintro ⟨h, hrest⟩ i line' hi
      cases i with
      | zero =>
        simp only [List.getElem?_cons_zero, Option.some.injEq] at hi
        exact hi ▸ h
      | succ i =>
        rw [show index + (i + 1) = index + 1 + i by omega]
        exact hrest i line' (by simpa using hi)
    · intro h
      refine ⟨h 0 line rfl, fun i line' hi => ?_⟩
      rw [show index + 1 + i = index + (i + 1) by omega]
      exact h (i + 1) line' (by simpa using hi)

theorem verify_eq_ok_iff {oracle : Proposition → Bool} {p : Proof} :
    p.verify oracle = .ok () ↔ p.lines.getLast?.map Line.formula = some p.conclusion ∧
      ∀ (i : Nat) (line : Line), p.lines[i]? = some line →
        line.Justified (oracle · = true) p.assumptions p.lines i := by
  simp only [verify, verifyM, ← Line.check_eq_ok_iff]
  cases hlast : p.lines.getLast? with
  | none => simp
  | some last =>
    simp only [Option.map_some, Option.some.injEq]
    split_ifs with he
    · simpa [he] using checkLinesM_eq_ok oracle p.assumptions p.lines p.lines 0
    · simp [he]

theorem lines_ne_nil_of_verify {oracle : Proposition → Bool} {p : Proof}
    (h : p.verify oracle = .ok ()) : p.lines ≠ [] := by
  intro hnil
  have hlast := (verify_eq_ok_iff.1 h).1
  rw [hnil] at hlast
  cases hlast

end Proof

end Deduction
