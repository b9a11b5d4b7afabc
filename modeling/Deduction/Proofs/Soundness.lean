import Deduction.Proofs.Instance
import Deduction.Proofs.TruthTable
import Deduction.Proofs.Verification

/-!
# Soundness

What a verified proof concludes is true in every structure in which its assumptions are, instance by
instance. The logical axioms need not be assumed: as they stand they are true in every structure,
whatever their templates mean (`LogicalAxiom.holds_schema`), and so are their instances.
-/

namespace Deduction

universe u

namespace LogicalAxiom

variable {D : Type u} (M : Interpretation D) (s : String → D)

theorem holds_schema (a : LogicalAxiom) : a.schema.formula.Holds M s := by
  cases a with
  | universalInstantiation =>
    intro h
    have hc := h (M.const "c")
    simp only [Formula.holds, Formula.Holds, Term.values, Term.value,
      Function.update_self] at hc ⊢
    exact hc
  | existentialIntroduction =>
    intro h
    refine ⟨M.const "c", ?_⟩
    simp only [Formula.holds, Formula.Holds, Term.values, Term.value,
      Function.update_self] at h ⊢
    exact h
  | universalSimplification =>
    intro h hq d
    exact h d hq
  | existentialSimplification =>
    rintro ⟨h, d, hd⟩
    exact h d hd
  | reflexivity => exact rfl
  | meaningOfEquality =>
    intro h hr
    simp only [Formula.Holds, Term.value] at h
    simp only [Formula.holds, Formula.Holds, Term.values, Term.value] at hr ⊢
    exact h ▸ hr

/-- Each instance of a logical axiom is true in every structure. -/
theorem holds_of_instantiate {a : LogicalAxiom} {bindings : Bindings} (hb : bindings.WellFormed)
    {g : Formula} (h : a.schema.instantiate bindings = .ok g) : g.Holds M s := by
  have hs := Schema.sorted_of_instantiate h
  rw [Formula.holds_instantiate hs hb (hs.tracks s) a.wellFormed_schema
    (Schema.instantiate_eq_ok.1 h).2]
  exact a.holds_schema _ _

end LogicalAxiom

variable {D : Type u} {M : Interpretation D}

/-- The structure makes all instances of the schema by well-formed bindings true. -/
def Interpretation.Models (M : Interpretation D) (S : Schema) : Prop :=
  ∀ bindings g, bindings.WellFormed → S.instantiate bindings = .ok g → M.Satisfies g

/-- A good reason hands truth on: if all earlier lines are true in a structure, so is the line. -/
theorem Line.Justified.satisfies {assumptions : OrderedSet Schema} {lines : List Line} {index : Nat}
    {line : Line} (h : line.Justified (Proposition.isTautology · = true) assumptions lines index)
    (hwf : line.WellFormed) (hM : ∀ S ∈ assumptions, M.Models S)
    (hearlier : ∀ j f, States lines index j f → M.Satisfies f) : M.Satisfies line.formula := by
  obtain ⟨formula, reason⟩ := line
  cases reason with
  | assumption schema bindings =>
    obtain ⟨hS, hi⟩ := h
    exact hM schema hS bindings formula hwf.2.2 hi
  | tautology => exact fun s => Formula.holds_of_isTautology h
  | modusPonens antecedent conditional =>
    obtain ⟨premise, ha, hc⟩ := h
    exact fun s => hearlier conditional _ hc s (hearlier antecedent premise ha s)
  | generalization predicate =>
    obtain ⟨x, body, rfl, hp⟩ := h
    exact fun s d => hearlier predicate body hp (Function.update s x d)

/-- By induction along the proof, all lines are true. -/
theorem Proof.satisfies_lines {p : Proof} (hp : p.WellFormed)
    (hv : p.verify Proposition.isTautology = .ok ()) (hM : ∀ S ∈ p.assumptions, M.Models S) :
    ∀ (i : Nat) (line : Line), p.lines[i]? = some line → M.Satisfies line.formula := by
  intro i
  induction i using Nat.strongRecOn with
  | ind i ih =>
    intro line hline
    refine ((verify_eq_ok_iff.1 hv).2 i line hline).satisfies
      (hp.lines line (List.mem_of_getElem? hline)) hM ?_
    rintro j f ⟨hj, hf⟩
    obtain ⟨line', hline', rfl⟩ := Option.map_eq_some_iff.1 hf
    exact ih j hj line' hline'

theorem Proof.satisfies_conclusion {p : Proof} (hp : p.WellFormed)
    (hv : p.verify Proposition.isTautology = .ok ()) (hM : ∀ S ∈ p.assumptions, M.Models S) :
    M.Satisfies p.conclusion := by
  obtain ⟨last, hlast, hc⟩ := Option.map_eq_some_iff.1 (verify_eq_ok_iff.1 hv).1
  rw [← hc]
  rw [List.getLast?_eq_getElem?] at hlast
  exact satisfies_lines hp hv hM _ last hlast

/-- The conclusion of a well-formed proof that verifies by truth tables is true in every structure
that makes all instances of its assumptions true, the logical axioms left aside, since all instances
of these are true in every structure. -/
theorem verified_sound :
    (∀ p : Proof, p.WellFormed → p.verify Proposition.isTautology = .ok () →
      ∀ {D : Type u} (M : Interpretation D),
        (∀ S ∈ p.assumptions, (∀ a : LogicalAxiom, S ≠ a.schema) → M.Models S) →
        M.Satisfies p.conclusion) ∧
    ∀ (a : LogicalAxiom) (bindings : Bindings) (g : Formula), bindings.WellFormed →
      a.schema.instantiate bindings = .ok g → ∀ {D : Type u} (M : Interpretation D),
        M.Satisfies g := by
  have haxiom : ∀ {D : Type u} (M : Interpretation D) (a : LogicalAxiom), M.Models a.schema :=
    fun M a bindings g hb h s => LogicalAxiom.holds_of_instantiate M s hb h
  refine ⟨fun p hp hv D M hM => Proof.satisfies_conclusion hp hv fun S hS => ?_,
    fun a bindings g hb h D M => haxiom M a bindings g hb h⟩
  by_cases ha : ∃ a : LogicalAxiom, S = a.schema
  · obtain ⟨a, rfl⟩ := ha
    exact haxiom M a
  · exact hM S hS fun a hSa => ha ⟨a, hSa⟩

/-- From the schema `P(c)` follows `Ey[P(y)]`, by way of its instance `P(z)`. In the structure of
the natural numbers in which `P` and nothing else is true of all numbers, all instances of the
schema are true. -/
theorem verified_sound_existential :
    let S := Schema.ofTemplates (.holds "P" [.const "c"]) ["c"]
    let p : Proof := {
      assumptions := .ofList [LogicalAxiom.existentialIntroduction.schema, S]
      conclusion := .ex "y" (.holds "P" [.var "y"])
      lines := [
        ⟨.holds "P" [.var "z"], .assumption S (.single "c" (.term (.var "z")))⟩,
        ⟨.imp (.holds "P" [.var "z"]) (.ex "y" (.holds "P" [.var "y"])),
          .assumption LogicalAxiom.existentialIntroduction.schema (.ofList
            [("R", .formula (.holds "P" [.const "_"])), ("x", .var "y"),
              ("c", .term (.var "z"))])⟩,
        ⟨.ex "y" (.holds "P" [.var "y"]), .modusPonens 0 1⟩] }
    let M : Interpretation Nat := ⟨fun _ => 0, fun _ ds => ds.length, fun R _ => R.name = "P"⟩
    p.WellFormed ∧ p.verify Proposition.isTautology = .ok () ∧ M.Models S ∧
      M.Satisfies p.conclusion ∧
      M.Satisfies (.imp (.holds "P" [.var "z"]) (.ex "y" (.holds "P" [.var "y"]))) := by
  intro S p M
  have hM : M.Models S := by
    intro bindings g hb h s
    have hs := Schema.sorted_of_instantiate h
    rw [Formula.holds_instantiate hs hb (hs.tracks s) (by decide) (Schema.instantiate_eq_ok.1 h).2]
    refine (Bindings.rel_reinterpret_of_none ?_ M s _).2 rfl
    -- Only `c` is a template, so `P` is not bound.
    cases hP : bindings.formula? "P" with
    | none => rfl
    | some f =>
      have hmem := Table.mem_of_get? (Bindings.get?_of_formula? hP)
      have hcheck := (Schema.instantiate_eq_ok.1 h).1 _ hmem
      have hnot : "P" ∉ S.templates := by decide
      exact absurd (Schema.checkBinding_eq_ok.1 hcheck).1 hnot
  refine ⟨by decide, rfl, hM, verified_sound.1 p (by decide) rfl M fun T hT hne => ?_,
    verified_sound.2 .existentialIntroduction (.ofList [("R", .formula (.holds "P" [.const "_"])),
      ("x", .var "y"), ("c", .term (.var "z"))]) _ (by decide) rfl M⟩
  have hT' : T ∈ [LogicalAxiom.existentialIntroduction.schema, S] := hT
  rcases List.mem_cons.1 hT' with rfl | hT'
  · exact absurd rfl (hne .existentialIntroduction)
  · rw [List.mem_singleton.1 hT']
    exact hM

end Deduction
