import Deduction.Proofs.Table
import Deduction.Session.Step

/-!
# Well-formed trees

Trees that are read from text have names of the right category everywhere and symbols with as many
arguments as their arity says. Trees that are built by hand need not. A tree is well formed when it
is of the first kind in both respects; whether a schema, a line, a proof or a step is, is decided
by the trees in it.

In a well-formed tree no name is both a constant and a variable (`isVar_ne_isConst`), which is why
a substitution, which does not tell the two apart, can be followed under a quantifier.
-/

namespace Deduction

theorem Category.ofChars?_eq_some {cs : List Char} {k : Category} : ofChars? cs = some k ↔
    (cs = ['_'] ∧ k = .const) ∨
      ∃ c rest, cs = c :: rest ∧ cs.all Char.isAlphanum ∧ ofInitial? c = some k := by
  constructor
  · intro h
    rw [ofChars?.eq_def] at h
    split at h
    · cases h
    · exact .inl ⟨rfl, (Option.some.inj h).symm⟩
    · rename_i c rest _
      split at h
      · next hall => exact .inr ⟨c, rest, rfl, hall, h⟩
      · cases h
  · rintro (⟨rfl, rfl⟩ | ⟨c, rest, rfl, hall, hc⟩)
    · rfl
    · -- The one list of a single character that has a rule of its own begins with no letter.
      have hne : c :: rest ≠ ['_'] := by
        rintro h
        cases h
        exact absurd hall (by decide)
      rw [ofChars?.eq_3 c rest (by simpa using hne), if_pos hall, hc]

theorem isVar_ne_isConst {x c : String} (hx : isVar x) (hc : isConst c) : x ≠ c := by
  rintro rfl
  simp only [isVar, isConst, decide_eq_true_eq] at hx hc
  rw [hx] at hc
  cases hc

theorem isConst_placeholder : isConst placeholder := by decide

namespace Term

mutual

/-- Each name is of the category of its place, and each symbol has as many arguments as its arity
says. -/
def WellFormed : Term → Prop
  | .var x => isVar x
  | .const c => isConst c
  | .app f args => isFunc f.name ∧ f.arity = args.length ∧ WellFormedList args

def WellFormedList : List Term → Prop
  | [] => True
  | t :: ts => WellFormed t ∧ WellFormedList ts

end

mutual

def decideWellFormed : (t : Term) → Decidable t.WellFormed
  | .var x => inferInstanceAs (Decidable (isVar x = true))
  | .const c => inferInstanceAs (Decidable (isConst c = true))
  | .app _ args =>
    have := decideWellFormedList args
    inferInstanceAs (Decidable (_ ∧ _ ∧ _))

def decideWellFormedList : (ts : List Term) → Decidable (WellFormedList ts)
  | [] => inferInstanceAs (Decidable True)
  | t :: ts =>
    have := decideWellFormed t
    have := decideWellFormedList ts
    inferInstanceAs (Decidable (_ ∧ _))

end

instance (t : Term) : Decidable t.WellFormed := decideWellFormed t

instance (ts : List Term) : Decidable (WellFormedList ts) := decideWellFormedList ts

end Term

namespace Formula

def WellFormed : Formula → Prop
  | .equality l r => l.WellFormed ∧ r.WellFormed
  | .relation s args => isRel s.name ∧ s.arity = args.length ∧ Term.WellFormedList args
  | .neg f => f.WellFormed
  | .binary _ l r => l.WellFormed ∧ r.WellFormed
  | .quantified _ x f => isVar x ∧ f.WellFormed

instance decideWellFormed : (f : Formula) → Decidable f.WellFormed
  | .equality .. => inferInstanceAs (Decidable (_ ∧ _))
  | .relation .. => inferInstanceAs (Decidable (_ ∧ _ ∧ _))
  | .neg f => decideWellFormed f
  | .binary _ l r =>
    have := decideWellFormed l
    have := decideWellFormed r
    inferInstanceAs (Decidable (_ ∧ _))
  | .quantified _ _ f =>
    have := decideWellFormed f
    inferInstanceAs (Decidable (_ ∧ _))

end Formula

/-- A substitution replaces constants and variables by well-formed terms. -/
def Substitution.WellFormed (m : Substitution) : Prop :=
  ∀ e ∈ m.entries, Substitution.admits e.1 ∧ e.2.WellFormed

instance (m : Substitution) : Decidable m.WellFormed :=
  inferInstanceAs (Decidable (∀ e ∈ m.entries, Substitution.admits e.1 ∧ e.2.WellFormed))

/-- Any names may be templates. -/
def Schema.WellFormed (s : Schema) : Prop := s.formula.WellFormed

instance (s : Schema) : Decidable s.WellFormed :=
  inferInstanceAs (Decidable s.formula.WellFormed)

theorem LogicalAxiom.wellFormed_schema (a : LogicalAxiom) : a.schema.WellFormed := by
  cases a <;> decide

def Binding.WellFormed : Binding → Prop
  | .var x => isVar x
  | .term t => t.WellFormed
  | .formula f => f.WellFormed

instance : (b : Binding) → Decidable b.WellFormed
  | .var x => inferInstanceAs (Decidable (isVar x = true))
  | .term t => inferInstanceAs (Decidable t.WellFormed)
  | .formula f => inferInstanceAs (Decidable f.WellFormed)

def Bindings.WellFormed (bindings : Bindings) : Prop := ∀ e ∈ bindings.entries, e.2.WellFormed

instance (bindings : Bindings) : Decidable bindings.WellFormed :=
  inferInstanceAs (Decidable (∀ e ∈ bindings.entries, e.2.WellFormed))

def Reason.WellFormed : Reason → Prop
  | .assumption schema bindings => schema.WellFormed ∧ bindings.WellFormed
  | .tautology | .modusPonens .. | .generalization _ => True

instance : (r : Reason) → Decidable r.WellFormed
  | .assumption .. => inferInstanceAs (Decidable (_ ∧ _))
  | .tautology | .modusPonens .. | .generalization _ => inferInstanceAs (Decidable True)

def Line.WellFormed (line : Line) : Prop := line.formula.WellFormed ∧ line.reason.WellFormed

instance (line : Line) : Decidable line.WellFormed := inferInstanceAs (Decidable (_ ∧ _))

theorem Line.WellFormed.shift {line : Line} (h : line.WellFormed) {offset : Nat} :
    (line.shift offset).WellFormed := by
  obtain ⟨formula, reason⟩ := line
  cases reason <;> exact h

structure Proof.WellFormed (p : Proof) : Prop where
  assumptions : ∀ s ∈ p.assumptions.toList, s.WellFormed
  conclusion : p.conclusion.WellFormed
  lines : ∀ line ∈ p.lines, line.WellFormed

instance (p : Proof) : Decidable p.WellFormed :=
  decidable_of_iff ((∀ s ∈ p.assumptions.toList, s.WellFormed) ∧ p.conclusion.WellFormed
      ∧ ∀ line ∈ p.lines, line.WellFormed)
    ⟨fun h => ⟨h.1, h.2.1, h.2.2⟩, fun h => ⟨h.assumptions, h.conclusion, h.lines⟩⟩

/-- All trees that the caller hands over with the step are well formed. -/
def Step.WellFormed : Step → Prop
  | .assume goal | .tautology goal | .modusPonens goal _ _ | .generalize goal _ => goal.WellFormed
  | .conclude goal _ | .eliminate goal _ _ | .flip goal _ | .chain goal _ => goal.WellFormed
  | .instantiate goal schema bindings =>
    goal.WellFormed ∧ schema.WellFormed ∧ bindings.WellFormed
  | .specialize goal _ term | .replaceEqual goal _ term => goal.WellFormed ∧ term.WellFormed
  | .instantiateFree goal _ m => goal.WellFormed ∧ m.WellFormed
  | .inline goal proof => goal.WellFormed ∧ proof.WellFormed

instance : (step : Step) → Decidable step.WellFormed
  | .assume goal | .tautology goal | .modusPonens goal _ _ | .generalize goal _
  | .conclude goal _ | .eliminate goal _ _ | .flip goal _ | .chain goal _ =>
    inferInstanceAs (Decidable goal.WellFormed)
  | .instantiate .. => inferInstanceAs (Decidable (_ ∧ _ ∧ _))
  | .specialize .. | .replaceEqual .. | .instantiateFree .. | .inline .. =>
    inferInstanceAs (Decidable (_ ∧ _))

/-! ## Looking up -/

theorem Substitution.WellFormed.get? {m : Substitution} (hm : m.WellFormed) {name : String}
    {t : Term} (h : m.get? name = some t) : t.WellFormed :=
  (hm _ (Table.mem_of_get? h)).2

theorem Bindings.WellFormed.get? {bindings : Bindings} (hb : bindings.WellFormed) {name : String}
    {b : Binding} (h : bindings.get? name = some b) : b.WellFormed :=
  hb _ (Table.mem_of_get? h)

theorem Bindings.WellFormed.ofList {entries : List (String × Binding)}
    (h : ∀ e ∈ entries, e.2.WellFormed) : Bindings.WellFormed (Table.ofList entries) :=
  fun e he => h e (Table.mem_ofList he)

end Deduction
