import Deduction.Proofs.Detour
import Deduction.Proofs.Instance

/-!
# Instances of the logical axioms

A session that derives something from the logical axioms puts in terms and formulas of its lines.
Here it is said which instances come out.

Where an axiom is about a quantifier, its relation is bound to the body of a quantified formula,
with the placeholder for the variable. To put a term for the placeholder is to put it for the
variable (`Formula.substitute_parametrized`), so the relation says of the variable itself what the
body says (`Formula.instantiateRelation_var`). The relation of the axiom on equality can be bound to
any formula (`LogicalAxiom.instantiate_meaningOfEquality`).
-/

namespace Deduction

/-- Bindings of the right kinds leave only the formula of the schema to be instantiated. -/
theorem Schema.instantiate_ofList {S : Schema} {entries : List (String × Binding)} {g : Formula}
    (hnodup : (entries.map Prod.fst).Nodup)
    (hkinds : ∀ e ∈ entries, e.1 ∈ S.templates ∧
      (Category.of? e.1).bind Category.bindingKind? = some e.2.kind)
    (hg : S.formula.instantiate (.ofList entries) [] = .ok g) :
    S.instantiate (.ofList entries) = .ok g := by
  refine instantiate_eq_ok.2 ⟨?_, hg⟩
  rw [Table.entries_ofList hnodup]
  exact fun e he => checkBinding_eq_ok.2 (hkinds e he)

theorem Term.instantiate_const {bindings : Bindings} {c : String} {t : Term}
    (hc : bindings.term? c = some t) : (Term.const c).instantiate bindings [] = .ok t := by
  simp only [instantiate, hc, List.map_nil]
  exact admit_eq_ok.2 ⟨rfl, fun _ _ => List.not_mem_nil⟩

namespace Formula

/-! ## The relation of an axiom -/

section

variable {bindings : Bindings} {scope : List Binder} {body : Formula}
  (hfree : ∀ x ∈ body.freeVars, x ∉ scope.map Binder.renamed)

include hfree

theorem least?_captured :
    NameSet.least? (body.freeVars.filter (· ∈ scope.map Binder.renamed)) = none := by
  rw [NameSet.least?_eq_none, List.filter_eq_nil_iff]
  simpa using hfree

theorem instantiateRelation_nil (relation : String) :
    instantiateRelation bindings scope relation body [] = .ok body :=
  instantiateRelation_eq_ok.2 ⟨hfree, .inl ⟨rfl, rfl⟩⟩

theorem instantiateRelation_singleton {t t' : Term} (relation : String)
    (ht : t.instantiate bindings scope = .ok t') :
    instantiateRelation bindings scope relation body [t]
      = Capture.lift (body.substitute (.single placeholder t') []) := by
  simp only [instantiateRelation, least?_captured hfree, ht]
  rfl

end

theorem instantiateRelation_const {bindings : Bindings} {c : String} {t : Term} (body : Formula)
    (hc : bindings.term? c = some t) (relation : String) :
    instantiateRelation bindings [] relation body [.const c]
      = Capture.lift (body.substitute (.single placeholder t) []) :=
  instantiateRelation_singleton (fun _ _ => List.not_mem_nil) relation (Term.instantiate_const hc)

/-! ## The placeholder for a variable -/

theorem exists_parametrized (body : Formula) (x : String) :
    ∃ parametrized, body.substitute (.single x (.const placeholder)) [] = .ok parametrized :=
  body.exists_substitute_single x nofun

section

variable {body parametrized : Formula} {x : String} (hbody : body.WellFormed) (hx : isVar x)
  (hclean : placeholder ∉ body.constants)
  (hpar : body.substitute (.single x (.const placeholder)) [] = .ok parametrized)

include hbody hx hclean hpar

/-- To put a term for the placeholder is to put it for the variable. -/
theorem substitute_parametrized (t : Term) :
    parametrized.substitute (.single placeholder t) [] = body.substitute (.single x t) [] := by
  have hconst : (Term.const placeholder).WellFormed := isConst_placeholder
  refine substitute_detour hbody (Substitution.admits_of_isVar hx) hconst (.inr rfl)
    (fun hmem => ?_) hclean hpar
  exact isVar_ne_isConst (hbody.isVar (body.freeVars_subset_vars hmem)) isConst_placeholder rfl

/-- The argument is the variable of the quantifier around the place, so the placeholder becomes the
variable that it came from. -/
theorem instantiateRelation_var (bindings : Bindings) (template relation : String) :
    instantiateRelation bindings [⟨template, x⟩] relation parametrized [.var template]
      = .ok body := by
  have hgone : x ∉ parametrized.freeVars := by
    rw [mem_freeVars_substitute hbody hpar]
    rintro (⟨-, hnone⟩ | ⟨n, -, t, ht, hmem⟩)
    · simp [Table.get?_single] at hnone
    · obtain ⟨-, rfl⟩ := Table.get?_single_eq_some.1 ht
      cases hmem
  have hvar : (Term.var template).instantiate bindings [⟨template, x⟩] = .ok (.var x) := by
    simp only [Term.instantiate, bind_eq_ok, pure_eq_ok]
    exact ⟨x, Bindings.variableInstance_cons.2 (.inl ⟨rfl, rfl⟩), rfl⟩
  have hself : body.substitute (.single x (.var x)) [] = .ok body :=
    substitute_single_self hbody (a := .var x) hx List.not_mem_nil
  rw [instantiateRelation_singleton ?_ relation hvar,
    substitute_parametrized hbody hx hclean hpar, hself]
  · rfl
  · intro y hy hmem
    rw [List.mem_singleton.1 hmem] at hy
    exact hgone hy

end

end Formula

namespace LogicalAxiom

/-! ## Quantifiers -/

section

variable {body parametrized goal : Formula} {x : String} (hbody : body.WellFormed) (hx : isVar x)
  (hclean : placeholder ∉ body.constants)
  (hpar : body.substitute (.single x (.const placeholder)) [] = .ok parametrized)

include hbody hx hclean hpar

theorem instantiate_universalInstantiation {t : Term}
    (hgoal : body.substitute (.single x t) [] = .ok goal) :
    universalInstantiation.schema.instantiate
      (.ofList [("R", .formula parametrized), ("x", .var x), ("c", .term t)])
      = .ok (.imp (.all x body) goal) := by
  refine Schema.instantiate_ofList (show ["R", "x", "c"].Nodup by decide) ?_ ?_
  · simp only [List.forall_mem_cons, Binding.kind]
    exact ⟨by decide, by decide, by decide, List.forall_mem_nil _⟩
  · generalize hb : Table.ofList _ = bindings
    have hR : Bindings.formula? bindings "R" = some parametrized := by rw [← hb]; rfl
    have hrename : Bindings.rename bindings "x" = x := by rw [← hb]; rfl
    have hc : Bindings.term? bindings "c" = some t := by rw [← hb]; rfl
    simp only [schema, Schema.ofTemplates, Formula.imp, Formula.all, Formula.holds,
      Formula.instantiate, hR, hrename, Formula.instantiateRelation_var hbody hx hclean hpar,
      Formula.instantiateRelation_const _ hc, Formula.substitute_parametrized hbody hx hclean hpar,
      hgoal]
    rfl

/-- `Q` may have any variables but the one that is quantified. -/
theorem instantiate_existentialSimplification (hfree : x ∉ goal.freeVars) :
    existentialSimplification.schema.instantiate
      (.ofList [("R", .formula parametrized), ("Q", .formula goal), ("x", .var x)])
      = .ok (.imp (.conj (.all x (.imp body goal)) (.ex x body)) goal) := by
  refine Schema.instantiate_ofList (show ["R", "Q", "x"].Nodup by decide) ?_ ?_
  · simp only [List.forall_mem_cons, Binding.kind]
    exact ⟨by decide, by decide, by decide, List.forall_mem_nil _⟩
  · generalize hb : Table.ofList _ = bindings
    have hR : Bindings.formula? bindings "R" = some parametrized := by rw [← hb]; rfl
    have hQ : Bindings.formula? bindings "Q" = some goal := by rw [← hb]; rfl
    have hrename : Bindings.rename bindings "x" = x := by rw [← hb]; rfl
    have hinner : Formula.instantiateRelation bindings [⟨"x", x⟩] "Q" goal [] = .ok goal := by
      refine Formula.instantiateRelation_nil (fun y hy hmem => ?_) _
      rw [List.mem_singleton.1 hmem] at hy
      exact hfree hy
    have houter : Formula.instantiateRelation bindings [] "Q" goal [] = .ok goal :=
      Formula.instantiateRelation_nil (fun _ _ => List.not_mem_nil) _
    simp only [schema, Schema.ofTemplates, Formula.imp, Formula.conj, Formula.all, Formula.ex,
      Formula.holds, Formula.instantiate, hR, hQ, hrename, hinner, houter,
      Formula.instantiateRelation_var hbody hx hclean hpar]
    rfl

end

/-! ## Equality -/

theorem instantiate_reflexivity (t : Term) :
    reflexivity.schema.instantiate (.single "c" (.term t)) = .ok (.equality t t) := by
  change reflexivity.schema.instantiate (.ofList [("c", .term t)]) = _
  refine Schema.instantiate_ofList (show ["c"].Nodup by decide) ?_ ?_
  · simp only [List.forall_mem_cons, Binding.kind]
    exact ⟨by decide, List.forall_mem_nil _⟩
  · have hc : Bindings.term? (.ofList [("c", .term t)]) "c" = some t := rfl
    simp only [schema, Schema.ofTemplates, Formula.instantiate, Term.instantiate_const hc]
    rfl

/-- What the relation says of two terms is what its body says with each of them for the
placeholder. The terms may well be or have the constants of the axiom. -/
theorem instantiate_meaningOfEquality {a b : Term} {body left right : Formula}
    (hleft : body.substitute (.single placeholder a) [] = .ok left)
    (hright : body.substitute (.single placeholder b) [] = .ok right) :
    meaningOfEquality.schema.instantiate
      (.ofList [("R", .formula body), ("c", .term a), ("d", .term b)])
      = .ok (.imp (.equality a b) (.imp left right)) := by
  refine Schema.instantiate_ofList (show ["R", "c", "d"].Nodup by decide) ?_ ?_
  · simp only [List.forall_mem_cons, Binding.kind]
    exact ⟨by decide, by decide, by decide, List.forall_mem_nil _⟩
  · generalize hb : Table.ofList _ = bindings
    have hR : Bindings.formula? bindings "R" = some body := by rw [← hb]; rfl
    have hc : Bindings.term? bindings "c" = some a := by rw [← hb]; rfl
    have hd : Bindings.term? bindings "d" = some b := by rw [← hb]; rfl
    simp only [schema, Schema.ofTemplates, Formula.imp, Formula.holds, Formula.instantiate, hR,
      Term.instantiate_const hc, Term.instantiate_const hd, Formula.instantiateRelation_const _ hc,
      Formula.instantiateRelation_const _ hd, hleft, hright]
    rfl

end LogicalAxiom

end Deduction
