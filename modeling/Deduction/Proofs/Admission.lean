import Deduction.Proofs.Instance
import Deduction.Proofs.Occurrence

/-!
# Which bindings give an instance

An instance is built on the way down through the schema, with a list of the quantifiers that were
passed. Each of them is known by its variable in the schema, since what this is renamed to does not
depend on the place (`Bindings.scope`). So whether something is captured can be said of a place in
the schema and the quantifiers around it: of an occurrence of a constant or variable
(`Bindings.Spares`), and of a bound relation with its arguments (`Bindings.Fits`).

An instance is refused if one of these conditions fails somewhere, and only then
(`Formula.exists_instantiate`). The instance of a term is the same wherever the term is let in
(`Term.instantiate_eq_ok`), which is why the argument of a relation can be named before it is known
that there is an instance.
-/

namespace Deduction

/-- A relation with its arguments, in one of its places, with the variables of the quantifiers
around it, innermost first. -/
structure Application where
  symbol : Symbol
  args : List Term
  binders : List String
deriving DecidableEq

/-- The same place with one more quantifier around it, outside of the others. -/
def Application.within (x : String) (a : Application) : Application :=
  { a with binders := a.binders ++ [x] }

/-- The relations in their places, from left to right. -/
def Formula.applications : Formula → List Application
  | .equality .. => []
  | .relation s args => [⟨s, args, []⟩]
  | .neg f => f.applications
  | .binary _ l r => l.applications ++ r.applications
  | .quantified _ x f => f.applications.map (·.within x)

namespace Bindings

/-- What a constant or variable becomes. -/
def instanceOf (bindings : Bindings) : Leaf → Term
  | .var x => .var (bindings.rename x)
  | .const c => (bindings.term? c).getD (.const c)

/-- The instance of a constant or variable is not captured under the quantifiers of `binders`. What
comes in for a constant mentions the instance of none of them. A variable belongs to the innermost
one that binds it, and its instance is not that of a quantifier further in, or of any if it is
free. -/
def Spares (bindings : Bindings) (binders : List String) : Leaf → Prop
  | .var x => ∀ q ∈ binders.takeWhile (· ≠ x), bindings.rename q ≠ bindings.rename x
  | .const c => ∀ t, bindings.term? c = some t → ∀ q ∈ binders, bindings.rename q ∉ t.vars

/-- Under the quantifiers of `binders` the formula `body` can stand for a relation applied to
`args`. -/
structure Fits (bindings : Bindings) (binders : List String) (args : List Term)
    (body : Formula) : Prop where
  arity : args.length ≤ 1
  /-- No variable that is free in the formula comes to be quantified. -/
  outside : ∀ q ∈ binders, bindings.rename q ∉ body.freeVars
  /-- No variable of the argument comes to be quantified in the place of the placeholder. -/
  argument : ∀ t, args = [t] → ∀ o ∈ body.occurrences, o.leaf = .const placeholder →
    ∀ y ∈ (t.replace bindings.instanceOf).vars, y ∉ o.binders

/-- The quantifiers around a place, with the variables that theirs are renamed to. -/
def scope (bindings : Bindings) (binders : List String) : List Binder :=
  binders.map fun x => ⟨x, bindings.rename x⟩

variable {bindings : Bindings} {binders : List String}

theorem scope_cons (q : String) (binders : List String) :
    bindings.scope (q :: binders) = ⟨q, bindings.rename q⟩ :: bindings.scope binders := rfl

theorem avoids_scope {names : List String} :
    (∀ y ∈ names, y ∉ (bindings.scope binders).map Binder.renamed) ↔
      ∀ q ∈ binders, bindings.rename q ∉ names := by
  simp only [scope, List.map_map, List.mem_map, Function.comp_apply]
  constructor
  · exact fun h q hq hmem => h _ hmem ⟨q, hq, rfl⟩
  · rintro h y hy ⟨q, hq, rfl⟩
    exact h q hq hy

instance (x : String) : Decidable (bindings.Spares binders (.var x)) :=
  inferInstanceAs (Decidable (∀ q ∈ binders.takeWhile (· ≠ x), _))

/-- A variable is renamed as its own quantifier is, unless one further in is renamed alike. -/
theorem variableInstance_scope (x : String) :
    bindings.variableInstance (bindings.scope binders) x
      = if bindings.Spares binders (.var x) then .ok (bindings.rename x)
        else .error ⟨bindings.rename x⟩ := by
  have hinner : (bindings.scope binders).takeWhile (·.template ≠ x)
      = bindings.scope (binders.takeWhile (· ≠ x)) := List.takeWhile_map ..
  have hrest : (bindings.scope binders).dropWhile (·.template ≠ x)
      = bindings.scope (binders.dropWhile (· ≠ x)) := List.dropWhile_map ..
  have hspares : (bindings.scope (binders.takeWhile (· ≠ x))).any
      (·.renamed = bindings.rename x) = true ↔ ¬bindings.Spares binders (.var x) := by
    simp [Spares, scope]
  have hown : ∀ own, own = bindings.rename x →
      (if (bindings.scope (binders.takeWhile (· ≠ x))).any (·.renamed = own) = true then
        .error ⟨own⟩ else .ok own : Except Capture String)
      = if bindings.Spares binders (.var x) then .ok (bindings.rename x)
        else .error ⟨bindings.rename x⟩ := by
    rintro _ rfl
    simp only [hspares, ite_not]
  simp only [variableInstance, hinner, hrest]
  cases hdrop : binders.dropWhile (· ≠ x) with
  | nil => exact hown _ rfl
  | cons q rest =>
    -- Behind the quantifiers further in comes the variable's own.
    have hq : q = x := by
      have h := List.head?_dropWhile_not (· ≠ x) binders
      rw [hdrop] at h
      simpa using h
    exact hown _ (congrArg bindings.rename hq)

theorem variableInstance_eq_ok {x y : String} :
    bindings.variableInstance (bindings.scope binders) x = .ok y ↔
      bindings.Spares binders (.var x) ∧ bindings.rename x = y := by
  rw [variableInstance_scope]
  split <;> simp [*]

end Bindings

/-! ## Terms -/

namespace Term

variable {bindings : Bindings} {binders : List String}

mutual

theorem instantiate_eq_ok : ∀ {t t' : Term},
    t.instantiate bindings (bindings.scope binders) = .ok t' ↔
      (∀ a ∈ t.leaves, bindings.Spares binders a) ∧ t.replace bindings.instanceOf = t'
  | .var x, t' => by
    simp only [instantiate, bind_eq_ok, pure_eq_ok, Bindings.variableInstance_eq_ok, leaves,
      List.forall_mem_singleton, replace, Bindings.instanceOf]
    constructor
    · rintro ⟨y, ⟨h, rfl⟩, rfl⟩
      exact ⟨h, rfl⟩
    · rintro ⟨h, rfl⟩
      exact ⟨_, ⟨h, rfl⟩, rfl⟩
  | .const c, t' => by
    simp only [instantiate, leaves, List.forall_mem_singleton, replace, Bindings.instanceOf,
      Bindings.Spares]
    cases hc : bindings.term? c with
    | none => simp
    | some t =>
      simp only [admit_eq_ok, Bindings.avoids_scope, Option.some.injEq, forall_eq',
        Option.getD_some]
      exact and_comm
  | .app f args, t' => by
    simp only [instantiate, bind_eq_ok, pure_eq_ok, instantiateList_eq_ok, leaves, replace]
    constructor
    · rintro ⟨args', ⟨h, rfl⟩, rfl⟩
      exact ⟨h, rfl⟩
    · rintro ⟨h, rfl⟩
      exact ⟨_, ⟨h, rfl⟩, rfl⟩

theorem instantiateList_eq_ok : ∀ {ts ts' : List Term},
    instantiateList bindings (bindings.scope binders) ts = .ok ts' ↔
      (∀ a ∈ leavesOfList ts, bindings.Spares binders a) ∧
        replaceList bindings.instanceOf ts = ts'
  | [], ts' => by simp [instantiateList, leavesOfList, replaceList]
  | t :: ts, ts' => by
    simp only [instantiateList, bind_eq_ok, pure_eq_ok, instantiate_eq_ok, instantiateList_eq_ok,
      leavesOfList, List.forall_mem_append, replaceList]
    constructor
    · rintro ⟨u, ⟨h, rfl⟩, us, ⟨hs, rfl⟩, rfl⟩
      exact ⟨⟨h, hs⟩, rfl⟩
    · rintro ⟨⟨h, hs⟩, rfl⟩
      exact ⟨_, ⟨h, rfl⟩, _, ⟨hs, rfl⟩, rfl⟩

end

theorem exists_instantiate {t : Term} :
    (∃ t', t.instantiate bindings (bindings.scope binders) = .ok t') ↔
      ∀ a ∈ t.leaves, bindings.Spares binders a := by
  simp [instantiate_eq_ok]

theorem exists_instantiateList {ts : List Term} :
    (∃ ts', instantiateList bindings (bindings.scope binders) ts = .ok ts') ↔
      ∀ a ∈ leavesOfList ts, bindings.Spares binders a := by
  simp [instantiateList_eq_ok]

end Term

/-! ## Formulas -/

section

variable {ε α β γ : Type} {x : Except ε α} {y : Except ε β}

theorem exists_map_ok {next : α → β} :
    (∃ b, (do return next (← x)) = Except.ok b) ↔ ∃ a, x = .ok a := by
  simp only [bind_eq_ok, pure_eq_ok]
  exact ⟨fun ⟨_, a, ha, _⟩ => ⟨a, ha⟩, fun ⟨a, ha⟩ => ⟨_, a, ha, rfl⟩⟩

theorem exists_both_ok {next : α → β → γ} :
    (∃ c, (do let a ← x; let b ← y; return next a b) = Except.ok c) ↔
      (∃ a, x = .ok a) ∧ ∃ b, y = .ok b := by
  simp only [bind_eq_ok, pure_eq_ok]
  exact ⟨fun ⟨_, a, ha, b, hb, _⟩ => ⟨⟨a, ha⟩, b, hb⟩,
    fun ⟨⟨a, ha⟩, b, hb⟩ => ⟨_, a, ha, b, hb, rfl⟩⟩

end

theorem Substitution.replacement?_placeholder {o : Occurrence} (ho : o.leaf.WellFormed) (t : Term) :
    replacement? (.single placeholder t) o
      = if o.leaf = .const placeholder then some t else none := by
  obtain ⟨leaf, outer⟩ := o
  cases leaf with
  | var x =>
    have hx : x ≠ placeholder := isVar_ne_isConst ho isConst_placeholder
    simp [replacement?, Leaf.name, Table.get?_single, hx]
  | const c => simp [replacement?, Occurrence.Free, Leaf.name, Table.get?_single]

namespace Formula

variable {bindings : Bindings} {binders : List String}

/-- A term can be put for the placeholder just when it mentions no variable that is quantified
around one of its places. -/
theorem exists_fill {f : Formula} (hf : f.WellFormed) {t : Term} :
    (∃ g, f.substitute (.single placeholder t) [] = .ok g) ↔
      ∀ o ∈ f.occurrences, o.leaf = .const placeholder → ∀ y ∈ t.vars, y ∉ o.binders := by
  simp only [substitute_eq_ok_iff hf, exists_and_left, exists_eq, and_true]
  refine forall₂_congr fun o ho => ?_
  simp only [Substitution.Offends, Substitution.replacement?_placeholder (hf.leaf ho)]
  by_cases hleaf : o.leaf = .const placeholder <;> simp [hleaf]

theorem exists_instantiateRelation {body : Formula} (hbody : body.WellFormed) (relation : String)
    (args : List Term) :
    (∃ g, instantiateRelation bindings (bindings.scope binders) relation body args = .ok g) ↔
      (∀ a ∈ Term.leavesOfList args, bindings.Spares binders a) ∧
        bindings.Fits binders args body := by
  simp only [instantiateRelation_eq_ok, Bindings.avoids_scope]
  constructor
  · rintro ⟨g, hout, ⟨rfl, -⟩ | ⟨t, t', rfl, ht, hg⟩⟩
    · exact ⟨nofun, ⟨Nat.zero_le 1, hout, nofun⟩⟩
    · obtain ⟨hspares, rfl⟩ := Term.instantiate_eq_ok.1 ht
      refine ⟨by simpa [Term.leavesOfList] using hspares, ⟨Nat.le_refl 1, hout, ?_⟩⟩
      rintro u hu
      cases hu
      exact (exists_fill hbody).1 ⟨g, hg⟩
  · rintro ⟨hspares, harity, hout, hargument⟩
    match args with
    | [] => exact ⟨body, hout, .inl ⟨rfl, rfl⟩⟩
    | [t] =>
      obtain ⟨g, hg⟩ := (exists_fill hbody).2 (hargument t rfl)
      have ht := Term.instantiate_eq_ok.2 ⟨by simpa [Term.leavesOfList] using hspares, rfl⟩
      exact ⟨g, hout, .inr ⟨t, _, rfl, ht, hg⟩⟩
    | _ :: _ :: _ => simp at harity

/-- There is an instance under the quantifiers of `binders` just when no place in the formula
refuses it. -/
theorem exists_instantiate (hb : bindings.WellFormed) : ∀ (f : Formula) (binders : List String),
    (∃ g, f.instantiate bindings (bindings.scope binders) = .ok g) ↔
      (∀ o ∈ f.occurrences, bindings.Spares (o.binders ++ binders) o.leaf) ∧
        ∀ a ∈ f.applications, ∀ body, bindings.formula? a.symbol.name = some body →
          bindings.Fits (a.binders ++ binders) a.args body
  | .equality l r, binders => by
    simp only [instantiate, Capture.lift_eq_ok, exists_both_ok, Term.exists_instantiate,
      occurrences, List.forall_mem_map, List.forall_mem_append, List.nil_append, applications,
      List.not_mem_nil, false_imp_iff, implies_true, and_true]
  | .relation s args, binders => by
    simp only [instantiate, occurrences, List.forall_mem_map, List.nil_append, applications,
      List.forall_mem_singleton]
    cases hs : bindings.formula? s.name with
    | some body =>
      have hbody : body.WellFormed := hb.get? (Bindings.get?_of_formula? hs)
      simp only [exists_instantiateRelation hbody, Option.some.injEq, forall_eq']
    | none =>
      simp only [Capture.lift_eq_ok, exists_map_ok, Term.exists_instantiateList, reduceCtorEq,
        false_imp_iff, implies_true, and_true]
  | .neg f, binders => by
    simp only [instantiate, exists_map_ok, exists_instantiate hb f, occurrences, applications]
  | .binary op l r, binders => by
    simp only [instantiate, exists_both_ok, exists_instantiate hb l, exists_instantiate hb r,
      occurrences, applications, List.forall_mem_append]
    exact and_and_and_comm
  | .quantified q x f, binders => by
    -- Around a place in the body stand the quantifiers of the body, then this one, then the others.
    have ih := exists_instantiate hb f (x :: binders)
    rw [Bindings.scope_cons] at ih
    simp only [instantiate, exists_map_ok, ih, occurrences, applications, List.forall_mem_map,
      Occurrence.within, Application.within, List.append_assoc, List.singleton_append]

end Formula

/-- Bindings give an instance of a schema just when each name is a template and bound to a value of
its kind, and nothing is captured in any place: no constant or variable of the schema, and no
formula or argument where a relation is bound. -/
theorem Schema.instantiates_iff (S : Schema) {bindings : Bindings} (hb : bindings.WellFormed) :
    (∃ g, S.instantiate bindings = .ok g) ↔
      (∀ e ∈ bindings.entries, e.1 ∈ S.templates ∧
        (Category.of? e.1).bind Category.bindingKind? = some e.2.kind) ∧
      (∀ o ∈ S.formula.occurrences, bindings.Spares o.binders o.leaf) ∧
      ∀ a ∈ S.formula.applications, ∀ body, bindings.formula? a.symbol.name = some body →
        bindings.Fits a.binders a.args body := by
  have hplaces := Formula.exists_instantiate hb S.formula []
  simp only [List.append_nil] at hplaces
  simp only [instantiate_eq_ok, exists_and_left, checkBinding_eq_ok]
  exact and_congr_right fun _ => hplaces

/-- With `z` for both `x` and `y`, and `Ex[T(_,x)]` and `g(x,y)` for `R` and `c`, there is an
instance of `Ax[(R(x)->Ay[Q(y,c)])]`, where each `z` is bound where it was before. There is none of
`Ax[Ay[R(x)]]`, where the `z` for `x` would be bound too far in. -/
theorem Schema.instantiates_iff_renamed_alike :
    let bindings : Bindings := .ofList [("x", .var "z"), ("y", .var "z"),
      ("R", .formula (.ex "x" (.holds "T" [.const "_", .var "x"]))),
      ("c", .term (.app ⟨"g", 2⟩ [.var "x", .var "y"]))]
    let S := Schema.ofTemplates (.all "x" (.imp (.holds "R" [.var "x"])
      (.all "y" (.holds "Q" [.var "y", .const "c"])))) ["R", "c", "x", "y"]
    let S' := Schema.ofTemplates (.all "x" (.all "y" (.holds "R" [.var "x"]))) ["R", "c", "x", "y"]
    bindings.WellFormed ∧
      S.instantiate bindings = .ok (.all "z" (.imp
        (.ex "x" (.holds "T" [.var "z", .var "x"]))
        (.all "z" (.holds "Q" [.var "z", .app ⟨"g", 2⟩ [.var "x", .var "y"]])))) ∧
      (∀ o ∈ S.formula.occurrences, bindings.Spares o.binders o.leaf) ∧
      ¬ ∃ g, S'.instantiate bindings = .ok g := by
  intro bindings S S'
  have hb : bindings.WellFormed := by decide
  refine ⟨hb, rfl, ((instantiates_iff S hb).1 ⟨_, rfl⟩).2.1, fun h => ?_⟩
  have hspares : bindings.Spares ["y", "x"] (.var "x") :=
    ((instantiates_iff S' hb).1 h).2.1 ⟨.var "x", ["y", "x"]⟩ (by decide)
  exact hspares "y" (by decide) rfl

end Deduction
