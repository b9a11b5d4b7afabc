import Deduction.Proofs.Admission
import Mathlib.Data.List.TakeWhile

/-!
# Instances that are substitutions

Bindings of constants and variables alone can be read as a substitution
(`Bindings.toSubstitution`). Where no quantifier of the schema binds a variable that is bound to
another, the instance is what this substitution makes of the formula, and it is refused where the
substitution is, for the same variable (`Formula.instantiate_eq_lift`).

The two go down through the formula with different things in hand. Instantiation has the list of the
quantifiers around and asks of each variable to which of them it belongs. Substitution has a list of
forbidden variables, and has lost its entries for them. As long as no quantifier is renamed, the
lists are the same, and nothing was lost that was there.
-/

namespace Deduction

/-- The variables of the quantifiers. -/
def Formula.quantifiedVars : Formula → List String
  | .equality .. | .relation .. => []
  | .neg f => f.quantifiedVars
  | .binary _ l r => l.quantifiedVars ++ r.quantifiedVars
  | .quantified _ x f => x :: f.quantifiedVars

/-- The term that a binding puts in, if it is none to a formula. -/
def Binding.term? : Binding → Option Term
  | .var x => some (.var x)
  | .term t => some t
  | .formula _ => none

/-- The bindings to terms and variables, as a substitution. -/
def Bindings.toSubstitution (bindings : Bindings) : Substitution :=
  bindings.filterMap Binding.term?

theorem Term.admit_var (forbidden : List String) (x : String) :
    Term.admit forbidden (.var x) = if x ∈ forbidden then .error ⟨x⟩ else .ok (.var x) := by
  split
  · next hx =>
    have hoffender : (Term.var x).offender? forbidden = some x := by
      simp [offender?_eq_some, vars, hx]
    unfold Term.admit
    rw [hoffender]
  · next hx => exact admit_eq_ok.2 ⟨rfl, by simpa [vars] using hx⟩

namespace Bindings

variable {bindings : Bindings} {binders : List String}

theorem get?_toSubstitution (bindings : Bindings) (name : String) :
    bindings.toSubstitution.get? name = bindings.term? name := by
  rw [toSubstitution, Table.get?_filterMap, term?]
  rcases bindings.get? name with _ | _ | _ | _ <;> rfl

theorem rename_of_none {x : String} (h : bindings.get? x = none) : bindings.rename x = x := by
  rw [rename, term?, h]

/-- Under the quantifiers of `binders` the bindings say what the substitution `m` says, and rename
none of the quantifiers. -/
structure ActsAs (bindings : Bindings) (m : Substitution) (binders : List String) : Prop where
  lookup : ∀ name, m.get? name = bindings.term? name
  unbound : ∀ q ∈ binders, bindings.get? q = none

namespace ActsAs

variable {m : Substitution}

/-- One quantifier further in. The substitution loses an entry that it does not have. -/
theorem erase (h : bindings.ActsAs m binders) {x : String} (hx : bindings.get? x = none) :
    bindings.ActsAs (m.erase x) (x :: binders) where
  lookup name := by
    rw [Table.get?_erase, h.lookup]
    split
    · next hname => rw [hname, term?, hx]
    · rfl
  unbound := List.forall_mem_cons.2 ⟨hx, h.unbound⟩

theorem renamed_scope (h : bindings.ActsAs m binders) :
    (bindings.scope binders).map Binder.renamed = binders := by
  rw [scope, List.map_map]
  exact (List.map_congr_left fun q hq => rename_of_none (h.unbound q hq)).trans (List.map_id _)

/-- A variable that stays itself is not caught by a quantifier that stays itself, unless it is its
own. -/
theorem spares_unbound (h : bindings.ActsAs m binders) {x : String}
    (hx : bindings.get? x = none) : bindings.Spares binders (.var x) := by
  intro q hq e
  have hne : q ≠ x := by simpa using List.mem_takeWhile_imp hq
  rw [rename_of_none (h.unbound q (List.takeWhile_subset _ hq)), rename_of_none hx] at e
  exact hne e

/-- A variable that becomes another has no quantifier of its own. -/
theorem spares_bound (h : bindings.ActsAs m binders) {x : String}
    (hx : bindings.get? x ≠ none) :
    bindings.Spares binders (.var x) ↔ bindings.rename x ∉ binders := by
  have hall : binders.takeWhile (· ≠ x) = binders := by
    refine List.takeWhile_eq_self_iff.2 fun q hq => decide_eq_true ?_
    rintro rfl
    exact hx (h.unbound q hq)
  rw [Bindings.Spares, hall]
  constructor
  · exact fun hne hmem => hne _ hmem (rename_of_none (h.unbound _ hmem))
  · intro hnot q hq e
    rw [rename_of_none (h.unbound q hq)] at e
    exact hnot (e ▸ hq)

end ActsAs

end Bindings

namespace Term

variable {bindings : Bindings} {binders : List String} {m : Substitution}

theorem instantiate_var_eq_substitute (hs : bindings.Sorted) (h : bindings.ActsAs m binders)
    {x : String} (hx : isVar x) :
    (Term.var x).instantiate bindings (bindings.scope binders)
      = (Term.var x).substitute m binders := by
  rw [instantiate, Bindings.variableInstance_scope, substitute, h.lookup]
  cases hget : bindings.get? x with
  | none =>
    rw [if_pos (h.spares_unbound hget), Bindings.rename_of_none hget, Bindings.term?, hget]
    rfl
  | some b =>
    obtain ⟨y, rfl⟩ := hs.of_isVar hx hget
    have hterm : bindings.term? x = some (.var y) := by rw [Bindings.term?, hget]
    have hrename : bindings.rename x = y := by rw [Bindings.rename, hterm]
    have hspares : bindings.Spares binders (.var x) ↔ y ∉ binders :=
      hrename ▸ h.spares_bound (by simp [hget])
    rw [hterm, hrename]
    simp only [admit_var]
    by_cases hy : y ∈ binders
    · rw [if_pos hy, if_neg fun hok => hspares.1 hok hy]
      rfl
    · rw [if_neg hy, if_pos (hspares.2 hy)]
      rfl

mutual

theorem instantiate_eq_substitute (hs : bindings.Sorted) (h : bindings.ActsAs m binders) :
    ∀ {t : Term}, t.WellFormed →
      t.instantiate bindings (bindings.scope binders) = t.substitute m binders
  | .var x, hx => instantiate_var_eq_substitute hs h hx
  | .const c, _ => by
    rw [instantiate, substitute, h.lookup]
    cases bindings.term? c with
    | none => rfl
    | some t => exact congrArg (fun names => t.admit names) h.renamed_scope
  | .app f args, ht => by
    rw [instantiate, substitute, instantiateList_eq_substituteList hs h ht.2.2]

theorem instantiateList_eq_substituteList (hs : bindings.Sorted)
    (h : bindings.ActsAs m binders) : ∀ {ts : List Term}, WellFormedList ts →
      instantiateList bindings (bindings.scope binders) ts = substituteList m binders ts
  | [], _ => rfl
  | t :: ts, ht => by
    rw [instantiateList, substituteList, instantiate_eq_substitute hs h ht.1,
      instantiateList_eq_substituteList hs h ht.2]

end

end Term

namespace Capture

variable {α β γ : Type}

theorem lift_map (x : Except Capture α) (next : α → β) :
    lift (do return next (← x)) = do return next (← lift x) := by
  cases x <;> rfl

theorem lift_both (x : Except Capture α) (y : Except Capture β) (next : α → β → γ) :
    lift (do let a ← x; let b ← y; return next a b)
      = do let a ← lift x; let b ← lift y; return next a b := by
  cases x <;> cases y <;> rfl

end Capture

theorem Formula.instantiate_eq_lift {bindings : Bindings} (hs : bindings.Sorted)
    (hrel : ∀ R, bindings.formula? R = none) : ∀ {f : Formula} {m : Substitution}
    {binders : List String}, f.WellFormed → (∀ x ∈ f.quantifiedVars, bindings.get? x = none) →
      bindings.ActsAs m binders →
      f.instantiate bindings (bindings.scope binders) = Capture.lift (f.substitute m binders)
  | .equality l r, m, binders, hf, _, h => by
    rw [instantiate, substitute, Term.instantiate_eq_substitute hs h hf.1,
      Term.instantiate_eq_substitute hs h hf.2]
  | .relation s args, m, binders, hf, _, h => by
    simp only [instantiate, substitute, hrel,
      Term.instantiateList_eq_substituteList hs h hf.2.2]
  | .neg f, m, binders, hf, hq, h => by
    rw [instantiate, substitute, instantiate_eq_lift (f := f) hs hrel hf hq h, Capture.lift_map]
  | .binary op l r, m, binders, hf, hq, h => by
    obtain ⟨hl, hr⟩ := List.forall_mem_append.1 hq
    rw [instantiate, substitute, instantiate_eq_lift hs hrel hf.1 hl h,
      instantiate_eq_lift hs hrel hf.2 hr h, Capture.lift_both]
  | .quantified q x f, m, binders, hf, hq, h => by
    obtain ⟨hx, hbody⟩ := List.forall_mem_cons.1 hq
    have ih := instantiate_eq_lift hs hrel hf.2 hbody (h.erase hx)
    rw [Bindings.scope_cons] at ih
    rw [instantiate, substitute, ih, Bindings.rename_of_none hx, Capture.lift_map]

/-- Constants and variables that are bound to terms and variables. -/
theorem Bindings.kind_of_plain {name : String} {b : Binding}
    (h : (isConst name ∧ b.kind = .term) ∨ (isVar name ∧ b.kind = .var)) :
    (Category.of? name).bind Category.bindingKind? = some b.kind := by
  simp only [isConst, isVar, decide_eq_true_eq] at h
  rcases h with ⟨hname, hkind⟩ | ⟨hname, hkind⟩
  · rw [hname, hkind]
    rfl
  · rw [hname, hkind]
    rfl

/-- If only constants and variables of the schema are bound, and no variable of a quantifier among
them, the instance is what the bindings make of the formula as a substitution. If this fails, the
instance is refused, and for the same variable. -/
theorem Schema.instantiates_as_substitution {S : Schema} (hS : S.WellFormed) (bindings : Bindings)
    (hplain : ∀ e ∈ bindings.entries, e.1 ∈ S.templates ∧
      ((isConst e.1 ∧ e.2.kind = .term) ∨ (isVar e.1 ∧ e.2.kind = .var)))
    (hquantified : ∀ x ∈ S.formula.quantifiedVars, bindings.get? x = none) :
    S.instantiate bindings
      = Capture.lift (S.formula.substitute bindings.toSubstitution []) := by
  have hkinds : ∀ e ∈ bindings.entries,
      (Category.of? e.1).bind Category.bindingKind? = some e.2.kind := fun e he =>
    Bindings.kind_of_plain (hplain e he).2
  have hsorted : bindings.Sorted := fun _ _ hb => hkinds _ (Table.mem_of_get? hb)
  have hrel : ∀ R, bindings.formula? R = none := by
    intro R
    cases hR : bindings.formula? R with
    | none => rfl
    | some body =>
      have hmem := Table.mem_of_get? (Bindings.get?_of_formula? hR)
      rcases (hplain _ hmem).2 with ⟨-, h⟩ | ⟨-, h⟩ <;> cases h
  have hchecked : ∀ e ∈ bindings.entries, S.checkBinding e.1 e.2 = .ok () := fun e he =>
    checkBinding_eq_ok.2 ⟨(hplain e he).1, hkinds e he⟩
  have hacts : bindings.ActsAs bindings.toSubstitution [] := ⟨bindings.get?_toSubstitution, nofun⟩
  rw [instantiate_of_checked hchecked]
  exact Formula.instantiate_eq_lift hsorted hrel hS hquantified hacts

/-- In `(Ax[R(x,c,y)]&Ez[Q(z,y)])` with `g(w,y)` for `c` and `u` for `y` each goes in, and the `y`
that comes in with `c` stays. With `g(z,x)` for `c` and `z` for `y` there is no instance, for `x`
first. -/
theorem Schema.instantiates_as_substitution_refused :
    let g : Term → Term → Term := fun s t => .app ⟨"g", 2⟩ [s, t]
    let f : Term → Term → Formula := fun s t => .conj
      (.all "x" (.holds "R" [.var "x", s, t])) (.ex "z" (.holds "Q" [.var "z", t]))
    let S := Schema.ofTemplates (f (.const "c") (.var "y")) ["c", "y"]
    let b : Bindings := .ofList [("c", .term (g (.var "w") (.var "y"))), ("y", .var "u")]
    let b' : Bindings := .ofList [("c", .term (g (.var "z") (.var "x"))), ("y", .var "z")]
    S.WellFormed ∧ S.instantiate b = .ok (f (g (.var "w") (.var "y")) (.var "u")) ∧
      S.formula.substitute b'.toSubstitution [] = .error ⟨"x"⟩ ∧
      S.instantiate b' = .error (.capture ⟨"x"⟩) := by
  intro g f S b b'
  have hS : S.WellFormed := by decide
  refine ⟨hS, ?_, rfl, ?_⟩
  · exact instantiates_as_substitution hS b (by decide) (by decide)
  · exact instantiates_as_substitution hS b' (by decide) (by decide)

end Deduction
