import Deduction.Proofs.Substitution

/-!
# Where a substitution is refused

The constants and variables of a formula are listed where they occur, from left to right, each with
the variables that are quantified around it (`Formula.occurrences`). A substitution has a
replacement for every occurrence of a constant and for the free occurrences of a variable. It is
refused at an occurrence if the replacement mentions a variable that is forbidden from outside or
quantified around.

A substitution goes through the occurrences and reports the first one where it is refused. If there
is none, each replacement stands where its occurrence stood (`Formula.substitute_eq_report`). On the
way down it is not the occurrences that change but the substitution, which loses its entry for the
variable of each quantifier and has one more variable forbidden. To an occurrence this is the same
as one more quantifier around it (`Substitution.offenderAt?_within`).
-/

namespace Deduction

/-- A constant or a variable, as the terms are that have no parts. -/
inductive Leaf where
  | var (name : String)
  | const (name : String)
deriving DecidableEq

namespace Leaf

def name : Leaf → String
  | .var x => x
  | .const c => c

def term : Leaf → Term
  | .var x => .var x
  | .const c => .const c

def WellFormed : Leaf → Prop
  | .var x => isVar x
  | .const c => isConst c

instance : (a : Leaf) → Decidable a.WellFormed
  | .var x => inferInstanceAs (Decidable (isVar x = true))
  | .const c => inferInstanceAs (Decidable (isConst c = true))

end Leaf

/-- A leaf in one of its places, with the variables of the quantifiers around it, innermost
first. -/
structure Occurrence where
  leaf : Leaf
  binders : List String
deriving DecidableEq

namespace Occurrence

/-- The same place with one more quantifier around it, outside of the others. -/
def within (x : String) (o : Occurrence) : Occurrence := { o with binders := o.binders ++ [x] }

/-- No quantifier around binds it. None binds a constant. -/
def Free (o : Occurrence) : Prop :=
  match o.leaf with
  | .var x => x ∉ o.binders
  | .const _ => True

instance : (o : Occurrence) → Decidable o.Free
  | ⟨.var x, binders⟩ => inferInstanceAs (Decidable (x ∉ binders))
  | ⟨.const _, _⟩ => inferInstanceAs (Decidable True)

end Occurrence

namespace Term

mutual

/-- The constants and variables, from left to right. -/
def leaves : Term → List Leaf
  | .var x => [.var x]
  | .const c => [.const c]
  | .app _ args => leavesOfList args

def leavesOfList : List Term → List Leaf
  | [] => []
  | t :: ts => leaves t ++ leavesOfList ts

end

mutual

/-- The term with `put a` in the place of each leaf `a`. -/
def replace (put : Leaf → Term) : Term → Term
  | .var x => put (.var x)
  | .const c => put (.const c)
  | .app f args => .app f (replaceList put args)

def replaceList (put : Leaf → Term) : List Term → List Term
  | [] => []
  | t :: ts => replace put t :: replaceList put ts

end

end Term

namespace Formula

/-- The constants and variables in their places, from left to right. The variable at a quantifier is
none of them. -/
def occurrences : Formula → List Occurrence
  | .equality l r => (l.leaves ++ r.leaves).map (⟨·, []⟩)
  | .relation _ args => (Term.leavesOfList args).map (⟨·, []⟩)
  | .neg f => f.occurrences
  | .binary _ l r => l.occurrences ++ r.occurrences
  | .quantified _ x f => f.occurrences.map (·.within x)

/-- The formula with `put o` in the place of each occurrence `o`. -/
def replace (put : Occurrence → Term) : Formula → Formula
  | .equality l r => .equality (l.replace fun a => put ⟨a, []⟩) (r.replace fun a => put ⟨a, []⟩)
  | .relation s args => .relation s (Term.replaceList (fun a => put ⟨a, []⟩) args)
  | .neg f => .neg (f.replace put)
  | .binary op l r => .binary op (l.replace put) (r.replace put)
  | .quantified q x f => .quantified q x (f.replace fun o => put (o.within x))

end Formula

namespace Substitution

/-- What is put in the place of an occurrence, if anything is. -/
def replacement? (m : Substitution) (o : Occurrence) : Option Term :=
  if o.Free then m.get? o.leaf.name else none

/-- The variable `y` comes in with the replacement of an occurrence, and may not: it is forbidden or
quantified around. -/
def Offends (m : Substitution) (forbidden : List String) (o : Occurrence) (y : String) : Prop :=
  ∃ t, m.replacement? o = some t ∧ y ∈ t.vars ∧ (y ∈ forbidden ∨ y ∈ o.binders)

/-- What stands in the place of an occurrence afterwards. -/
def putAt (m : Substitution) (o : Occurrence) : Term := (m.replacement? o).getD o.leaf.term

/-- The variable that is reported at an occurrence. -/
def offenderAt? (m : Substitution) (forbidden : List String) (o : Occurrence) : Option String :=
  (m.replacement? o).bind fun t => t.offender? (o.binders ++ forbidden)

end Substitution

/-! ## The least offender -/

theorem NameSet.least?_eq_some {names : List String} {x : String} :
    least? names = some x ↔ x ∈ names ∧ ∀ y ∈ names, x ≤ y := by
  have hmem : ∀ y, y ∈ (ofList names).toList ↔ y ∈ names := fun y => mem_ofList
  have hsorted := (ofList names).sorted
  rw [least?]
  cases hlist : (ofList names).toList with
  | nil =>
    simp only [hlist, List.not_mem_nil, false_iff] at hmem
    simp [hmem x]
  | cons first rest =>
    rw [hlist] at hsorted
    simp only [hlist, List.mem_cons] at hmem
    have hfirst : ∀ y ∈ names, first ≤ y := by
      intro y hy
      rcases (hmem y).2 hy with rfl | hy
      · exact String.le_refl y
      · have hlt : first < y := (List.pairwise_cons.1 hsorted).1 y hy
        exact String.not_lt.1 (String.lt_asymm hlt)
    rw [List.head?_cons, Option.some.injEq]
    constructor
    · rintro rfl
      exact ⟨(hmem first).1 (.inl rfl), hfirst⟩
    · rintro ⟨hx, hle⟩
      exact String.le_antisymm (hfirst x hx) (hle first ((hmem first).1 (.inl rfl)))

theorem Term.offender?_eq_some {forbidden : List String} {t : Term} {x : String} :
    t.offender? forbidden = some x ↔
      (x ∈ t.vars ∧ x ∈ forbidden) ∧ ∀ y, y ∈ t.vars → y ∈ forbidden → x ≤ y := by
  simp [offender?, NameSet.least?_eq_some]

namespace Substitution

variable {m : Substitution} {forbidden : List String} {o : Occurrence}

theorem offenderAt?_eq_none :
    m.offenderAt? forbidden o = none ↔ ∀ y, ¬ m.Offends forbidden o y := by
  rw [offenderAt?]
  cases hr : m.replacement? o with
  | none => simp [Offends, hr]
  | some t =>
    simp only [Option.bind_some, Term.offender?_eq_none, Offends, hr, Option.some.injEq,
      exists_eq_left', List.mem_append, not_and]
    exact forall₂_congr fun y _ => not_congr or_comm

theorem offenderAt?_eq_some {x : String} : m.offenderAt? forbidden o = some x ↔
    m.Offends forbidden o x ∧ ∀ y, m.Offends forbidden o y → x ≤ y := by
  rw [offenderAt?]
  cases hr : m.replacement? o with
  | none => simp [Offends, hr]
  | some t =>
    simp only [Option.bind_some, Term.offender?_eq_some, Offends, hr, Option.some.injEq,
      exists_eq_left', List.mem_append, or_comm, and_imp]

end Substitution

/-! ## One quantifier further in -/

namespace Term

mutual

theorem WellFormed.leaf {a : Leaf} : ∀ {t : Term}, t.WellFormed → a ∈ t.leaves → a.WellFormed
  | .var x, ht, h => by
    rw [List.mem_singleton.1 h]
    exact ht
  | .const c, ht, h => by
    rw [List.mem_singleton.1 h]
    exact ht
  | .app f args, ht, h => WellFormedList.leaf ht.2.2 h

theorem WellFormedList.leaf {a : Leaf} : ∀ {ts : List Term}, WellFormedList ts →
    a ∈ leavesOfList ts → a.WellFormed
  | [], _, h => by cases h
  | t :: ts, ht, h => by
    rcases List.mem_append.1 h with h | h
    · exact WellFormed.leaf ht.1 h
    · exact WellFormedList.leaf ht.2 h

end

end Term

theorem Formula.WellFormed.leaf : ∀ {f : Formula} {o : Occurrence}, f.WellFormed →
    o ∈ f.occurrences → o.leaf.WellFormed
  | .equality l r, o, hf, h => by
    obtain ⟨a, ha, rfl⟩ := List.mem_map.1 h
    rcases List.mem_append.1 ha with ha | ha
    · exact hf.1.leaf ha
    · exact hf.2.leaf ha
  | .relation s args, o, hf, h => by
    obtain ⟨a, ha, rfl⟩ := List.mem_map.1 h
    exact hf.2.2.leaf ha
  | .neg f, o, hf, h => leaf (f := f) hf h
  | .binary op l r, o, hf, h => by
    rcases List.mem_append.1 h with h | h
    · exact leaf hf.1 h
    · exact leaf hf.2 h
  | .quantified q x f, o, hf, h => by
    obtain ⟨o', ho', rfl⟩ := List.mem_map.1 h
    exact leaf (o := o') hf.2 ho'

namespace Substitution

variable {m : Substitution} {x : String} {o : Occurrence}

/-- What is quantified around a place has no replacement there. A constant is never quantified. -/
theorem replacement?_within (hx : isVar x) (ho : o.leaf.WellFormed) :
    m.replacement? (o.within x) = replacement? (m.erase x) o := by
  obtain ⟨leaf, binders⟩ := o
  cases leaf with
  | var y =>
    by_cases hyx : y = x <;>
      simp [replacement?, Occurrence.within, Occurrence.Free, Leaf.name, Table.get?_erase, hyx]
  | const c =>
    have hcx : c ≠ x := (isVar_ne_isConst hx ho).symm
    simp [replacement?, Occurrence.within, Occurrence.Free, Leaf.name, Table.get?_erase, hcx]

theorem offenderAt?_within (hx : isVar x) (ho : o.leaf.WellFormed) (forbidden : List String) :
    m.offenderAt? forbidden (o.within x) = offenderAt? (m.erase x) (x :: forbidden) o := by
  rw [offenderAt?, offenderAt?, replacement?_within hx ho]
  simp only [Occurrence.within, List.append_assoc, List.singleton_append]

theorem putAt_within (hx : isVar x) (ho : o.leaf.WellFormed) :
    m.putAt (o.within x) = putAt (m.erase x) o := by
  rw [putAt, putAt, replacement?_within hx ho]
  rfl

end Substitution

theorem findSome?_congr {α β : Type} {f g : α → Option β} : ∀ {xs : List α},
    (∀ a ∈ xs, f a = g a) → xs.findSome? f = xs.findSome? g
  | [], _ => rfl
  | a :: xs, h => by
    obtain ⟨ha, hxs⟩ := List.forall_mem_cons.1 h
    rw [List.findSome?_cons, List.findSome?_cons, ha, findSome?_congr hxs]

namespace Term

mutual

theorem replace_congr {put put' : Leaf → Term} : ∀ {t : Term},
    (∀ a ∈ t.leaves, put a = put' a) → t.replace put = t.replace put'
  | .var x, h => h (.var x) (List.mem_singleton_self _)
  | .const c, h => h (.const c) (List.mem_singleton_self _)
  | .app f _, h => congrArg (app f) (replaceList_congr h)

theorem replaceList_congr {put put' : Leaf → Term} : ∀ {ts : List Term},
    (∀ a ∈ leavesOfList ts, put a = put' a) → replaceList put ts = replaceList put' ts
  | [], _ => rfl
  | t :: ts, h => by
    obtain ⟨ht, hts⟩ := List.forall_mem_append.1 h
    rw [replaceList, replaceList, replace_congr ht, replaceList_congr hts]

end

end Term

namespace Formula

theorem replace_congr : ∀ {f : Formula} {put put' : Occurrence → Term},
    (∀ o ∈ f.occurrences, put o = put' o) → f.replace put = f.replace put'
  | .equality l r, put, put', h => by
    have hleaf : ∀ a ∈ l.leaves ++ r.leaves, put ⟨a, []⟩ = put' ⟨a, []⟩ := List.forall_mem_map.1 h
    obtain ⟨hl, hr⟩ := List.forall_mem_append.1 hleaf
    rw [replace, replace, Term.replace_congr hl, Term.replace_congr hr]
  | .relation s args, put, put', h => by
    have hleaf : ∀ a ∈ Term.leavesOfList args, put ⟨a, []⟩ = put' ⟨a, []⟩ :=
      List.forall_mem_map.1 h
    rw [replace, replace, Term.replaceList_congr hleaf]
  | .neg f, put, put', h => congrArg neg (replace_congr (f := f) h)
  | .binary op l r, put, put', h => by
    obtain ⟨hl, hr⟩ := List.forall_mem_append.1 h
    rw [replace, replace, replace_congr hl, replace_congr hr]
  | .quantified q x f, put, put', h => by
    have hbody : ∀ o ∈ f.occurrences, put (o.within x) = put' (o.within x) :=
      List.forall_mem_map.1 h
    rw [replace, replace, replace_congr hbody]

end Formula

/-! ## From place to place -/

namespace Capture

/-- The value `a`, unless there is an offender to report. -/
def report {α : Type} (offender : Option String) (a : α) : Except Capture α :=
  match offender with
  | some x => .error ⟨x⟩
  | none => .ok a

variable {α β γ : Type}

theorem report_map (offender : Option String) (a : α) (next : α → β) :
    (do return next (← report offender a)) = report offender (next a) := by
  cases offender <;> rfl

/-- Of two offenders the first one is reported. -/
theorem report_both (first second : Option String) (a : α) (b : β) (next : α → β → γ) :
    (do let a ← report first a; let b ← report second b; return next a b)
      = report (first.or second) (next a b) := by
  cases first <;> cases second <;> rfl

end Capture

/-- What a substitution makes of a leaf that stands alone. -/
theorem Substitution.report_leaf (m : Substitution) (forbidden : List String) (a : Leaf) :
    Capture.report (m.offenderAt? forbidden ⟨a, []⟩) (m.putAt ⟨a, []⟩)
      = match m.get? a.name with
        | some t => t.admit forbidden
        | none => .ok a.term := by
  have hfree : (⟨a, []⟩ : Occurrence).Free := by
    cases a with
    | var x => exact List.not_mem_nil
    | const c => trivial
  simp only [offenderAt?, putAt, replacement?, if_pos hfree, List.nil_append]
  cases m.get? a.name <;> rfl

namespace Term

mutual

theorem substitute_eq_report (m : Substitution) : ∀ (t : Term) (forbidden : List String),
    t.substitute m forbidden
      = Capture.report (t.leaves.findSome? fun a => m.offenderAt? forbidden ⟨a, []⟩)
        (t.replace fun a => m.putAt ⟨a, []⟩)
  | .var x, forbidden => by
    rw [leaves, replace, List.findSome?_singleton, m.report_leaf]
    rfl
  | .const c, forbidden => by
    rw [leaves, replace, List.findSome?_singleton, m.report_leaf]
    rfl
  | .app f args, forbidden => by
    rw [substitute, substituteList_eq_report m args, leaves, replace, Capture.report_map]

theorem substituteList_eq_report (m : Substitution) :
    ∀ (ts : List Term) (forbidden : List String), substituteList m forbidden ts
      = Capture.report ((leavesOfList ts).findSome? fun a => m.offenderAt? forbidden ⟨a, []⟩)
        (replaceList (fun a => m.putAt ⟨a, []⟩) ts)
  | [], _ => rfl
  | t :: ts, forbidden => by
    rw [substituteList, substitute_eq_report m t, substituteList_eq_report m ts, leavesOfList,
      replaceList, List.findSome?_append, Capture.report_both]

end

end Term

namespace Formula

/-- The first occurrence where the substitution is refused decides, from left to right. -/
theorem substitute_eq_report : ∀ {f : Formula}, f.WellFormed →
    ∀ (m : Substitution) (forbidden : List String), f.substitute m forbidden
      = Capture.report (f.occurrences.findSome? (m.offenderAt? forbidden)) (f.replace m.putAt)
  | .equality l r, _, m, forbidden => by
    rw [substitute, Term.substitute_eq_report, Term.substitute_eq_report, Capture.report_both,
      occurrences, List.findSome?_map, List.findSome?_append]
    rfl
  | .relation s args, _, m, forbidden => by
    rw [substitute, Term.substituteList_eq_report, Capture.report_map, occurrences,
      List.findSome?_map]
    rfl
  | .neg f, hf, m, forbidden => by
    rw [substitute, substitute_eq_report (f := f) hf, Capture.report_map]
    rfl
  | .binary op l r, hf, m, forbidden => by
    rw [substitute, substitute_eq_report hf.1, substitute_eq_report hf.2, Capture.report_both,
      occurrences, List.findSome?_append]
    rfl
  | .quantified q x f, hf, m, forbidden => by
    -- The body meets another substitution, which does to each occurrence in it what this one does
    -- to the occurrence within the quantifier.
    have hoffender : f.occurrences.findSome? (Substitution.offenderAt? (m.erase x) (x :: forbidden))
        = f.occurrences.findSome? (m.offenderAt? forbidden ∘ Occurrence.within x) :=
      findSome?_congr fun o ho =>
        (Substitution.offenderAt?_within hf.1 (hf.2.leaf ho) forbidden).symm
    have hput : f.replace (Substitution.putAt (m.erase x))
        = f.replace fun o => m.putAt (o.within x) :=
      replace_congr fun o ho => (Substitution.putAt_within hf.1 (hf.2.leaf ho)).symm
    rw [substitute, substitute_eq_report hf.2, Capture.report_map, occurrences, List.findSome?_map,
      replace, hoffender, hput]

variable {f : Formula} {m : Substitution} {forbidden : List String}

theorem substitute_eq_ok_iff (hf : f.WellFormed) {g : Formula} :
    f.substitute m forbidden = .ok g ↔
      (∀ o ∈ f.occurrences, ∀ y, ¬ m.Offends forbidden o y) ∧ g = f.replace m.putAt := by
  rw [substitute_eq_report hf]
  cases hfind : f.occurrences.findSome? (m.offenderAt? forbidden) with
  | none =>
    have hnone : ∀ o ∈ f.occurrences, ∀ y, ¬ m.Offends forbidden o y := fun o ho =>
      Substitution.offenderAt?_eq_none.1 (List.findSome?_eq_none_iff.1 hfind o ho)
    simp only [Capture.report, Except.ok.injEq]
    exact ⟨fun h => ⟨hnone, h.symm⟩, fun h => h.2.symm⟩
  | some x =>
    simp only [Capture.report, reduceCtorEq, false_iff]
    rintro ⟨hnone, -⟩
    have h : f.occurrences.findSome? (m.offenderAt? forbidden) = none :=
      List.findSome?_eq_none_iff.2 fun o ho => Substitution.offenderAt?_eq_none.2 (hnone o ho)
    rw [hfind] at h
    cases h

theorem substitute_eq_error_iff (hf : f.WellFormed) {x : String} :
    f.substitute m forbidden = .error ⟨x⟩ ↔
      ∃ before o after, f.occurrences = before ++ o :: after ∧
        (∀ p ∈ before, ∀ y, ¬ m.Offends forbidden p y) ∧
        m.Offends forbidden o x ∧ ∀ y, m.Offends forbidden o y → x ≤ y := by
  have hreport : f.substitute m forbidden = .error ⟨x⟩ ↔
      f.occurrences.findSome? (m.offenderAt? forbidden) = some x := by
    rw [substitute_eq_report hf]
    cases f.occurrences.findSome? (m.offenderAt? forbidden) <;> simp [Capture.report]
  rw [hreport, List.findSome?_eq_some_iff]
  simp only [Substitution.offenderAt?_eq_some, Substitution.offenderAt?_eq_none]
  constructor
  · rintro ⟨before, o, after, hsplit, ⟨hx, hleast⟩, hbefore⟩
    exact ⟨before, o, after, hsplit, hbefore, hx, hleast⟩
  · rintro ⟨before, o, after, hsplit, hbefore, hx, hleast⟩
    exact ⟨before, o, after, hsplit, ⟨hx, hleast⟩, hbefore⟩

/-- A substitution fails just when the replacement of some occurrence brings in a variable that is
forbidden or quantified around it. It then reports the least such variable of the first such
occurrence from the left. If it does not fail, all that has changed is that each occurrence which
has a replacement has given way to it. -/
theorem substitute_captures (hf : f.WellFormed) (m : Substitution) (forbidden : List String) :
    ((∃ fault, f.substitute m forbidden = .error fault) ↔
      ∃ o ∈ f.occurrences, ∃ y, m.Offends forbidden o y) ∧
    (∀ x, f.substitute m forbidden = .error ⟨x⟩ ↔
      ∃ before o after, f.occurrences = before ++ o :: after ∧
        (∀ p ∈ before, ∀ y, ¬ m.Offends forbidden p y) ∧
        m.Offends forbidden o x ∧ ∀ y, m.Offends forbidden o y → x ≤ y) ∧
    ∀ g, f.substitute m forbidden = .ok g ↔
      (∀ o ∈ f.occurrences, ∀ y, ¬ m.Offends forbidden o y) ∧ g = f.replace m.putAt := by
  refine ⟨?_, fun x => substitute_eq_error_iff hf, fun g => substitute_eq_ok_iff hf⟩
  constructor
  · rintro ⟨⟨x⟩, h⟩
    obtain ⟨before, o, after, hsplit, -, hx, -⟩ := (substitute_eq_error_iff hf).1 h
    exact ⟨o, hsplit ▸ List.mem_append_right _ (List.mem_cons_self ..), x, hx⟩
  · rintro ⟨o, ho, y, hy⟩
    cases h : f.substitute m forbidden with
    | error fault => exact ⟨fault, rfl⟩
    | ok g => exact absurd hy (((substitute_eq_ok_iff hf).1 h).1 o ho y)

/-- In `(Ax[R(x,c)]&Ay[Ez[S(x,c)]])` the first `x` is bound. With `g(z,y)` for `c` and `d` for `x`
the first `c` can be replaced and the second one cannot, for `y` and for `z`. -/
theorem substitute_captures_nested :
    let t : Term := .app ⟨"g", 2⟩ [.var "z", .var "y"]
    let m : Substitution := .ofList [("c", t), ("x", .const "d")]
    let l := all "x" (holds "R" [.var "x", .const "c"])
    let f := conj l (all "y" (ex "z" (holds "S" [.var "x", .const "c"])))
    f.WellFormed ∧ f.substitute m ["u"] = .error ⟨"y"⟩ ∧
      (∃ before o after, f.occurrences = before ++ o :: after ∧
        (∀ p ∈ before, ∀ y, ¬ m.Offends ["u"] p y) ∧
        m.Offends ["u"] o "y" ∧ ∀ y, m.Offends ["u"] o y → "y" ≤ y) ∧
      l.WellFormed ∧ l.substitute m ["u"] = .ok (all "x" (holds "R" [.var "x", t])) ∧
      (∀ o ∈ l.occurrences, ∀ y, ¬ m.Offends ["u"] o y) := by
  intro t m l f
  have hf : f.WellFormed := by decide
  have hl : l.WellFormed := by decide
  have hfault : f.substitute m ["u"] = .error ⟨"y"⟩ := rfl
  have hok : l.substitute m ["u"] = .ok (all "x" (holds "R" [.var "x", t])) := rfl
  exact ⟨hf, hfault, ((substitute_captures hf m ["u"]).2.1 "y").1 hfault, hl, hok,
    (((substitute_captures hl m ["u"]).2.2 _).1 hok).1⟩

end Formula

end Deduction
