import Deduction.Proofs.Oracle

/-!
# What an action of a session leaves behind

A session is clean when each of its lines is well formed, does not mention the placeholder and is
justified by the lines before it.

No action takes back lines that were there before it or changes what the session rests on, and
each keeps a clean session clean (`Session.Reaches`). `Session.Leads` says this of an action
together with what is true of its result, and whether the lines are as before when it fails. A
transaction makes the latter out of the former (`Session.leads_transaction`).
-/

namespace Deduction

variable {σ α β : Type}

theorem getElem?_mono {xs ys : List α} (h : xs <+: ys) {i : Nat} {a : α}
    (hi : xs[i]? = some a) : ys[i]? = some a := by
  obtain ⟨more, rfl⟩ := h
  obtain ⟨hlt, -⟩ := List.getElem?_eq_some_iff.1 hi
  rw [List.getElem?_append_left hlt, hi]

theorem Line.States.mono {lines lines' : List Line} (hl : lines <+: lines') {index reference : Nat}
    {f : Formula} (h : States lines index reference f) : States lines' index reference f := by
  obtain ⟨hlt, hf⟩ := h
  obtain ⟨line, hline, hf⟩ := Option.map_eq_some_iff.1 hf
  refine ⟨hlt, ?_⟩
  rw [getElem?_mono hl hline, Option.map_some, hf]

theorem Line.Justified.mono {accepted : Proposition → Prop} {assumptions : OrderedSet Schema}
    {lines lines' : List Line} (hl : lines <+: lines') {index : Nat} {line : Line}
    (h : line.Justified accepted assumptions lines index) :
    line.Justified accepted assumptions lines' index := by
  obtain ⟨formula, reason⟩ := line
  cases reason with
  | assumption schema bindings => exact h
  | tautology => exact h
  | modusPonens antecedent conditional =>
    obtain ⟨premise, ha, hc⟩ := h
    exact ⟨premise, ha.mono hl, hc.mono hl⟩
  | generalization predicate =>
    obtain ⟨x, body, hf, hp⟩ := h
    exact ⟨x, body, hf, hp.mono hl⟩

namespace Session

/-- Line number `i` states the formula. -/
def Says (s : Session σ) (i : Nat) (f : Formula) : Prop :=
  s.lines[i]?.map Line.formula = some f

instance (s : Session σ) (i : Nat) (f : Formula) : Decidable (s.Says i f) :=
  inferInstanceAs (Decidable (s.lines[i]?.map Line.formula = some f))

theorem Says.mono {s t : Session σ} {i : Nat} {f : Formula} (h : s.Says i f)
    (hl : s.lines <+: t.lines) : t.Says i f := by
  obtain ⟨line, hline, hf⟩ := Option.map_eq_some_iff.1 h
  rw [Says, getElem?_mono hl hline, Option.map_some, hf]

structure Clean (s : Session σ) : Prop where
  stem : isVar s.fresh.stem
  wellFormed : ∀ line ∈ s.lines, line.WellFormed
  noPlaceholder : ∀ line ∈ s.lines, placeholder ∉ line.formula.constants
  justified : ∀ (i : Nat) (line : Line), s.lines[i]? = some line →
    line.Justified s.oracle.Accepts s.assumptions s.lines i

/-- From the session `s` an action can have led to `s'`. -/
structure Reaches (s s' : Session σ) : Prop where
  assumptions : s'.assumptions = s.assumptions
  settings : s'.settings = s.settings
  oracle : s'.oracle = s.oracle
  stem : s'.fresh.stem = s.fresh.stem
  lines : s.lines <+: s'.lines
  clean : s.Clean → s'.Clean

namespace Reaches

variable {s t u : Session σ}

theorem refl (s : Session σ) : s.Reaches s := ⟨rfl, rfl, rfl, rfl, List.prefix_rfl, id⟩

theorem trans (h : s.Reaches t) (h' : t.Reaches u) : s.Reaches u :=
  ⟨h'.assumptions.trans h.assumptions, h'.settings.trans h.settings, h'.oracle.trans h.oracle,
    h'.stem.trans h.stem, h.lines.trans h'.lines, h'.clean ∘ h.clean⟩

/-- Nothing that counts has changed: the journal may have grown, the oracle may remember more and
fresh names may be taken. -/
theorem of_same (ha : t.assumptions = s.assumptions) (hs : t.settings = s.settings)
    (ho : t.oracle = s.oracle) (hf : t.fresh.stem = s.fresh.stem) (hl : t.lines = s.lines) :
    s.Reaches t := by
  refine ⟨ha, hs, ho, hf, hl ▸ List.prefix_rfl, fun h => ⟨?_, ?_, ?_, ?_⟩⟩
  · rw [hf]
    exact h.stem
  · rw [hl]
    exact h.wellFormed
  · rw [hl]
    exact h.noPlaceholder
  · rw [hl, ho, ha]
    exact h.justified

theorem keeps (h : s.Reaches t) {i : Nat} {f : Formula} (hi : s.Says i f) : t.Says i f :=
  hi.mono h.lines

end Reaches

theorem Clean.wellFormed_formula {s : Session σ} (hs : s.Clean) {i : Nat} {f : Formula}
    (h : s.Says i f) : f.WellFormed := by
  obtain ⟨line, hline, rfl⟩ := Option.map_eq_some_iff.1 h
  exact (hs.wellFormed line (List.mem_of_getElem? hline)).1

theorem Clean.noPlaceholder_formula {s : Session σ} (hs : s.Clean) {i : Nat} {f : Formula}
    (h : s.Says i f) : placeholder ∉ f.constants := by
  obtain ⟨line, hline, rfl⟩ := Option.map_eq_some_iff.1 h
  exact hs.noPlaceholder line (List.mem_of_getElem? hline)

/-! ## After an action -/

/-- What is true of the result of an action and the session after it: `ok` if it succeeds, `fail`
if it does not. -/
def After (s : Session σ) (action : Build σ α) (ok : α → Session σ → Prop)
    (fail : SessionFault → Session σ → Prop) : Prop :=
  match s.perform action with
  | (.ok a, s') => ok a s'
  | (.error e, s') => fail e s'

section

variable {s : Session σ} {ok : β → Session σ → Prop} {fail : SessionFault → Session σ → Prop}

theorem after_bind {action : Build σ α} {next : α → Build σ β} :
    s.After (action >>= next) ok fail ↔
      s.After action (fun a s' => s'.After (next a) ok fail) fail := by
  simp only [After, perform_bind]
  rcases s.perform action with ⟨r | r, s'⟩ <;> rfl

theorem After.mono {action : Build σ β} {ok' : β → Session σ → Prop}
    {fail' : SessionFault → Session σ → Prop} (h : s.After action ok fail)
    (hok : ∀ a s', ok a s' → ok' a s') (hfail : ∀ e s', fail e s' → fail' e s') :
    s.After action ok' fail' := by
  unfold After at h ⊢
  revert h
  rcases s.perform action with ⟨r | r, s'⟩
  · exact hfail r s'
  · exact hok r s'

theorem After.and {action : Build σ β} {ok' : β → Session σ → Prop}
    {fail' : SessionFault → Session σ → Prop} (h : s.After action ok fail)
    (h' : s.After action ok' fail') :
    s.After action (fun a t => ok a t ∧ ok' a t) fun e t => fail e t ∧ fail' e t := by
  unfold After at h h' ⊢
  generalize s.perform action = result at h h' ⊢
  rcases result with ⟨r | r, t⟩
  · exact ⟨h, h'⟩
  · exact ⟨h, h'⟩

theorem After.of_ok {action : Build σ β} (h : s.After action ok fail) {a : β}
    (ha : (s.perform action).1 = .ok a) : ok a (s.perform action).2 := by
  unfold After at h
  generalize s.perform action = result at h ha ⊢
  rcases result with ⟨r | r, t⟩
  · cases ha
  · cases ha
    exact h

theorem After.of_error {action : Build σ β} (h : s.After action ok fail) {e : SessionFault}
    (he : (s.perform action).1 = .error e) : fail e (s.perform action).2 := by
  unfold After at h
  generalize s.perform action = result at h he ⊢
  rcases result with ⟨r | r, t⟩
  · cases he
    exact h
  · cases he

/-- What is true whether the action succeeds or not. -/
theorem After.always {action : Build σ β} {P : Session σ → Prop}
    (h : s.After action (fun _ t => P t) fun _ t => P t) : P (s.perform action).2 := by
  unfold After at h
  generalize s.perform action = result at h ⊢
  rcases result with ⟨r | r, t⟩
  · exact h
  · exact h

theorem after_transaction {step : Build σ Nat} {ok : Nat → Session σ → Prop} :
    s.After (transaction step) ok fail ↔ s.After step ok fun e s' => fail e { s' with
      journal := s'.journal ++ [.rolledBack (s'.lines.length - s.lines.length) e]
      lines := s'.lines.take s.lines.length } := by
  simp only [After, perform_transaction]
  rcases s.perform step with ⟨r | r, s'⟩ <;> rfl

end

/-- The action keeps to what `Reaches` allows, its result has the property `Q` if it succeeds, and
if it fails and is `undone` then, the lines are as before. -/
def Leads (s : Session σ) (undone : Bool) (action : Build σ α) (Q : α → Session σ → Prop) : Prop :=
  s.After action (fun a s' => s.Reaches s' ∧ Q a s')
    fun _ s' => s.Reaches s' ∧ (undone = true → s'.lines = s.lines)

section

variable {s : Session σ} {undone : Bool} {Q : β → Session σ → Prop}

theorem leads_pure {a : β} (h : Q a s) : s.Leads undone (pure a) Q := ⟨.refl s, h⟩

theorem leads_throw {e : SessionFault} : s.Leads undone (throw e) Q := ⟨.refl s, fun _ => rfl⟩

theorem Leads.mono {action : Build σ β} {R : β → Session σ → Prop} (h : s.Leads undone action Q)
    (hQ : ∀ a t, s.Reaches t → Q a t → R a t) : s.Leads undone action R :=
  After.mono h (fun a t ht => ⟨ht.1, hQ a t ht.1 ht.2⟩) fun _ _ => id

theorem Leads.reaches {action : Build σ β} (h : s.Leads undone action Q) :
    s.Reaches (s.perform action).2 :=
  After.always (After.mono h (fun _ _ => And.left) fun _ _ => And.left)

theorem Leads.lines_eq {action : Build σ β} (h : s.Leads true action Q) {e : SessionFault}
    (he : (s.perform action).1 = .error e) : (s.perform action).2.lines = s.lines :=
  (After.of_error h he).2 rfl

theorem Leads.result {action : Build σ β} (h : s.Leads undone action Q) {a : β}
    (ha : (s.perform action).1 = .ok a) : Q a (s.perform action).2 :=
  (After.of_ok h ha).2

/-- A first part that changes no lines does not matter for what is undone. -/
theorem leads_bind_same {action : Build σ α} {next : α → Build σ β}
    (h : s.After action (fun a t => (s.Reaches t ∧ t.lines = s.lines) ∧ t.Leads undone (next a) Q)
      fun _ t => s.Reaches t ∧ t.lines = s.lines) : s.Leads undone (action >>= next) Q := by
  refine after_bind.2 (After.mono h ?_ fun _ t ht => ⟨ht.1, fun _ => ht.2⟩)
  rintro a t ⟨⟨hst, hlines⟩, ht⟩
  exact After.mono ht (fun b u hu => ⟨hst.trans hu.1, hu.2⟩)
    fun e u hu => ⟨hst.trans hu.1, fun hundone => (hu.2 hundone).trans hlines⟩

theorem leads_bind {action : Build σ α} {next : α → Build σ β} {P : α → Session σ → Prop}
    (h : s.Leads false action P)
    (hnext : ∀ a t, s.Reaches t → P a t → t.Leads false (next a) Q) :
    s.Leads false (action >>= next) Q := by
  refine after_bind.2 (After.mono h ?_ fun _ t ht => ⟨ht.1, (absurd · Bool.false_ne_true)⟩)
  rintro a t ⟨hst, ha⟩
  exact After.mono (hnext a t hst ha) (fun b u hu => ⟨hst.trans hu.1, hu.2⟩)
    fun e u hu => ⟨hst.trans hu.1, (absurd · Bool.false_ne_true)⟩

/-- What a transaction added before it failed is taken back, down to the lines that were there. -/
theorem leads_transaction {step : Build σ Nat} {Q : Nat → Session σ → Prop}
    (h : s.Leads false step Q) : s.Leads undone (transaction step) Q := by
  refine after_transaction.2 (After.mono h (fun _ _ => id) ?_)
  rintro e t ⟨hst, -⟩
  have hlines : t.lines.take s.lines.length = s.lines := (List.prefix_iff_eq_take.1 hst.lines).symm
  exact ⟨.of_same hst.assumptions hst.settings hst.oracle hst.stem hlines, fun _ => hlines⟩

end

end Session

end Deduction
