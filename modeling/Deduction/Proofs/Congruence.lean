import Deduction.Proofs.AxiomInstance
import Deduction.Proofs.Run

/-!
# Rules for equality succeed just when they should

The axiom on the meaning of equality is used with an equality for the relation's body, in which the
placeholder stands where one side of a line is to be replaced by the other. A term without the
placeholder stays as it is when something is put for it (`Term.fill_eq_self`), and no line mentions
it. So one side of the body can be a term of a line, and the other is filled twice
(`Formula.substitute_equality`).

Symmetry and replacement in a term come to the same four lines (`Session.rewriting`), for two
bodies. A chain of lines that connects two terms is extended link by link, by seven lines each
(`Session.yields_chainStep`). No step can fail, since the line that was added last says that the
first term equals the right side of the last link so far.
-/

namespace Deduction

/-! ## Filling the placeholder -/

namespace Term

mutual

/-- The term with another one in each place of the placeholder. -/
def fill : Term → (filling : Term) → Term
  | .var x, _ => .var x
  | .const c, filling => if c = placeholder then filling else .const c
  | .app f args, filling => .app f (fillList args filling)

def fillList : List Term → (filling : Term) → List Term
  | [], _ => []
  | t :: ts, filling => fill t filling :: fillList ts filling

end

mutual

theorem substitute_placeholder (u : Term) : ∀ {t : Term}, t.WellFormed →
    t.substitute (.single placeholder u) [] = .ok (t.fill u)
  | .var x, ht => by
    refine substitute_var_eq_ok.2 (.inr ⟨?_, rfl⟩)
    rw [Table.get?_single, if_neg (isVar_ne_isConst ht isConst_placeholder)]
  | .const c, _ => by
    rw [substitute_const_eq_ok, Table.get?_single, fill]
    split_ifs with hc
    · exact .inl ⟨rfl, fun _ _ => List.not_mem_nil⟩
    · exact .inr ⟨rfl, rfl⟩
  | .app f args, ht => by
    simp only [substitute, substituteList_placeholder u ht.2.2, fill]
    rfl

theorem substituteList_placeholder (u : Term) : ∀ {ts : List Term}, WellFormedList ts →
    substituteList (.single placeholder u) [] ts = .ok (fillList ts u)
  | [], _ => rfl
  | t :: ts, ht => by
    simp only [substituteList, substitute_placeholder u ht.1, substituteList_placeholder u ht.2,
      fillList]
    rfl

end

mutual

theorem fill_eq_self (u : Term) : ∀ {t : Term}, placeholder ∉ t.constants → t.fill u = t
  | .var x, _ => rfl
  | .const c, h => by
    rw [fill, if_neg]
    rintro rfl
    exact h (List.mem_singleton.2 rfl)
  | .app f args, h => by rw [fill, fillList_eq_self u h]

theorem fillList_eq_self (u : Term) : ∀ {ts : List Term}, placeholder ∉ constantsOfList ts →
    fillList ts u = ts
  | [], _ => rfl
  | t :: ts, h => by
    simp only [constantsOfList, List.mem_append, not_or] at h
    rw [fillList, fill_eq_self u h.1, fillList_eq_self u h.2]

end

end Term

/-- Each side of an equality is filled by itself. -/
theorem Formula.substitute_equality {l r : Term} (hl : l.WellFormed) (hr : r.WellFormed)
    (u : Term) : (Formula.equality l r).substitute (.single placeholder u) []
      = .ok (.equality (l.fill u) (r.fill u)) := by
  simp only [substitute, Term.substitute_placeholder u hl, Term.substitute_placeholder u hr]
  rfl

theorem Formula.substitute_equality_left {r : Term} (hr : r.WellFormed)
    (hclean : placeholder ∉ r.constants) (u : Term) :
    (Formula.equality (.const placeholder) r).substitute (.single placeholder u) []
      = .ok (.equality u r) := by
  have hconst : (Term.const placeholder).WellFormed := isConst_placeholder
  rw [substitute_equality hconst hr, Term.fill_eq_self u hclean]
  rfl

namespace Session

variable {σ : Type} {s : Session σ} {goal : Formula} {line : Nat} {Q : Nat → Session σ → Prop}

/-! ## One line -/

/-- The four lines that turn a line `a=b` into what the body says of `b`, when what it says of `a`
is `left=left`: the instances of the two axioms, each followed by modus ponens. -/
def rewriting (s : Session σ) (goal : Formula) (line : Nat) (a b left : Term) (body : Formula) :
    List Line :=
  [⟨.imp (.equality a b) (.imp (.equality left left) goal),
      .assumption LogicalAxiom.meaningOfEquality.schema
        (.ofList [("R", .formula body), ("c", .term a), ("d", .term b)])⟩,
    ⟨.imp (.equality left left) goal, .modusPonens line s.lines.length⟩,
    ⟨.equality left left, .assumption LogicalAxiom.reflexivity.schema (.single "c" (.term left))⟩,
    ⟨goal, .modusPonens (s.lines.length + 2) (s.lines.length + 1)⟩]

theorem Clean.sides (hs : s.Clean) {a b : Term} (hline : s.Says line (.equality a b)) :
    (a.WellFormed ∧ b.WellFormed) ∧ placeholder ∉ a.constants ∧ placeholder ∉ b.constants := by
  refine ⟨hs.wellFormed_formula hline, not_or.1 fun h => ?_⟩
  exact hs.noPlaceholder_formula hline (List.mem_append.2 h)

section

variable {a b : Term} (hs : s.Clean) (haxioms : ∀ a : LogicalAxiom, a.schema ∈ s.assumptions)
  (hline : s.Says line (.equality a b))

include hs haxioms hline

theorem yields_rewriting {left : Term} {body : Formula} (hgoal : placeholder ∉ goal.constants)
    (hleft : placeholder ∉ left.constants)
    (hbefore : body.substitute (.single placeholder a) [] = .ok (.equality left left))
    (hafter : body.substitute (.single placeholder b) [] = .ok goal) :
    s.Yields (do
      let meaning ← meaningOfEquality a b body (.imp (.equality left left) goal)
      let implication ← modusPonens (.imp (.equality left left) goal) line meaning
      let reflexive ← reflexivity left
      modusPonens goal reflexive implication) fun i t => i = s.lines.length + 3 ∧
        t = (s.rewriting goal line a b left body).foldl added s := by
  have hsides : placeholder ∉ (Formula.equality a b).constants := hs.noPlaceholder_formula hline
  have hreflexive : placeholder ∉ (Formula.equality left left).constants := by
    simp [Formula.constants, hleft]
  have htail : placeholder ∉ (Formula.imp (.equality left left) goal).constants :=
    fun h => (List.mem_append.1 h).elim hreflexive hgoal
  have hmeaning : placeholder ∉
      (Formula.imp (.equality a b) (.imp (.equality left left) goal)).constants :=
    fun h => (List.mem_append.1 h).elim hsides htail
  refine yields_bind.2 (yields_instantiate.2 ⟨hmeaning, haxioms _,
    LogicalAxiom.instantiate_meaningOfEquality hbefore hafter, ?_⟩)
  refine yields_bind.2 (yields_modusPonens.2
    ⟨htail, ⟨_, hline.mono (List.prefix_append ..), says_added_last⟩, ?_⟩)
  set t := s.added _
  set u := t.added _
  have ht : t.lines.length = s.lines.length + 1 := length_added _
  have hu : u.lines.length = s.lines.length + 2 := by rw [length_added, ht]
  have himplication : u.Says t.lines.length (.imp (.equality left left) goal) := says_added_last
  refine yields_bind.2 (yields_instantiate.2 ⟨hreflexive, haxioms _,
    LogicalAxiom.instantiate_reflexivity left, yields_modusPonens.2 ⟨hgoal,
      ⟨_, says_added_last, himplication.mono (List.prefix_append ..)⟩, ?_, ?_⟩⟩)
  · rw [length_added, hu]
  · rw [ht, hu]
    rfl

theorem yields_flip : s.Yields (flip (.equality b a) line) fun i t => i = s.lines.length + 3 ∧
      t = (s.rewriting (.equality b a) line a b a (.equality (.const placeholder) a)).foldl added
        (s.noted (.flipping (.equality b a) line)) := by
  obtain ⟨⟨ha, -⟩, hac, hbc⟩ := hs.sides hline
  have hgoal : placeholder ∉ (Formula.equality b a).constants :=
    fun h => (List.mem_append.1 h).elim hbc hac
  unfold flip
  refine yields_note.2 (yields_rejectPlaceholder.2 ⟨hgoal, yields_equalityAt.2 ⟨a, b, hline,
    yields_require.2 ⟨rfl, yields_transaction.2 ?_⟩⟩⟩)
  exact yields_rewriting ((reaches_noted s _).clean hs) haxioms hline hgoal hac
    (Formula.substitute_equality_left ha hac a) (Formula.substitute_equality_left ha hac b)

theorem yields_replaceEqual {T : Term} (hT : T.WellFormed)
    (hgoal : placeholder ∉ (Formula.equality (T.fill a) (T.fill b)).constants) :
    s.Yields (replaceEqual (.equality (T.fill a) (T.fill b)) line T) fun i t =>
      i = s.lines.length + 3 ∧
        t = (s.rewriting (.equality (T.fill a) (T.fill b)) line a b (T.fill a)
          (.equality (T.fill a) T)).foldl added
            (s.noted (.replacingEqual (.equality (T.fill a) (T.fill b)) line T)) := by
  obtain ⟨⟨ha, -⟩, -, -⟩ := hs.sides hline
  have hleft : placeholder ∉ (T.fill a).constants :=
    fun h => hgoal (List.mem_append_left _ h)
  have hwf : (T.fill a).WellFormed :=
    hT.substitute (.single (by decide) ha) (Term.substitute_placeholder a hT)
  have hbody : ∀ u, (Formula.equality (T.fill a) T).substitute (.single placeholder u) []
      = .ok (.equality (T.fill a) (T.fill u)) := by
    intro u
    rw [Formula.substitute_equality hwf hT, Term.fill_eq_self u hleft]
  unfold replaceEqual
  refine yields_note.2 (yields_rejectPlaceholder.2 ⟨hgoal, yields_equalityAt.2 ⟨a, b, hline,
    yields_liftCapture.2 ⟨_, Term.substitute_placeholder a hT, yields_liftCapture.2 ⟨_,
      Term.substitute_placeholder b hT, yields_require.2 ⟨rfl, yields_transaction.2 ?_⟩⟩⟩⟩⟩)
  exact yields_rewriting ((reaches_noted s _).clean hs) haxioms hline hgoal hleft
    (hbody a) (hbody b)

end

theorem of_yields_replaceEqual {T : Term} (hT : T.WellFormed)
    (h : s.Yields (replaceEqual goal line T) Q) : placeholder ∉ goal.constants ∧
      ∃ a b, s.Says line (.equality a b) ∧ goal = .equality (T.fill a) (T.fill b) := by
  unfold replaceEqual at h
  obtain ⟨hgoal, h⟩ := yields_rejectPlaceholder.1 (yields_note.1 h)
  obtain ⟨a, b, hline, h⟩ := yields_equalityAt.1 h
  obtain ⟨left, hleft, h⟩ := yields_liftCapture.1 h
  obtain ⟨right, hright, h⟩ := yields_liftCapture.1 h
  obtain ⟨rfl, -⟩ := yields_require.1 h
  rw [Term.substitute_placeholder _ hT] at hleft hright
  cases hleft
  cases hright
  exact ⟨hgoal, a, b, hline, rfl⟩

/-- One side of a line is replaced by the other inside a term just when the goal does not mention
the placeholder, the line says `a=b`, and the goal says that the term with `a` for the placeholder
equals the term with `b` for it. Then four lines are added, and the answer is the last, which states
the goal. This is so for every term, after any steps and with any oracle. -/
theorem replaceEqual_exact {oracle : Oracle σ} {s₀ : Session σ} (hopen : Opened oracle s₀)
    {steps : List Step} (hsteps : ∀ step ∈ steps, step.WellFormed) (goal : Formula) (line : Nat)
    {T : Term} (hT : T.WellFormed) :
    let s := s₀.performAll steps
    let s' := (s.perform (replaceEqual goal line T)).2
    ((∃ i, (s.perform (replaceEqual goal line T)).1 = .ok i) ↔
      placeholder ∉ goal.constants ∧
        ∃ a b, s.Says line (.equality a b) ∧ goal = .equality (T.fill a) (T.fill b)) ∧
    ∀ i, (s.perform (replaceEqual goal line T)).1 = .ok i →
      i = s.lines.length + 3 ∧ s'.lines.length = s.lines.length + 4 ∧ s'.Says i goal ∧
        ∃ a b, s.Says line (.equality a b) ∧
          s'.lines = s.lines ++ s.rewriting goal line a b (T.fill a) (.equality (T.fill a) T) := by
  intro s s'
  obtain ⟨hs, haxioms⟩ : s.Clean ∧ ∀ a : LogicalAxiom, a.schema ∈ s.assumptions :=
    hopen.performAll hsteps
  constructor
  · rw [exists_perform_eq_ok]
    refine ⟨of_yields_replaceEqual hT, ?_⟩
    rintro ⟨hgoal, a, b, hline, rfl⟩
    exact (yields_replaceEqual hs haxioms hline hT hgoal).mono fun _ _ _ => trivial
  · intro i hi
    obtain ⟨hgoal, a, b, hline, rfl⟩ := of_yields_replaceEqual hT (perform_eq_ok.1 hi)
    obtain ⟨hindex, ht⟩ := After.of_ok (yields_replaceEqual hs haxioms hline hT hgoal) hi
    have hlines : s'.lines = s.lines ++ s.rewriting (.equality (T.fill a) (T.fill b)) line a b
        (T.fill a) (.equality (T.fill a) T) := by
      rw [show s' = _ from ht, lines_foldl_added]
      rfl
    refine ⟨hindex, ?_, ?_, a, b, hline, hlines⟩
    · rw [hlines, List.length_append]
      rfl
    · rw [hindex]
      exact (says_append hlines 3).2 rfl

/-- The sides of the line are the constants of the axiom, and one of them is in the term too, which
has the placeholder twice. If it is replaced in one place only, the goal is not derived. -/
theorem replaceEqual_exact_twice :
    let c := Term.const "c"
    let d := Term.const "d"
    let T := fun t u : Term => Term.app ⟨"f", 3⟩ [t, c, u]
    let blank := Term.const placeholder
    let goal := Formula.equality (T c c) (T d d)
    let steps : List Step := [.assume (.equality c d)]
    let s₀ := start [.fixed (.equality c d)]
    let s := s₀.performAll steps
    let s' := (s.perform (replaceEqual goal 0 (T blank blank))).2
    (∀ step ∈ steps, step.WellFormed) ∧ (T blank blank).WellFormed ∧
      (s.perform (replaceEqual goal 0 (T blank blank))).1 = .ok 4 ∧ s'.lines.length = 5 ∧
      s'.Says 4 goal ∧
      ¬∃ i, (s.perform (replaceEqual (.equality (T c c) (T d c)) 0 (T blank blank))).1 = .ok i := by
  intro c d T blank goal steps s₀ s s'
  have hsteps : ∀ step ∈ steps, step.WellFormed := by decide
  have hT : (T blank blank).WellFormed := by decide
  have hlength : s.lines.length = 1 := by decide +kernel
  have hline : s.Says 0 (.equality c d) := by decide +kernel
  have hopen : Opened .truthTable s₀ := .start _
  have hexact := fun goal => replaceEqual_exact hopen hsteps goal 0 hT
  -- What follows does not depend on what the run computes to.
  clear_value s₀ steps
  obtain ⟨i, hi⟩ := (hexact goal).1.2 ⟨by decide, c, d, hline, by decide⟩
  obtain ⟨hindex, hlines, hgoal, -⟩ := (hexact goal).2 i hi
  rw [hlength] at hindex hlines
  cases hindex
  refine ⟨hsteps, hT, hi, hlines, hgoal, fun h => ?_⟩
  obtain ⟨-, a, b, hab, heq⟩ := (hexact _).1.1 h
  cases Option.some.inj (hline.symm.trans hab)
  exact absurd heq (by decide)

/-! ## Chains of lines -/

/-- The lines say that `a` equals some term, that this one equals another, and so on up to `z`. -/
def Connects (s : Session σ) : List Nat → (a z : Term) → Prop
  | [], a, z => a = z
  | line :: rest, a, z => ∃ b, s.Says line (.equality a b) ∧ s.Connects rest b z

/-- The equality that a line says, as a link of a chain. -/
def IsLink (s : Session σ) (line : Nat) (link : Nat × Term × Term) : Prop :=
  link.1 = line ∧ s.Says link.1 (.equality link.2.1 link.2.2)

/-- To be connected is to give links without a break. -/
theorem connects_iff : ∀ {lines : List Nat} {a z : Term}, s.Connects lines a z ↔
    ∃ links, List.Forall₂ s.IsLink lines links ∧ chainBreak? a links = none ∧
      (links.getLast?.map (·.2.2)).getD a = z
  | [], a, z => by
    constructor
    · rintro rfl
      exact ⟨[], .nil, rfl, rfl⟩
    · rintro ⟨links, hlinks, -, hend⟩
      cases hlinks
      exact hend
  | line :: rest, a, z => by
    constructor
    · rintro ⟨b, hline, hrest⟩
      obtain ⟨links, hlinks, hbreak, hend⟩ := connects_iff.1 hrest
      refine ⟨(line, a, b) :: links, .cons ⟨rfl, hline⟩ hlinks, ?_, ?_⟩
      · rw [chainBreak?, if_pos rfl, hbreak]
      · rw [chainEnd_cons, hend]
    · rintro ⟨links, hlinks, hbreak, hend⟩
      obtain ⟨⟨_, l, b⟩, links, ⟨rfl, hline⟩, hrest, rfl⟩ := List.forall₂_cons_left_iff.1 hlinks
      rw [chainBreak?] at hbreak
      rw [chainEnd_cons] at hend
      split_ifs at hbreak with hl
      exact ⟨b, hl ▸ hline, connects_iff.2 ⟨links, hrest, hbreak, hend⟩⟩

theorem yields_chainStep {a b c : Term} {left right : Nat} (hs : s.Clean)
    (haxioms : ∀ a : LogicalAxiom, a.schema ∈ s.assumptions)
    (hleft : s.Says left (.equality a b)) (hright : s.Says right (.equality b c)) :
    s.Yields (chainStep left a b c right) fun i t =>
      i = s.lines.length + 6 ∧ t.lines.length = s.lines.length + 7 := by
  obtain ⟨⟨ha, hb⟩, hac, hbc⟩ := hs.sides hleft
  obtain ⟨⟨-, hc⟩, -, hcc⟩ := hs.sides hright
  have hgoal : placeholder ∉ (Formula.equality a c).constants :=
    fun h => (List.mem_append.1 h).elim hac hcc
  have htail : placeholder ∉ (Formula.imp (.equality b c) (.equality a c)).constants :=
    fun h => (List.mem_append.1 h).elim (hs.noPlaceholder_formula hright) hgoal
  have hwf : (Formula.equality b a).WellFormed := ⟨hb, ha⟩
  have hflip := (yields_flip hs haxioms hleft).and_leads (leads_flip hwf : s.Leads false _ _)
  refine yields_bind.2 (hflip.mono ?_)
  rintro i t ⟨⟨-, ht⟩, hr, hflipped⟩
  have hlength : t.lines.length = s.lines.length + 4 := by
    rw [ht, lines_foldl_added, List.length_append]
    rfl
  have hmeaning : placeholder ∉
      (Formula.imp (.equality b a) (.imp (.equality b c) (.equality a c))).constants :=
    fun h => (List.mem_append.1 h).elim ((hr.clean hs).noPlaceholder_formula hflipped) htail
  refine yields_bind.2 (yields_instantiate.2 ⟨hmeaning, hr.assumptions ▸ haxioms _,
    LogicalAxiom.instantiate_meaningOfEquality (Formula.substitute_equality_left hc hcc b)
      (Formula.substitute_equality_left hc hcc a), ?_⟩)
  refine yields_bind.2 (yields_modusPonens.2
    ⟨htail, ⟨_, hflipped.mono (List.prefix_append ..), says_added_last⟩, ?_⟩)
  refine yields_modusPonens.2 ⟨hgoal, ⟨_, ?_, says_added_last⟩, ?_, ?_⟩
  · exact ((hright.mono hr.lines).mono (List.prefix_append ..)).mono (List.prefix_append ..)
  · rw [length_added, length_added, hlength]
  · rw [length_added, length_added, length_added, hlength]

/-- Each link adds seven lines. The line at which the chain stands is the last one after each step,
though it need not be so before the first. -/
theorem yields_chainAll {a : Term} : ∀ {links : List (Nat × Term × Term)} {b : Term} {left : Nat}
    {s : Session σ}, s.Clean → (∀ a : LogicalAxiom, a.schema ∈ s.assumptions) →
      (∀ link ∈ links, s.Says link.1 (.equality link.2.1 link.2.2)) →
      chainBreak? b links = none → s.Says left (.equality a b) →
      s.Yields (chainAll a left links) fun i t =>
        t.lines.length = s.lines.length + 7 * links.length ∧
          (links ≠ [] ∨ left + 1 = s.lines.length → i + 1 = t.lines.length)
  | [], b, left, s, _, _, _, _, _ => ⟨rfl, fun h => h.resolve_left (absurd rfl)⟩
  | (line, l, c) :: rest, b, left, s, hs, haxioms, hlinks, hbreak, hleft => by
    obtain ⟨hline, hrest⟩ := List.forall_mem_cons.1 hlinks
    rw [chainBreak?] at hbreak
    split_ifs at hbreak with hl
    subst hl
    obtain ⟨⟨ha, hb⟩, -⟩ := hs.sides hleft
    obtain ⟨⟨-, hc⟩, -⟩ := hs.sides hline
    refine yields_bind.2 (((yields_chainStep hs haxioms hleft hline).and_leads
      (leads_chainStep ha hb hc)).mono ?_)
    rintro i t ⟨⟨hi, ht⟩, hr, hstep⟩
    refine (yields_chainAll (hr.clean hs) (hr.assumptions ▸ haxioms)
      (fun link h => (hrest link h).mono hr.lines) hbreak hstep).mono ?_
    rintro j u ⟨hu, hj⟩
    refine ⟨?_, fun _ => hj (.inr ?_)⟩
    · rw [hu, ht, List.length_cons]
      omega
    · rw [hi, ht]

/-- Two lines or more are read as links, and the chain is extended along them if there is no break
and it ends where the goal says. -/
theorem yields_chain {first second : Nat} {rest : List Nat} :
    s.Yields (chain goal (first :: second :: rest)) Q ↔ placeholder ∉ goal.constants ∧
      ∃ a b, s.Says first (.equality a b) ∧
        ∃ links, List.Forall₂ s.IsLink (second :: rest) links ∧ chainBreak? b links = none ∧
          .equality a ((links.getLast?.map (·.2.2)).getD b) = goal ∧
          (s.noted (.chaining goal (first :: second :: rest))).Yields
            (chainAll a first links) Q := by
  set t := s.noted (.chaining goal (first :: second :: rest))
  have hlook : ∀ (line : Nat) (next : Nat × Term × Term → Build σ Nat),
      t.Yields ((do return (line, ← equalityAt line)) >>= next) Q ↔
        ∃ link, s.IsLink line link ∧ t.Yields (next link) Q := by
    intro line next
    rw [bind_assoc, yields_equalityAt]
    constructor
    · rintro ⟨l, r, hline, h⟩
      exact ⟨(line, l, r), ⟨rfl, hline⟩, h⟩
    · rintro ⟨⟨_, l, r⟩, ⟨rfl, hline⟩, h⟩
      exact ⟨l, r, hline, h⟩
  unfold chain
  rw [yields_note, yields_rejectPlaceholder, yields_equalityAt]
  refine and_congr_right fun _ => exists_congr fun a => exists_congr fun b =>
    and_congr_right fun _ => (yields_mapM hlook).trans (exists_congr fun links =>
      and_congr_right fun _ => ?_)
  cases hbreak : chainBreak? b links with
  | some found => exact ⟨fun h => (not_yields_throw h).elim, fun h => nomatch h.1⟩
  | none => simp only [true_and, yields_require, yields_transaction]

theorem of_yields_chain {lines : List Nat} (h : s.Yields (chain goal lines) Q) :
    placeholder ∉ goal.constants ∧ 2 ≤ lines.length ∧
      ∃ a z, s.Connects lines a z ∧ goal = .equality a z := by
  match lines with
  | first :: second :: rest =>
    obtain ⟨hgoal, a, b, hfirst, links, hlinks, hbreak, rfl, -⟩ := yields_chain.1 h
    have hrest := connects_iff.2 ⟨links, hlinks, hbreak, rfl⟩
    exact ⟨hgoal, Nat.le_add_left .., a, _, ⟨b, hfirst, hrest⟩, rfl⟩
  | [] | [_] => exact (not_yields_throw (yields_rejectPlaceholder.1 (yields_note.1 h)).2).elim

/-- A chain of lines that connects the sides of the goal is extended to its end. -/
theorem Connects.yields_chain {lines : List Nat} {a z : Term} (hconnects : s.Connects lines a z)
    (hs : s.Clean) (haxioms : ∀ a : LogicalAxiom, a.schema ∈ s.assumptions)
    (hgoal : placeholder ∉ (Formula.equality a z).constants) (hlines : 2 ≤ lines.length) :
    s.Yields (chain (.equality a z) lines) fun i t =>
      t.lines.length = s.lines.length + 7 * (lines.length - 1) ∧ i + 1 = t.lines.length := by
  match lines with
  | first :: second :: rest =>
    obtain ⟨b, hfirst, hrest⟩ := hconnects
    obtain ⟨links, hlinks, hbreak, rfl⟩ := connects_iff.1 hrest
    refine Session.yields_chain.2 ⟨hgoal, a, b, hfirst, links, hlinks, hbreak, rfl, ?_⟩
    have hstated : ∀ link ∈ links, s.Says link.1 (.equality link.2.1 link.2.2) :=
      forall_mem_of_forall₂ (fun _ _ h => h.2) hlinks
    refine (yields_chainAll ((reaches_noted s _).clean hs) haxioms hstated hbreak hfirst).mono ?_
    rintro i t ⟨ht, hi⟩
    refine ⟨?_, hi (.inl ?_)⟩
    · rw [ht, ← hlinks.length_eq]
      rfl
    · rintro rfl
      cases hlinks

/-- Lines are chained just when the goal does not mention the placeholder, there are two lines or
more, and they lead from the left side of the goal to its right side. Then seven lines are added for
each line but the first, and the answer is the last of them, which states the goal. The lines come
in any order and may come more than once. This is so after any steps and with any oracle. -/
theorem chain_exact {oracle : Oracle σ} {s₀ : Session σ} (hopen : Opened oracle s₀)
    {steps : List Step} (hsteps : ∀ step ∈ steps, step.WellFormed) (goal : Formula)
    (lines : List Nat) :
    let s := s₀.performAll steps
    let s' := (s.perform (chain goal lines)).2
    ((∃ i, (s.perform (chain goal lines)).1 = .ok i) ↔
      placeholder ∉ goal.constants ∧ 2 ≤ lines.length ∧
        ∃ a z, s.Connects lines a z ∧ goal = .equality a z) ∧
    ∀ i, (s.perform (chain goal lines)).1 = .ok i →
      s.lines <+: s'.lines ∧ s'.lines.length = s.lines.length + 7 * (lines.length - 1) ∧
        i + 1 = s'.lines.length ∧ s'.Says i goal := by
  intro s s'
  obtain ⟨hs, haxioms⟩ : s.Clean ∧ ∀ a : LogicalAxiom, a.schema ∈ s.assumptions :=
    hopen.performAll hsteps
  constructor
  · rw [exists_perform_eq_ok]
    refine ⟨of_yields_chain, ?_⟩
    rintro ⟨hgoal, hlines, a, z, hconnects, rfl⟩
    exact (hconnects.yields_chain hs haxioms hgoal hlines).mono fun _ _ _ => trivial
  · intro i hi
    obtain ⟨hgoal, hlines, a, z, hconnects, rfl⟩ := of_yields_chain (perform_eq_ok.1 hi)
    have hrun := (hconnects.yields_chain hs haxioms hgoal hlines).and_leads
      (leads_chain hs : s.Leads false _ _)
    obtain ⟨⟨hlength, hlast⟩, hr, hstated⟩ := After.of_ok hrun hi
    exact ⟨hr.lines, hlength, hlast, hstated⟩

/-- There and back and there again, with a line twice and not in their order. A line alone is not a
chain, though it says the goal, and one that is repeated at once is a break. -/
theorem chain_exact_returning :
    let c := Term.const "c"
    let d := Term.const "d"
    let there := Formula.equality c d
    let back := Formula.equality d c
    let steps : List Step := [.assume back, .assume there]
    let s₀ := start [.fixed there, .fixed back]
    let s := s₀.performAll steps
    let s' := (s.perform (chain there [1, 0, 1])).2
    (∀ step ∈ steps, step.WellFormed) ∧ (s.perform (chain there [1, 0, 1])).1 = .ok 15 ∧
      s'.lines.length = 16 ∧ s'.Says 15 there ∧
      (¬∃ i, (s.perform (chain there [1])).1 = .ok i) ∧
      ∀ goal, ¬∃ i, (s.perform (chain goal [1, 1])).1 = .ok i := by
  intro c d there back steps s₀ s s'
  have hsteps : ∀ step ∈ steps, step.WellFormed := by decide
  have hlength : s.lines.length = 2 := by decide +kernel
  have hback : s.Says 0 back := by decide +kernel
  have hthere : s.Says 1 (.equality c d) := by decide +kernel
  have hopen : Opened .truthTable s₀ := .start _
  have hexact := chain_exact hopen hsteps
  -- What follows does not depend on what the run computes to.
  clear_value s₀ steps
  have hconnects : s.Connects [1, 0, 1] c d := ⟨d, hthere, c, hback, d, hthere, rfl⟩
  obtain ⟨i, hi⟩ := (hexact there [1, 0, 1]).1.2 ⟨by decide, by decide, c, d, hconnects, rfl⟩
  obtain ⟨-, hlines, hlast, hgoal⟩ := (hexact there [1, 0, 1]).2 i hi
  rw [hlength] at hlines
  obtain rfl : i = 15 := Nat.succ.inj (hlast.trans hlines)
  refine ⟨hsteps, hi, hlines, hgoal, ?_, fun goal h => ?_⟩
  · intro h
    obtain ⟨-, hlines, -⟩ := (hexact there [1]).1.1 h
    exact absurd hlines (by decide)
  · obtain ⟨-, -, a, z, ⟨b, hfirst, _, hsecond, -⟩, -⟩ := (hexact goal [1, 1]).1.1 h
    cases Option.some.inj (hthere.symm.trans hfirst)
    have hcd : c = d := (Formula.equality.inj (Option.some.inj (hthere.symm.trans hsecond))).1
    exact absurd hcd (by decide)

end Session

end Deduction
