import Deduction.Proofs.Replay

/-!
# Proofs cut short and proofs inlined

A line rests on the assumptions and on the lines before it. Its check is given all lines of the
proof, but comes to the same without those from its own place on, down to the fault that it finds
(`Line.check_take`). So what is left of a proof when it is cut off behind a line is a proof of what
that line says, over the same assumptions or more (`Proof.verify_take`). If a line does not pass,
then the first such line is reported (`Proof.first_of_verify`), and the lines before it are a proof
still.

Behind other lines a proof is one too, if the line numbers in it are moved along. That is how it is
inlined, and besides verifying it has to meet what a session asks of its caller
(`Session.of_yields_inline`).
-/

namespace Deduction

namespace Line

theorem earlier_take (lines : List Line) (index reference : Nat) :
    earlier (lines.take index) index reference = earlier lines index reference := by
  unfold earlier
  by_cases hlt : reference < index
  · rw [List.getElem?_take_of_lt hlt]
  · -- Whether there is such a line or not, it does not come before this one.
    rw [List.getElem?_take_eq_none (Nat.le_of_not_lt hlt)]
    cases lines[reference]? with
    | none => rfl
    | some line => exact (if_neg hlt).symm

theorem check_take (oracle : Proposition → Bool) (assumptions : OrderedSet Schema)
    (lines : List Line) (index : Nat) (line : Line) :
    line.check oracle assumptions (lines.take index) index
      = line.check oracle assumptions lines index := by
  obtain ⟨formula, reason⟩ := line
  cases reason with
  | assumption schema bindings => rfl
  | tautology => rfl
  | modusPonens antecedent conditional =>
    simp only [check, checkM, checkModusPonens, earlier_take]
  | generalization predicate =>
    simp only [check, checkM, checkGeneralization, earlier_take]

end Line

/-! ## Cutting a proof short -/

namespace Proof

variable {oracle : Proposition → Bool} {p : Proof}

/-- The fault of a run through lines is that of the first one which does not pass. -/
theorem first_of_checkLinesM {assumptions : OrderedSet Schema} {lines : List Line} :
    ∀ {pending : List Line} {index : Nat} {e : ProofFault},
      Id.run (checkLinesM (fun q => pure (oracle q)) assumptions lines index pending) = .error e →
        ∃ i line cause, pending[i]? = some line ∧ e = .invalidLine (index + i) cause ∧
          line.check oracle assumptions lines (index + i) = .error cause ∧
          ∀ (j : Nat) (l : Line), j < i → pending[j]? = some l →
            l.check oracle assumptions lines (index + j) = .ok ()
  | [], index, e, h => by cases h
  | line :: pending, index, e, h => by
    rw [checkLinesM_cons] at h
    cases hline : line.check oracle assumptions lines index with
    | error cause =>
      rw [hline] at h
      cases h
      exact ⟨0, line, cause, rfl, rfl, hline, fun j l hj _ => absurd hj (Nat.not_lt_zero j)⟩
    | ok _ =>
      -- The fault is of a line further on, whose place was counted from the next one.
      rw [hline] at h
      obtain ⟨i, l, cause, hi, he, hcause, hbefore⟩ := first_of_checkLinesM h
      rw [show index + 1 + i = index + (i + 1) by omega] at he hcause
      refine ⟨i + 1, l, cause, hi, he, hcause, fun j l' hj hl' => ?_⟩
      cases j with
      | zero =>
        cases hl'
        exact hline
      | succ j =>
        rw [show index + (j + 1) = index + 1 + j by omega]
        exact hbefore j l' (by omega) hl'

theorem first_of_verify {index : Nat} {cause : LineFault}
    (h : p.verify oracle = .error (.invalidLine index cause)) :
    ∃ line, p.lines[index]? = some line ∧
      line.check oracle p.assumptions p.lines index = .error cause ∧
      ∀ (i : Nat) (l : Line), i < index → p.lines[i]? = some l →
        l.check oracle p.assumptions p.lines i = .ok () := by
  unfold verify verifyM at h
  cases hlast : p.lines.getLast? with
  | none =>
    rw [hlast] at h
    cases h
  | some last =>
    rw [hlast] at h
    dsimp only at h
    split_ifs at h with hconclusion
    · obtain ⟨i, line, cause', hline, he, hcause, hbefore⟩ := first_of_checkLinesM h
      simp only [Nat.zero_add] at he hcause hbefore
      cases he
      exact ⟨line, hline, hcause, hbefore⟩
    · cases h

/-- The first `k` lines, if they are justified, are a proof of what the last of them says. -/
theorem verify_take {k : Nat} (hpos : 0 < k) (hlen : k ≤ p.lines.length)
    (hlines : ∀ (i : Nat) (line : Line), i < k → p.lines[i]? = some line →
      line.Justified (oracle · = true) p.assumptions p.lines i)
    {assumptions : OrderedSet Schema} (hsub : ∀ a ∈ p.assumptions, a ∈ assumptions) :
    ∃ last, p.lines[k - 1]? = some last ∧
      verify oracle ⟨assumptions, last.formula, p.lines.take k⟩ = .ok () := by
  have hlt : k - 1 < p.lines.length := by omega
  have hlast : p.lines[k - 1]? = some p.lines[k - 1] := List.getElem?_eq_getElem hlt
  refine ⟨_, hlast, verify_eq_ok_iff.2 ⟨?_, fun i line hline => ?_⟩⟩
  · dsimp only
    rw [List.getLast?_eq_getElem?, List.length_take, Nat.min_eq_left hlen,
      List.getElem?_take_of_lt (by omega), hlast, Option.map_some]
  · have hi : i < k := by
      have hbound := (List.getElem?_eq_some_iff.1 hline).1
      rw [List.length_take] at hbound
      omega
    rw [List.getElem?_take_of_lt hi] at hline
    -- The lines before line number `i` are the same in both.
    rw [← Line.justified_take, List.take_take, Nat.min_eq_left (Nat.le_of_lt hi),
      Line.justified_take]
    exact (hlines i line hi hline).of_subset hsub

/-- If a proof verifies, then its first lines, however many, verify as a proof of what the last of
them says, over all assumptions that include its own. If a line is reported as invalid, then it is
invalid for the reason that is given, by the lines before it alone; all lines before it pass, and
they verify as a proof of what the last of them says. -/
theorem verify_local (oracle : Proposition → Bool) (p : Proof) :
    (p.verify oracle = .ok () → ∀ k, 1 ≤ k → k ≤ p.lines.length →
      ∀ assumptions : OrderedSet Schema, (∀ a ∈ p.assumptions, a ∈ assumptions) →
        ∃ last, p.lines[k - 1]? = some last ∧
          verify oracle ⟨assumptions, last.formula, p.lines.take k⟩ = .ok ()) ∧
    ∀ index cause, p.verify oracle = .error (.invalidLine index cause) →
      (∃ line, p.lines[index]? = some line ∧
        line.check oracle p.assumptions (p.lines.take index) index = .error cause) ∧
      (∀ (i : Nat) (line : Line), i < index → p.lines[i]? = some line →
        line.check oracle p.assumptions (p.lines.take i) i = .ok ()) ∧
      (0 < index → ∃ last, p.lines[index - 1]? = some last ∧
        verify oracle ⟨p.assumptions, last.formula, p.lines.take index⟩ = .ok ()) := by
  constructor
  · intro h k hpos hlen assumptions hsub
    exact verify_take hpos hlen (fun i line _ => (verify_eq_ok_iff.1 h).2 i line) hsub
  · intro index cause h
    obtain ⟨line, hline, hcause, hbefore⟩ := first_of_verify h
    have hlen : index < p.lines.length := (List.getElem?_eq_some_iff.1 hline).1
    refine ⟨⟨line, hline, ?_⟩, fun i l hi hl => ?_, fun hpos => ?_⟩
    · rw [Line.check_take, hcause]
    · rw [Line.check_take, hbefore i l hi hl]
    · exact verify_take hpos (Nat.le_of_lt hlen)
        (fun i l hi hl => Line.check_eq_ok_iff.1 (hbefore i l hi hl)) fun _ => id

/-- In the first proof the last line derives `Q` from itself and `(Q->Q)`, and is refused for that;
the line before it is a proof. In the second it derives `Q` from an assumption, and the first two
lines are a proof over more assumptions too. -/
theorem verify_local_circular :
    let Q := Formula.holds "Q" []
    let P := Formula.holds "P" []
    let p : Proof := ⟨.empty, Q, [⟨.imp Q Q, .tautology⟩, ⟨Q, .modusPonens 1 0⟩]⟩
    let p' : Proof := ⟨.ofList [.fixed Q], Q, [⟨.imp Q Q, .tautology⟩,
      ⟨Q, .assumption (.fixed Q) .empty⟩, ⟨Q, .modusPonens 1 0⟩]⟩
    p.verify Proposition.isTautology = .error (.invalidLine 1 (.forwardReference 1 1)) ∧
      (Line.mk Q (.modusPonens 1 0)).check Proposition.isTautology .empty
        [⟨.imp Q Q, .tautology⟩] 1 = .error (.forwardReference 1 1) ∧
      verify Proposition.isTautology ⟨.empty, .imp Q Q, [⟨.imp Q Q, .tautology⟩]⟩ = .ok () ∧
      p'.verify Proposition.isTautology = .ok () ∧
      verify Proposition.isTautology ⟨.ofList [.fixed P, .fixed Q], Q,
        [⟨.imp Q Q, .tautology⟩, ⟨Q, .assumption (.fixed Q) .empty⟩]⟩ = .ok () := by
  intro Q P p p'
  have hp : p.verify Proposition.isTautology = .error (.invalidLine 1 (.forwardReference 1 1)) := by
    decide
  have hp' : p'.verify Proposition.isTautology = .ok () := by decide
  obtain ⟨⟨line, hline, hcause⟩, -, hfront⟩ := (verify_local _ p).2 1 _ hp
  obtain ⟨last, hlast, hverify⟩ := hfront Nat.zero_lt_one
  cases hline
  cases hlast
  obtain ⟨last', hlast', hverify'⟩ := (verify_local _ p').1 hp' 2 (by decide) (by decide)
    (.ofList [.fixed P, .fixed Q]) (by decide)
  cases hlast'
  exact ⟨hp, hcause, hverify, hp', hverify'⟩

end Proof

/-! ## Inlining a proof -/

/-- The second line says what the first says, for the same reason, with the numbers of the lines
that it refers to increased by `offset`. -/
inductive Line.Moved (offset : Nat) : Line → Line → Prop
  | assumption (f : Formula) (schema : Schema) (bindings : Bindings) :
    Moved offset ⟨f, .assumption schema bindings⟩ ⟨f, .assumption schema bindings⟩
  | tautology (f : Formula) : Moved offset ⟨f, .tautology⟩ ⟨f, .tautology⟩
  | modusPonens (f : Formula) (antecedent conditional : Nat) :
    Moved offset ⟨f, .modusPonens antecedent conditional⟩
      ⟨f, .modusPonens (antecedent + offset) (conditional + offset)⟩
  | generalization (f : Formula) (predicate : Nat) :
    Moved offset ⟨f, .generalization predicate⟩ ⟨f, .generalization (predicate + offset)⟩

theorem Line.moved_iff {offset : Nat} {line moved : Line} :
    Moved offset line moved ↔ moved = line.shift offset := by
  constructor
  · intro h
    cases h with
    | _ => rfl
  · rintro rfl
    obtain ⟨formula, reason⟩ := line
    cases reason with
    | assumption schema bindings => exact .assumption formula schema bindings
    | tautology => exact .tautology formula
    | modusPonens antecedent conditional => exact .modusPonens formula antecedent conditional
    | generalization predicate => exact .generalization formula predicate

theorem Line.forall₂_moved_iff {offset : Nat} : ∀ {lines moved : List Line},
    List.Forall₂ (Moved offset) lines moved ↔ moved = lines.map (·.shift offset)
  | [], moved => List.forall₂_nil_left_iff
  | line :: rest, moved => by
    have ih := @forall₂_moved_iff offset rest
    simp only [List.forall₂_cons_left_iff, moved_iff, ih, exists_eq_left, exists_and_left,
      List.map_cons]

namespace Session

variable {σ : Type} {s : Session σ} {answer : Proposition → Bool}

theorem of_yields_inline (hs : s.oracle = .ofFunction answer) {goal : Formula} {p : Proof}
    {Q : Nat → Session σ → Prop} (h : s.Yields (inline goal p) Q) :
    placeholder ∉ goal.constants ∧ (∀ line ∈ p.lines, placeholder ∉ line.formula.constants) ∧
      p.conclusion = goal ∧ (∀ a ∈ p.assumptions, a ∈ s.assumptions) ∧
      p.verify answer = .ok () := by
  unfold inline at h
  obtain ⟨hgoal, h⟩ := yields_rejectPlaceholder.1 (yields_note.1 h)
  obtain ⟨hlines, h⟩ := (yields_forM fun _ _ => yields_rejectPlaceholder).1 h
  obtain ⟨rfl, h⟩ := yields_require.1 h
  replace h := yields_get.1 h
  split at h
  · exact h.elim
  · rename_i hfind
    replace h := (yields_lift (run_verifyM_ofFunction (s := s.noted _) hs p)).1 h
    have hsub : ∀ a ∈ p.assumptions, a ∈ s.assumptions := OrderedSet.find?_not_mem_eq_none.1 hfind
    cases hverify : p.verify answer with
    | error cause =>
      rw [hverify] at h
      exact h.elim
    | ok _ => exact ⟨hgoal, hlines, rfl, hsub, rfl⟩

/-- If the oracle answers by a plain function, then a proof is inlined just when the goal is its
conclusion, neither the goal nor any of its lines mentions the placeholder, its assumptions are
among those of the session and it verifies. Then its lines come behind those that were there, in the
same order and with the line numbers in them increased by as many. The answer is the number of the
last line, which states the goal. -/
theorem inline_exact (hs : s.oracle = .ofFunction answer) (goal : Formula) (p : Proof) :
    let s' := (s.perform (inline goal p)).2
    ((∃ i, (s.perform (inline goal p)).1 = .ok i) ↔
      placeholder ∉ goal.constants ∧ (∀ line ∈ p.lines, placeholder ∉ line.formula.constants) ∧
        p.conclusion = goal ∧ (∀ a ∈ p.assumptions, a ∈ s.assumptions) ∧
        p.verify answer = .ok ()) ∧
    ∀ i, (s.perform (inline goal p)).1 = .ok i →
      i = s.lines.length + p.lines.length - 1 ∧ s'.Says i goal ∧
        ∃ moved, List.Forall₂ (Line.Moved s.lines.length) p.lines moved ∧
          s'.lines = s.lines ++ moved := by
  intro s'
  constructor
  · rw [exists_perform_eq_ok]
    refine ⟨of_yields_inline hs, ?_⟩
    rintro ⟨hgoal, hlines, rfl, hsub, hverify⟩
    exact (yields_inline hs hgoal hlines hsub hverify).mono fun _ _ _ => trivial
  · intro i hi
    obtain ⟨hgoal, hlines, rfl, hsub, hverify⟩ := of_yields_inline hs (perform_eq_ok.1 hi)
    obtain ⟨hindex, -, hadded⟩ := After.of_ok (yields_inline hs hgoal hlines hsub hverify) hi
    have hlast := (Proof.verify_eq_ok_iff.1 hverify).1
    have hpos : 0 < p.lines.length := List.length_pos_iff.2 (p.lines_ne_nil_of_verify hverify)
    have hplace : i = s.lines.length + (p.lines.length - 1) := by omega
    refine ⟨by omega, ?_, _, Line.forall₂_moved_iff.2 rfl, hadded⟩
    rw [hplace, says_append hadded, List.getElem?_map, Option.map_map, ← hlast,
      List.getLast?_eq_getElem?]
    rfl

/-- The proof derives `Ay[Q()]` in four lines, which come behind two others. It is not a proof of
`Q()`, though one of its lines says so. -/
theorem inline_exact_behind :
    let P := Formula.holds "P" []
    let Q := Formula.holds "Q" []
    let p : Proof := ⟨.ofList [.fixed (.imp P Q), .fixed P], .all "y" Q,
      [⟨.imp P Q, .assumption (.fixed (.imp P Q)) .empty⟩, ⟨P, .assumption (.fixed P) .empty⟩,
        ⟨Q, .modusPonens 1 0⟩, ⟨.all "y" Q, .generalization 2⟩]⟩
    let steps : List Step := [.tautology (.imp P P), .tautology P, .assume P]
    let s := (start [.fixed P, .fixed (.imp P Q)]).performAll steps
    let s' := (s.perform (inline (.all "y" Q) p)).2
    (s.perform (inline (.all "y" Q) p)).1 = .ok 5 ∧
      s'.lines = s.lines ++
        [⟨.imp P Q, .assumption (.fixed (.imp P Q)) .empty⟩, ⟨P, .assumption (.fixed P) .empty⟩,
          ⟨Q, .modusPonens 3 2⟩, ⟨.all "y" Q, .generalization 4⟩] ∧
      ¬∃ i, (s.perform (inline Q p)).1 = .ok i := by
  intro P Q p steps s s'
  have hlength : s.lines.length = 2 := by decide +kernel
  have hsub : ∀ a ∈ p.assumptions, a ∈ s.assumptions := by decide +kernel
  have hverify : p.verify Proposition.isTautology = .ok () := by decide
  have hs : s.oracle = .ofFunction Proposition.isTautology :=
    (reaches_performAll (Opened.start _).clean (by decide)).oracle
  obtain ⟨hiff, hadded⟩ := inline_exact hs (.all "y" Q) p
  obtain ⟨i, hi⟩ := hiff.2 ⟨by decide, by decide, rfl, hsub, hverify⟩
  obtain ⟨hindex, -, moved, hmoved, hlines⟩ := hadded i hi
  rw [hlength] at hindex hmoved
  refine ⟨?_, ?_, fun h => ?_⟩
  · rw [hi, hindex]
    rfl
  · rw [hlines, Line.forall₂_moved_iff.1 hmoved]
    rfl
  · obtain ⟨-, -, hconclusion, -⟩ := (inline_exact hs Q p).1.1 h
    exact absurd hconclusion (by decide)

end Session

end Deduction
