import Deduction.Proofs.TruthTable
import Mathlib.Data.List.Nodup

/-!
# A truth table has every assignment once

From an assignment one counts on until none follows. The numbers of those that are met come one
after the other and go up to the last one of that length (`Counts.map_numeral`). So from the
assignment with no true atom one meets every assignment of its length, and none twice.

The loop of the truth table goes on like this with no bound on its rounds, and ends early only where
the proposition is false (`Proposition.Settles`). Since the number of the assignment grows, it does
end, and with the answer that `Proposition.isTautology` finds in a fixed number of rounds
(`Proposition.settles_iff_isTautology`).
-/

namespace Deduction

/-- The assignments that are met in counting on from the first of them until none follows. -/
inductive Counts : List Bool → List (List Bool) → Prop where
  | last {a : List Bool} : nextAssignment? a = none → Counts a [a]
  | next {a b : List Bool} {table : List (List Bool)} :
    nextAssignment? a = some b → Counts b table → Counts a (a :: table)

theorem exists_counts (a : List Bool) : ∃ table, Counts a table := by
  rcases hnext : nextAssignment? a with _ | b
  · exact ⟨[a], .last hnext⟩
  · obtain ⟨hlen, hnum⟩ := nextAssignment?_some hnext
    obtain ⟨table, htable⟩ := exists_counts b
    exact ⟨a :: table, .next hnext htable⟩
-- Each assignment of the length has a smaller number than there are of them.
termination_by 2 ^ a.length - numeral a
decreasing_by
  have hlt := numeral_lt b
  rw [hlen] at hlt ⊢
  omega

namespace Counts

variable {a : List Bool} {table : List (List Bool)}

theorem length_eq (h : Counts a table) : ∀ b ∈ table, b.length = a.length := by
  induction h with
  | last _ => simp
  | next hnext _ ih =>
    rw [List.forall_mem_cons]
    exact ⟨rfl, fun c hc => (ih c hc).trans (nextAssignment?_some hnext).1⟩

theorem map_numeral (h : Counts a table) :
    table.map numeral = List.range' (numeral a) (2 ^ a.length - numeral a) := by
  induction h with
  | @last a hnext =>
    have hlast := nextAssignment?_none hnext
    rw [show 2 ^ a.length - numeral a = 1 by omega]
    rfl
  | @next a b table hnext _ ih =>
    obtain ⟨hlen, hnum⟩ := nextAssignment?_some hnext
    have hlt := numeral_lt b
    rw [hlen] at hlt
    rw [List.map_cons, ih, hlen, hnum,
      show 2 ^ a.length - numeral a = 2 ^ a.length - (numeral a + 1) + 1 by omega,
      List.range'_succ]

theorem nodup (h : Counts a table) : table.Nodup := by
  apply List.Nodup.of_map numeral
  rw [h.map_numeral]
  exact List.nodup_range'

theorem mem_iff (h : Counts a table) {b : List Bool} :
    b ∈ table ↔ b.length = a.length ∧ numeral a ≤ numeral b := by
  have hnumber : numeral b ∈ table.map numeral ↔
      numeral a ≤ numeral b ∧ numeral b < numeral a + (2 ^ a.length - numeral a) := by
    rw [h.map_numeral, List.mem_range'_1]
  constructor
  · intro hb
    exact ⟨h.length_eq b hb, (hnumber.1 (List.mem_map_of_mem hb)).1⟩
  · rintro ⟨hlen, hle⟩
    have hlt := numeral_lt b
    rw [hlen] at hlt
    -- Something with the number of `b` is met, and it has the length of `b`.
    obtain ⟨c, hc, hnum⟩ := List.mem_map.1 (hnumber.2 ⟨hle, by omega⟩)
    rw [← numeral_inj ((h.length_eq c hc).trans hlen.symm) hnum]
    exact hc

end Counts

theorem exists_counts_replicate (n : Nat) : ∃ table, Counts (List.replicate n false) table ∧
    table.length = 2 ^ n ∧ table.Nodup ∧ ∀ a, a ∈ table ↔ a.length = n := by
  obtain ⟨table, h⟩ := exists_counts (List.replicate n false)
  have hnumbers := h.map_numeral
  rw [numeral_replicate, List.length_replicate] at hnumbers
  have hlen := congrArg List.length hnumbers
  rw [List.length_map, List.length_range'] at hlen
  refine ⟨table, h, by simpa using hlen, h.nodup, fun a => ?_⟩
  simp [h.mem_iff, numeral_replicate]

namespace Proposition

variable {p : Proposition} {a : List Bool} {answer answer' : Bool}

/-- The loop of the truth table, begun at an assignment, ends with the answer: no as soon as the
proposition is false, and yes when no assignment follows. -/
inductive Settles (p : Proposition) : List Bool → Bool → Prop where
  | refuted {a : List Bool} : p.eval a = false → p.Settles a false
  | last {a : List Bool} : p.eval a = true → nextAssignment? a = none → p.Settles a true
  | next {a b : List Bool} {answer : Bool} :
    p.eval a = true → nextAssignment? a = some b → p.Settles b answer → p.Settles a answer

theorem Settles.unique (h : p.Settles a answer) : p.Settles a answer' → answer' = answer := by
  induction h with
  | refuted hfalse =>
    rintro (_ | ⟨htrue, _⟩ | ⟨htrue, _, _⟩)
    · rfl
    · simp [hfalse] at htrue
    · simp [hfalse] at htrue
  | last htrue hnone =>
    rintro (hfalse | _ | ⟨_, hnext, _⟩)
    · simp [htrue] at hfalse
    · rfl
    · simp [hnone] at hnext
  | next htrue hnext _ ih =>
    rintro (hfalse | ⟨_, hnone⟩ | ⟨_, hnext', h'⟩)
    · simp [htrue] at hfalse
    · simp [hnext] at hnone
    · rw [hnext] at hnext'
      cases hnext'
      exact ih h'

/-- The loop looks at the assignments that counting on meets. -/
theorem settles_of_counts {table : List (List Bool)} (h : Counts a table) :
    p.Settles a (table.all fun b => p.eval b) := by
  induction h with
  | @last a hnone =>
    rcases hp : p.eval a with _ | _
    · simpa [hp] using Settles.refuted hp
    · simpa [hp] using Settles.last hp hnone
  | @next a b table hnext _ ih =>
    rcases hp : p.eval a with _ | _
    · simpa [hp] using Settles.refuted hp
    · simpa [hp] using Settles.next hp hnext ih

theorem settles_iff_isTautology :
    p.Settles (List.replicate p.atomCount false) answer ↔ answer = p.isTautology := by
  obtain ⟨table, h, -, -, hmem⟩ := exists_counts_replicate p.atomCount
  have hanswer : (table.all fun b => p.eval b) = p.isTautology := by
    rw [Bool.eq_iff_iff, List.all_eq_true, isTautology, holdsFrom_iff]
    simp only [List.length_replicate, numeral_replicate]
    constructor
    · intro hall b hlen _ _
      exact hall b ((hmem b).2 hlen)
    · intro hall b hb
      have hlen := (hmem b).1 hb
      have hlt := numeral_lt b
      rw [hlen] at hlt
      exact hall b hlen (Nat.zero_le _) (by simpa using hlt)
  have hsettles := settles_of_counts (p := p) h
  rw [hanswer] at hsettles
  constructor
  · exact hsettles.unique
  · rintro rfl
    exact hsettles

end Proposition

end Deduction
