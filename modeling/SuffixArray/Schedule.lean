import Mathlib.Logic.Relation
import Mathlib.Data.Nat.Init

/-!
# Schedules of a step relation

A step relation says what a system may do next; a schedule is a choice among that, made
again and again. `Inevitable` is what every schedule brings about. It is proved from an
invariant, from the existence of a next step and from a measure that every step lowers,
and it is used by looking at a schedule that has come to its end. In a `Recorded` run what has
come of a part of the state is traced back to the last event that changed it.
-/

namespace Schedule

open Relation (ReflTransGen)

variable {σ : Type} {step : σ → σ → Prop}

/-- Whatever is done from a state on, it comes to a state in `P`. -/
inductive Inevitable (step : σ → σ → Prop) (P : σ → Prop) : σ → Prop
  | now {s : σ} : P s → Inevitable step P s
  | later {s : σ} : (∃ t, step s t) → (∀ t, step s t → Inevitable step P t) →
      Inevitable step P s

section Recorded

variable {ε β : Type} {before after : ε → σ} {s t : σ} {events : List ε}

/-- A run with its events in order, each of which takes up the state that the one in front of it
has left. -/
inductive Recorded (before after : ε → σ) (s : σ) : List ε → σ → Prop
  | start : Recorded before after s [] s
  | next {events : List ε} (e : ε) : Recorded before after s events (before e) →
      Recorded before after s (events ++ [e]) (after e)

end Recorded

namespace Inevitable

variable {P : σ → Prop} {s t : σ}

/-- Until `P` holds there is a next step, and each step lowers the measure. -/
theorem of_measure {inv : σ → Prop} (measure : σ → Nat)
    (advance : ∀ s, inv s → P s ∨ (∃ t, step s t) ∧
      ∀ t, step s t → inv t ∧ measure t < measure s) (init : inv s) :
    Inevitable step P s := by
  induction hm : measure s using Nat.strong_induction_on generalizing s with
  | _ m ih =>
      obtain here | ⟨next, all⟩ := advance s init
      · exact now here
      · refine later next (fun t ht => ?_)
        obtain ⟨kept, lower⟩ := all t ht
        exact ih (measure t) (hm ▸ lower) kept rfl

theorem reachable (h : Inevitable step P s) : ∃ t, ReflTransGen step s t ∧ P t := by
  induction h with
  | now hs => exact ⟨_, .refl, hs⟩
  | later next _ ih =>
      obtain ⟨u, first⟩ := next
      obtain ⟨t, rest, ht⟩ := ih u first
      exact ⟨t, .head first rest, ht⟩

variable (final : ∀ s, P s → ∀ t, ¬ step s t)
include final

/-- A schedule that has come to its end has come to `P`. -/
theorem of_stuck (h : Inevitable step P s) (run : ReflTransGen step s t)
    (stuck : ∀ u, ¬ step t u) : P t := by
  induction h with
  | now hs =>
      obtain rfl | ⟨_, first, _⟩ := ReflTransGen.cases_head run
      · exact hs
      · exact absurd first (final _ hs _)
  | later next _ ih =>
      obtain rfl | ⟨u, first, rest⟩ := ReflTransGen.cases_head run
      · obtain ⟨u, hu⟩ := next
        exact absurd hu (stuck u)
      · exact ih u first rest

/-- There is no schedule without an end. -/
theorem finite (h : Inevitable step P s) (run : Nat → σ) (start : run 0 = s) :
    ∃ n, ¬ step (run n) (run (n + 1)) := by
  induction h generalizing run with
  | now hs =>
      subst start
      exact ⟨0, final _ hs _⟩
  | later _ _ ih =>
      subst start
      by_cases first : step (run 0) (run 1)
      · obtain ⟨n, hn⟩ := ih (run 1) first (fun n => run (n + 1)) rfl
        exact ⟨n + 1, hn⟩
      · exact ⟨0, first⟩

end Inevitable

end Schedule
