import SuffixArray.Checked

/-!
# Programs that print and exit

A program run writes texts to the error stream and ends by returning, by `exit(1)` or
with a fault of one of its checked parts. The texts written so far are the state; an
exit keeps them.

`Yields m P` is a partial contract: whatever `m` returns satisfies `P`. A run that
exits or faults returns nothing.
-/

open Checked

/-- How a run ends without returning. -/
inductive Stop where
  /-- `exit(1)`, after these texts. -/
  | exit (texts : List String)
  | fault (fault : Fault)
  deriving DecidableEq, Repr

abbrev Console (α : Type) : Type := StateT (List String) (Except Stop) α

namespace Console

variable {α β : Type}

/-- `std::cerr << text`. -/
def cerr (text : String) : Console Unit := fun texts => .ok ((), texts ++ [text])

/-- `exit(1)`. -/
def exit : Console α := fun texts => .error (.exit texts)

/-- `std::cerr << text`, then `exit(1)`. -/
def fail (text : String) : Console α := do
  cerr text
  exit

/-- A checked part, which prints nothing. -/
def ofRun (run : Run α) : Console α := fun texts =>
  match run with
  | .ok a => .ok (a, texts)
  | .error fault => .error (.fault fault)

/-- A part that returns or leaves a text to be printed before `exit(1)`. -/
def ofExcept (result : Except String α) : Console α :=
  match result with
  | .ok a => pure a
  | .error text => fail text

@[simp] theorem ofRun_ok (a : α) : ofRun (.ok a) = pure a := rfl

theorem ofRun_bind (run : Run α) (f : α → Run β) :
    ofRun (run >>= f) = ofRun run >>= fun a => ofRun (f a) := by
  cases run <;> rfl

@[simp] theorem ofExcept_ok (a : α) : ofExcept (.ok a) = pure a := rfl

@[simp] theorem fail_apply (text : String) (texts : List String) :
    (fail text : Console α) texts = .error (.exit (texts ++ [text])) := rfl

/-- What `m` returns satisfies `P`. -/
def Yields (m : Console α) (P : α → Prop) : Prop :=
  ∀ texts a texts', m texts = .ok (a, texts') → P a

namespace Yields

variable {P Q : α → Prop} {R : β → Prop} {m : Console α} {f : α → Console β}

theorem pure {a : α} (h : P a) : Yields (pure a) P := by
  intro texts b texts' run
  obtain ⟨rfl, rfl⟩ := Prod.mk.inj (Except.ok.inj run)
  exact h

theorem bind (hm : Yields m Q) (hf : ∀ a, Q a → Yields (f a) R) : Yields (m >>= f) R := by
  intro texts b texts' run
  change (m texts >>= fun result => f result.1 result.2) = _ at run
  cases hrun : m texts with
  | error stop =>
      rw [hrun] at run
      exact nomatch run
  | ok result =>
      rw [hrun] at run
      exact hf result.1 (hm texts result.1 result.2 hrun) result.2 b texts' run

/-- Nothing need be known of what is returned on the way. -/
theorem bind_any (hf : ∀ a, Yields (f a) R) : Yields (m >>= f) R :=
  bind (Q := fun _ => True) (fun _ _ _ _ => trivial) (fun a _ => hf a)

theorem fail (text : String) : Yields (fail text) P := fun _ _ _ run => nomatch run

end Yields

end Console
