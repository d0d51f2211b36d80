import Mathlib.Algebra.GroupWithZero.Nat
import Mathlib.Data.List.Basic

/-! # Transition systems

A system is a step function that is undefined where an action is not possible. `Reach sys init ok s`
says that `s` is reached from an initial state by steps that all satisfy `ok`, a condition on the
state before the step and its action. What holds initially and is kept by every such step holds of
every state reached (`Reach.invariant`). A list of actions can be replayed (`runFrom`) to exhibit a
run. If every action takes a fixed amount from the work that is left and adds a fixed amount to it, so
does a run (`balance`). -/

namespace Lightbox.Run.System

variable {S A : Type}

/-- The step function of a system: `none` if the action is not possible. -/
abbrev StepFn (S A : Type) := S → A → Option S

/-- The states reached by steps that satisfy `ok`. -/
inductive Reach (sys : StepFn S A) (init : S → Prop) (ok : S → A → Prop) : S → Prop
  | start {s : S} : init s → Reach sys init ok s
  | next {s s' : S} {a : A} : Reach sys init ok s → ok s a → sys s a = some s' →
      Reach sys init ok s'

/-- Every step is allowed. -/
def always (_ : S) (_ : A) : Prop := True

variable {sys : StepFn S A} {init : S → Prop} {ok : S → A → Prop}

/-- **The invariant rule.** -/
theorem Reach.invariant {I : S → Prop} (h0 : ∀ s, init s → I s)
    (hstep : ∀ s a s', I s → ok s a → sys s a = some s' → I s') {s : S}
    (h : Reach sys init ok s) : I s := by
  induction h with
  | start hs => exact h0 _ hs
  | next _ hok hs ih => exact hstep _ _ _ ih hok hs

/-- Replay a list of actions. -/
def runFrom (sys : StepFn S A) : S → List A → Option S
  | s, [] => some s
  | s, a :: as => (sys s a).bind fun s' => runFrom sys s' as

/-- A replayed run stays among the reachable states. -/
theorem Reach.runFrom : ∀ (as : List A) {s s' : S}, Reach sys init always s →
    runFrom sys s as = some s' → Reach sys init always s'
  | [], s, s', h, hr => by
    obtain rfl : s = s' := by simpa [System.runFrom] using hr
    exact h
  | a :: as, s, s', h, hr => by
    obtain ⟨s1, h1, h2⟩ := Option.bind_eq_some_iff.mp hr
    exact Reach.runFrom as (h.next trivial h1) h2

/-- A replayed run of actions that are allowed in every state. -/
theorem Reach.runAllowed : ∀ (as : List A) {s s' : S}, (∀ a ∈ as, ∀ s, ok s a) →
    Reach sys init ok s → System.runFrom sys s as = some s' → Reach sys init ok s'
  | [], s, s', _, h, hr => by
    obtain rfl : s = s' := by simpa [System.runFrom] using hr
    exact h
  | a :: as, s, s', hok, h, hr => by
    obtain ⟨s1, h1, h2⟩ := Option.bind_eq_some_iff.mp hr
    exact Reach.runAllowed as (fun b hb => hok b (List.mem_cons_of_mem a hb))
      (h.next (hok a List.mem_cons_self s) h1) h2

/-- **The balance of a run.** -/
theorem balance {work : S → ℕ} {cost gain : A → ℕ}
    (h : ∀ s a s', sys s a = some s' → work s' + cost a = work s + gain a) :
    ∀ (as : List A) {s s' : S}, System.runFrom sys s as = some s' →
      work s' + (as.map cost).sum = work s + (as.map gain).sum
  | [], s, s', hr => by
    obtain rfl : s = s' := by simpa [System.runFrom] using hr
    simp
  | a :: as, s, s', hr => by
    obtain ⟨s1, h1, h2⟩ := Option.bind_eq_some_iff.mp hr
    have ha := h s a s1 h1
    have has := balance h as h2
    simp only [List.map_cons, List.sum_cons]
    omega

/-- The system in which only the steps that satisfy `ok` are possible. -/
def guarded (sys : StepFn S A) (ok : S → A → Prop) [∀ s a, Decidable (ok s a)] : StepFn S A :=
  fun s a => if ok s a then sys s a else none

/-- A replayed run of allowed steps stays among the states reached by them. -/
theorem Reach.runGuarded [∀ s a, Decidable (ok s a)] : ∀ (as : List A) {s s' : S},
    Reach sys init ok s → System.runFrom (guarded sys ok) s as = some s' → Reach sys init ok s'
  | [], s, s', h, hr => by
    obtain rfl : s = s' := by simpa [System.runFrom] using hr
    exact h
  | a :: as, s, s', h, hr => by
    obtain ⟨s1, h1, h2⟩ := Option.bind_eq_some_iff.mp hr
    rw [guarded] at h1
    split_ifs at h1 with hok
    exact Reach.runGuarded as (h.next hok h1) h2

end Lightbox.Run.System
