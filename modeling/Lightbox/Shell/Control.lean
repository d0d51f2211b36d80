import Mathlib.Data.List.Basic
import Mathlib.Tactic.Common

/-! # Running a script, sourced or executed

A script is a list of blocks; a block changes the variables, emits actions and ends in a signal: it
falls through (`next`), reaches a `return` at the top level (`ret`) or an `exit`. The two ways of
running a script differ in `ret` only: a sourced file stops there, while in an executed script the
`return` is an error message and the next block runs.

A run that meets no `return` is therefore the same in both ways (`executed_eq_sourced`); a run that
meets one goes on when executed (`executed_extends`). -/

namespace Lightbox.Shell.Control

variable {V A : Type}

/-- How a script is run. -/
inductive Mode
  | sourced | executed
  deriving DecidableEq, Repr

/-- How a block ends. -/
inductive Signal
  | next | ret | exit
  deriving DecidableEq, Repr

/-- The variables, the actions and the signal at the end of a block or of a script. -/
structure Out (V A : Type) where
  vars : V
  acts : List A
  signal : Signal

/-- A piece of a script. -/
abbrev Block (V A : Type) := V → Out V A

/-- A block that only assigns variables. -/
def assign (f : V → V) : Block V A := fun v => ⟨f v, [], .next⟩

/-- The signal ends the script. -/
def Signal.stops : Mode → Signal → Bool
  | _, .exit => true
  | .sourced, .ret => true
  | _, _ => false

/-- **Run the blocks of a script**, from the given variables. -/
def runBlocks (m : Mode) : List (Block V A) → Block V A
  | [], v => ⟨v, [], .next⟩
  | b :: bs, v =>
    if (b v).signal.stops m then b v
    else
      let r := runBlocks m bs (b v).vars
      ⟨r.vars, (b v).acts ++ r.acts, r.signal⟩

variable {m : Mode} {b last : Block V A} {bs cs : List (Block V A)} {v : V}

@[simp] theorem runBlocks_nil : runBlocks m ([] : List (Block V A)) v = ⟨v, [], .next⟩ := rfl

theorem runBlocks_stop (h : (b v).signal.stops m = true) : runBlocks m (b :: bs) v = b v := by
  rw [runBlocks, if_pos h]

theorem runBlocks_next (h : (b v).signal.stops m = false) :
    runBlocks m (b :: bs) v = ⟨(runBlocks m bs (b v).vars).vars,
      (b v).acts ++ (runBlocks m bs (b v).vars).acts, (runBlocks m bs (b v).vars).signal⟩ := by
  rw [runBlocks, if_neg (by simp [h])]

@[simp] theorem runBlocks_assign (f : V → V) :
    runBlocks m (assign f :: bs) v = runBlocks m bs (f v) :=
  runBlocks_next (b := assign f) (by cases m <;> rfl)

/-- **What every block keeps, the script keeps.** -/
theorem runBlocks_keeps {B : Type} {f : V → B} : ∀ {bs : List (Block V A)} (v : V),
    (∀ b ∈ bs, ∀ v, f (b v).vars = f v) → f (runBlocks m bs v).vars = f v
  | [], _, _ => rfl
  | b :: bs, v, h => by
    cases hs : (b v).signal.stops m with
    | true =>
      rw [runBlocks_stop hs]
      exact h b (by simp) v
    | false =>
      have hbs : ∀ c ∈ bs, ∀ v, f (c v).vars = f v := fun c hc => h c (by simp [hc])
      rw [runBlocks_next hs]
      exact (runBlocks_keeps _ hbs).trans (h b (by simp) v)

/-! ### Silent blocks -/

/-- The variables after blocks that all fall through. -/
def through (bs : List (Block V A)) (v : V) : V := bs.foldl (fun v b => (b v).vars) v

/-- The block falls through and does nothing visible. -/
def Silent (vis : A → Bool) (b : Block V A) : Prop :=
  ∀ v, (b v).signal = .next ∧ (b v).acts.filter vis = []

theorem silent_assign (vis : A → Bool) (f : V → V) : Silent vis (assign f) :=
  fun _ => ⟨rfl, rfl⟩

/-- **Silent blocks only change the variables** of what follows them. -/
theorem runBlocks_silent {vis : A → Bool} : ∀ {bs : List (Block V A)} {v : V},
    (∀ b ∈ bs, Silent vis b) →
      (runBlocks m (bs ++ cs) v).vars = (runBlocks m cs (through bs v)).vars ∧
      (runBlocks m (bs ++ cs) v).acts.filter vis =
        (runBlocks m cs (through bs v)).acts.filter vis ∧
      (runBlocks m (bs ++ cs) v).signal = (runBlocks m cs (through bs v)).signal
  | [], v, _ => ⟨rfl, rfl, rfl⟩
  | b :: bs, v, h => by
    obtain ⟨hs, ha⟩ := h b (by simp) v
    have hbs : ∀ c ∈ bs, Silent vis c := fun c hc => h c (by simp [hc])
    obtain ⟨h1, h2, h3⟩ := runBlocks_silent (v := (b v).vars) hbs
    rw [List.cons_append, runBlocks_next (by rw [hs]; cases m <;> rfl), List.filter_append, ha]
    exact ⟨h1, h2, h3⟩

/-! ### Sourced against executed -/

/-- **Without a `return` the two ways of running a script agree.** -/
theorem executed_eq_sourced : ∀ {bs : List (Block V A)} {v : V},
    (runBlocks .sourced bs v).signal ≠ .ret → runBlocks .executed bs v = runBlocks .sourced bs v
  | [], v, _ => rfl
  | b :: bs, v, h => by
    cases hb : (b v).signal with
    | ret => exact absurd (by rw [runBlocks_stop (by rw [hb]; rfl), hb]) h
    | exit => rw [runBlocks_stop (by rw [hb]; rfl), runBlocks_stop (by rw [hb]; rfl)]
    | next =>
      rw [runBlocks_next (by rw [hb]; rfl)] at h
      rw [runBlocks_next (by rw [hb]; rfl), runBlocks_next (by rw [hb]; rfl),
        executed_eq_sourced h]

section Extends
variable (vis : A → Bool)

/-- The block does something visible before it exits. -/
def VisibleExit (b : Block V A) : Prop :=
  ∀ v, (b v).signal = .exit → ∃ a ∈ (b v).acts, vis a = true

/-- The block always does something visible. -/
def Visible (b : Block V A) : Prop := ∀ v, ∃ a ∈ (b v).acts, vis a = true

variable {vis}

/-- An executed script comes to a visible exit or to its last block. -/
theorem executed_visible (hl : Visible vis last) : ∀ {bs : List (Block V A)} (v : V),
    (∀ b ∈ bs, VisibleExit vis b) →
      ∃ a ∈ (runBlocks .executed (bs ++ [last]) v).acts, vis a = true
  | [], v, _ => by
    obtain ⟨a, ha, hv⟩ := hl v
    refine ⟨a, ?_, hv⟩
    cases hs : (last v).signal.stops .executed with
    | true => rwa [List.nil_append, runBlocks_stop hs]
    | false => rw [List.nil_append, runBlocks_next hs]; simpa using ha
  | b :: bs, v, h => by
    cases hs : (b v).signal.stops .executed with
    | true =>
      have he : (b v).signal = .exit := by
        revert hs; cases (b v).signal <;> simp [Signal.stops]
      rw [List.cons_append, runBlocks_stop hs]
      exact h b (by simp) v he
    | false =>
      have hbs : ∀ c ∈ bs, VisibleExit vis c := fun c hc => h c (by simp [hc])
      obtain ⟨a, ha, hv⟩ := executed_visible hl (b v).vars hbs
      rw [List.cons_append, runBlocks_next hs]
      exact ⟨a, by simp [ha], hv⟩

/-- **After a `return` an executed script goes on**, and does something visible. -/
theorem executed_extends (hl : Visible vis last) (hn : ∀ v, (last v).signal = .next) :
    ∀ {bs : List (Block V A)} {v : V}, (∀ b ∈ bs, VisibleExit vis b) →
      (runBlocks .sourced (bs ++ [last]) v).signal = .ret →
        ∃ as, (runBlocks .executed (bs ++ [last]) v).acts =
          (runBlocks .sourced (bs ++ [last]) v).acts ++ as ∧ ∃ a ∈ as, vis a = true
  | [], v, _, h => by
    rw [List.nil_append, runBlocks_next (by rw [hn v]; rfl)] at h
    simp at h
  | b :: bs, v, hb, h => by
    have hbs : ∀ c ∈ bs, VisibleExit vis c := fun c hc => hb c (by simp [hc])
    simp only [List.cons_append] at h ⊢
    cases hs : (b v).signal with
    | ret =>
      rw [runBlocks_stop (b := b) (m := .sourced) (by rw [hs]; rfl),
        runBlocks_next (b := b) (m := .executed) (by rw [hs]; rfl)]
      exact ⟨_, rfl, executed_visible hl _ hbs⟩
    | exit =>
      rw [runBlocks_stop (by rw [hs]; rfl), hs] at h
      simp at h
    | next =>
      rw [runBlocks_next (by rw [hs]; rfl)] at h
      obtain ⟨as, has, hv⟩ := executed_extends hl hn hbs h
      rw [runBlocks_next (b := b) (m := .sourced) (by rw [hs]; rfl),
        runBlocks_next (b := b) (m := .executed) (by rw [hs]; rfl)]
      exact ⟨as, by simp [has], hv⟩

end Extends

end Lightbox.Shell.Control
