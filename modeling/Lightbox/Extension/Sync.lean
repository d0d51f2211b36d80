import Lightbox.Extension.Config
import Lightbox.Run.System
import Mathlib.Logic.Function.Basic

/-! # Keeping the buttons in step with the settings

`syncContext` is a coroutine: for `run` and then `debug` it reads the settings, issues `setContext`
with the value it read, and waits until the command has been applied. One is started when the
extension is activated and one after every change that affects the extension's settings, without
waiting for those still in flight. Commands are applied in the order they were issued.

A write can be stale when it is applied: the settings may have changed after it was issued. But then
a coroutine was started after the change, which has not yet written the button or has written it
since. So each button has a coroutine that will still write it, or the last write to it that was
issued is up to date (`UpToDate`), and when nothing is in flight the buttons show the settings. -/

namespace Lightbox.Extension.Sync

open Lightbox.Extension.Config Lightbox.Run.System

/-- A run of `syncContext`: the buttons its loop has not come to, whether it waits for a command, and
whether it has returned. -/
structure Coro where
  todo : List ButtonId
  waiting : Bool
  done : Bool
  deriving DecidableEq, Repr

/-- A `setContext` command that was issued: the coroutine that waits for it, the button, the value. -/
structure Cmd where
  coro : ℕ
  id : ButtonId
  value : Bool
  deriving DecidableEq, Repr

structure State where
  config : ButtonId → Raw
  ctx : ButtonId → Option Bool
  queue : List Cmd
  n : ℕ
  coros : ℕ → Coro

/-- A coroutine before its first step. -/
def fresh : Coro := ⟨[.run, .debug], false, false⟩

/-- The value `syncContext` writes for a button. -/
def enabled (s : State) (id : ButtonId) : Bool := truthy (getConfig (s.config id)).script

/-- What can happen: the settings change (`affects` if those of the extension do), a coroutine
continues, the oldest command is applied. -/
inductive Act
  | change (affects : Bool) (config : ButtonId → Raw)
  | resume (i : ℕ)
  | apply

/-- The handler of `onDidChangeConfiguration`. -/
def onDidChangeConfiguration (s : State) (affects : Bool) (config : ButtonId → Raw) : State :=
  if affects then
    { s with config := config, n := s.n + 1, coros := Function.update s.coros s.n fresh }
  else s

/-- The code of `syncContext` from one `await` to the next. -/
def resume (s : State) (i : ℕ) : State :=
  match (s.coros i).todo with
  | [] => { s with coros := Function.update s.coros i ⟨[], false, true⟩ }
  | id :: rest =>
    { s with
      queue := s.queue ++ [⟨i, id, enabled s id⟩]
      coros := Function.update s.coros i ⟨rest, true, false⟩ }

def step : StepFn State Act
  | s, .change affects config => some (onDidChangeConfiguration s affects config)
  | s, .resume i =>
    if i < s.n ∧ (s.coros i).waiting = false ∧ (s.coros i).done = false then some (resume s i)
    else none
  | s, .apply =>
    match s.queue with
    | [] => none
    | c :: q => some { s with
        ctx := Function.update s.ctx c.id (some c.value)
        queue := q
        coros := Function.update s.coros c.coro { s.coros c.coro with waiting := false } }

/-- The extension is activated: no context key is set, one coroutine is started. -/
def Activated (s : State) : Prop :=
  s.ctx = (fun _ => none) ∧ s.queue = [] ∧ s.n = 1 ∧ s.coros 0 = fresh

/-! ### The invariant -/

/-- The value of a context key once the commands issued so far are applied. -/
def settled (s : State) (id : ButtonId) : Option Bool :=
  s.queue.foldl (fun v c => if c.id = id then some c.value else v) (s.ctx id)

/-- A coroutine will still write the button, or the last write is up to date. -/
def UpToDate (s : State) (id : ButtonId) : Prop :=
  (∃ i < s.n, id ∈ (s.coros i).todo) ∨ settled s id = some (enabled s id)

structure Inv (s : State) : Prop where
  upToDate : ∀ id, UpToDate s id
  done : ∀ i < s.n, (s.coros i).done = true → (s.coros i).todo = []

theorem inv_activated {s : State} (h : Activated s) : Inv s := by
  obtain ⟨-, -, hn, hc⟩ := h
  refine ⟨fun id => Or.inl ⟨0, by omega, ?_⟩, fun i hi hd => ?_⟩
  · rw [hc]; cases id <;> simp [fresh]
  · obtain rfl : i = 0 := by omega
    rw [hc] at hd
    simp [fresh] at hd

theorem inv_change {s : State} (h : Inv s) (affects : Bool) (config : ButtonId → Raw) :
    Inv (onDidChangeConfiguration s affects config) := by
  cases affects with
  | false => exact h
  | true =>
    refine ⟨fun id => Or.inl ⟨s.n, Nat.lt_succ_self _, ?_⟩, fun i hi hd => ?_⟩
    · cases id <;> simp [onDidChangeConfiguration, fresh]
    · simp only [onDidChangeConfiguration, if_true] at hi hd ⊢
      rcases eq_or_ne i s.n with rfl | hne
      · simp [fresh] at hd
      · rw [Function.update_of_ne hne] at hd ⊢
        exact h.done i (by omega) hd

/-- Issuing a command makes its button up to date. -/
theorem inv_issue {s : State} {i : ℕ} {id : ButtonId} {rest : List ButtonId} (h : Inv s)
    (ht : (s.coros i).todo = id :: rest) : Inv (resume s i) := by
  have hr : resume s i = { s with
      queue := s.queue ++ [⟨i, id, enabled s id⟩]
      coros := Function.update s.coros i ⟨rest, true, false⟩ } := by
    simp only [resume, ht]
  rw [hr]
  refine ⟨fun id' => ?_, fun j hj hd => ?_⟩
  · rcases eq_or_ne id id' with rfl | hne
    · right; simp [settled, enabled]
    · rcases h.upToDate id' with ⟨j, hj, hmem⟩ | hset
      · left
        refine ⟨j, hj, ?_⟩
        rcases eq_or_ne j i with rfl | hji
        · rw [ht, List.mem_cons] at hmem
          simpa using hmem.resolve_left hne.symm
        · simpa [Function.update_of_ne hji] using hmem
      · right
        simpa [settled, enabled, hne] using hset
  · rcases eq_or_ne j i with rfl | hji
    · simp at hd
    · simp only [Function.update_of_ne hji] at hd ⊢
      exact h.done j hj hd

/-- A coroutine that returns had nothing left to write. -/
theorem inv_return {s : State} {i : ℕ} (h : Inv s) (ht : (s.coros i).todo = []) :
    Inv (resume s i) := by
  have hr : resume s i = { s with coros := Function.update s.coros i ⟨[], false, true⟩ } := by
    simp only [resume, ht]
  rw [hr]
  refine ⟨fun id => ?_, fun j hj hd => ?_⟩
  · rcases h.upToDate id with ⟨j, hj, hmem⟩ | hset
    · left
      refine ⟨j, hj, ?_⟩
      rcases eq_or_ne j i with rfl | hji
      · rw [ht] at hmem; simp at hmem
      · simpa [Function.update_of_ne hji] using hmem
    · right; exact hset
  · rcases eq_or_ne j i with rfl | hji
    · simp
    · simp only [Function.update_of_ne hji] at hd ⊢
      exact h.done j hj hd

/-- Applying the oldest command changes nothing of what is settled. -/
theorem inv_apply {s : State} {c : Cmd} {q : List Cmd} (h : Inv s) (hq : s.queue = c :: q) :
    Inv { s with
      ctx := Function.update s.ctx c.id (some c.value)
      queue := q
      coros := Function.update s.coros c.coro { s.coros c.coro with waiting := false } } := by
  set s' : State := { s with
      ctx := Function.update s.ctx c.id (some c.value)
      queue := q
      coros := Function.update s.coros c.coro { s.coros c.coro with waiting := false } } with hs'
  have hcoro : ∀ j, (s'.coros j).todo = (s.coros j).todo ∧ (s'.coros j).done = (s.coros j).done := by
    intro j
    rcases eq_or_ne j c.coro with rfl | hj
    · simp [hs']
    · simp [hs', Function.update_of_ne hj]
  have hset : ∀ id, settled s' id = settled s id := by
    intro id
    simp only [settled, hq, List.foldl_cons, hs']
    rcases eq_or_ne c.id id with he | hne
    · subst he; simp
    · simp [Function.update_of_ne hne.symm, hne]
  refine ⟨fun id => ?_, fun j hj hd => ?_⟩
  · rcases h.upToDate id with ⟨j, hj, hmem⟩ | hs
    · left
      exact ⟨j, hj, by rw [(hcoro j).1]; exact hmem⟩
    · right
      rw [hset]; exact hs
  · rw [(hcoro j).1]
    rw [(hcoro j).2] at hd
    exact h.done j hj hd

theorem inv_step {s s' : State} {a : Act} (h : Inv s) (hs : step s a = some s') : Inv s' := by
  cases a with
  | change affects config =>
    obtain rfl : _ = s' := Option.some.inj hs
    exact inv_change h affects config
  | resume i =>
    simp only [step] at hs
    split_ifs at hs with hi
    obtain rfl : _ = s' := Option.some.inj hs
    cases ht : (s.coros i).todo with
    | nil => exact inv_return h ht
    | cons id rest => exact inv_issue h ht
  | apply =>
    cases hq : s.queue with
    | nil => simp [step, hq] at hs
    | cons c q =>
      simp only [step, hq, Option.some.injEq] at hs
      obtain rfl := hs
      exact inv_apply h hq

/-! ### Nothing in flight -/

/-- No coroutine is in flight and no command is pending. -/
def Quiet (s : State) : Prop := (∀ i < s.n, (s.coros i).done = true) ∧ s.queue = []

instance (s : State) : Decidable (Quiet s) := inferInstanceAs (Decidable (_ ∧ _))

/-- **Button visibility never ends stale**: whenever nothing is in flight, the context key of each
button says whether the current settings have a script for it. -/
theorem ctx_eq_of_quiet {s : State} (h : Reach step Activated always s) (hq : Quiet s)
    (id : ButtonId) : ∃ b, s.ctx id = some b ∧ (b = true ↔ HasScript (s.config id)) := by
  have hinv : Inv s := h.invariant (fun s => inv_activated) fun s a s' hi _ hs => inv_step hi hs
  refine ⟨enabled s id, ?_, truthy_getConfig (s.config id)⟩
  rcases hinv.upToDate id with ⟨i, hi, hmem⟩ | hset
  · rw [hinv.done i hi (hq.1 i hi)] at hmem
    simp at hmem
  · simpa [settled, hq.2] using hset

/-- The settings of a window that gives a command to `run` only. -/
def runOnly : ButtonId → Raw
  | .run => .str "top".toList
  | .debug => .undefined

/-- The settings are emptied while the first coroutine waits: its second write comes after the
change, that of the second coroutine after both. -/
def overlap : List Act :=
  [.resume 0, .change true fun _ => .undefined, .resume 1, .apply, .resume 0, .apply, .resume 1,
    .apply, .resume 0, .apply, .resume 1]

theorem ctx_eq_of_quiet_overlap :
    ∃ s, runFrom step ⟨runOnly, fun _ => none, [], 1, fun _ => fresh⟩ overlap = some s ∧
      Reach step Activated always s ∧ Quiet s ∧
      ∃ b, s.ctx .run = some b ∧ (b = true ↔ HasScript (s.config .run)) := by
  obtain ⟨s, hs⟩ : ∃ s, runFrom step ⟨runOnly, fun _ => none, [], 1, fun _ => fresh⟩ overlap =
      some s := ⟨_, rfl⟩
  have hr : Reach step Activated always s :=
    Reach.runFrom overlap (Reach.start ⟨rfl, rfl, rfl, rfl⟩) hs
  have hq : Quiet s := by
    obtain rfl := Option.some.inj hs
    decide
  exact ⟨s, hs, hr, hq, ctx_eq_of_quiet hr hq .run⟩

end Lightbox.Extension.Sync
