import Lightbox.Extension.Sync
import Mathlib.Algebra.BigOperators.Group.Finset.Basic
import Mathlib.Algebra.BigOperators.Intervals

/-! # The synchronisation comes to an end

A run of `syncContext` takes five steps: it issues two commands, each is applied, and it returns. So the
steps still to come are counted by `work`, which a change of the settings raises by five and every other
step lowers by one. A coroutine that waits has a command in the queue (`Waits`), so as long as there is work
to do a step is possible. However changes and steps are interleaved, the extension comes to rest after
exactly five steps for each start of `syncContext`, and then the buttons show the settings
(`converges`). -/

namespace Lightbox.Extension.Progress

open Lightbox.Extension.Config Lightbox.Extension.Sync Lightbox.Run.System

/-! ### The work that is left -/

/-- The steps a coroutine will take, but for the commands that are issued already. -/
def Coro.steps (c : Coro) : ℕ := 2 * c.todo.length + if c.done then 0 else 1

/-- **The steps to come**, if the settings do not change. -/
def work (s : State) : ℕ := s.queue.length + ∑ i ∈ Finset.range s.n, Coro.steps (s.coros i)

/-- The steps of the extension. -/
def Act.cost : Act → ℕ
  | .change _ _ => 0
  | .resume _ | .apply => 1

/-- A change that affects the settings of the extension. -/
def Act.affects : Act → Bool
  | .change affects _ => affects
  | _ => false

/-- What a change adds. -/
def Act.gain (a : Act) : ℕ := if Act.affects a then 5 else 0

theorem steps_fresh : Coro.steps fresh = 5 := rfl

theorem work_activated {s : State} (h : Activated s) : work s = 5 := by
  obtain ⟨-, hq, hn, hc⟩ := h
  unfold work
  rw [hq, hn, Finset.sum_range_one, hc, steps_fresh, List.length_nil]

/-- One coroutine takes a step. -/
theorem sum_update {f : ℕ → Coro} {n i : ℕ} (hi : i < n) (c : Coro) :
    (∑ j ∈ Finset.range n, Coro.steps (Function.update f i c j)) + Coro.steps (f i) =
      (∑ j ∈ Finset.range n, Coro.steps (f j)) + Coro.steps c := by
  have hmem : i ∈ Finset.range n := Finset.mem_range.mpr hi
  have hrest : ∑ j ∈ (Finset.range n).erase i, Coro.steps (Function.update f i c j) =
      ∑ j ∈ (Finset.range n).erase i, Coro.steps (f j) :=
    Finset.sum_congr rfl fun j hj => by
      rw [Function.update_of_ne (Finset.ne_of_mem_erase hj)]
  rw [← Finset.sum_erase_add _ _ hmem, ← Finset.sum_erase_add _ (fun j => Coro.steps (f j)) hmem,
    hrest, Function.update_self]
  omega

/-- **What a step does**: a change is ignored, or starts a coroutine; a coroutine returns, or issues the next
command; a command is applied. -/
inductive Does (s : State) : Act → State → Prop
  | ignores (config : ButtonId → Raw) : Does s (.change false config) s
  | starts (config : ButtonId → Raw) : Does s (.change true config)
      { s with config := config, n := s.n + 1, coros := Function.update s.coros s.n fresh }
  | returns {i : ℕ} : i < s.n → (s.coros i).todo = [] → (s.coros i).done = false →
      Does s (.resume i) { s with coros := Function.update s.coros i ⟨[], false, true⟩ }
  | issues {i : ℕ} {id : ButtonId} {rest : List ButtonId} : i < s.n → (s.coros i).todo = id :: rest →
      (s.coros i).done = false → Does s (.resume i)
        { s with
          queue := s.queue ++ [⟨i, id, enabled s id⟩]
          coros := Function.update s.coros i ⟨rest, true, false⟩ }
  | applies {c : Cmd} {q : List Cmd} : s.queue = c :: q → Does s .apply
      { s with
        ctx := Function.update s.ctx c.id (some c.value)
        queue := q
        coros := Function.update s.coros c.coro { s.coros c.coro with waiting := false } }

theorem does_of_step {s s' : State} {a : Act} (h : step s a = some s') : Does s a s' := by
  cases a with
  | change affects config =>
    obtain rfl : _ = s' := Option.some.inj h
    cases affects with
    | false => exact .ignores config
    | true => exact .starts config
  | resume i =>
    simp only [step] at h
    split_ifs at h with hi
    obtain ⟨hi, -, hdone⟩ := hi
    obtain rfl : _ = s' := Option.some.inj h
    cases ht : (s.coros i).todo with
    | nil =>
      simp only [resume, ht]
      exact .returns hi ht hdone
    | cons id rest =>
      simp only [resume, ht]
      exact .issues hi ht hdone
  | apply =>
    cases hq : s.queue with
    | nil => simp [step, hq] at h
    | cons c q =>
      simp only [step, hq, Option.some.injEq] at h
      obtain rfl := h
      exact .applies hq

/-- **Every step is accounted for.** -/
theorem work_step {s s' : State} {a : Act} (h : step s a = some s') :
    work s' + Act.cost a = work s + Act.gain a := by
  cases does_of_step h with
  | ignores config => rfl
  | starts config =>
    have hsum : ∑ i ∈ Finset.range s.n, Coro.steps (Function.update s.coros s.n fresh i) =
        ∑ i ∈ Finset.range s.n, Coro.steps (s.coros i) :=
      Finset.sum_congr rfl fun i hi => by
        rw [Function.update_of_ne (Finset.mem_range.mp hi).ne]
    show s.queue.length + ∑ i ∈ Finset.range (s.n + 1),
      Coro.steps (Function.update s.coros s.n fresh i) + 0 = _
    rw [Finset.sum_range_succ, hsum, Function.update_self, steps_fresh, work]
    rfl
  | @returns i hi ht hdone =>
    have hlast : Coro.steps (s.coros i) = 1 := by simp [Coro.steps, ht, hdone]
    have hsum := sum_update (f := s.coros) hi ⟨[], false, true⟩
    rw [hlast, show Coro.steps ⟨[], false, true⟩ = 0 from rfl] at hsum
    show s.queue.length + ∑ j ∈ Finset.range s.n,
      Coro.steps (Function.update s.coros i ⟨[], false, true⟩ j) + 1 = work s + 0
    rw [work]
    omega
  | @issues i id rest hi ht hdone =>
    have hnext : Coro.steps (s.coros i) = Coro.steps ⟨rest, true, false⟩ + 2 := by
      simp only [Coro.steps, ht, hdone, List.length_cons]
      omega
    have hsum := sum_update (f := s.coros) hi ⟨rest, true, false⟩
    show (s.queue ++ [(⟨i, id, enabled s id⟩ : Cmd)]).length + ∑ j ∈ Finset.range s.n,
      Coro.steps (Function.update s.coros i ⟨rest, true, false⟩ j) + 1 = work s + 0
    rw [work, List.length_append, List.length_singleton]
    omega
  | @applies c q hq =>
    have hsame : ∀ j, Coro.steps (Function.update s.coros c.coro
        { s.coros c.coro with waiting := false } j) = Coro.steps (s.coros j) := by
      intro j
      rcases eq_or_ne j c.coro with rfl | hj
      · rw [Function.update_self]
        rfl
      · rw [Function.update_of_ne hj]
    show q.length + ∑ j ∈ Finset.range s.n, Coro.steps (Function.update s.coros c.coro
      { s.coros c.coro with waiting := false } j) + 1 = work s + 0
    rw [work, hq, List.length_cons, Finset.sum_congr rfl fun j _ => hsame j]
    omega

/-- Nothing is left to do exactly if nothing is in flight. -/
theorem quiet_iff_work {s : State} (h : Inv s) : Quiet s ↔ work s = 0 := by
  unfold work
  rw [Nat.add_eq_zero_iff, List.length_eq_zero_iff, Finset.sum_eq_zero_iff]
  constructor
  · rintro ⟨hdone, hq⟩
    refine ⟨hq, fun i hi => ?_⟩
    have hi := Finset.mem_range.mp hi
    simp [Coro.steps, hdone i hi, h.done i hi (hdone i hi)]
  · rintro ⟨hq, hsteps⟩
    refine ⟨fun i hi => ?_, hq⟩
    have hzero := hsteps i (Finset.mem_range.mpr hi)
    by_contra hdone
    simp [Coro.steps, hdone] at hzero

/-! ### A step is always possible -/

/-- A coroutine that waits, waits for a command that is in the queue. -/
def Waits (s : State) : Prop :=
  ∀ i < s.n, (s.coros i).waiting = true → ∃ c ∈ s.queue, c.coro = i

theorem waits_activated {s : State} (h : Activated s) : Waits s := by
  obtain ⟨-, -, hn, hc⟩ := h
  intro i hi hw
  obtain rfl : i = 0 := by omega
  rw [hc] at hw
  simp [fresh] at hw

theorem waits_step {s s' : State} {a : Act} (hw : Waits s) (h : step s a = some s') : Waits s' := by
  cases does_of_step h with
  | ignores config => exact hw
  | starts config =>
    intro i hi hwait
    show ∃ c ∈ s.queue, c.coro = i
    have hi : i < s.n + 1 := hi
    have hwait : (Function.update s.coros s.n fresh i).waiting = true := hwait
    rcases eq_or_ne i s.n with rfl | hne
    · rw [Function.update_self] at hwait
      simp [fresh] at hwait
    · rw [Function.update_of_ne hne] at hwait
      exact hw i (by omega) hwait
  | @returns i _ _ _ =>
    intro j hj hwait
    rcases eq_or_ne j i with rfl | hji
    · simp at hwait
    · simp only [Function.update_of_ne hji] at hwait
      exact hw j hj hwait
  | @issues i id rest _ _ _ =>
    intro j hj hwait
    rcases eq_or_ne j i with rfl | hji
    · exact ⟨⟨j, id, enabled s id⟩, List.mem_append_right _ (List.mem_singleton_self _), rfl⟩
    · simp only [Function.update_of_ne hji] at hwait
      obtain ⟨c, hc, hcj⟩ := hw j hj hwait
      exact ⟨c, List.mem_append_left _ hc, hcj⟩
  | @applies c q hq =>
    intro j hj hwait
    rcases eq_or_ne j c.coro with rfl | hjc
    · simp at hwait
    · simp only [Function.update_of_ne hjc] at hwait
      obtain ⟨d, hd, hdj⟩ := hw j hj hwait
      rw [hq] at hd
      rcases List.mem_cons.mp hd with rfl | hd
      · exact absurd hdj.symm hjc
      · exact ⟨d, hd, hdj⟩

/-- **As long as something is in flight**, a coroutine can go on or a command can be applied. -/
theorem exists_step {s : State} (hw : Waits s) (hq : ¬ Quiet s) :
    ∃ a s', Act.cost a = 1 ∧ step s a = some s' := by
  cases hqueue : s.queue with
  | cons c q =>
    have hsome : (step s .apply).isSome = true := by simp [step, hqueue]
    obtain ⟨s', hs⟩ := Option.isSome_iff_exists.mp hsome
    exact ⟨.apply, s', rfl, hs⟩
  | nil =>
    -- nobody waits, and a coroutine has not returned
    obtain ⟨i, hi, hdone⟩ : ∃ i < s.n, (s.coros i).done = false := by
      by_contra hall
      push Not at hall
      exact hq ⟨fun i hi => by simpa using hall i hi, hqueue⟩
    have hwait : (s.coros i).waiting = false := by
      by_contra hwait
      obtain ⟨c, hc, -⟩ := hw i hi (by simpa using hwait)
      rw [hqueue] at hc
      simp at hc
    exact ⟨.resume i, _, rfl, if_pos ⟨hi, hwait, hdone⟩⟩

/-! ### Runs -/

/-- The steps of the extension in a run. -/
def steps (as : List Act) : ℕ := (as.map Act.cost).sum

/-- The changes that affect the settings of the extension. -/
def changes (as : List Act) : ℕ := as.countP Act.affects

theorem sum_gain (as : List Act) : (as.map Act.gain).sum = 5 * changes as := by
  induction as with
  | nil => rfl
  | cons a as ih =>
    unfold changes at ih ⊢
    rw [List.map_cons, List.sum_cons, ih, List.countP_cons, Act.gain]
    split_ifs <;> omega

/-- **The buttons come to show the settings.** In every run from the activation, however changes of the
settings, coroutines and commands are interleaved, the extension takes at most five steps for the
activation and for each change. As long as it has taken fewer, it can take another one; once it has taken
all of them, nothing is in flight and every button is visible exactly if the settings have a script for
it. -/
theorem converges {s₀ s : State} {as : List Act} (h₀ : Activated s₀)
    (hr : runFrom step s₀ as = some s) :
    steps as ≤ 5 * (1 + changes as) ∧
      (steps as < 5 * (1 + changes as) → ∃ a s', Act.cost a = 1 ∧ step s a = some s') ∧
      (steps as = 5 * (1 + changes as) → Quiet s ∧ ∀ id, s.ctx id = some (enabled s id)) := by
  have hreach : Reach step Activated always s := Reach.runFrom as (.start h₀) hr
  have hinv : Inv s :=
    hreach.invariant (fun _ => inv_activated) fun _ _ _ hi _ hs => inv_step hi hs
  have hwaits : Waits s :=
    hreach.invariant (fun _ => waits_activated) fun _ _ _ hw _ hs => waits_step hw hs
  have hwork : work s + steps as = 5 * (1 + changes as) := by
    have hbalance : work s + (as.map Act.cost).sum = work s₀ + (as.map Act.gain).sum :=
      balance (fun _ _ _ hs => work_step hs) as hr
    rw [work_activated h₀, sum_gain] at hbalance
    unfold steps
    omega
  refine ⟨by omega, fun hlt => exists_step hwaits fun hq => ?_, fun heq => ?_⟩
  · have := (quiet_iff_work hinv).mp hq
    omega
  · have hq : Quiet s := (quiet_iff_work hinv).mpr (by omega)
    refine ⟨hq, fun id => ?_⟩
    rcases hinv.upToDate id with ⟨i, hi, hmem⟩ | hset
    · rw [hinv.done i hi (hq.1 i hi)] at hmem
      simp at hmem
    · simpa [settled, hq.2] using hset

/-- A change while the first coroutine waits: ten steps. -/
theorem converges_overlap : ∃ s, runFrom step ⟨runOnly, fun _ => none, [], 1, fun _ => fresh⟩ overlap =
    some s ∧ steps overlap = 5 * (1 + changes overlap) ∧ ∀ id, s.ctx id = some (enabled s id) := by
  obtain ⟨s, hs⟩ : ∃ s, runFrom step ⟨runOnly, fun _ => none, [], 1, fun _ => fresh⟩ overlap =
      some s := ⟨_, rfl⟩
  exact ⟨s, hs, rfl, ((converges ⟨rfl, rfl, rfl, rfl⟩ hs).2.2 rfl).2⟩

end Lightbox.Extension.Progress
