import Lightbox.Launcher.Phases

/-! # Sourcing the launcher against executing it

The launcher gives up with `return`, which ends a sourced file but not an executed script. So the
two ways of starting it agree exactly on the runs that meet no `return` (`startsAlike_iff`): all
arguments are known, the kernel is a directory, and the terminal is one of the four that the script
goes on from. In any other case an executed script runs into the blocks after the `return`, and at
the latest its clean-up kills every QEMU. -/

namespace Lightbox.Launcher.Modes

open Lightbox.Shell.Lex (Text)
open Lightbox.Shell.Read (joinWords)
open Lightbox.Shell.Control
open Lightbox.Launcher.Options Lightbox.Launcher.Script Lightbox.Launcher.Phases

/-- A terminal after which the script does not return. -/
def GoesOn (H : Host) (t : Text) : Prop :=
  H.testEq t "gnome".toList = true ∨ H.testEq t "xfce4".toList = true ∨
    H.testEq t "cli-qemu".toList = true ∨ H.testEq t "cli-gdb".toList = true

instance (H : Host) (t : Text) : Decidable (GoesOn H t) := inferInstanceAs (Decidable (_ ∨ _ ∨ _ ∨ _))

/-- **The two ways of starting the launcher agree**: they have the same effects outside the shell;
there are none if an argument is unknown, the kernel is not a directory or the terminal is unknown;
and with tmux there are those of its branch. -/
structure StartsAlike (H : Host) (args : List Text) (v : Vars) : Prop where
  same : external (launch .executed H args v).acts = external (launch .sourced H args v).acts
  givesUp : ∀ m, ¬ Ready H args → external (launch m H args v).acts = []
  unknownTerminal : ∀ m, Ready H args → ¬ GoesOn H (givenTerminal H args) →
    H.testEq (givenTerminal H args) "tmux".toList = false → external (launch m H args v).acts = []
  tmux : ∀ m, Ready H args → ¬ GoesOn H (givenTerminal H args) →
    H.testEq (givenTerminal H args) "tmux".toList = true →
      external (launch m H args v).acts = tmuxActions H.pwd (joinWords args)

/-! ### The terminal block -/

section Terminal
variable {H : Host} {v : Vars}

/-- The script goes on from the terminals that are known to it, and returns from the others. -/
theorem terminal_signal : (terminal H v).signal = .ret ↔ ¬ GoesOn H v.opts.terminal := by
  unfold terminal GoesOn
  split_ifs with h1 h2 h3 h4 h5
  · exact iff_of_false (by simp) (not_not.mpr (Or.inl h1))
  · exact iff_of_false (by simp) (not_not.mpr (Or.inr (Or.inl h2)))
  · exact iff_of_false (by simp) (not_not.mpr (Or.inr (Or.inr (Or.inl h3))))
  · exact iff_of_false (by simp) (not_not.mpr (Or.inr (Or.inr (Or.inr h4))))
  · exact iff_of_true rfl (by tauto)
  · exact iff_of_true rfl (by tauto)

theorem debugger_signal : (debugger H v).signal = .next := by
  unfold debugger
  split_ifs <;> rfl

/-- A sourced run returns in the terminal block or not at all. -/
theorem visible_signal :
    (runBlocks .sourced (visible H) v).signal = .ret ↔ ¬ GoesOn H v.opts.terminal := by
  rw [← terminal_signal]
  cases ht : (terminal H v).signal with
  | next =>
    rw [visible, runBlocks_next (by rw [ht]; rfl), runBlocks_next (by rw [debugger_signal]; rfl)]
    simp [runBlocks, cleanup, Signal.stops]
  | ret => rw [visible, runBlocks_stop (by rw [ht]; rfl), ht]
  | exit => rw [visible, runBlocks_stop (by rw [ht]; rfl), ht]

theorem visibleExit_of_next {b : ScriptBlock} (h : ∀ v, (b v).signal ≠ .exit) :
    VisibleExit Action.external b := fun v hv => absurd hv (h v)

theorem visibleExit_terminal : VisibleExit Action.external (terminal H) := by
  intro v hv
  unfold terminal at hv ⊢
  -- only the branch of `cli-qemu` exits
  split_ifs at hv ⊢
  exact ⟨.bash v.qemuCmd, by simp, rfl⟩

theorem visibleExit_script (args : List Text) :
    ∀ b ∈ defaults H args :: (args.map optBlock ++ body H), VisibleExit Action.external b := by
  intro b hb
  simp only [body, List.mem_cons, List.mem_append, List.mem_map, List.not_mem_nil, or_false] at hb
  rcases hb with rfl | ⟨i, -, rfl⟩ | rfl | rfl | hb | rfl | rfl
  · exact visibleExit_of_next fun v => by simp [defaults, assign]
  · refine visibleExit_of_next fun v => ?_
    unfold optBlock
    split <;> simp
  · refine visibleExit_of_next fun v => ?_
    unfold checkKernel
    split_ifs <;> simp
  · refine visibleExit_of_next fun v => ?_
    unfold checkDir
    split_ifs <;> simp
  · exact visibleExit_of_next fun v => by rw [(silent_derive H b hb v).1]; simp
  · exact visibleExit_terminal
  · exact visibleExit_of_next fun v => by rw [debugger_signal]; simp

end Terminal

/-! ### Both ways -/

variable {H : Host} {args : List Text} {v : Vars}

/-- **A sourced run meets a `return`** unless it is ready and its terminal is one to go on from. -/
theorem launch_returns_iff : (launch .sourced H args v).signal = .ret ↔
    ¬ (Ready H args ∧ GoesOn H (givenTerminal H args)) := by
  by_cases hr : Ready H args
  · obtain ⟨s, hs⟩ := Option.isSome_iff_exists.mp ((given_isSome H args v).mpr hr.accepted)
    have ht : (derived H (start args s v)).opts.terminal = givenTerminal H args := by
      rw [(derived_spec H _).opts, ← given_terminal hs]
      rfl
    rw [(launch_of_ready hs hr).2.2, visible_signal, ht]
    simp [hr]
  · simp [(launch_of_not_ready (v := v) hr).1, hr]

/-- A run that goes on is the same in both ways. -/
theorem launch_eq_of_goesOn (m : Mode) (hr : Ready H args) (hg : GoesOn H (givenTerminal H args)) :
    launch m H args v = launch .sourced H args v := by
  cases m with
  | sourced => rfl
  | executed => exact executed_eq_sourced fun h => launch_returns_iff.mp h ⟨hr, hg⟩

/-- An executed run that meets a `return` does more than the sourced one. -/
theorem external_ne_of_returns (h : (launch .sourced H args v).signal = .ret) :
    external (launch .executed H args v).acts ≠ external (launch .sourced H args v).acts := by
  have hscript : script H args =
      (defaults H args :: (args.map optBlock ++ body H)) ++ [cleanup] := by
    simp [script]
  have hc : Visible Action.external cleanup := fun v =>
    ⟨.killall "qemu-system-aarch64".toList, by simp [cleanup], rfl⟩
  rw [launch, hscript] at h
  obtain ⟨as, has, a, ha, hv⟩ :=
    executed_extends hc (fun _ => rfl) (visibleExit_script args) h
  rw [launch, launch, hscript, has, external, external, List.filter_append]
  intro he
  have hnil : as.filter (·.external) = [] := by simpa using he
  exact absurd (List.filter_eq_nil_iff.mp hnil a ha) (by simp [hv])

/-- **Sourcing and executing agree exactly on the runs that meet no `return`.** -/
theorem startsAlike_iff (H : Host) (args : List Text) (v : Vars) :
    StartsAlike H args v ↔ Ready H args ∧ GoesOn H (givenTerminal H args) := by
  constructor
  · intro h
    by_contra hn
    exact external_ne_of_returns (launch_returns_iff.mpr hn) h.same
  · rintro ⟨hr, hg⟩
    exact
      { same := by rw [launch_eq_of_goesOn .executed hr hg]
        givesUp := fun _ h => absurd hr h
        unknownTerminal := fun _ _ h => absurd hg h
        tmux := fun _ _ h => absurd hg h }

/-- An executed run with an unknown argument, and no other, kills every QEMU. -/
theorem not_startsAlike_unknown : ¬ StartsAlike sampleHost ["--bogus".toList] {} := by
  intro h
  have hn : ¬ Ready sampleHost ["--bogus".toList] := by decide
  have hm : Action.killall "qemu-system-aarch64".toList ∈
      external (launch .executed sampleHost ["--bogus".toList] {}).acts := by decide +kernel
  rw [h.givesUp .executed hn] at hm
  simp at hm

end Lightbox.Launcher.Modes
