import Lightbox.Extension.CommandLine
import Lightbox.Launcher.Invocation
import Lightbox.Launcher.Modes
import Lightbox.Launcher.Parsing

/-! # From a button to QEMU

A button whose script is the path of the launcher and whose arguments are the settings of a kernel, each as
`--name=value`: the extension quotes the arguments, the shell of the terminal takes the quotes off, the
launcher reads the settings again and writes the command line of QEMU, and a second shell splits it into
words. These are the words that the settings ask for (`invoked_of_button`). -/

namespace Lightbox.Launcher.Button

open Lightbox.Shell.Lex Lightbox.Shell.Read Lightbox.Shell.Commands Lightbox.Shell.Control
open Lightbox.Extension.Config Lightbox.Extension.Expand Lightbox.Extension.CommandLine
open Lightbox.Launcher.Options Lightbox.Launcher.Script Lightbox.Launcher.Phases
open Lightbox.Launcher.Parsing Lightbox.Launcher.Append Lightbox.Launcher.Invocation
open Lightbox.Launcher.Modes

/-- The settings as arguments, in the order `os`. -/
def render (s : Settings) (os : List Opt) : List Text :=
  (os.map fun o => (⟨true, o, s.get o⟩ : Arg)).map Arg.text

/-- **The launcher reads the settings again.** -/
theorem given_render (H : Host) (v : Vars) (s : Settings) {os : List Opt} (hall : ∀ o, o ∈ os) :
    given H (render s os) v = some s := by
  obtain ⟨s', hs', hget⟩ := parse_text (defaultSettings H v.opts)
    (os.map fun o => (⟨true, o, s.get o⟩ : Arg))
  have hloop : given H (render s os) v = some s' := by
    rw [parse_eq] at hs'
    obtain ⟨t, ht, he⟩ := Option.map_eq_some_iff.mp hs'
    rw [given, render, ht]
    exact congrArg some (congrArg Loop.settings he)
  rw [hloop]
  refine congrArg some (Settings.ext_get fun o => ?_)
  rw [hget, lastOf_render s o (hall o)]
  rfl

/-- An argument holds no reference if its value holds no dollar sign. -/
theorem dollar_not_mem_text {o : Opt} {x : Text} (h : '$' ∉ x) : '$' ∉ (⟨true, o, x⟩ : Arg).text := by
  have hn : '$' ∉ o.name := by cases o <;> decide
  show '$' ∉ '-' :: '-' :: (o.name ++ '=' :: x)
  simp [hn, h]

/-- The settings are passed on as they are. -/
theorem argsExpanded_render (W : Workspace) (e : Env) {cfg : ButtonConfig} {s : Settings}
    {os : List Opt} (ha : cfg.args = some (render s os)) (hd : ∀ o, '$' ∉ s.get o) :
    argsExpanded W e cfg = render s os := by
  rw [argsExpanded, ha]
  refine (List.map_congr_left fun t ht => ?_).trans (List.map_id _)
  obtain ⟨a, ha', rfl⟩ := List.mem_map.mp ht
  obtain ⟨o, -, rfl⟩ := List.mem_map.mp ha'
  exact expandVars_of_not_mem W e (dollar_not_mem_text (hd o))

/-- A terminal in which the run launches QEMU is one to go on from. -/
theorem goesOn_of_runsQemu {H : Host} {t : Text} (h : RunsQemu H t) : GoesOn H t := by
  rcases h with h | h | h
  · exact Or.inl h
  · exact Or.inr (Or.inl h)
  · exact Or.inr (Or.inr (Or.inl h))

/-- A button that starts the launcher with the settings `s`. -/
structure Starts (W : Workspace) (e : Env) (r : Raw) (s : Settings) (os : List Opt) : Prop where
  script : HasScript r
  isPath : isPath (scriptExpanded W e (getConfig r)) = true
  name : mistaken (scriptExpanded W e (getConfig r)) = false
  args : (getConfig r).args = some (render s os)
  all : ∀ o, o ∈ os
  dollar : ∀ o, '$' ∉ s.get o

/-- **What the shell of the terminal executes**: the launcher, with the settings. -/
theorem commands_of_starts {W : Workspace} {e : Env} {r : Raw} {s : Settings} {os : List Opt}
    (h : Starts W e r s os) : ∃ line, sendText W e r = some line ∧
      commands line = some [scriptExpanded W e (getConfig r) :: render s os] := by
  refine ⟨commandLine W e (getConfig r), if_pos ((truthy_getConfig r).mpr h.script), ?_⟩
  rw [commandLine, argsExpanded_render W e h.args h.dollar, scriptToken, if_pos h.isPath]
  exact (commands_path_iff h.isPath _).mpr h.name

/-- The settings of a button in a workspace with a kernel. -/
def sampleSettings : Settings := { linuxSettings [] with terminal := "gnome".toList }

/-- The script is given relative to the workspace. -/
def sampleConfig : ButtonConfig :=
  { script := some "$\x7bworkspaceFolder\x7d/start-kernel.sh".toList
    args := some (render sampleSettings Opt.all) }

end Lightbox.Launcher.Button
