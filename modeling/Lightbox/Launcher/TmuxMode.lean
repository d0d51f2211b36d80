import Lightbox.Launcher.Invocation
import Lightbox.Launcher.Panes

/-! # From tmux mode to QEMU and its debugger

While a session of tmux mode is there, made by a run that is sourced or executed, its left pane has started at
most one program, QEMU with the arguments that the settings of the run ask for, and every debugger that was
started in the right pane connects to the port of that QEMU (`debugs_of_careful`). -/

namespace Lightbox.Launcher.TmuxMode

open Lightbox.Shell.Lex (Text)
open Lightbox.Shell.Read
open Lightbox.Launcher.Options Lightbox.Launcher.Script Lightbox.Launcher.Phases
open Lightbox.Launcher.Relay Lightbox.Launcher.Append Lightbox.Launcher.Invocation
open Lightbox.Launcher.Panes Lightbox.Run.System

variable {M : Machine}

/-- The settings of the run are `s`, and what its arguments do not give is the same in the shells of the
panes: the kernel tree is of type linux, the values are plain, and in the shells of the panes `DTB_PRAM` holds
the words of `--dtb`. -/
structure Asks (r : Outer M) (s : Settings) : Prop where
  given : given (M.hostAt r.dir) r.args r.vars = some s
  same : SameShell r.args r.vars M.env
  linux : (M.hostAt r.dir).isDir (s.kernel ++ "/common".toList) = false
  plain : Plain (M.hostAt r.dir) s
  simple : Simple M.env.dtbPram
  dtb : fields M.env.dtbPram = dtbWords (M.hostAt r.dir) s

section Run
variable {r : Outer M} {s : Settings} (h : Asks r s)
include h

/-- The settings of the run in the shells of the panes. -/
theorem Asks.givenEnv : Phases.given (M.hostAt r.dir) r.args M.env = some s :=
  given_of_sameShell h.same h.given

theorem Asks.inPane {cli : Text} (hcli : cli ∈ panes) :
    Phases.given (M.hostAt r.dir) (r.args ++ [terminalArg cli]) M.env = some (Relay.inPane s cli) :=
  given_concat hcli h.givenEnv

theorem Asks.ready {cli : Text} (hcli : cli ∈ panes) :
    Ready (M.hostAt r.dir) (r.args ++ [terminalArg cli]) :=
  ready_of_given r.ready h.givenEnv (h.inPane hcli) rfl

/-- **The left pane** starts QEMU as the options ask, and nothing else. -/
theorem Asks.direct_qemu : ∃ cmd, r.direct qemu = [.bash cmd] ∧
    ∀ other, received other (.bash cmd) = some (qemuArgs (M.hostAt r.dir) (Relay.inPane s qemu)) := by
  have hs := h.inPane mem_panes.1
  have hq : RunsQemu (M.hostAt r.dir) (givenTerminal (M.hostAt r.dir) (r.args ++ [terminalArg qemu])) := by
    rw [← given_terminal hs]
    exact Or.inr (Or.inr rfl)
  have hp : Plain (M.hostAt r.dir) (Relay.inPane s qemu) :=
    ⟨h.plain.kernelDir, h.plain.qemuDir, h.plain.noAssign, h.plain.rootfs, h.plain.initrd, h.plain.share,
      h.plain.extra, h.plain.cmdline⟩
  obtain ⟨v, hv, hd⟩ := direct_eq (r := r) mem_panes.1
  have hone : r.direct qemu = [.bash (derived (M.hostAt r.dir) v).qemuCmd] := by
    rw [hd, paneActions, hv]
    exact if_pos rfl
  refine ⟨_, hone, fun other => ?_⟩
  obtain ⟨a, hhead, hreceived⟩ :=
    received_launch hs (h.ready mem_panes.1) hq h.linux hp h.simple other
  have hhead' : (r.direct qemu).head? = some a := hhead
  rw [hone] at hhead'
  rw [Option.some.inj hhead', hreceived, h.dtb]
  rfl

/-- **The right pane** starts no QEMU, and its debugger connects to the port of the left pane. -/
theorem Asks.direct_gdb : ∀ a ∈ r.direct gdb, (∀ cmd, a ≠ .bash cmd) ∧ ∀ line ∈ debuggerLines a,
    "target".toList <+: line → line = targetLine (portText (M.hostAt r.dir) qemu) := by
  intro a ha
  refine ⟨?_, fun line hline ht => ?_⟩
  · rintro cmd rfl
    exact bash_not_mem_gdb r cmd ha
  · exact target_of_launch (h.inPane mem_panes.2) (h.ready mem_panes.2) a (List.mem_filter.mp ha).1
      line hline ht

end Run

/-- A machine with tmux and a kernel tree of type linux. -/
def linuxMachine : Machine :=
  ⟨fun _ => { linuxHost with hasTmux := true, pwd := "/lightbox".toList }, "/home".toList, {}, fun _ => none⟩

def linuxRun : Outer linuxMachine where
  mode := .sourced
  dir := "/lightbox".toList
  args := ["--kernel=k".toList]
  vars := {}
  pwd := rfl
  ready := ⟨by decide, by decide, by decide⟩
  tmux := by decide
  words := by decide
  dirWord := by decide
  harmless := by
    rw [Harmless, if_neg (by decide)]
    trivial

theorem asks_linuxRun : Asks linuxRun { linuxSettings [] with terminal := "tmux".toList } :=
  ⟨by decide, by decide, by decide, (have hl := plain_linux []
    ⟨hl.kernelDir, hl.qemuDir, hl.noAssign, hl.rootfs, hl.initrd, hl.share, hl.extra, hl.cmdline⟩),
    by decide, by decide⟩

/-- Both lines are typed into both panes, and each pane has started its program. -/
def bothPanes : List (Act linuxMachine) :=
  [.exec 0, .exec 0, .exec 0, .exec 0, .read 0, .read 0, .next 0, .exec 0, .exec 0, .exec 0, .read 1,
    .read 1, .next 1]

end Lightbox.Launcher.TmuxMode
