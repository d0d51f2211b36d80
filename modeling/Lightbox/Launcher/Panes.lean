import Lightbox.Launcher.Concurrent
import Lightbox.Launcher.History
import Lightbox.Launcher.Relay
import Lightbox.Run.System
import Mathlib.Logic.Function.Basic

/-! # The session of tmux mode

Any number of runs in tmux mode, sourced or executed, each performing its actions one by one, and the
session `lightbox` with the shells in its panes, which read what is typed and source the launcher again. The
shells, QEMU and the debugger go on at any time: QEMU may end before the window is split, the debugger may be
left before the user is attached, and the session may be ended from outside.

If a run does not start before the runs before it are finished (`Careful`), the panes do what the launcher
does when it is run by hand with `--terminal=cli-qemu` and `--terminal=cli-gdb` in two shells, and no
session is left when all runs are finished (`sideBySide_of_careful`). -/

namespace Lightbox.Launcher.Panes

open Lightbox.Shell.Lex (Text)
open Lightbox.Shell.Read
open Lightbox.Shell.Control
open Lightbox.Launcher.Options Lightbox.Launcher.Script Lightbox.Launcher.Phases
open Lightbox.Launcher.Relay Lightbox.Launcher.History
open Lightbox.Launcher.Concurrent (external_debugger)
open Lightbox.Run.System

/-- The machine: what it is like from a directory, the directory and the variables of a new pane, and what
an interactive shell reads of a line that is more than words. -/
structure Machine where
  hostAt : Text → Host
  home : Text
  env : Vars
  other : Text → Option (List Text)

/-- A run in tmux mode, sourced or executed, whose arguments reach the panes as they are. -/
structure Outer (M : Machine) where
  mode : Mode
  dir : Text
  args : List Text
  vars : Vars
  pwd : (M.hostAt dir).pwd = dir
  ready : Ready (M.hostAt dir) args
  tmux : givenTerminal (M.hostAt dir) args = "tmux".toList
  words : ∀ i ∈ args, Verbatim i
  dirWord : Verbatim dir
  harmless : Harmless args

variable {M : Machine}

/-- What the run does. -/
def Outer.program (r : Outer M) : List Action :=
  external (launch r.mode (M.hostAt r.dir) r.args r.vars).acts

/-- What the launcher does in a shell of the machine, with the terminal `cli`. -/
def Outer.direct (r : Outer M) (cli : Text) : List Action :=
  external (launch .sourced (M.hostAt r.dir) (r.args ++ [terminalArg cli]) M.env).acts

/-! ### The session -/

/-- A pane: the directory and the variables of its shell, what was typed and has not been read, the rest
of the script that the shell runs, whether it exits at the end, the program in the foreground, and what
the shell has run. -/
structure Pane where
  dir : Text
  vars : Vars
  keys : List Text
  todo : List Action
  exits : Bool
  fore : Option Action
  ran : List Action

def Machine.pane (M : Machine) : Pane := ⟨M.home, M.env, [], [], false, none, []⟩

/-- A run under way. -/
structure Proc (M : Machine) where
  run : Outer M
  todo : List Action

structure State (M : Machine) where
  procs : ℕ → Option (Proc M)
  session : Option (List Pane)

/-- No run, and no session. -/
def Init (s : State M) : Prop := (∀ i, s.procs i = none) ∧ s.session = none

/-- The keys go to the pane that was made last. -/
def typeInto (keys : Text) : List Pane → List Pane
  | [] => []
  | [P] => [{ P with keys := P.keys ++ [keys] }]
  | P :: Ps => P :: typeInto keys Ps

/-- The pane runs QEMU, and it is killed. -/
def Pane.kill (P : Pane) : Pane :=
  match P.fore with
  | some (.bash _) => { P with fore := none }
  | _ => P

/-- What an action makes of the session. -/
def serve (M : Machine) : Action → Option (List Pane) → Option (List Pane)
  | .tmux (.killSession n), S => if n = lightbox then none else S
  | .tmux (.newSession n _ _), none => if n = lightbox then some [M.pane] else none
  | .tmux (.sendKeys n keys), S => if n = lightbox then S.map (typeInto keys) else S
  | .tmux (.splitWindow _), S => S.map (· ++ [M.pane])
  | .killall name, S =>
    if name = "qemu-system-aarch64".toList then S.map (List.map Pane.kill) else S
  | _, S => S

/-- The shell waits for the program that an action starts. -/
def waitsFor : Action → Bool
  | .bash _ | .gdb _ _ _ _ | .ddd _ _ _ => true
  | _ => false

/-- The shell of a pane reads a line. -/
def Pane.read (M : Machine) (P : Pane) (line : Text) : Pane :=
  match typed M.other line with
  | some (command :: word :: args) =>
    if command = "cd".toList ∧ args = [] then { P with dir := word }
    else if command = "source".toList ∧ word = "./start-kernel.sh".toList then
      { P with
        vars := (launch .sourced (M.hostAt P.dir) args P.vars).vars
        todo := external (launch .sourced (M.hostAt P.dir) args P.vars).acts
        exits := decide ((launch .sourced (M.hostAt P.dir) args P.vars).signal = .exit) }
    else P
  | _ => P

/-- The shell performs an action of its script. -/
def Pane.next (P : Pane) (a : Action) (todo : List Action) : Pane :=
  { P with todo := todo, fore := if waitsFor a then some a else none, ran := P.ran ++ [a] }

/-! ### Steps -/

/-- A run is started, or performs its next action. The shell of a pane reads a line, or goes on with its
script; its program ends; it exits. The session is ended by other means. -/
inductive Act (M : Machine)
  | start (i : ℕ) (r : Outer M)
  | exec (i : ℕ)
  | read (j : ℕ)
  | next (j : ℕ)
  | quit (j : ℕ)
  | close (j : ℕ)
  | stop

/-- The pane `j` of the session. -/
def State.pane? (s : State M) (j : ℕ) : Option (List Pane × Pane) :=
  s.session.bind fun Ps => Ps[j]?.map fun P => (Ps, P)

/-- A session without panes ends. -/
def sessionOf : List Pane → Option (List Pane)
  | [] => none
  | Ps => some Ps

def step : StepFn (State M) (Act M)
  | s, .start i r =>
    if (s.procs i).isNone then
      some { s with procs := Function.update s.procs i (some ⟨r, r.program⟩) }
    else none
  | s, .exec i =>
    match s.procs i with
    | some ⟨r, a :: todo⟩ =>
      some ⟨Function.update s.procs i (some ⟨r, todo⟩), serve M a s.session⟩
    | _ => none
  | s, .read j =>
    match s.pane? j with
    | some (Ps, ⟨dir, vars, line :: lines, [], false, none, ran⟩) =>
      some { s with session := some (Ps.set j (Pane.read M ⟨dir, vars, lines, [], false, none, ran⟩ line)) }
    | _ => none
  | s, .next j =>
    match s.pane? j with
    | some (Ps, ⟨dir, vars, lines, a :: todo, exits, none, ran⟩) =>
      some { s with session := serve M a (some (Ps.set j
        (Pane.next ⟨dir, vars, lines, a :: todo, exits, none, ran⟩ a todo))) }
    | _ => none
  | s, .quit j =>
    match s.pane? j with
    | some (Ps, ⟨dir, vars, lines, todo, exits, some _, ran⟩) =>
      some { s with session := some (Ps.set j ⟨dir, vars, lines, todo, exits, none, ran⟩) }
    | _ => none
  | s, .close j =>
    match s.pane? j with
    | some (Ps, ⟨_, _, _, [], true, none, _⟩) => some { s with session := sessionOf (Ps.eraseIdx j) }
    | _ => none
  | s, .stop => if s.session.isSome then some { s with session := none } else none

/-- The condition on a step: a run starts when the others are finished. -/
def Careful (s : State M) : Act M → Prop
  | .start _ _ => ∀ j p, s.procs j = some p → p.todo = []
  | _ => True

/-! ### What is run in the panes -/

theorem given_concat {H : Host} {args : List Text} {v : Vars} {s : Settings} {cli : Text}
    (hcli : cli ∈ panes) (hs : given H args v = some s) :
    given H (args ++ [terminalArg cli]) v = some (inPane s cli) := by
  obtain ⟨-, hb, he⟩ := terminalArg_spec hcli
  have hacc : Accepted (args ++ [terminalArg cli]) := by
    intro i hi
    rcases List.mem_append.mp hi with hi | hi
    · exact (given_isSome H args v).mp (by rw [hs]; rfl) i hi
    · rw [List.mem_singleton.mp hi, hb]
      rfl
  obtain ⟨s', hs'⟩ := Option.isSome_iff_exists.mp ((given_isSome H _ v).mpr hacc)
  rw [hs']
  refine congrArg some (Settings.ext_get fun o => ?_)
  rw [get_optionLoop o _ hs', lastValue_concat, hb]
  by_cases ho : o = .terminal
  · subst ho
    rw [if_pos rfl, he]
    rfl
  · rw [if_neg (by simpa using Ne.symm ho), Option.none_or, ← get_optionLoop o args hs]
    cases o <;> first | rfl | exact absurd rfl ho

/-- What the launcher does with the terminal of a pane, from its settings: QEMU in the foreground, or
the debugger and the clean-up. -/
def paneActions (H : Host) (v : Vars) : List Action :=
  if v.opts.terminal = "cli-qemu".toList then [.bash (derived H v).qemuCmd]
  else (debugger H (derived H v)).acts ++ (cleanup v).acts

/-- The derived variables depend on the options and on `DTB_PRAM`. -/
theorem derived_congr {H : Host} {v w : Vars} (ho : v.opts = w.opts) (hp : v.dtbPram = w.dtbPram) :
    (derived H v).qemuCmd = (derived H w).qemuCmd ∧
      (debugger H (derived H v)).acts = (debugger H (derived H w)).acts := by
  have hv := derived_spec H v
  have hw := derived_spec H w
  constructor
  · have hh : qemuHead (derived H v) = qemuHead (derived H w) := by
      unfold qemuHead
      rw [hv.qemuExec, hw.qemuExec, hv.kernelImage, hw.kernelImage, hv.dtbPram, hw.dtbPram,
        hv.rootfsParam, hw.rootfsParam, hv.shareParam, hw.shareParam, hv.debugPort, hw.debugPort,
        hv.opts, hw.opts, ho, hp]
    have ha : appendArg (derived H v) = appendArg (derived H w) := by
      unfold appendArg
      rw [hv.rootfsBootargs, hw.rootfsBootargs, hv.opts, hw.opts, ho]
    rw [hv.qemuCmd, hw.qemuCmd, hh, ha]
  · have hparams : ∀ x, (debugger H { derived H w with params := x }).acts =
        (debugger H (derived H w)).acts := fun x => by
      unfold debugger
      split_ifs <;> rfl
    rw [← hparams (derived H v).params]
    refine debugger_congr ⟨?_, ?_, rfl, ?_, ?_, ?_, ?_, ?_, ?_, ?_⟩
    · rw [hv.opts, ho, ← hw.opts]
    · rw [hv.opts, ho, ← hw.opts]
    · rw [hv.kernelSource, ho, ← hw.kernelSource]
    · rw [hv.kernelVmlinux, ho, ← hw.kernelVmlinux]
    · rw [hv.kernelScripts, ho, ← hw.kernelScripts]
    · rw [hv.relocSections, ho, ← hw.relocSections]
    · rw [hv.gdbExec, ← hw.gdbExec]
    · rw [hv.gdbData, ← hw.gdbData]
    · rw [hv.debugPort, ho, ← hw.debugPort]

/-- **A run with the terminal of a pane.** -/
theorem launch_cli {H : Host} {ws : List Text} {v : Vars} {s : Settings} {cli : Text}
    (hcli : cli ∈ panes) (hr : Ready H ws) (hs : given H ws v = some s) (ht : s.terminal = cli) :
    external (launch .sourced H ws v).acts = paneActions H { v with opts := s } ∧
      ((launch .sourced H ws v).signal = .exit ↔ cli = "cli-qemu".toList) := by
  obtain ⟨-, hacts, hsignal⟩ := launch_of_ready (m := .sourced) hs hr
  obtain ⟨hq, hd⟩ := derived_congr (H := H) (v := start ws s v) (w := { v with opts := s }) rfl rfl
  have hterm : (derived H (start ws s v)).opts.terminal = cli := by
    rw [(derived_spec H _).opts]
    exact ht
  generalize derived H (start ws s v) = w at hacts hsignal hq hd hterm
  have hne : ∀ (x y : Text), x ∈ panes → y ∈ ["gnome".toList, "xfce4".toList] →
      H.testEq x y = false := by
    intro x y hx hy
    simp only [panes, List.mem_cons, List.not_mem_nil, or_false] at hx hy
    rcases hx with rfl | rfl <;> rcases hy with rfl | rfl <;> rfl
  have hg := hne cli "gnome".toList hcli (by simp)
  have hx := hne cli "xfce4".toList hcli (by simp)
  rw [hacts, hsignal, paneActions, ht]
  simp only [panes, List.mem_cons, List.not_mem_nil, or_false] at hcli
  rcases hcli with rfl | rfl
  · have hterminal : terminal H w =
        ⟨w, [.echo "QEMU start, waiting for GDB connection...".toList, .bash w.qemuCmd], .exit⟩ := by
      unfold terminal
      rw [hterm, hg, hx]
      rfl
    rw [visible, runBlocks_stop (by rw [hterminal]; rfl), hterminal, if_pos rfl, hq]
    exact ⟨rfl, by simp⟩
  · have hterminal : terminal H w = ⟨w, [.echo "Try to connect QEMU...".toList], .next⟩ := by
      unfold terminal
      rw [hterm, hg, hx]
      rfl
    have hcli : "cli-gdb".toList ≠ "cli-qemu".toList := by decide
    rw [visible_acts, hterminal, if_neg hcli, ← hd,
      if_pos (show (⟨w, _, .next⟩ : Out Vars Action).signal = .next from rfl)]
    refine ⟨?_, iff_of_false ?_ hcli⟩
    · have hext : external ([.echo "Try to connect QEMU...".toList] ++
          ((debugger H w).acts ++ (cleanup w).acts)) =
          external (debugger H w).acts ++ external (cleanup w).acts := by
        unfold external
        rw [List.filter_append, List.filter_append]
        rfl
      rw [hext, external_debugger]
      rfl
    · have hsig : (debugger H w).signal = .next := by
        unfold debugger
        split_ifs <;> rfl
      rw [visible, runBlocks_next (by rw [hterminal]; rfl), hterminal]
      dsimp only
      rw [runBlocks_next (by rw [hsig]; rfl)]
      simp [runBlocks, cleanup, Signal.stops]

theorem ready_of_given {H : Host} {args ws : List Text} {v : Vars} {s t : Settings}
    (hr : Ready H args) (hs : given H args v = some s) (ht : given H ws v = some t)
    (hk : t.kernel = s.kernel) : Ready H ws := by
  have hkernel : givenKernel ws = givenKernel args := by
    rw [← given_kernel ht, hk, given_kernel hs]
  exact ⟨(given_isSome H ws v).mp (by rw [ht]; rfl), by rw [hkernel]; exact hr.kernel,
    by rw [hkernel]; exact hr.isDir⟩

def qemu : Text := "cli-qemu".toList

def gdb : Text := "cli-gdb".toList

section Outer
variable (r : Outer M)

/-- What is typed into the pane with the terminal `cli`. -/
abbrev Outer.lines (cli : Text) : List Text := paneLines r.dir r.args cli

/-- **The run types itself into two panes**; executed, it goes on afterwards. -/
theorem program_eq : ∃ w, r.program =
    tmuxActions r.dir (joinWords r.args) ++ afterTmux r.mode (M.hostAt r.dir) w := by
  obtain ⟨w, hw⟩ := launch_tmux (v := r.vars) r.ready.accepted (fun _ => r.ready) r.tmux
  rw [r.pwd] at hw
  exact ⟨w, hw⟩

theorem le_length_program : 9 ≤ r.program.length := by
  obtain ⟨w, hw⟩ := program_eq r
  rw [hw, List.length_append]
  exact Nat.le_add_right ..

variable {r} {cli : Text} (hcli : cli ∈ panes)
include hcli

/-- **A pane does what the launcher does** when it is run by hand. -/
theorem launch_pane :
    external (launch .sourced (M.hostAt r.dir) (relayArgs cli r.args ++ [terminalArg cli]) M.env).acts =
      r.direct cli ∧
    ((launch .sourced (M.hostAt r.dir) (relayArgs cli r.args ++ [terminalArg cli]) M.env).signal = .exit ↔
      cli = qemu) := by
  obtain ⟨s, hs⟩ := Option.isSome_iff_exists.mp
    ((given_isSome (M.hostAt r.dir) r.args M.env).mpr r.ready.accepted)
  have h1 := (given_pane_iff hcli hs).mpr ⟨r.harmless, fun o _ => Or.inr rfl⟩
  have h2 := given_concat hcli hs
  obtain ⟨ha, hx⟩ := launch_cli hcli (ready_of_given r.ready hs h1 rfl) h1 rfl
  have hd := (launch_cli hcli (ready_of_given r.ready hs h2 rfl) h2 rfl).1
  exact ⟨ha.trans hd.symm, hx⟩

/-- The program of a pane. -/
theorem direct_eq : ∃ v : Vars, v.opts.terminal = cli ∧ r.direct cli = paneActions (M.hostAt r.dir) v := by
  obtain ⟨s, hs⟩ := Option.isSome_iff_exists.mp
    ((given_isSome (M.hostAt r.dir) r.args M.env).mpr r.ready.accepted)
  have h := given_concat hcli hs
  exact ⟨_, rfl, (launch_cli hcli (ready_of_given r.ready hs h rfl) h rfl).1⟩

/-- The shell of a pane reads the line that starts the launcher. -/
theorem read_relayLine {P : Pane} (hd : P.dir = r.dir) (hv : P.vars = M.env) :
    ∃ vars, P.read M (relayLine cli (joinWords r.args)) =
      { P with vars := vars, todo := r.direct cli, exits := decide (cli = qemu) } := by
  obtain ⟨hacts, hsignal⟩ := launch_pane (r := r) hcli
  have hsource : ¬ ("source".toList = "cd".toList ∧ relayArgs cli r.args ++ [terminalArg cli] = []) :=
    fun h => absurd h.1 (by decide)
  unfold Pane.read
  rw [typed_relayLine hcli r.ready.accepted r.words, hd, hv]
  dsimp only
  rw [if_neg hsource, if_pos ⟨rfl, rfl⟩, hacts]
  exact ⟨(launch .sourced (M.hostAt r.dir) (relayArgs cli r.args ++ [terminalArg cli]) M.env).vars,
    by simp only [hsignal]⟩

omit hcli in
/-- The shell of a pane changes to the directory of the run. -/
theorem read_cdLine (P : Pane) : P.read M (cdLine r.dir) = { P with dir := r.dir } := by
  unfold Pane.read
  rw [typed_cdLine r.dirWord]
  exact if_pos ⟨rfl, rfl⟩

end Outer

/-! ### Panes under way -/

/-- The shell has run nothing yet. -/
structure Pane.Fresh (M : Machine) (P : Pane) : Prop where
  vars : P.vars = M.env
  todo : P.todo = []
  exits : P.exits = false
  fore : P.fore = none
  ran : P.ran = []

/-- A pane with the terminal `cli` after `n` lines were typed into it: its shell has read none of them,
or the first one, or both. -/
inductive Of (r : Outer M) (cli : Text) (n : ℕ) (P : Pane) : Prop
  | fresh : P.Fresh M → P.keys = (r.lines cli).take n → Of r cli n P
  | there : P.Fresh M → 1 ≤ n → P.dir = r.dir → P.keys = ((r.lines cli).take n).drop 1 → Of r cli n P
  | runs : 2 ≤ n → P.keys = [] → P.ran ++ P.todo = r.direct cli → (P.exits = true ↔ cli = qemu) →
      (∀ a, P.fore = some a → a ∈ P.ran) → Of r cli n P

section Of
variable {r : Outer M} {cli : Text} {n : ℕ}

/-- The next line is typed. -/
theorem Of.typed {P : Pane} (h : Of r cli n P) {line : Text} (hn : (r.lines cli)[n]? = some line) :
    Of r cli (n + 1) { P with keys := P.keys ++ [line] } := by
  have hlt : n < 2 := (List.getElem?_eq_some_iff.mp hn).1
  have htake : (r.lines cli).take (n + 1) = (r.lines cli).take n ++ [line] := by
    rw [List.take_add_one, hn]
    rfl
  cases h with
  | fresh hf hk =>
    refine .fresh ⟨hf.vars, hf.todo, hf.exits, hf.fore, hf.ran⟩ ?_
    rw [htake, hk]
  | there hf h1 hd hk =>
    obtain rfl : n = 1 := by omega
    refine .there ⟨hf.vars, hf.todo, hf.exits, hf.fore, hf.ran⟩ (by omega) hd ?_
    rw [htake, hk]
    rfl
  | runs h2 => omega

/-- The shell reads a line. -/
theorem Of.read (hcli : cli ∈ panes) {dir : Text} {vars : Vars} {line : Text} {keys : List Text}
    {ran : List Action} (h : Of r cli n ⟨dir, vars, line :: keys, [], false, none, ran⟩) :
    Of r cli n (Pane.read M ⟨dir, vars, keys, [], false, none, ran⟩ line) := by
  cases h with
  | fresh hf hk =>
    obtain ⟨m, rfl⟩ : ∃ m, n = m + 1 := Nat.exists_eq_succ_of_ne_zero (by rintro rfl; simp at hk)
    obtain ⟨rfl, hkeys⟩ : line = cdLine r.dir ∧ keys = ((r.lines cli).take (m + 1)).drop 1 :=
      List.cons.inj hk
    rw [read_cdLine]
    exact .there ⟨hf.vars, rfl, rfl, rfl, hf.ran⟩ (by omega) rfl hkeys
  | there hf h1 hd hk =>
    obtain ⟨m, rfl⟩ : ∃ m, n = m + 2 := by
      refine Nat.exists_eq_add_of_le' (Nat.lt_of_le_of_ne h1 ?_)
      rintro rfl
      simp [paneLines] at hk
    obtain ⟨rfl, hkeys⟩ : line = relayLine cli (joinWords r.args) ∧ keys = ([] : List Text).take m :=
      List.cons.inj hk
    obtain ⟨vars', hread⟩ := read_relayLine (r := r) hcli
      (P := ⟨dir, vars, keys, [], false, none, ran⟩) hd hf.vars
    rw [hread]
    refine .runs (by omega) (by rw [hkeys]; exact List.take_nil) ?_ (by simp) (by simp)
    have hran : ran = [] := hf.ran
    rw [hran]
    rfl
  | runs _ hk => simp at hk

/-- The shell performs an action of its script. -/
theorem Of.next {dir : Text} {vars : Vars} {keys : List Text} {a : Action} {todo : List Action}
    {exits : Bool} {ran : List Action}
    (h : Of r cli n ⟨dir, vars, keys, a :: todo, exits, none, ran⟩) :
    Of r cli n (Pane.next ⟨dir, vars, keys, a :: todo, exits, none, ran⟩ a todo) ∧
      a ∈ r.direct cli := by
  cases h with
  | fresh hf => exact absurd hf.todo (by simp)
  | there hf => exact absurd hf.todo (by simp)
  | runs h2 hk hran hx hfore =>
    refine ⟨.runs h2 hk ?_ hx fun b hb => ?_, ?_⟩
    · rw [← hran]
      exact List.append_assoc ..
    · show b ∈ ran ++ [a]
      have hb' : (if waitsFor a then some a else none) = some b := hb
      split_ifs at hb'
      obtain rfl := Option.some.inj hb'
      simp
    · rw [← hran]
      exact List.mem_append_right _ List.mem_cons_self

/-- The program in the foreground ends. -/
theorem Of.quit {P : Pane} (h : Of r cli n P) : Of r cli n { P with fore := none } := by
  cases h with
  | fresh hf hk => exact .fresh ⟨hf.vars, hf.todo, hf.exits, rfl, hf.ran⟩ hk
  | there hf h1 hd hk => exact .there ⟨hf.vars, hf.todo, hf.exits, rfl, hf.ran⟩ h1 hd hk
  | runs h2 hk hran hx hfore => exact .runs h2 hk hran hx (by simp)

theorem Of.kill {P : Pane} (h : Of r cli n P) : Of r cli n P.kill := by
  unfold Pane.kill
  split
  · exact h.quit
  · exact h

/-- Only the pane of QEMU closes. -/
theorem Of.exits {P : Pane} (h : Of r cli n P) (hx : P.exits = true) : cli = qemu := by
  cases h with
  | fresh hf => exact absurd hx (by simp [hf.exits])
  | there hf => exact absurd hx (by simp [hf.exits])
  | runs _ _ _ hiff => exact hiff.mp hx

theorem of_new (r : Outer M) (cli : Text) : Of r cli 0 M.pane :=
  .fresh ⟨rfl, rfl, rfl, rfl, rfl⟩ rfl

end Of

/-! ### The session under way -/

/-- The panes after `k` actions of the run: that of QEMU, and after the window has been split that of
QEMU, if it has not closed, and that of the debugger. -/
inductive Built (r : Outer M) : ℕ → List Pane → Prop
  | one {n : ℕ} {P : Pane} : n ≤ 2 → Of r qemu n P → Built r (2 + n) [P]
  | two {n : ℕ} {Ls : List Pane} {R : Pane} : n ≤ 3 → Ls.length ≤ 1 → (∀ P ∈ Ls, Of r qemu 2 P) →
      Of r gdb (min n 2) R → Built r (5 + n) (Ls ++ [R])

theorem mem_panes : qemu ∈ panes ∧ gdb ∈ panes := by decide

section Built
variable {r : Outer M} {k : ℕ} {Ps : List Pane}

theorem Built.le (h : Built r k Ps) : k ≤ 8 := by
  cases h <;> omega

/-- One pane changes. -/
theorem Built.set (h : Built r k Ps) {j : ℕ} {P P' : Pane} (hP : Ps[j]? = some P)
    (hkeep : ∀ cli ∈ panes, ∀ n, Of r cli n P → Of r cli n P') : Built r k (Ps.set j P') := by
  cases h with
  | one hn ho =>
    obtain ⟨rfl, rfl⟩ : j = 0 ∧ P = _ := by
      cases j with
      | zero => exact ⟨rfl, (Option.some.inj hP).symm⟩
      | succ j => simp at hP
    exact .one hn (hkeep _ mem_panes.1 _ ho)
  | @two n Ls R hn hl hL hR =>
    by_cases hj : j < Ls.length
    · rw [List.set_append_left _ _ hj]
      rw [List.getElem?_append_left hj] at hP
      refine .two hn (by rw [List.length_set]; exact hl) (fun Q hQ => ?_) hR
      rcases List.mem_or_eq_of_mem_set hQ with hQ | rfl
      · exact hL Q hQ
      · exact hkeep _ mem_panes.1 _ (hL P (List.mem_of_getElem? hP))
    · rw [List.getElem?_append_right (by omega)] at hP
      rw [List.set_append_right _ _ (by omega)]
      obtain ⟨hj0, rfl⟩ : j - Ls.length = 0 ∧ P = R := by
        cases hd : j - Ls.length with
        | zero =>
          rw [hd] at hP
          exact ⟨rfl, (Option.some.inj hP).symm⟩
        | succ m =>
          rw [hd] at hP
          simp at hP
      rw [hj0]
      exact .two hn hl hL (hkeep _ mem_panes.2 _ hR)

/-- Every QEMU in the panes is killed. -/
theorem Built.kill (h : Built r k Ps) : Built r k (Ps.map Pane.kill) := by
  cases h with
  | one hn ho => exact .one hn ho.kill
  | two hn hl hL hR =>
    rw [List.map_append]
    refine .two hn (by rw [List.length_map]; exact hl) (fun Q hQ => ?_) hR.kill
    obtain ⟨P, hP, rfl⟩ := List.mem_map.mp hQ
    exact (hL P hP).kill

/-- A pane closes, and the session with the last one. -/
theorem Built.close (h : Built r k Ps) {j : ℕ} {P : Pane} (hP : Ps[j]? = some P)
    (hx : P.exits = true) : Ps.eraseIdx j = [] ∨ Built r k (Ps.eraseIdx j) := by
  cases h with
  | one hn ho =>
    cases j with
    | zero => exact Or.inl rfl
    | succ j => simp at hP
  | @two n Ls R hn hl hL hR =>
    refine Or.inr ?_
    by_cases hj : j < Ls.length
    · rw [List.eraseIdx_append_of_lt_length hj]
      refine .two hn ((List.length_eraseIdx_le ..).trans hl) (fun Q hQ => ?_) hR
      exact hL Q (List.mem_of_mem_eraseIdx hQ)
    · rw [List.getElem?_append_right (by omega)] at hP
      have hmem := List.mem_of_getElem? hP
      obtain rfl : P = R := List.mem_singleton.mp hmem
      exact absurd (hR.exits hx) (by decide)

/-- A pane is of one of the two kinds. -/
theorem Built.of (h : Built r k Ps) {P : Pane} (hP : P ∈ Ps) : ∃ cli ∈ panes, ∃ n, Of r cli n P := by
  cases h with
  | one _ ho =>
    obtain rfl := List.mem_singleton.mp hP
    exact ⟨_, mem_panes.1, _, ho⟩
  | two _ _ hL hR =>
    rcases List.mem_append.mp hP with hP | hP
    · exact ⟨_, mem_panes.1, _, hL P hP⟩
    · obtain rfl := List.mem_singleton.mp hP
      exact ⟨_, mem_panes.2, _, hR⟩

theorem typeInto_concat (keys : Text) (P : Pane) : ∀ Ls : List Pane,
    typeInto keys (Ls ++ [P]) = Ls ++ [{ P with keys := P.keys ++ [keys] }]
  | [] => rfl
  | [_] => rfl
  | L :: L' :: Ls => by
    show L :: typeInto keys (L' :: Ls ++ [P]) = _
    rw [typeInto_concat keys P (L' :: Ls)]
    rfl

/-- **The run performs its next action** on the session that it has made: the session is built further. -/
theorem Built.exec (h : Built r k Ps) : ∃ a, r.program.drop k = a :: r.program.drop (k + 1) ∧
    ((∃ Ps', serve M a (some Ps) = some Ps' ∧ Built r (k + 1) Ps') ∨
      serve M a (some Ps) = none) := by
  obtain ⟨w, hprogram⟩ := program_eq r
  cases h with
  | @one n P hn ho =>
    obtain rfl | rfl | rfl : n = 0 ∨ n = 1 ∨ n = 2 := by omega
    · exact ⟨_, by rw [hprogram]; rfl, Or.inl ⟨_, rfl, .one (n := 1) (by omega) (ho.typed rfl)⟩⟩
    · exact ⟨_, by rw [hprogram]; rfl, Or.inl ⟨_, rfl, .one (n := 2) (by omega) (ho.typed rfl)⟩⟩
    · refine ⟨_, by rw [hprogram]; rfl, Or.inl ⟨_, rfl, ?_⟩⟩
      have hL : ∀ Q ∈ [P], Of r qemu 2 Q := fun Q hQ => by
        rw [List.mem_singleton.mp hQ]
        exact ho
      exact .two (n := 0) (by omega) (by simp) hL (of_new r gdb)
  | @two n Ls R hn hl hL hR =>
    have htyped : ∀ line, (r.lines gdb)[min n 2]? = some line → n < 2 →
        Built r (5 + n + 1) (typeInto line (Ls ++ [R])) := fun line hline hlt => by
      rw [typeInto_concat]
      have hm : min n 2 + 1 = min (n + 1) 2 := by omega
      exact .two (n := n + 1) (by omega) hl hL (by rw [← hm]; exact hR.typed hline)
    obtain rfl | rfl | rfl | rfl : n = 0 ∨ n = 1 ∨ n = 2 ∨ n = 3 := by omega
    · exact ⟨_, by rw [hprogram]; rfl, Or.inl ⟨_, rfl, htyped _ rfl (by omega)⟩⟩
    · exact ⟨_, by rw [hprogram]; rfl, Or.inl ⟨_, rfl, htyped _ rfl (by omega)⟩⟩
    · exact ⟨_, by rw [hprogram]; rfl, Or.inl ⟨_, rfl, .two (n := 3) (by omega) hl hL hR⟩⟩
    · exact ⟨_, by rw [hprogram]; rfl, Or.inr rfl⟩

/-- What the shell of a pane does to the session: it ends it, or kills QEMU, or nothing. -/
theorem serve_direct {cli : Text} (hcli : cli ∈ panes) {a : Action} (ha : a ∈ r.direct cli)
    (Ps : List Pane) : serve M a (some Ps) = none ∨ serve M a (some Ps) = some Ps ∨
      serve M a (some Ps) = some (Ps.map Pane.kill) := by
  obtain ⟨v, -, hd⟩ := direct_eq (r := r) hcli
  rw [hd, paneActions] at ha
  have hdebugger : ∀ w, a ∈ (debugger (M.hostAt r.dir) w).acts → serve M a (some Ps) = some Ps := by
    intro w hw
    unfold debugger at hw
    split_ifs at hw
    · rw [List.mem_singleton.mp hw]
      rfl
    · simp only [dddActions, List.mem_append, List.mem_cons, List.mem_map, List.not_mem_nil,
        or_false] at hw
      obtain ((rfl | rfl) | ⟨line, -, rfl⟩) | rfl | rfl := hw
      all_goals rfl
    · simp at hw
  split_ifs at ha
  · rw [List.mem_singleton.mp ha]
    exact Or.inr (Or.inl rfl)
  · rcases List.mem_append.mp ha with ha | ha
    · exact Or.inr (Or.inl (hdebugger _ ha))
    · simp only [cleanup, List.mem_cons, List.not_mem_nil, or_false] at ha
      rcases ha with rfl | rfl
      · exact Or.inr (Or.inr rfl)
      · exact Or.inl rfl

end Built

/-! ### The invariant -/

/-- **The invariant**: all runs are finished and there is no session, or one run has performed `k` of its
actions, and what session there is was built by them. -/
inductive Inv (s : State M) : Prop
  | idle : s.session = none → (∀ i p, s.procs i = some p → p.todo = []) → Inv s
  | busy {i k : ℕ} {r : Outer M} : s.procs i = some ⟨r, r.program.drop k⟩ → k < r.program.length →
      (∀ j p, j ≠ i → s.procs j = some p → p.todo = []) →
      (∀ Ps, s.session = some Ps → Built r k Ps) → Inv s

theorem drop_ne_nil (r : Outer M) {k : ℕ} (hk : k < r.program.length) : r.program.drop k ≠ [] := by
  rw [Ne, List.drop_eq_nil_iff]
  exact Nat.not_le.mpr hk

/-- After the commands of tmux mode, a run makes no session. -/
theorem serve_afterTmux {m : Mode} {H : Host} {w : Vars} {a : Action} (h : a ∈ afterTmux m H w) :
    serve M a none = none := by
  cases a with
  | tmux t => rw [eq_of_mem_afterTmux h]; rfl
  | killall name =>
    show (if name = "qemu-system-aarch64".toList then (none : Option (List Pane)) else none) = none
    exact ite_self _
  | _ => rfl

/-- An action of the run while there is no session. -/
theorem exec_none (r : Outer M) {k : ℕ} (hk : k < r.program.length) : ∃ a,
    r.program.drop k = a :: r.program.drop (k + 1) ∧
      ∀ Ps, serve M a none = some Ps → Built r (k + 1) Ps := by
  have hnone : ∀ {a : Action}, serve M a none = none → ∀ Ps, serve M a none = some Ps →
      Built r (k + 1) Ps := fun ha Ps hs => by rw [ha] at hs; simp at hs
  obtain ⟨w, hprogram⟩ := program_eq r
  by_cases hk9 : k < 9
  · rw [hprogram]
    match k, hk9 with
    | 0, _ | 2, _ | 3, _ | 4, _ | 5, _ | 6, _ | 7, _ | 8, _ => exact ⟨_, rfl, hnone rfl⟩
    | 1, _ =>
      refine ⟨_, rfl, fun Ps hs => ?_⟩
      obtain rfl : [M.pane] = Ps := Option.some.inj hs
      exact .one (n := 0) (by omega) (of_new r qemu)
  · refine ⟨_, List.drop_eq_getElem_cons hk, hnone (serve_afterTmux (w := w) (m := r.mode)
      (H := M.hostAt r.dir) ?_)⟩
    have htmux : (tmuxActions r.dir (joinWords r.args)).length = 9 := rfl
    simp only [hprogram]
    rw [List.getElem_append_right (by omega)]
    exact List.getElem_mem _

section Steps
variable {s : State M}

/-- The run goes on. -/
theorem Inv.exec (h : Inv s) {i : ℕ} {r : Outer M} {a : Action} {todo : List Action}
    (hi : s.procs i = some ⟨r, a :: todo⟩) :
    Inv ⟨Function.update s.procs i (some ⟨r, todo⟩), serve M a s.session⟩ := by
  cases h with
  | idle _ hall => exact absurd (hall i _ hi) (by simp)
  | @busy i' k r' hp hk hothers hbuilt =>
    have hii : i = i' := by
      by_contra hne
      exact absurd (hothers i _ hne hi) (by simp)
    subst hii
    obtain ⟨rfl, hdrop⟩ : r = r' ∧ a :: todo = r'.program.drop k := by
      have := Option.some.inj (hi.symm.trans hp)
      simpa using this
    have hnext : ∃ b, r.program.drop k = b :: r.program.drop (k + 1) ∧
        (serve M b s.session = none ∨ ∃ Ps, serve M b s.session = some Ps ∧ Built r (k + 1) Ps) := by
      cases hS : s.session with
      | none =>
        obtain ⟨b, hb, hbuild⟩ := exec_none r hk
        refine ⟨b, hb, ?_⟩
        cases hs : serve M b none with
        | none => exact Or.inl rfl
        | some Ps => exact Or.inr ⟨Ps, rfl, hbuild Ps hs⟩
      | some Ps =>
        obtain ⟨b, hb, hex | hnone⟩ := (hbuilt Ps hS).exec
        · exact ⟨b, hb, Or.inr hex⟩
        · exact ⟨b, hb, Or.inl hnone⟩
    obtain ⟨b, hb, hserve⟩ := hnext
    obtain ⟨rfl, rfl⟩ : a = b ∧ todo = r.program.drop (k + 1) := List.cons.inj (hdrop.trans hb)
    have hothers' : ∀ j p, j ≠ i → Function.update s.procs i
        (some ⟨r, r.program.drop (k + 1)⟩) j = some p → p.todo = [] := fun j p hj hp => by
      rw [Function.update_of_ne hj] at hp
      exact hothers j p hj hp
    by_cases hlt : k + 1 < r.program.length
    · refine .busy (Function.update_self _ _ _) hlt hothers' fun Ps hPs => ?_
      rcases hserve with hnone | ⟨Ps', hsome, hb'⟩
      · rw [show serve M a s.session = some Ps from hPs] at hnone
        simp at hnone
      · obtain rfl := Option.some.inj (hsome.symm.trans hPs)
        exact hb'
    · -- the last action: the session has ended before, or ends with it
      have hlast : ∀ Ps, ¬ Built r (k + 1) Ps := fun Ps hb' => by
        have hle := hb'.le
        have hlength := le_length_program r
        omega
      refine .idle (hserve.resolve_right fun ⟨Ps, _, hb'⟩ => hlast Ps hb') fun j p hj => ?_
      by_cases hji : j = i
      · subst hji
        obtain rfl := Option.some.inj ((Function.update_self j _ s.procs).symm.trans hj)
        show r.program.drop (k + 1) = []
        rw [List.drop_eq_nil_iff]
        omega
      · exact hothers' j p hji hj

/-- The session goes on, or ends. -/
theorem Inv.session (h : Inv s) {Ps : List Pane} (hS : s.session = some Ps) {S' : Option (List Pane)}
    (hkeep : ∀ (r : Outer M) k, Built r k Ps → ∀ Ps', S' = some Ps' → Built r k Ps') :
    Inv { s with session := S' } := by
  cases h with
  | idle hno _ => rw [hno] at hS; simp at hS
  | @busy i k r hp hk hothers hbuilt =>
    exact .busy (i := i) (k := k) (r := r) hp hk hothers fun Ps' hPs' => hkeep r k (hbuilt Ps hS) Ps' hPs'

theorem of_pane? {j : ℕ} {Ps : List Pane} {P : Pane} (h : s.pane? j = some (Ps, P)) :
    s.session = some Ps ∧ Ps[j]? = some P := by
  obtain ⟨Ps', hS, hmap⟩ := Option.bind_eq_some_iff.mp h
  obtain ⟨P', hP, he⟩ := Option.map_eq_some_iff.mp hmap
  obtain ⟨rfl, rfl⟩ := Prod.mk.inj he
  exact ⟨hS, hP⟩

end Steps

/-- **Every careful step keeps the invariant.** -/
theorem inv_step (s : State M) (a : Act M) (s' : State M) (h : Inv s) (hc : Careful s a)
    (hs : step s a = some s') : Inv s' := by
  cases a with
  | start i r =>
    rw [step] at hs
    split_ifs at hs with hn
    obtain rfl := Option.some.inj hs
    have hno : s.session = none := by
      cases h with
      | idle hno _ => exact hno
      | busy hp hk _ _ => exact absurd (hc _ _ hp) (drop_ne_nil _ hk)
    have hlength := le_length_program r
    refine .busy (k := 0) (Function.update_self _ _ _) (by omega) (fun j p hj hp => ?_) fun Ps hPs => ?_
    · dsimp only at hp
      rw [Function.update_of_ne hj] at hp
      exact hc j p hp
    · dsimp only at hPs
      rw [hno] at hPs
      simp at hPs
  | exec i =>
    rw [step] at hs
    split at hs
    · obtain rfl := Option.some.inj hs
      exact h.exec ‹_›
    · simp at hs
  | read j =>
    rw [step] at hs
    split at hs
    · obtain rfl := Option.some.inj hs
      obtain ⟨hS, hP⟩ := of_pane? ‹_›
      refine h.session hS fun r k hb Ps' hPs' => ?_
      obtain rfl := Option.some.inj hPs'
      exact hb.set hP fun cli hcli n ho => ho.read hcli
    · simp at hs
  | next j =>
    rw [step] at hs
    split at hs
    · next hpane =>
      obtain rfl := Option.some.inj hs
      obtain ⟨hS, hP⟩ := of_pane? hpane
      refine h.session hS fun r k hb Ps' hPs' => ?_
      have hset := hb.set hP fun cli _ n ho => ho.next.1
      obtain ⟨cli, hcli, n, ho⟩ := hb.of (List.mem_of_getElem? hP)
      rcases serve_direct hcli ho.next.2 (List.set _ j _) with he | he | he
      · rw [he] at hPs'
        simp at hPs'
      · obtain rfl := Option.some.inj (he.symm.trans hPs')
        exact hset
      · obtain rfl := Option.some.inj (he.symm.trans hPs')
        exact hset.kill
    · simp at hs
  | quit j =>
    rw [step] at hs
    split at hs
    · obtain rfl := Option.some.inj hs
      obtain ⟨hS, hP⟩ := of_pane? ‹_›
      refine h.session hS fun r k hb Ps' hPs' => ?_
      obtain rfl := Option.some.inj hPs'
      exact hb.set hP fun cli _ n ho => ho.quit
    · simp at hs
  | close j =>
    rw [step] at hs
    split at hs
    · next Ps _ _ _ _ hpane =>
      obtain rfl := Option.some.inj hs
      obtain ⟨hS, hP⟩ := of_pane? hpane
      refine h.session hS fun r k hb Ps' hPs' => ?_
      rcases hb.close hP rfl with hnil | hclose
      · rw [hnil] at hPs'
        simp [sessionOf] at hPs'
      · cases he : Ps.eraseIdx j with
        | nil =>
          rw [he] at hPs'
          simp [sessionOf] at hPs'
        | cons P Qs =>
          rw [he] at hPs' hclose
          obtain rfl := Option.some.inj hPs'
          exact hclose
    · simp at hs
  | stop =>
    rw [step] at hs
    split_ifs at hs with hsome
    obtain rfl := Option.some.inj hs
    obtain ⟨Ps, hS⟩ := Option.isSome_iff_exists.mp hsome
    exact h.session hS fun r k _ Ps' hPs' => by simp at hPs'

/-! ### Side by side -/

def Pane.runsQemu (P : Pane) : Bool :=
  match P.fore with
  | some (.bash _) => true
  | _ => false

/-- **Side by side**: while there is a session, the run that made it is not finished; in one pane and the
other, what has been run is what the launcher runs by hand, up to some point, and the program in the
foreground was started by it; there is at most one QEMU. -/
structure SideBySide (s : State M) : Prop where
  session : ∀ Ps, s.session = some Ps → ∃ i p left right, s.procs i = some p ∧ p.todo ≠ [] ∧
    Ps = left ++ right ∧ left.length ≤ 1 ∧ right.length ≤ 1 ∧
    (∀ P ∈ left, P.ran <+: p.run.direct qemu) ∧ ∀ P ∈ right, P.ran <+: p.run.direct gdb
  fore : ∀ Ps, s.session = some Ps → ∀ P ∈ Ps, ∀ a, P.fore = some a → a ∈ P.ran
  oneQemu : ∀ Ps, s.session = some Ps → (Ps.filter (·.runsQemu)).length ≤ 1
  finished : (∀ i p, s.procs i = some p → p.todo = []) → s.session = none

section Of
variable {r : Outer M} {cli : Text} {n : ℕ} {P : Pane}

theorem Of.prefixed (h : Of r cli n P) : P.ran <+: r.direct cli := by
  cases h with
  | fresh hf => rw [hf.ran]; exact List.nil_prefix
  | there hf => rw [hf.ran]; exact List.nil_prefix
  | runs _ _ hran => exact ⟨P.todo, hran⟩

theorem Of.fore (h : Of r cli n P) : ∀ a, P.fore = some a → a ∈ P.ran := by
  cases h with
  | fresh hf => rw [hf.fore]; simp
  | there hf => rw [hf.fore]; simp
  | runs _ _ _ _ hfore => exact hfore

/-- The debugger's pane runs no QEMU. -/
theorem bash_not_mem_gdb (r : Outer M) (cmd : Text) : .bash cmd ∉ r.direct gdb := by
  obtain ⟨v, hv, hd⟩ := direct_eq (r := r) mem_panes.2
  rw [hd, paneActions, if_neg (by rw [hv]; decide), List.mem_append, not_or]
  refine ⟨?_, by simp [cleanup]⟩
  unfold debugger
  split_ifs <;> simp [dddActions]

theorem Of.runsQemu (h : Of r gdb n P) : P.runsQemu = false := by
  unfold Pane.runsQemu
  split
  · next cmd hfore =>
    exact absurd (h.prefixed.subset (h.fore _ hfore)) (bash_not_mem_gdb r cmd)
  · rfl

end Of

theorem sideBySide_of_inv {s : State M} (h : Inv s) : SideBySide s := by
  cases h with
  | idle hno hall => exact ⟨fun Ps hS => by simp [hno] at hS, fun Ps hS => by simp [hno] at hS,
      fun Ps hS => by simp [hno] at hS, fun _ => hno⟩
  | @busy i k r hp hk hothers hbuilt =>
    refine ⟨fun Ps hS => ?_, fun Ps hS P hP a ha => ?_, fun Ps hS => ?_, fun hall => ?_⟩
    · cases hbuilt Ps hS with
      | one _ ho =>
        refine ⟨i, _, [_], [], hp, drop_ne_nil r hk, rfl, by simp, by simp, fun P hP => ?_, by simp⟩
        rw [List.mem_singleton.mp hP]
        exact ho.prefixed
      | two _ hl hL hR =>
        refine ⟨i, _, _, [_], hp, drop_ne_nil r hk, rfl, hl, by simp, fun P hP => (hL P hP).prefixed,
          fun P hP => ?_⟩
        rw [List.mem_singleton.mp hP]
        exact hR.prefixed
    · obtain ⟨cli, _, n, ho⟩ := (hbuilt Ps hS).of hP
      exact ho.fore a ha
    · cases hbuilt Ps hS with
      | one _ ho => exact List.length_filter_le ..
      | two _ hl _ hR =>
        rw [List.filter_append, List.filter_cons_of_neg (by simp [hR.runsQemu]), List.filter_nil,
          List.append_nil]
        exact (List.length_filter_le ..).trans hl
    · exact absurd (hall i _ hp) (drop_ne_nil r hk)

/-- **Tmux mode**: whatever the order in which a run, the shells in the panes, QEMU and the debugger go
on, the panes do what two runs by hand do, and nothing is left when the runs are finished. -/
theorem sideBySide_of_careful {s : State M} (h : Reach step Init Careful s) : SideBySide s :=
  sideBySide_of_inv (h.invariant (fun _ hs => .idle hs.2 fun i p hp => by simp [hs.1] at hp) inv_step)

/-- A machine with tmux, where a pane starts in the home directory. -/
def sampleMachine : Machine :=
  ⟨fun _ => { tmuxHost with pwd := "/work".toList }, "/home".toList, {}, fun _ => none⟩

def sampleRun : Outer sampleMachine where
  mode := .executed
  dir := "/work".toList
  args := ["--kernel=/src/linux".toList]
  vars := {}
  pwd := rfl
  ready := ⟨by decide, by decide, rfl⟩
  tmux := by decide
  words := by decide
  dirWord := by decide
  harmless := by
    rw [Harmless, if_neg (by decide)]
    trivial

/-- QEMU runs before the window is split; the debugger starts while the user is attached. -/
def twoPanes : List (Act sampleMachine) :=
  [.exec 0, .exec 0, .exec 0, .read 0, .exec 0, .read 0, .next 0, .exec 0, .exec 0, .exec 0, .exec 0,
    .read 1, .read 1, .next 1]

theorem sideBySide_of_careful_two : ∃ s : State sampleMachine, Reach step Init Careful s ∧
    (∃ P R, s.session = some [P, R] ∧ P.runsQemu = true ∧ P.dir = "/work".toList ∧
      R.ran.length = 1) ∧ SideBySide s := by
  have h0 : Reach step Init Careful (⟨fun _ => none, none⟩ : State sampleMachine) :=
    .start ⟨fun _ => rfl, rfl⟩
  have h1 := h0.next (a := Act.start 0 sampleRun) (fun j p hp => by simp at hp) rfl
  obtain ⟨s, hs, hS⟩ : ∃ s, runFrom step (⟨Function.update (fun _ => none) 0
      (some ⟨sampleRun, sampleRun.program⟩), none⟩ : State sampleMachine) twoPanes = some s ∧
      ∃ P R, s.session = some [P, R] ∧ P.runsQemu = true ∧ P.dir = "/work".toList ∧
        R.ran.length = 1 := ⟨_, rfl, _, _, rfl, rfl, rfl, rfl⟩
  have hr : Reach step Init Careful s := by
    refine Reach.runAllowed twoPanes (fun a ha s => ?_) h1 hs
    cases a with
    | start i r => simp [twoPanes] at ha
    | _ => trivial
  exact ⟨s, hr, hS, sideBySide_of_careful hr⟩

end Lightbox.Launcher.Panes
