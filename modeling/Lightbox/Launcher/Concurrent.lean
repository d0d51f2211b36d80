import Lightbox.Launcher.Modes
import Lightbox.Run.System
import Mathlib.Logic.Function.Basic

/-! # Several launchers at once

Invocations of the launcher in gnome or xfce4 mode, each executing the actions of its run one by one,
share the ports of the machine, the script file of ddd and the name by which the clean-up kills QEMU.
A terminal is launched in the background and starts QEMU later, which then listens on its port, or
exits if the port is taken. A debugger is given its commands when it starts (ddd reads them from the
file then) and connects to whatever listens on the port.

An invocation can kill the QEMU of another one, and its debugger can be attached to it. Neither
happens in a run whose steps are all `Careful`: an invocation draws a port that is not in use, writes
its target into a script file no other one is about to read, and kills when no other QEMU runs
(`isolated_of_careful`). -/

namespace Lightbox.Launcher.Concurrent

open Lightbox.Shell.Lex (Text)
open Lightbox.Shell.Control (Mode)
open Lightbox.Launcher.Options Lightbox.Launcher.Script Lightbox.Launcher.Phases
open Lightbox.Launcher.Modes Lightbox.Run.System

/-! ### Invocations -/

/-- An invocation of the launcher that opens QEMU in a window. -/
structure Session where
  mode : Mode
  host : Host
  args : List Text
  vars : Vars
  ready : Ready host args
  window : host.testEq (givenTerminal host args) "gnome".toList = true ∨
    host.testEq (givenTerminal host args) "xfce4".toList = true

/-- What the invocation does. -/
def Session.program (S : Session) : List Action :=
  external (launch S.mode S.host S.args S.vars).acts

/-- Its `DEBUG_PORT`. -/
def Session.port (S : Session) : Text := portText S.host (givenTerminal S.host S.args)

/-- The port a line of a debugger script connects to. -/
def targetOf (line : Text) : Option Text :=
  if "target remote localhost:".toList.isPrefixOf line then some (line.drop 24) else none

def targets (lines : List Text) : List Text := lines.filterMap targetOf

/-- A debugger: the ports it is still to connect to, and the invocations to whose QEMU it was
attached. -/
structure Dbg where
  pending : List Text
  attached : List ℕ

/-- An invocation under way: the actions that are left, the debugger it waits for. -/
structure Proc where
  session : Session
  todo : List Action
  dbg : Option Dbg

/-- A QEMU is still to be started by its terminal, or it is a process that has not come to its
port, or it listens there. -/
inductive Stage
  | launched
  | started
  | listening
  deriving DecidableEq

/-- A QEMU: the invocation that launched it, its port, how far it has come. -/
structure Qemu where
  owner : ℕ
  port : Text
  stage : Stage

/-- There is a process of that name. -/
def Qemu.running (q : Qemu) : Bool := q.stage != .launched

def Qemu.listens (port : Text) (q : Qemu) : Bool := q.stage == .listening && q.port == port

/-- `kills` lists who killed whose QEMU. -/
structure State where
  procs : ℕ → Option Proc
  qemus : List Qemu
  files : Text → List Text
  kills : List (ℕ × ℕ)

def State.setProc (s : State) (i : ℕ) (p : Proc) : State :=
  { s with procs := Function.update s.procs i (some p) }

/-- Nothing runs; a script file may be left over. -/
def Init (s : State) : Prop := (∀ i, s.procs i = none) ∧ s.qemus = [] ∧ s.kills = []

/-! ### Steps -/

inductive Act
  | invoke (i : ℕ) (S : Session)
  | exec (i : ℕ)
  | spawn (k : ℕ)
  | bind (k : ℕ)
  | leave (k : ℕ)
  | connect (i : ℕ)
  | quit (i : ℕ)

/-- The invocation `i`, left in the state `p`, performs an action. -/
def perform (s : State) (i : ℕ) (p : Proc) : Action → State
  | .gnomeTerminal _ _ | .xfce4Terminal _ _ =>
    State.setProc { s with qemus := s.qemus ++ [⟨i, p.session.port, .launched⟩] } i p
  | .gdb _ _ _ ex => s.setProc i { p with dbg := some ⟨targets ex, []⟩ }
  | .ddd _ _ file => s.setProc i { p with dbg := some ⟨targets (s.files file), []⟩ }
  | .rm file => State.setProc { s with files := Function.update s.files file [] } i p
  | .append file line =>
    State.setProc { s with files := Function.update s.files file (s.files file ++ [line]) } i p
  | .killall name =>
    if name = "qemu-system-aarch64".toList then
      State.setProc { s with
        qemus := s.qemus.filter (!·.running)
        kills := s.kills ++ (s.qemus.filter (·.running)).map fun q => (i, q.owner) } i p
    else s.setProc i p
  | _ => s.setProc i p

/-- The invocation whose QEMU listens on a port. -/
def listener (s : State) (port : Text) : List ℕ :=
  ((s.qemus.find? (·.listens port)).map (·.owner)).toList

def step : StepFn State Act
  | s, .invoke i S => if (s.procs i).isNone then some (s.setProc i ⟨S, S.program, none⟩) else none
  | s, .exec i =>
    -- the script waits while its debugger runs
    match s.procs i with
    | some ⟨S, a :: todo, none⟩ => some (perform s i ⟨S, todo, none⟩ a)
    | _ => none
  | s, .spawn k =>
    match s.qemus[k]? with
    | some ⟨j, port, .launched⟩ => some { s with qemus := s.qemus.set k ⟨j, port, .started⟩ }
    | _ => none
  | s, .bind k =>
    match s.qemus[k]? with
    | some ⟨j, port, .started⟩ =>
      if s.qemus.any (·.listens port) then some { s with qemus := s.qemus.eraseIdx k }
      else some { s with qemus := s.qemus.set k ⟨j, port, .listening⟩ }
    | _ => none
  | s, .leave k => if k < s.qemus.length then some { s with qemus := s.qemus.eraseIdx k } else none
  | s, .connect i =>
    match s.procs i with
    | some ⟨S, todo, some ⟨port :: ports, attached⟩⟩ =>
      some (s.setProc i ⟨S, todo, some ⟨ports, attached ++ listener s port⟩⟩)
    | _ => none
  | s, .quit i =>
    match s.procs i with
    | some ⟨S, todo, some _⟩ => some (s.setProc i ⟨S, todo, none⟩)
    | _ => none

/-- **Isolation**: no invocation has killed the QEMU of another one, and no debugger was attached to
the QEMU of another invocation. -/
structure Isolated (s : State) : Prop where
  kills : ∀ x ∈ s.kills, x.1 = x.2
  attached : ∀ i p d, s.procs i = some p → p.dbg = some d → ∀ j ∈ d.attached, j = i

/-! ### Careful steps -/

/-- The invocation is not finished. -/
def Proc.Live (p : Proc) : Prop := p.todo ≠ [] ∨ p.dbg ≠ none

/-- The port of the invocation `j` is in use: it is not finished, or its QEMU has not ended. -/
def InUse (s : State) (j : ℕ) (p : Proc) : Prop := p.Live ∨ ∃ q ∈ s.qemus, q.owner = j

/-- Of the actions on the script file, the next one is to read it. -/
def waits (file : Text) : List Action → Bool
  | [] => false
  | .rm f :: as => if f = file then false else waits file as
  | .ddd _ _ f :: as => if f = file then true else waits file as
  | _ :: as => waits file as

/-- **The conditions on a step**, each on the state before it. -/
def Careful (s : State) : Act → Prop
  | .invoke _ S => ∀ j p, s.procs j = some p → InUse s j p → p.session.port ≠ S.port
  | .exec i => ∀ p, s.procs i = some p →
      match p.todo with
      | .append file line :: _ => targetOf line ≠ none →
          ∀ k r, k ≠ i → s.procs k = some r → waits file r.todo = false
      | .killall _ :: _ => ∀ q ∈ s.qemus, q.running = true → q.owner = i
      | _ => True
  | _ => True

/-! ### Programs -/

/-- The debugger commands of the actions connect to `port` only. -/
def Clean (port : Text) (as : List Action) : Prop :=
  (∀ source exec data ex, .gdb source exec data ex ∈ as → ∀ t ∈ targets ex, t = port) ∧
    ∀ file line, .append file line ∈ as → ∀ t ∈ targetOf line, t = port

theorem Clean.tail {port : Text} {a : Action} {as : List Action} (h : Clean port (a :: as)) :
    Clean port as :=
  ⟨fun s e d ex hm => h.1 s e d ex (List.mem_cons_of_mem a hm),
    fun f l hm => h.2 f l (List.mem_cons_of_mem a hm)⟩

theorem targetOf_targetLine (port : Text) : targetOf (targetLine port) = some port := by
  unfold targetOf targetLine
  rw [if_pos (List.isPrefixOf_iff_prefix.mpr (List.prefix_append _ _))]
  rfl

/-- The other lines of a debugger script do not connect. -/
theorem targetOf_lines (w : Vars) : targetOf (safePathLine w) = none ∧
    targetOf "set confirm off".toList = none ∧ targetOf (fileLine w) = none ∧
    targetOf (symbolLine w) = none ∧ targetOf "b * 0x40200000 thread 1".toList = none ∧
    targetOf "tui enable".toList = none ∧ targetOf "continue".toList = none :=
  ⟨rfl, rfl, rfl, rfl, rfl, rfl, rfl⟩

theorem targets_gdbCommands (w : Vars) : targets (gdbCommands w) = [w.debugPort] := by
  obtain ⟨h1, h2, h3, h4, h5, h6, h7⟩ := targetOf_lines w
  simp only [targets, gdbCommands, List.filterMap_cons, h1, h2, h3, h4, h5, h6, h7,
    targetOf_targetLine, List.filterMap_nil]

theorem targets_dddLines (w : Vars) : targets (dddLines w) = [w.debugPort] := by
  obtain ⟨h1, h2, h3, h4, h5, -, h7⟩ := targetOf_lines w
  simp only [targets, dddLines, List.filterMap_cons, h1, h2, h3, h4, h5, h7,
    targetOf_targetLine, List.filterMap_nil]

theorem clean_debugger (H : Host) (w : Vars) : Clean w.debugPort (debugger H w).acts := by
  unfold debugger
  split_ifs
  · refine ⟨fun source exec data ex hm t ht => ?_, fun file line hm => by simp at hm⟩
    simp only [List.mem_singleton, Action.gdb.injEq] at hm
    rw [hm.2.2.2, targets_gdbCommands] at ht
    simpa using ht
  · refine ⟨fun source exec data ex hm => by simp [dddActions] at hm, fun file line hm t ht => ?_⟩
    have hl : line ∈ dddLines w := by
      simp only [dddActions, List.mem_append, List.mem_cons, List.mem_map, List.not_mem_nil,
        reduceCtorEq, or_false, false_or, Action.append.injEq] at hm
      obtain ⟨l, hl, -, rfl⟩ := hm
      exact hl
    have hd : t ∈ targets (dddLines w) := List.mem_filterMap.mpr ⟨line, hl, ht⟩
    rw [targets_dddLines] at hd
    simpa using hd
  · exact ⟨fun _ _ _ _ hm => by simp at hm, fun _ _ hm => by simp at hm⟩

/-- A script file is removed before it is written. -/
theorem waits_debugger (H : Host) (w : Vars) (file : Text) (as : List Action)
    (h : waits file as = false) : waits file ((debugger H w).acts ++ as) = false := by
  unfold debugger
  split_ifs
  · simpa [waits] using h
  · generalize H.realpath "./ddd.script".toList = script
    by_cases hf : script = file
    · simp [dddActions, waits, hf]
    · simp [dddActions, dddLines, waits, hf, h]
  · simpa using h

/-- The debugger blocks print nothing. -/
theorem external_debugger (H : Host) (w : Vars) :
    external (debugger H w).acts = (debugger H w).acts := by
  unfold debugger external
  split_ifs
  · rfl
  · simp [dddActions, dddLines, Action.external]
  · rfl

/-- The action opens a window. -/
def window : Action → Bool
  | .gnomeTerminal _ _ | .xfce4Terminal _ _ => true
  | _ => false

/-- In a window, QEMU is launched and the script goes on. -/
theorem terminal_window {H : Host} {w : Vars}
    (h : H.testEq w.opts.terminal "gnome".toList = true ∨
      H.testEq w.opts.terminal "xfce4".toList = true) :
    ∃ a, window a = true ∧ (terminal H w).signal = .next ∧ (terminal H w).acts = [a] := by
  unfold terminal
  by_cases hg : H.testEq w.opts.terminal "gnome".toList = true
  · rw [if_pos hg]
    exact ⟨_, rfl, rfl, rfl⟩
  · rw [if_neg hg, if_pos (h.resolve_left hg)]
    exact ⟨_, rfl, rfl, rfl⟩

theorem external_window {a : Action} (h : window a = true) : external [a] = [a] := by
  cases a with
  | gnomeTerminal _ _ => rfl
  | xfce4Terminal _ _ => rfl
  | _ => simp [window] at h

theorem waits_window {a : Action} (h : window a = true) (file : Text) (as : List Action) :
    waits file (a :: as) = waits file as := by
  cases a with
  | gnomeTerminal _ _ => rfl
  | xfce4Terminal _ _ => rfl
  | _ => simp [window] at h

/-- **The program of an invocation**: it launches QEMU, runs the debugger and cleans up, with the
variables that are derived from its settings. -/
theorem program_derived (S : Session) : ∃ s w a, given S.host S.args S.vars = some s ∧
    Derived S.host (start S.args s S.vars) w ∧ window a = true ∧
    S.program = a :: ((debugger S.host w).acts ++ (cleanup w).acts) := by
  obtain ⟨s, hs⟩ :=
    Option.isSome_iff_exists.mp ((given_isSome S.host S.args S.vars).mpr S.ready.accepted)
  generalize hw : derived S.host (start S.args s S.vars) = w
  have hd := derived_spec S.host (start S.args s S.vars)
  rw [hw] at hd
  have ht : w.opts.terminal = givenTerminal S.host S.args := by
    rw [hd.opts, ← given_terminal hs]
    rfl
  have hg : GoesOn S.host (givenTerminal S.host S.args) :=
    S.window.elim Or.inl fun h => Or.inr (Or.inl h)
  have hc : external (cleanup w).acts = (cleanup w).acts := rfl
  obtain ⟨a, ha, hn, hacts⟩ := terminal_window (w := w) (by rw [ht]; exact S.window)
  refine ⟨s, w, a, hs, hd, ha, ?_⟩
  have hext : S.program = external [a] ++ (external (debugger S.host w).acts ++
      external (cleanup w).acts) := by
    rw [Session.program, launch_eq_of_goesOn S.mode S.ready hg, (launch_of_ready hs S.ready).2.1,
      hw, visible_acts, if_pos hn, hacts]
    simp only [external, List.filter_append]
  rw [hext, external_window ha, external_debugger, hc]
  rfl

theorem program_eq (S : Session) : ∃ w a, w.debugPort = S.port ∧ window a = true ∧
    S.program = a :: ((debugger S.host w).acts ++ (cleanup w).acts) := by
  obtain ⟨s, w, a, hs, hd, ha, h⟩ := program_derived S
  refine ⟨w, a, ?_, ha, h⟩
  rw [hd.debugPort, Session.port, ← given_terminal hs]
  rfl

theorem clean_program (S : Session) : Clean S.port S.program := by
  obtain ⟨w, a, hp, ha, h⟩ := program_eq S
  have hd := clean_debugger S.host w
  rw [hp] at hd
  -- neither the window nor the clean-up has debugger commands
  have hmem : ∀ b ∈ S.program, window b = true ∨ b ∈ (debugger S.host w).acts ∨
      b ∈ (cleanup w).acts := by
    intro b hb
    rw [h, List.mem_cons, List.mem_append] at hb
    rcases hb with rfl | hb
    · exact Or.inl ha
    · exact Or.inr hb
  refine ⟨fun s e d ex hm => hd.1 s e d ex ?_, fun f l hm => hd.2 f l ?_⟩
  · simpa [window, cleanup] using hmem _ hm
  · simpa [window, cleanup] using hmem _ hm

theorem waits_program (S : Session) (file : Text) : waits file S.program = false := by
  obtain ⟨w, a, -, ha, h⟩ := program_eq S
  rw [h, waits_window ha]
  exact waits_debugger S.host w file (cleanup w).acts rfl

/-! ### The invariant -/

/-- What holds of the invocation `i` in every state of a careful run: its actions connect to its own
port, and so does its debugger and the script file it is about to read; its debugger was attached to
its own QEMU only. -/
structure ProcOK (files : Text → List Text) (i : ℕ) (p : Proc) : Prop where
  clean : Clean p.session.port p.todo
  pending : ∀ d, p.dbg = some d → ∀ t ∈ d.pending, t = p.session.port
  attached : ∀ d, p.dbg = some d → ∀ j ∈ d.attached, j = i
  script : ∀ file, waits file p.todo = true → ∀ t ∈ targets (files file), t = p.session.port

/-- **The invariant.** A QEMU has the port of its invocation, and no other invocation that is live
has it. -/
structure Inv (s : State) : Prop where
  owner : ∀ q ∈ s.qemus, ∃ p, s.procs q.owner = some p ∧ q.port = p.session.port
  ports : ∀ i j p r, s.procs i = some p → s.procs j = some r → p.Live → InUse s j r →
    p.session.port = r.session.port → i = j
  proc : ∀ i p, s.procs i = some p → ProcOK s.files i p
  kills : ∀ x ∈ s.kills, x.1 = x.2

theorem inv_init {s : State} (h : Init s) : Inv s := by
  obtain ⟨h1, h2, h3⟩ := h
  refine ⟨fun q hq => ?_, fun i j p r hi => ?_, fun i p hi => ?_, fun x hx => ?_⟩
  · simp [h2] at hq
  · simp [h1] at hi
  · simp [h1] at hi
  · simp [h3] at hx

theorem isolated_of_inv {s : State} (h : Inv s) : Isolated s :=
  ⟨h.kills, fun i p d hp hd => (h.proc i p hp).attached d hd⟩

section Frame
variable {s : State} {i : ℕ} {p p' : Proc}

/-- An invocation goes on: it keeps its session, and is live only if it was. -/
theorem Inv.setProc (h : Inv s) (hp : s.procs i = some p) (hs : p'.session = p.session)
    (hl : p'.Live → p.Live) (hok : ProcOK s.files i p') : Inv (s.setProc i p') := by
  have hne : ∀ {j}, j ≠ i → (s.setProc i p').procs j = s.procs j := fun hj =>
    Function.update_of_ne hj _ _
  have hself : (s.setProc i p').procs i = some p' := Function.update_self _ _ _
  -- every invocation of the new state comes from one of the old state with the same port
  have hold : ∀ {j r}, (s.setProc i p').procs j = some r → ∃ r₀, s.procs j = some r₀ ∧
      r₀.session = r.session ∧ (r.Live → r₀.Live) := by
    intro j r hr
    by_cases hj : j = i
    · subst hj
      obtain rfl : p' = r := Option.some.inj (hself.symm.trans hr)
      exact ⟨p, hp, hs.symm, hl⟩
    · rw [hne hj] at hr
      exact ⟨r, hr, rfl, id⟩
  refine ⟨fun q hq => ?_, fun j k r t hj hk hlive huse hport => ?_, fun j r hj => ?_, h.kills⟩
  · obtain ⟨r, hr, hport⟩ := h.owner q hq
    by_cases hj : q.owner = i
    · refine ⟨p', by rw [hj]; exact hself, ?_⟩
      rw [hj, hp] at hr
      rw [hport, hs, Option.some.inj hr]
    · exact ⟨r, by rw [hne hj]; exact hr, hport⟩
  · obtain ⟨r₀, hr₀, hsr, hlr⟩ := hold hj
    obtain ⟨t₀, ht₀, hst, hlt⟩ := hold hk
    exact h.ports j k r₀ t₀ hr₀ ht₀ (hlr hlive) (huse.imp_left hlt) (by rw [hsr, hst, hport])
  · by_cases hji : j = i
    · subst hji
      obtain rfl : p' = r := Option.some.inj (hself.symm.trans hj)
      exact hok
    · rw [hne hji] at hj
      exact h.proc j r hj

/-- QEMUs end or come up. -/
theorem Inv.qemus (h : Inv s) {qs : List Qemu}
    (hq : ∀ q ∈ qs, ∃ q₀ ∈ s.qemus, q₀.owner = q.owner ∧ q₀.port = q.port) :
    Inv { s with qemus := qs } := by
  refine ⟨fun q hm => ?_, fun i j p r hi hj hl hu => ?_, h.proc, h.kills⟩
  · obtain ⟨q₀, h₀, ho, hport⟩ := hq q hm
    obtain ⟨p, hp, hpp⟩ := h.owner q₀ h₀
    exact ⟨p, by rw [← ho]; exact hp, by rw [← hport]; exact hpp⟩
  · refine h.ports i j p r hi hj hl (hu.imp_right ?_)
    rintro ⟨q, hm, hqo⟩
    obtain ⟨q₀, h₀, ho, -⟩ := hq q hm
    exact ⟨q₀, h₀, ho.trans hqo⟩

/-- An invocation that is live launches QEMU. -/
theorem Inv.addQemu (h : Inv s) (hp : s.procs i = some p) (hl : p.Live) :
    Inv { s with qemus := s.qemus ++ [⟨i, p.session.port, .launched⟩] } := by
  refine ⟨fun q hm => ?_, fun j k r t hj hk hlive hu => ?_, h.proc, h.kills⟩
  · rcases List.mem_append.mp hm with hm | hm
    · exact h.owner q hm
    · obtain rfl : q = ⟨i, p.session.port, .launched⟩ := by simpa using hm
      exact ⟨p, hp, rfl⟩
  · have huse : InUse s k t := by
      rcases hu with hu | ⟨q, hm, hqo⟩
      · exact Or.inl hu
      · rcases List.mem_append.mp hm with hm | hm
        · exact Or.inr ⟨q, hm, hqo⟩
        · obtain rfl : q = ⟨i, p.session.port, .launched⟩ := by simpa using hm
          obtain rfl : i = k := hqo
          obtain rfl : p = t := Option.some.inj (hp.symm.trans hk)
          exact Or.inl hl
    exact h.ports j k r t hj hk hlive huse

/-- A script file is changed, to the liking of those that are about to read it. -/
theorem Inv.setFile (h : Inv s) {file : Text} {lines : List Text}
    (hf : ∀ j r, s.procs j = some r → waits file r.todo = true →
      ∀ t ∈ targets lines, t = r.session.port) :
    Inv { s with files := Function.update s.files file lines } := by
  refine ⟨h.owner, h.ports, fun j r hj => ?_, h.kills⟩
  have hr := h.proc j r hj
  refine ⟨hr.clean, hr.pending, hr.attached, fun g hg t ht => ?_⟩
  dsimp only at ht
  by_cases hgf : g = file
  · subst hgf
    rw [Function.update_self] at ht
    exact hf j r hj hg t ht
  · rw [Function.update_of_ne hgf] at ht
    exact hr.script g hg t ht

/-- A line is appended to a script file. -/
theorem Inv.appendLine (h : Inv s) {file line : Text} (hp : s.procs i = some p)
    (hl : ∀ t ∈ targetOf line, t = p.session.port)
    (hc : targetOf line ≠ none → ∀ k r, k ≠ i → s.procs k = some r → waits file r.todo = false) :
    Inv { s with files := Function.update s.files file (s.files file ++ [line]) } := by
  refine h.setFile fun j r hj hw t ht => ?_
  rw [targets, List.filterMap_append, List.mem_append] at ht
  rcases ht with ht | ht
  · exact (h.proc j r hj).script file hw t ht
  · obtain ⟨l, hm, hlt⟩ := List.mem_filterMap.mp ht
    obtain rfl : l = line := by simpa using hm
    by_cases hji : j = i
    · subst hji
      obtain rfl := Option.some.inj (hp.symm.trans hj)
      exact hl t hlt
    · have hnot := hc (by rw [hlt]; simp) j r hji hj
      rw [hnot] at hw
      simp at hw

/-- An invocation kills every QEMU, and there are only its own. -/
theorem Inv.killall (h : Inv s) (hc : ∀ q ∈ s.qemus, q.running = true → q.owner = i) :
    Inv { s with
      qemus := s.qemus.filter (!·.running)
      kills := s.kills ++ (s.qemus.filter (·.running)).map fun q => (i, q.owner) } := by
  have hq : Inv { s with qemus := s.qemus.filter (!·.running) } :=
    h.qemus fun q hm => ⟨q, (List.mem_filter.mp hm).1, rfl, rfl⟩
  refine ⟨hq.owner, hq.ports, hq.proc, fun x hx => ?_⟩
  rcases List.mem_append.mp hx with hx | hx
  · exact h.kills x hx
  · obtain ⟨q, hm, rfl⟩ := List.mem_map.mp hx
    obtain ⟨hm, hl⟩ := List.mem_filter.mp hm
    exact (hc q hm hl).symm

end Frame

/-! ### Steps keep the invariant -/

/-- Any action but the removal of a file leaves it to be read. -/
theorem waits_cons {file : Text} {a : Action} {as : List Action} (ha : a ≠ .rm file)
    (h : waits file as = true) : waits file (a :: as) = true := by
  cases a with
  | rm f =>
    have hf : f ≠ file := fun e => ha (by rw [e])
    rw [waits, if_neg hf]
    exact h
  | ddd source exec f =>
    rw [waits]
    split_ifs
    · rfl
    · exact h
  | _ => exact h

section Exec
variable {s : State} {i : ℕ} {S : Session} {a : Action} {todo : List Action}

/-- The rest of a program is as good as the program. -/
theorem ProcOK.rest {files : Text → List Text} (h : ProcOK files i ⟨S, a :: todo, none⟩)
    (hrm : ∀ file, a = .rm file → files file = []) : ProcOK files i ⟨S, todo, none⟩ := by
  refine ⟨h.clean.tail, fun d hd => by simp at hd, fun d hd => by simp at hd, fun file hw => ?_⟩
  by_cases ha : a = .rm file
  · intro t ht
    rw [hrm file ha] at ht
    simp [targets] at ht
  · exact h.script file (waits_cons ha hw)

theorem live_cons {d : Option Dbg} : (Proc.mk S (a :: todo) d).Live := Or.inl (by simp)

variable (h : Inv s) (hp : s.procs i = some ⟨S, a :: todo, none⟩)
include h hp

/-- An invocation goes on to its next action. -/
theorem Inv.pop (hrm : ∀ file, a = .rm file → s.files file = []) :
    Inv (s.setProc i ⟨S, todo, none⟩) :=
  h.setProc hp rfl (fun _ => live_cons) ((h.proc i _ hp).rest hrm)

/-- An invocation starts a debugger that connects to its own port. -/
theorem Inv.startDbg {ports : List Text} (ht : ∀ t ∈ ports, t = S.port)
    (hrm : ∀ file, a ≠ .rm file) : Inv (s.setProc i ⟨S, todo, some ⟨ports, []⟩⟩) := by
  have hr := (h.proc i _ hp).rest fun file ha => absurd ha (hrm file)
  refine h.setProc hp rfl (fun _ => live_cons) ⟨hr.clean, fun d hd => ?_, fun d hd => ?_, hr.script⟩
  · obtain rfl : (⟨ports, []⟩ : Dbg) = d := Option.some.inj hd
    exact ht
  · obtain rfl : (⟨ports, []⟩ : Dbg) = d := Option.some.inj hd
    simp

/-- **A careful action keeps the invariant.** -/
theorem inv_exec (hc : Careful s (.exec i)) : Inv (perform s i ⟨S, todo, none⟩ a) := by
  have hok := h.proc i _ hp
  have hc := hc _ hp
  cases a with
  | gnomeTerminal title cmd =>
    have hq := h.addQemu hp live_cons
    exact Inv.pop (a := .gnomeTerminal title cmd) hq hp (by simp)
  | xfce4Terminal title cmd =>
    have hq := h.addQemu hp live_cons
    exact Inv.pop (a := .xfce4Terminal title cmd) hq hp (by simp)
  | gdb source exec data ex =>
    exact h.startDbg hp (fun t ht => hok.clean.1 _ _ _ _ (List.mem_cons_self ..) t ht) (by simp)
  | ddd source exec file =>
    refine h.startDbg hp (fun t ht => hok.script file ?_ t ht) (by simp)
    rw [waits, if_pos rfl]
  | rm file =>
    have hf : Inv { s with files := Function.update s.files file [] } :=
      h.setFile fun j r _ _ t ht => by simp [targets] at ht
    refine Inv.pop hf hp fun f hf => ?_
    obtain rfl : file = f := by simpa using hf
    exact Function.update_self _ _ _
  | append file line =>
    have hf := h.appendLine hp (hok.clean.2 file line (List.mem_cons_self ..)) hc
    exact Inv.pop hf hp (by simp)
  | killall name =>
    rw [perform]
    split_ifs
    · exact Inv.pop (h.killall hc) hp (by simp)
    · exact h.pop hp (by simp)
  | echo line => exact h.pop hp (by simp)
  | bash cmd => exact h.pop hp (by simp)
  | tmux t => exact h.pop hp (by simp)
  | touch file => exact h.pop hp (by simp)

end Exec

/-- **A new invocation with a port that is not in use keeps the invariant.** -/
theorem inv_invoke {s : State} {i : ℕ} {S : Session} (h : Inv s) (hn : s.procs i = none)
    (hc : Careful s (.invoke i S)) : Inv (s.setProc i ⟨S, S.program, none⟩) := by
  have hself : (s.setProc i ⟨S, S.program, none⟩).procs i = some ⟨S, S.program, none⟩ :=
    Function.update_self _ _ _
  have hne : ∀ {j}, j ≠ i → (s.setProc i ⟨S, S.program, none⟩).procs j = s.procs j := fun hj =>
    Function.update_of_ne hj _ _
  refine ⟨fun q hq => ?_, fun j k r t hj hk hl hu hport => ?_, fun j r hj => ?_, h.kills⟩
  · obtain ⟨r, hr, hport⟩ := h.owner q hq
    have hqi : q.owner ≠ i := fun e => by simp [e, hn] at hr
    exact ⟨r, by rw [hne hqi]; exact hr, hport⟩
  · by_cases hji : j = i
    · by_cases hki : k = i
      · rw [hji, hki]
      · rw [hne hki] at hk
        rw [hji, hself] at hj
        obtain rfl := Option.some.inj hj
        exact absurd hport.symm (hc k t hk hu)
    · rw [hne hji] at hj
      by_cases hki : k = i
      · rw [hki, hself] at hk
        obtain rfl := Option.some.inj hk
        exact absurd hport (hc j r hj (Or.inl hl))
      · rw [hne hki] at hk
        exact h.ports j k r t hj hk hl hu hport
  · by_cases hji : j = i
    · rw [hji, hself] at hj
      obtain rfl := Option.some.inj hj
      exact ⟨clean_program S, fun d hd => by simp at hd, fun d hd => by simp at hd,
        fun file hw => by simp [waits_program] at hw⟩
    · rw [hne hji] at hj
      exact h.proc j r hj

/-- A QEMU ends. -/
theorem Inv.eraseQemu {s : State} (h : Inv s) (k : ℕ) :
    Inv { s with qemus := s.qemus.eraseIdx k } :=
  h.qemus fun q hq => ⟨q, List.mem_of_mem_eraseIdx hq, rfl, rfl⟩

/-- A QEMU comes further. -/
theorem Inv.stageQemu {s : State} (h : Inv s) {k : ℕ} {q : Qemu} (hk : s.qemus[k]? = some q)
    (g : Stage) : Inv { s with qemus := s.qemus.set k ⟨q.owner, q.port, g⟩ } := by
  refine h.qemus fun r hr => ?_
  rcases List.mem_or_eq_of_mem_set hr with hr | rfl
  · exact ⟨r, hr, rfl, rfl⟩
  · exact ⟨q, List.mem_of_getElem? hk, rfl, rfl⟩

/-- **A debugger reaches its own QEMU**: no other one has its port. -/
theorem listener_eq {s : State} {i : ℕ} {p : Proc} (h : Inv s) (hp : s.procs i = some p)
    (hl : p.Live) : ∀ j ∈ listener s p.session.port, j = i := by
  intro j hj
  rw [listener, Option.mem_toList, Option.map_eq_some_iff] at hj
  obtain ⟨q, hf, rfl⟩ := hj
  have hm : q ∈ s.qemus := List.mem_of_find?_eq_some hf
  have hq : q.listens p.session.port = true := by simpa using List.find?_some hf
  have hport : q.port = p.session.port := by
    simp only [Qemu.listens, Bool.and_eq_true, beq_iff_eq] at hq
    exact hq.2
  obtain ⟨r, hr, hrp⟩ := h.owner q hm
  exact (h.ports i q.owner p r hp hr hl (Or.inr ⟨q, hm, rfl⟩) (by rw [← hport, hrp])).symm

/-- **A debugger connects.** -/
theorem inv_connect {s : State} {i : ℕ} {S : Session} {todo : List Action} {port : Text}
    {ports : List Text} {attached : List ℕ} (h : Inv s)
    (hp : s.procs i = some ⟨S, todo, some ⟨port :: ports, attached⟩⟩) :
    Inv (s.setProc i ⟨S, todo, some ⟨ports, attached ++ listener s port⟩⟩) := by
  have hok := h.proc i _ hp
  have hlive : (Proc.mk S todo (some ⟨port :: ports, attached⟩)).Live := Or.inr (by simp)
  have hport : port = S.port := hok.pending _ rfl port (List.mem_cons_self ..)
  refine h.setProc hp rfl (fun _ => hlive) ⟨hok.clean, fun d hd => ?_, fun d hd => ?_, hok.script⟩
  · obtain rfl := Option.some.inj hd
    exact fun t ht => hok.pending _ rfl t (List.mem_cons_of_mem _ ht)
  · obtain rfl := Option.some.inj hd
    intro j hj
    rcases List.mem_append.mp hj with hj | hj
    · exact hok.attached _ rfl j hj
    · rw [hport] at hj
      exact listener_eq h hp hlive j hj

/-- A debugger is left. -/
theorem inv_quit {s : State} {i : ℕ} {S : Session} {todo : List Action} {d : Dbg} (h : Inv s)
    (hp : s.procs i = some ⟨S, todo, some d⟩) : Inv (s.setProc i ⟨S, todo, none⟩) := by
  have hok := h.proc i _ hp
  exact h.setProc hp rfl (fun _ => Or.inr (by simp))
    ⟨hok.clean, fun d hd => by simp at hd, fun d hd => by simp at hd, hok.script⟩

/-- **Every careful step keeps the invariant.** -/
theorem inv_step (s : State) (a : Act) (s' : State) (h : Inv s) (hc : Careful s a)
    (hs : step s a = some s') : Inv s' := by
  cases a with
  | invoke i S =>
    rw [step] at hs
    split_ifs at hs with hn
    obtain rfl := Option.some.inj hs
    exact inv_invoke h (by simpa using hn) hc
  | exec i =>
    rw [step] at hs
    split at hs
    · obtain rfl := Option.some.inj hs
      exact inv_exec h ‹_› hc
    · simp at hs
  | spawn k =>
    rw [step] at hs
    split at hs
    · obtain rfl := Option.some.inj hs
      exact h.stageQemu ‹_› .started
    · simp at hs
  | bind k =>
    rw [step] at hs
    split at hs
    · split_ifs at hs
      · obtain rfl := Option.some.inj hs
        exact h.eraseQemu k
      · obtain rfl := Option.some.inj hs
        exact h.stageQemu ‹_› .listening
    · simp at hs
  | leave k =>
    rw [step] at hs
    split_ifs at hs
    obtain rfl := Option.some.inj hs
    exact h.eraseQemu k
  | connect i =>
    rw [step] at hs
    split at hs
    · obtain rfl := Option.some.inj hs
      exact inv_connect h ‹_›
    · simp at hs
  | quit i =>
    rw [step] at hs
    split at hs
    · obtain rfl := Option.some.inj hs
      exact inv_quit h ‹_›
    · simp at hs

/-- **Careful runs are isolated**: any number of invocations, in any order of their steps. -/
theorem isolated_of_careful {s : State} (h : Reach step Init Careful s) : Isolated s :=
  isolated_of_inv (h.invariant (fun _ => inv_init) inv_step)


/-! ### Runs -/

/-- Sessions of a user who debugs one kernel several times. -/
def sampleSession (n : ℕ) : Session where
  mode := .sourced
  host := { sampleHost with random := n }
  args := ["--kernel=k".toList, "--terminal=gnome".toList]
  vars := {}
  ready := ⟨by decide, by decide, rfl⟩
  window := Or.inl rfl

def idle : State := ⟨fun _ => none, [], fun _ => [], []⟩

/-- Two sessions with different ports. -/
theorem isolated_of_careful_two : ∃ s, Reach step Init Careful s ∧
    (s.procs 0).map (fun p => p.dbg.map (·.attached)) = some (some [0]) ∧
    (s.procs 1).map (fun p => p.dbg.map (·.attached)) = some (some [1]) ∧ Isolated s := by
  have h0 : Reach step Init Careful idle := .start ⟨fun _ => rfl, rfl, rfl⟩
  have h1 := h0.next (a := Act.invoke 0 (sampleSession 0)) (fun j p hp => by simp [idle] at hp) rfl
  have h2 := h1.next (a := Act.invoke 1 (sampleSession 1)) (fun j p hp _ => by
    by_cases hj : j = 0
    · subst hj
      obtain rfl := Option.some.inj hp
      show (sampleSession 0).port ≠ (sampleSession 1).port
      decide
    · exact absurd ((Function.update_of_ne hj _ _).symm.trans hp) (by simp [idle])) rfl
  have h3 := h2.next (a := Act.exec 0) (fun p hp => by obtain rfl := Option.some.inj hp; trivial) rfl
  have h4 := h3.next (a := Act.exec 1) (fun p hp => by obtain rfl := Option.some.inj hp; trivial) rfl
  have h5 := h4.next (a := Act.spawn 0) trivial rfl
  have h6 := h5.next (a := Act.spawn 1) trivial rfl
  have h7 := h6.next (a := Act.bind 1) trivial rfl
  have h8 := h7.next (a := Act.bind 0) trivial rfl
  have h9 := h8.next (a := Act.exec 0) (fun p hp => by obtain rfl := Option.some.inj hp; trivial) rfl
  have h10 := h9.next (a := Act.exec 1) (fun p hp => by obtain rfl := Option.some.inj hp; trivial) rfl
  have h11 := h10.next (a := Act.connect 1) trivial rfl
  have h12 := h11.next (a := Act.connect 0) trivial rfl
  exact ⟨_, h12, rfl, rfl, isolated_of_careful h12⟩

/-- Two sessions run; the first one is left, and its clean-up kills both QEMUs. -/
theorem not_isolated_killall : ∃ s, Reach step Init always s ∧ s.kills = [(0, 0), (0, 1)] ∧
    ¬ Isolated s := by
  obtain ⟨s, hs, hk⟩ : ∃ s, runFrom step idle [.invoke 0 (sampleSession 0),
      .invoke 1 (sampleSession 1), .exec 0, .exec 1, .spawn 0, .bind 0, .spawn 1, .bind 1,
      .exec 0, .quit 0, .exec 0] = some s ∧ s.kills = [(0, 0), (0, 1)] :=
    ⟨_, rfl, rfl⟩
  refine ⟨s, Reach.runFrom _ (.start ⟨fun _ => rfl, rfl, rfl⟩) hs, hk, fun h => ?_⟩
  have := h.kills (0, 1) (by rw [hk]; decide)
  omega

end Lightbox.Launcher.Concurrent
