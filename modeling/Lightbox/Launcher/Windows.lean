import Lightbox.Launcher.Concurrent

/-! # What launchers in windows leave behind, and what ddd reads

Invocations in gnome or xfce4 mode, in any order of their steps, as in `Concurrent`.

* An invocation that has cleaned up has no QEMU left, nor one that its terminal is still to start, if
  no invocation comes to its `killall` before its own terminal has started QEMU
  (`none_left_of_patient`).
* ddd reads the commands that gdb would be given for the kernel and the port of its own invocation,
  `tui enable` apart, if no two invocations use one script file at a time (`reads_of_separate`). -/

namespace Lightbox.Launcher.Windows

open Lightbox.Shell.Lex (Text)
open Lightbox.Launcher.Options Lightbox.Launcher.Script Lightbox.Launcher.Phases
open Lightbox.Launcher.Concurrent Lightbox.Run.System

/-! ### What a step does -/

/-- An invocation is started, performs its next action, or goes on with its debugger; or the QEMUs come
up or end. -/
inductive Change (s : State) : Act → State → Prop
  | invoke {i : ℕ} (S : Session) : s.procs i = none →
      Change s (.invoke i S) (s.setProc i ⟨S, S.program, none⟩)
  | exec {i : ℕ} {S : Session} {b : Action} {todo : List Action} :
      s.procs i = some ⟨S, b :: todo, none⟩ → Change s (.exec i) (perform s i ⟨S, todo, none⟩ b)
  | debug {a : Act} {i : ℕ} {p : Proc} (d : Option Dbg) : s.procs i = some p →
      Change s a (s.setProc i { p with dbg := d })
  | qemus {a : Act} {qs : List Qemu} : (∀ q ∈ qs, ∃ q₀ ∈ s.qemus, q₀.owner = q.owner) →
      Change s a { s with qemus := qs }

theorem Change.erase {s : State} (a : Act) (k : ℕ) :
    Change s a { s with qemus := s.qemus.eraseIdx k } :=
  .qemus fun q hq => ⟨q, List.mem_of_mem_eraseIdx hq, rfl⟩

theorem Change.stage {s : State} {q : Qemu} {k : ℕ} (a : Act) (hk : s.qemus[k]? = some q) (g : Stage) :
    Change s a { s with qemus := s.qemus.set k ⟨q.owner, q.port, g⟩ } := by
  refine .qemus fun r hr => ?_
  rcases List.mem_or_eq_of_mem_set hr with hr | rfl
  · exact ⟨r, hr, rfl⟩
  · exact ⟨q, List.mem_of_getElem? hk, rfl⟩

theorem change_of_step {s s' : State} {a : Act} (hs : step s a = some s') : Change s a s' := by
  cases a with
  | invoke i S =>
    rw [step] at hs
    split_ifs at hs with hn
    obtain rfl := Option.some.inj hs
    exact .invoke S (by simpa using hn)
  | exec i =>
    rw [step] at hs
    split at hs
    · obtain rfl := Option.some.inj hs
      exact .exec ‹_›
    · simp at hs
  | spawn k =>
    rw [step] at hs
    split at hs
    · obtain rfl := Option.some.inj hs
      exact .stage _ ‹_› .started
    · simp at hs
  | bind k =>
    rw [step] at hs
    split at hs
    · split_ifs at hs
      · obtain rfl := Option.some.inj hs
        exact .erase _ k
      · obtain rfl := Option.some.inj hs
        exact .stage _ ‹_› .listening
    · simp at hs
  | leave k =>
    rw [step] at hs
    split_ifs at hs
    obtain rfl := Option.some.inj hs
    exact .erase _ k
  | connect i =>
    rw [step] at hs
    split at hs
    · obtain rfl := Option.some.inj hs
      exact .debug _ ‹_›
    · simp at hs
  | quit i =>
    rw [step] at hs
    split at hs
    · obtain rfl := Option.some.inj hs
      exact .debug none ‹_›
    · simp at hs

/-- Of the invocations, one is changed. -/
theorem of_update {f : ℕ → Option Proc} {i j : ℕ} {p r : Proc}
    (h : Function.update f i (some p) j = some r) : (j = i ∧ p = r) ∨ (j ≠ i ∧ f j = some r) := by
  by_cases hj : j = i
  · rw [hj, Function.update_self] at h
    exact Or.inl ⟨hj, Option.some.inj h⟩
  · rw [Function.update_of_ne hj] at h
    exact Or.inr ⟨hj, h⟩

/-! ### What an action does -/

def qemuName : Text := "qemu-system-aarch64".toList

section Perform
variable (s : State) (i : ℕ) (p : Proc) (a : Action)

theorem perform_procs : ∃ d, (perform s i p a).procs =
    Function.update s.procs i (some { p with dbg := d }) := by
  cases a with
  | killall name =>
    rw [perform]
    split_ifs
    · exact ⟨p.dbg, rfl⟩
    · exact ⟨p.dbg, rfl⟩
  | gdb source exec data ex => exact ⟨_, rfl⟩
  | ddd source exec file => exact ⟨_, rfl⟩
  | _ => exact ⟨p.dbg, rfl⟩

/-- The QEMUs after an action: a new one of a window, or old ones, and after `killall` only those that
have not been started. -/
theorem perform_qemus {q : Qemu} (hq : q ∈ (perform s i p a).qemus) :
    (q ∈ s.qemus ∧ (a = .killall qemuName → q.running = false)) ∨ (window a = true ∧ q.owner = i) := by
  have hold : ∀ {b : Action}, b ≠ .killall qemuName → q ∈ s.qemus →
      (q ∈ s.qemus ∧ (b = .killall qemuName → q.running = false)) := fun hb hq =>
    ⟨hq, fun h => absurd h hb⟩
  have hnew : q ∈ s.qemus ++ [⟨i, p.session.port, .launched⟩] → q ∈ s.qemus ∨ q.owner = i := by
    intro hq
    rcases List.mem_append.mp hq with hq | hq
    · exact Or.inl hq
    · rw [List.mem_singleton.mp hq]
      exact Or.inr rfl
  cases a with
  | gnomeTerminal title cmd => exact (hnew hq).imp (hold (by simp)) fun h => ⟨rfl, h⟩
  | xfce4Terminal title cmd => exact (hnew hq).imp (hold (by simp)) fun h => ⟨rfl, h⟩
  | killall name =>
    rw [perform] at hq
    split_ifs at hq with hn
    · obtain ⟨hq, hr⟩ := List.mem_filter.mp hq
      exact Or.inl ⟨hq, fun _ => by simpa using hr⟩
    · exact Or.inl (hold (fun h => hn (Action.killall.inj h)) hq)
  | _ => exact Or.inl (hold (by simp) hq)

/-- What becomes of a file: it is emptied, or has a line more. -/
def contents (file : Text) (lines : List Text) : Action → List Text
  | .rm f => if file = f then [] else lines
  | .append f line => if file = f then lines ++ [line] else lines
  | _ => lines

theorem perform_files (file : Text) :
    (perform s i p a).files file = contents file (s.files file) a := by
  have hupdate : ∀ (f : Text) lines, Function.update s.files f lines file =
      if file = f then lines else s.files file := fun f lines => by
    by_cases hf : file = f
    · rw [if_pos hf, hf, Function.update_self]
    · rw [if_neg hf, Function.update_of_ne hf]
  cases a with
  | rm f => exact hupdate f _
  | append f line =>
    refine (hupdate f _).trans ?_
    show _ = if file = f then s.files file ++ [line] else s.files file
    by_cases hf : file = f
    · rw [if_pos hf, if_pos hf, hf]
    · rw [if_neg hf, if_neg hf]
  | killall name =>
    rw [perform]
    split_ifs <;> rfl
  | _ => rfl

end Perform

/-! ### Nothing is left -/

/-- A clean-up follows on every window. -/
def Closing : List Action → Prop
  | [] => True
  | a :: as => (window a = true → .killall qemuName ∈ as) ∧ Closing as

theorem closing_append {as bs : List Action} (ha : ∀ a ∈ as, window a = false) (hb : Closing bs) :
    Closing (as ++ bs) := by
  induction as with
  | nil => exact hb
  | cons a as ih =>
    obtain ⟨hw, has⟩ := List.forall_mem_cons.mp ha
    exact ⟨fun h => absurd h (by simp [hw]), ih has⟩

theorem window_debugger (H : Host) (w : Vars) : ∀ a ∈ (debugger H w).acts, window a = false := by
  unfold debugger
  split_ifs
  · simp [window]
  · simp [dddActions, dddLines, window]
  · simp

theorem closing_program (S : Session) : Closing S.program := by
  obtain ⟨w, a, -, -, h⟩ := program_eq S
  rw [h]
  refine ⟨fun _ => List.mem_append_right _ List.mem_cons_self, ?_⟩
  refine closing_append (window_debugger S.host w) ⟨fun h => ?_, fun h => ?_, trivial⟩
  · simp [window] at h
  · simp [window] at h

/-- The condition on a step: an invocation kills when its terminal has started QEMU. -/
def Patient (s : State) : Act → Prop
  | .exec i => ∀ p, s.procs i = some p → p.todo.head? = some (.killall qemuName) →
      ∀ q ∈ s.qemus, q.owner = i → q.running = true
  | _ => True

/-- **The invariant.** A QEMU belongs to an invocation that is still to clean up. -/
structure Owned (s : State) : Prop where
  qemus : ∀ q ∈ s.qemus, ∃ p, s.procs q.owner = some p ∧ .killall qemuName ∈ p.todo
  procs : ∀ i p, s.procs i = some p → Closing p.todo

section Owned
variable {s s' : State} (h : Owned s)
include h

/-- The invocation `i` goes on, or starts. -/
theorem Owned.setProc {i : ℕ} {p : Proc} (hc : Closing p.todo)
    (hq : ∀ q ∈ s.qemus, q.owner = i → .killall qemuName ∈ p.todo) : Owned (s.setProc i p) := by
  refine ⟨fun q hm => ?_, fun j r hj => ?_⟩
  · by_cases hi : q.owner = i
    · exact ⟨p, by rw [hi]; exact Function.update_self _ _ _, hq q hm hi⟩
    · obtain ⟨r, hr, hk⟩ := h.qemus q hm
      exact ⟨r, by rw [← hr]; exact Function.update_of_ne hi _ _, hk⟩
  · rcases of_update hj with ⟨rfl, rfl⟩ | ⟨-, hj⟩
    · exact hc
    · exact h.procs j r hj

/-- **A patient action** leaves no QEMU of an invocation that has cleaned up. -/
theorem owned_exec {i : ℕ} {S : Session} {b : Action} {todo : List Action}
    (hp : s.procs i = some ⟨S, b :: todo, none⟩) (hc : Patient s (.exec i)) :
    Owned (perform s i ⟨S, todo, none⟩ b) := by
  obtain ⟨d, hprocs⟩ := perform_procs s i ⟨S, todo, none⟩ b
  obtain ⟨hwindow, hclosing⟩ := h.procs i _ hp
  refine ⟨fun q hm => ?_, fun j r hj => ?_⟩
  · rw [hprocs]
    rcases perform_qemus s i _ b hm with ⟨hold, hkill⟩ | ⟨hw, ho⟩
    · obtain ⟨r, hr, hk⟩ := h.qemus q hold
      by_cases hi : q.owner = i
      · refine ⟨_, by rw [hi]; exact Function.update_self _ _ _, ?_⟩
        rw [hi] at hr
        obtain rfl := Option.some.inj (hp.symm.trans hr)
        rcases List.mem_cons.mp hk with rfl | hk
        · -- its QEMU has been started, and so it is killed
          have hrun := hc _ hp rfl q hold hi
          rw [hkill rfl] at hrun
          simp at hrun
        · exact hk
      · exact ⟨r, by rw [← hr]; exact Function.update_of_ne hi _ _, hk⟩
    · exact ⟨_, by rw [ho]; exact Function.update_self _ _ _, hwindow hw⟩
  · rw [hprocs] at hj
    rcases of_update hj with ⟨rfl, rfl⟩ | ⟨-, hj⟩
    · exact hclosing
    · exact h.procs j r hj

theorem owned_step {a : Act} (hc : Patient s a) (hs : step s a = some s') : Owned s' := by
  cases change_of_step hs with
  | invoke S hn =>
    refine h.setProc (closing_program S) fun q hm ho => ?_
    obtain ⟨p, hp, -⟩ := h.qemus q hm
    rw [ho, hn] at hp
    simp at hp
  | exec hp => exact owned_exec h hp hc
  | debug d hp =>
    have hclosing := h.procs _ _ hp
    refine h.setProc hclosing fun q hm ho => ?_
    obtain ⟨r, hr, hk⟩ := h.qemus q hm
    rw [ho] at hr
    obtain rfl := Option.some.inj (hp.symm.trans hr)
    exact hk
  | qemus hqs =>
    refine ⟨fun q hm => ?_, h.procs⟩
    obtain ⟨q₀, hm₀, ho⟩ := hqs q hm
    rw [← ho]
    exact h.qemus q₀ hm₀

end Owned

theorem owned_of_reach {s : State} (h : Reach step Init Patient s) : Owned s := by
  refine h.invariant (fun s hs => ⟨fun q hq => ?_, fun i p hp => ?_⟩) fun s a s' hi hc hs =>
    owned_step hi hc hs
  · simp [hs.2.1] at hq
  · simp [hs.1] at hp

/-- **An invocation that has cleaned up has no QEMU left**, and when all have, there is none. -/
theorem none_left_of_patient {s : State} (h : Reach step Init Patient s) :
    (∀ i p, s.procs i = some p → p.todo = [] → ∀ q ∈ s.qemus, q.owner ≠ i) ∧
      ((∀ i p, s.procs i = some p → p.todo = []) → s.qemus = []) := by
  have ho := owned_of_reach h
  have hleft : ∀ i p, s.procs i = some p → p.todo = [] → ∀ q ∈ s.qemus, q.owner ≠ i := by
    rintro i p hp ht q hq rfl
    obtain ⟨r, hr, hk⟩ := ho.qemus q hq
    obtain rfl := Option.some.inj (hp.symm.trans hr)
    rw [ht] at hk
    simp at hk
  refine ⟨hleft, fun hall => List.eq_nil_iff_forall_not_mem.mpr fun q hq => ?_⟩
  obtain ⟨p, hp, -⟩ := ho.qemus q hq
  exact hleft q.owner p hp (hall _ p hp) q hq rfl

/-- A session is left, and cleans up while its QEMU runs. -/
theorem none_left_of_patient_one : ∃ s, Reach step Init Patient s ∧ s.kills = [(0, 0)] ∧
    ∀ q ∈ s.qemus, q.owner ≠ 0 := by
  have hother : ∀ {s : State} {p : Proc}, s.procs 0 = some p →
      p.todo.head? ≠ some (.killall qemuName) → Patient s (.exec 0) := fun hp hn r hr ht => by
    obtain rfl := Option.some.inj (hp.symm.trans hr)
    exact absurd ht hn
  have h0 : Reach step Init Patient idle := .start ⟨fun _ => rfl, rfl, rfl⟩
  have h1 := h0.next (a := Act.invoke 0 (sampleSession 0)) trivial rfl
  have h2 := h1.next (a := Act.exec 0) (hother rfl (by decide)) rfl
  have h3 := h2.next (a := Act.spawn 0) trivial rfl
  have h4 := h3.next (a := Act.bind 0) trivial rfl
  have h5 := h4.next (a := Act.exec 0) (hother rfl (by decide)) rfl
  have h6 := h5.next (a := Act.quit 0) trivial rfl
  have h7 := h6.next (a := Act.exec 0) (fun p _ _ q hq _ => by
    rw [List.mem_singleton.mp hq]
    rfl) rfl
  have h8 := h7.next (a := Act.exec 0) (hother rfl (by decide)) rfl
  exact ⟨_, h8, rfl, (none_left_of_patient h8).1 0 _ rfl rfl⟩

/-! ### What ddd reads -/

/-- The lines that are to be appended to the file before ddd reads it, if it is to be read before it is
removed. -/
def toCome (file : Text) : List Action → Option (List Text)
  | [] => none
  | .rm f :: as => if f = file then none else toCome file as
  | .ddd _ _ f :: as => if f = file then some [] else toCome file as
  | .append f line :: as =>
    if f = file then (toCome file as).map (line :: ·) else toCome file as
  | _ :: as => toCome file as

/-- The script file that an action is about. -/
def fileOf : Action → Option Text
  | .rm f | .touch f | .append f _ | .ddd _ _ f => some f
  | _ => none

/-- The file is among those that are still to be used. -/
def Uses (file : Text) (as : List Action) : Prop := ∃ a ∈ as, fileOf a = some file

/-- What is removed is written anew, with the lines `lines`, before ddd reads it; and it is read once. -/
def Written (lines : List Text) : List Action → Prop
  | [] => True
  | a :: as => (∀ f, a = .rm f → ∀ ls, toCome f as = some ls → ls = lines) ∧
    (∀ source exec f, a = .ddd source exec f → toCome f as = none) ∧ Written lines as

/-- What is to be read from the file is complete when the lines to come are added. -/
def Complete (lines : List Text) (files : Text → List Text) (as : List Action) : Prop :=
  ∀ f ls, toCome f as = some ls → files f ++ ls = lines

/-- The commands for gdb, with the kernel and the port of the invocation. -/
def gdbGiven (S : Session) : List Text :=
  gdbCommands { tree S.host (givenKernel S.args) with debugPort := S.port }

/-- The same commands without the one that ddd is not given. -/
def dddGiven (S : Session) : List Text := (gdbGiven S).filter (· ≠ "tui enable".toList)

theorem uses_of_toCome {f : Text} : ∀ {as : List Action}, (toCome f as).isSome = true → Uses f as
  | [], h => by simp [toCome] at h
  | a :: as, h => by
    by_cases hf : fileOf a = some f
    · exact ⟨a, List.mem_cons_self, hf⟩
    · have hrest : toCome f (a :: as) = toCome f as := by
        cases a <;> simp_all [toCome, fileOf]
      rw [hrest] at h
      obtain ⟨b, hb, hbf⟩ := uses_of_toCome h
      exact ⟨b, List.mem_cons_of_mem _ hb, hbf⟩

/-- An action on another file leaves the file as it is. -/
theorem contents_of_ne {f : Text} {b : Action} (hb : fileOf b ≠ some f) (lines : List Text) :
    contents f lines b = lines := by
  have hne : ∀ g : Text, some g ≠ some f → f ≠ g := fun g hg h => hg (congrArg some h.symm)
  cases b with
  | rm g => exact if_neg (hne g hb)
  | append g line => exact if_neg (hne g hb)
  | _ => rfl

/-- **The next action** keeps what is to be read complete. -/
theorem Complete.next {lines : List Text} {files : Text → List Text} {b : Action}
    {todo : List Action} (h : Complete lines files (b :: todo)) (hw : Written lines (b :: todo)) :
    Complete lines (fun f => contents f (files f) b) todo := by
  intro f ls hls
  obtain ⟨hrm, hddd, -⟩ := hw
  by_cases hf : fileOf b = some f
  · cases b with
    | rm g =>
      obtain rfl := Option.some.inj hf
      show contents g (files g) (.rm g) ++ ls = lines
      rw [contents, if_pos rfl]
      exact hrm g rfl ls hls
    | append g line =>
      obtain rfl := Option.some.inj hf
      have hcome : toCome g (.append g line :: todo) = some (line :: ls) := by
        rw [toCome, if_pos rfl, hls]
        rfl
      show contents g (files g) (.append g line) ++ ls = lines
      rw [contents, if_pos rfl, List.append_assoc]
      exact h g _ hcome
    | ddd source exec g =>
      obtain rfl := Option.some.inj hf
      rw [hddd source exec g rfl] at hls
      simp at hls
    | touch g => exact h f ls hls
    | _ => simp [fileOf] at hf
  · have hcome : toCome f (b :: todo) = some ls := by
      rw [← hls]
      cases b <;> simp_all [toCome, fileOf]
    show contents f (files f) b ++ ls = lines
    rw [contents_of_ne hf]
    exact h f ls hcome

/-- **An action of another invocation** keeps it complete, if it is about another file. -/
theorem Complete.frame {lines : List Text} {files : Text → List Text} {b : Action}
    {as : List Action} (h : Complete lines files as) (hb : ∀ f, fileOf b = some f → ¬ Uses f as) :
    Complete lines (fun f => contents f (files f) b) as := by
  intro f ls hls
  show contents f (files f) b ++ ls = lines
  rw [contents_of_ne fun hf => hb f hf (uses_of_toCome (by rw [hls]; rfl))]
  exact h f ls hls

/-! ### The programs -/

/-- The commands for ddd are those for gdb without `tui enable`. -/
theorem filter_gdbCommands (w : Vars) :
    (gdbCommands w).filter (· ≠ "tui enable".toList) = dddLines w := by
  -- the second character tells `tui enable` from the others
  have hkeep : ∀ l : Text, l.tail.head? ≠ some 'u' →
      decide (l ≠ "tui enable".toList) = true := fun l hl => by
    rw [decide_eq_true_iff]
    rintro rfl
    exact hl rfl
  have hall : ∀ l ∈ dddLines w, decide (l ≠ "tui enable".toList) = true := fun l hl => by
    refine hkeep l ?_
    simp only [dddLines, List.mem_cons, List.not_mem_nil, or_false] at hl
    rcases hl with rfl | rfl | rfl | rfl | rfl | rfl | rfl
    · exact fun h => absurd (Option.some.inj h) (by decide)
    · decide
    · exact fun h => absurd (Option.some.inj h) (by decide)
    · exact fun h => absurd (Option.some.inj h) (by decide)
    · exact fun h => absurd (Option.some.inj h) (by decide)
    · decide
    · decide
  have hsplit : gdbCommands w =
      (dddLines w).take 6 ++ "tui enable".toList :: (dddLines w).drop 6 := rfl
  rw [hsplit, List.filter_append, List.filter_cons_of_neg (by simp),
    List.filter_eq_self.mpr fun l hl => hall l (List.mem_of_mem_take hl),
    List.filter_eq_self.mpr fun l hl => hall l (List.mem_of_mem_drop hl), List.take_append_drop]

theorem exists_dddLines (S : Session) : ∃ w a, dddLines w = dddGiven S ∧
    w.kernelSource = (tree S.host (givenKernel S.args)).kernelSource ∧ window a = true ∧
    S.program = a :: ((debugger S.host w).acts ++ (cleanup w).acts) := by
  obtain ⟨s, w, a, hs, hd, ha, h⟩ := program_derived S
  have hk : (start S.args s S.vars).opts.kernel = givenKernel S.args := given_kernel hs
  have ht : (start S.args s S.vars).opts.terminal = givenTerminal S.host S.args := given_terminal hs
  refine ⟨w, a, ?_, by rw [hd.kernelSource, hk], ha, h⟩
  rw [← filter_gdbCommands, dddGiven, gdbGiven]
  congr 1
  unfold gdbCommands safePathLine fileLine symbolLine
  rw [hd.kernelScripts, hd.kernelVmlinux, hd.relocSections, hd.debugPort, hk, ht]
  rfl

theorem toCome_append {f script : Text} {as : List Action} : ∀ ls : List Text,
    toCome f (ls.map (.append script) ++ as) =
      if script = f then (toCome f as).map (ls ++ ·) else toCome f as
  | [] => by
    split_ifs
    · exact Option.map_id'.symm
    · rfl
  | l :: ls => by
    rw [List.map_cons, List.cons_append, toCome, toCome_append ls]
    split_ifs
    · rw [Option.map_map]
      rfl
    · rfl

theorem written_append {lines : List Text} {script : Text} {as : List Action} (h : Written lines as) :
    ∀ ls : List Text, Written lines (ls.map (.append script) ++ as)
  | [] => h
  | _ :: ls => ⟨by simp, by simp, written_append h ls⟩

/-- Actions that use no script file. -/
theorem written_of_none {lines : List Text} : ∀ {as : List Action}, (∀ a ∈ as, fileOf a = none) →
    Written lines as
  | [], _ => trivial
  | a :: as, h => by
    obtain ⟨ha, has⟩ := List.forall_mem_cons.mp h
    refine ⟨?_, ?_, written_of_none has⟩
    · rintro f rfl
      simp [fileOf] at ha
    · rintro source exec f rfl
      simp [fileOf] at ha

theorem toCome_cleanup (f : Text) (w : Vars) : toCome f (cleanup w).acts = none := rfl

/-- **The script of a session is written and then read**: nothing is to be read from a file that the
program does not write itself. -/
theorem written_dddActions (script : Text) (w v : Vars) :
    Written (dddLines w) (dddActions script w ++ (cleanup v).acts) ∧
      ∀ f, toCome f (dddActions script w ++ (cleanup v).acts) = none := by
  have hsplit : dddActions script w ++ (cleanup v).acts = .rm script :: .touch script ::
      ((dddLines w).map (.append script) ++
        .ddd w.kernelSource w.gdbExec script :: .rm script :: (cleanup v).acts) := by
    simp [dddActions]
  have hend : ∀ f, toCome f (.rm script :: (cleanup v).acts) = none := fun f => by
    rw [toCome, toCome_cleanup]
    exact ite_self _
  have hread : ∀ f, toCome f (.touch script :: ((dddLines w).map (.append script) ++
      .ddd w.kernelSource w.gdbExec script :: .rm script :: (cleanup v).acts)) =
        if script = f then some (dddLines w) else none := fun f => by
    have htouch : ∀ as, toCome f (.touch script :: as) = toCome f as := fun _ => rfl
    rw [htouch, toCome_append, toCome, hend]
    split_ifs
    · rw [Option.map_some, List.append_nil]
    · rfl
  have htail : Written (dddLines w)
      (.ddd w.kernelSource w.gdbExec script :: .rm script :: (cleanup v).acts) := by
    refine ⟨by simp, fun _ _ f _ => hend f, fun f _ ls hls => ?_, by simp, ?_⟩
    · rw [toCome_cleanup] at hls
      simp at hls
    · exact written_of_none (by simp [cleanup, fileOf])
  rw [hsplit]
  refine ⟨⟨fun f hf ls hls => ?_, by simp, by simp, by simp, ?_⟩, fun f => ?_⟩
  · obtain rfl := Action.rm.inj hf
    rw [hread, if_pos rfl] at hls
    exact (Option.some.inj hls).symm
  · exact written_append htail _
  · rw [toCome, hread]
    split_ifs <;> rfl

theorem toCome_window {a : Action} (h : window a = true) (f : Text) (as : List Action) :
    toCome f (a :: as) = toCome f as := by
  cases a with
  | gnomeTerminal _ _ => rfl
  | xfce4Terminal _ _ => rfl
  | _ => simp [window] at h

theorem written_program (S : Session) :
    Written (dddGiven S) S.program ∧ ∀ f, toCome f S.program = none := by
  obtain ⟨w, a, hl, -, ha, h⟩ := exists_dddLines S
  have hdebugger : Written (dddLines w) ((debugger S.host w).acts ++ (cleanup w).acts) ∧
      ∀ f, toCome f ((debugger S.host w).acts ++ (cleanup w).acts) = none := by
    unfold debugger
    split_ifs
    · exact ⟨written_of_none (by simp [cleanup, fileOf]), fun f => rfl⟩
    · exact written_dddActions _ w w
    · exact ⟨written_of_none (by simp [cleanup, fileOf]), fun f => rfl⟩
  rw [h, ← hl]
  refine ⟨⟨?_, ?_, hdebugger.1⟩, fun f => ?_⟩
  · rintro f rfl
    simp [window] at ha
  · rintro source exec f rfl
    simp [window] at ha
  · rw [toCome_window ha]
    exact hdebugger.2 f

/-- ddd is started in the source directory of the kernel. -/
theorem source_program {S : Session} {source exec file : Text}
    (h : .ddd source exec file ∈ S.program) :
    source = (tree S.host (givenKernel S.args)).kernelSource := by
  obtain ⟨w, a, -, hw, ha, hp⟩ := exists_dddLines S
  rw [hp, List.mem_cons, List.mem_append] at h
  rcases h with rfl | h | h
  · simp [window] at ha
  · rw [← hw]
    unfold debugger at h
    split_ifs at h
    · simp at h
    · simp only [dddActions, List.mem_append, List.mem_cons, List.mem_map, reduceCtorEq, and_false,
        exists_false, false_or, Action.ddd.injEq, List.not_mem_nil, or_false] at h
      exact h.1
    · simp at h
  · simp [cleanup] at h

/-! ### Runs with one script file each -/

/-- The condition on a step: an invocation that starts does not use a script file that another one is
still to use. -/
def Separate (s : State) : Act → Prop
  | .invoke _ S => ∀ j p f, s.procs j = some p → Uses f p.todo → ¬ Uses f S.program
  | _ => True

/-- **The invariant.** -/
structure Scripts (s : State) : Prop where
  written : ∀ i p, s.procs i = some p → Written (dddGiven p.session) p.todo
  complete : ∀ i p, s.procs i = some p → Complete (dddGiven p.session) s.files p.todo
  rest : ∀ i p, s.procs i = some p → p.todo ⊆ p.session.program
  apart : ∀ i j p r f, i ≠ j → s.procs i = some p → s.procs j = some r → Uses f p.todo →
    ¬ Uses f r.todo

theorem Uses.mono {f : Text} {as bs : List Action} (hs : as ⊆ bs) (h : Uses f as) : Uses f bs := by
  obtain ⟨a, ha, hf⟩ := h
  exact ⟨a, hs ha, hf⟩

section Scripts
variable {s s' : State} (h : Scripts s)
include h

/-- The invocation `i` is left as it is, or goes on, and the files that the others use stay. -/
theorem Scripts.update {i : ℕ} {p : Proc} (hs : s'.procs = Function.update s.procs i (some p))
    (hw : Written (dddGiven p.session) p.todo) (hc : Complete (dddGiven p.session) s'.files p.todo)
    (hr : p.todo ⊆ p.session.program)
    (hother : ∀ j r, j ≠ i → s.procs j = some r → Complete (dddGiven r.session) s'.files r.todo)
    (hapart : ∀ j r f, j ≠ i → s.procs j = some r → Uses f p.todo → ¬ Uses f r.todo) :
    Scripts s' := by
  refine ⟨fun j r hj => ?_, fun j r hj => ?_, fun j r hj => ?_, fun j k r t f hne hj hk hu hv => ?_⟩
  · rw [hs] at hj
    rcases of_update hj with ⟨rfl, rfl⟩ | ⟨-, hj⟩
    · exact hw
    · exact h.written j r hj
  · rw [hs] at hj
    rcases of_update hj with ⟨rfl, rfl⟩ | ⟨hne, hj⟩
    · exact hc
    · exact hother j r hne hj
  · rw [hs] at hj
    rcases of_update hj with ⟨rfl, rfl⟩ | ⟨-, hj⟩
    · exact hr
    · exact h.rest j r hj
  · rw [hs] at hj hk
    rcases of_update hj with ⟨hji, rfl⟩ | ⟨hji, hj⟩
    · rcases of_update hk with ⟨hki, -⟩ | ⟨hki, hk⟩
      · exact hne (hji.trans hki.symm)
      · exact hapart k t f hki hk hu hv
    · rcases of_update hk with ⟨-, rfl⟩ | ⟨-, hk⟩
      · exact hapart j r f hji hj hv hu
      · exact h.apart j k r t f hne hj hk hu hv

theorem scripts_step {a : Act} (hc : Separate s a) (hs : step s a = some s') : Scripts s' := by
  cases change_of_step hs with
  | invoke S hn =>
    obtain ⟨hw, hnone⟩ := written_program S
    refine h.update rfl hw (fun f ls hls => ?_) (List.Subset.refl _)
      (fun j r _ hj => h.complete j r hj) fun j r f _ hj hu hv => hc j r f hj hv hu
    have hcome : toCome f S.program = some ls := hls
    rw [hnone] at hcome
    simp at hcome
  | exec hp =>
    next i S b todo =>
    obtain ⟨d, hprocs⟩ := perform_procs s i ⟨S, todo, none⟩ b
    have hfiles : (perform s i ⟨S, todo, none⟩ b).files = fun f => contents f (s.files f) b :=
      funext (perform_files s i _ b)
    have hw := h.written i _ hp
    have hsub : todo ⊆ b :: todo := List.subset_cons_self b todo
    refine h.update hprocs hw.2.2 ?_ (List.Subset.trans hsub (h.rest i _ hp)) (fun j r hj hr => ?_)
      fun j r f hj hr hu => h.apart i j _ r f hj.symm hp hr (hu.mono hsub)
    · rw [hfiles]
      exact (h.complete i _ hp).next hw
    · rw [hfiles]
      refine (h.complete j r hr).frame fun f hf => ?_
      exact h.apart i j _ r f hj.symm hp hr ⟨b, List.mem_cons_self, hf⟩
  | debug d hp =>
    have hw := h.written _ _ hp
    have hcomplete := h.complete _ _ hp
    have hrest := h.rest _ _ hp
    exact h.update rfl hw hcomplete hrest (fun j r _ hj => h.complete j r hj)
      fun j r f hj hr hu => h.apart _ j _ r f hj.symm hp hr hu
  | qemus hqs => exact ⟨h.written, h.complete, h.rest, h.apart⟩

end Scripts

theorem scripts_of_reach {s : State} (h : Reach step Init Separate s) : Scripts s := by
  refine h.invariant (fun s hs => ?_) fun s a s' hi hc hs => scripts_step hi hc hs
  have hno : ∀ i p, s.procs i ≠ some p := fun i p hp => by simp [hs.1] at hp
  exact ⟨fun i p hp => absurd hp (hno i p), fun i p hp => absurd hp (hno i p),
    fun i p hp => absurd hp (hno i p), fun i j p r f _ hp => absurd hp (hno i p)⟩

/-- A session with ddd. -/
def dddSession : Session where
  mode := .sourced
  host := sampleHost
  args := ["--kernel=k".toList, "--terminal=gnome".toList, "--with=ddd".toList]
  vars := {}
  ready := ⟨by decide, by decide, rfl⟩
  window := Or.inl rfl

/-- The script of a session that was broken off has been left. -/
def oldScript : State := { idle with files := fun _ => ["target remote localhost:1234".toList] }

end Lightbox.Launcher.Windows
