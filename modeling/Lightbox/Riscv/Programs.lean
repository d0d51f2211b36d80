import Lightbox.Riscv.Qmp
import Lightbox.Shell.Errexit

/-! # The scripts of the RISC-V target

`run.sh`, `run-qemu.sh` and `run-gdb.sh` as commands under `set -euo pipefail`. The debugger, the commands
that quit QEMU and `tmux` may fail in `run-gdb.sh` without ending it: it comes to `tmux kill-session` exactly
if no message and not the pause fails, and then it has called the debugger once, and `printf` and `socat` with
the quit command if QEMU had its socket (`closes_of_runs`). -/

namespace Lightbox.Riscv.Programs

open Lightbox.Qmp.Protocol (Text)
open Lightbox.Shell.Errexit
open Lightbox.Riscv.Qmp (quitText)

/-- The calls of the scripts. -/
inductive Call
  | echo (line : Text)
  | hasSession | newSession
  | sendKeys (keys : Text)
  | splitWindow | selectLayout | attach
  | rmSocket
  | qemu (args : List Text)
  | command (name : Text)
  | gdb (bin : Text) (args : List Text)
  | testSocket
  | printf (json : Text)
  | socat | sleep | killSession | true
  deriving DecidableEq

/-- `set -euo pipefail` -/
def options : Options := ⟨true, true⟩

/-! ### The scripts -/

def runQemuLine : Text := "./run-qemu.sh".toList
def runGdbLine : Text := "./run-gdb.sh".toList

/-- What follows when there is no session yet. -/
def makeSession : List (Cmd Call) :=
  [.call .newSession, .call (.sendKeys runQemuLine), .call .splitWindow,
    .call (.sendKeys runGdbLine), .call .selectLayout, .call .attach]

/-- **`run.sh`** -/
def runSh : Cmd Call := .list <|
  .ite (.call .hasSession)
    (.list [.call (.echo "[INFO] tmux session 'qemu-gdb' already exists. Attaching...".toList),
      .exec .attach])
    .skip :: makeSession

def qemuArgs : List Text :=
  ["-machine".toList, "virt".toList, "-m".toList, "1G".toList, "-smp".toList, "2".toList,
    "-nographic".toList, "-bios".toList, "default".toList, "-kernel".toList,
    "arch/riscv/boot/Image".toList, "-append".toList,
    "console=ttyS0 earlycon=sbi loglevel=8 ignore_loglevel nokaslr".toList, "-S".toList,
    "-gdb".toList, "tcp::1234".toList, "-qmp".toList, "unix:/tmp/qemu-qmp.sock,server,nowait".toList]

/-- **`run-qemu.sh`** -/
def runQemu : Cmd Call := .list
  [.call (.echo "[INFO] Starting QEMU (GDB: tcp::1234, QMP: /tmp/qemu-qmp.sock)...".toList),
    .call .rmSocket, .exec (.qemu qemuArgs)]

def gdbArgs : List Text :=
  ["vmlinux".toList, "-ex".toList, "set pagination off".toList, "-ex".toList,
    "set confirm off".toList, "-ex".toList, "target remote :1234".toList, "-ex".toList,
    "source scripts/gdb/vmlinux-gdb.py".toList, "-ex".toList, "hbreak start_kernel".toList,
    "-ex".toList, "continue".toList]

/-- `qmp_cmd` -/
def qmpCmd (json : Text) : Cmd Call :=
  .ite (.call .testSocket) (.or (.pipe (.call (.printf json)) (.call .socat)) (.call .true)) .skip

def warnSocat : Cmd Call :=
  .ite (.not (.call (.command "socat".toList)))
    (.list
      [.call (.echo
        "[WARN] 'socat' is not installed. QEMU may not exit gracefully after GDB quits.".toList),
      .call (.echo
        "[WARN] Install it (e.g., 'sudo apt install socat') for graceful QMP shutdown.".toList)])
    .skip

/-- `run-gdb.sh` with the value of `GDB_BIN`. -/
def withGdb (bin : Text) : Cmd Call := .list
  [warnSocat,
    .call (.echo ("[INFO] Launching ".toList ++ bin ++ " and connecting to :1234...".toList)),
    .or (.call (.gdb bin gdbArgs)) (.call .true),
    .call (.echo "[INFO] GDB exited. Requesting QEMU graceful quit via QMP...".toList),
    qmpCmd quitText,
    .call .sleep,
    .call (.echo "[INFO] Closing tmux session 'qemu-gdb'...".toList),
    .or (.call .killSession) (.call .true)]

/-- **`run-gdb.sh`** -/
def runGdb : Cmd Call :=
  .ite (.call (.command "riscv64-linux-gnu-gdb".toList)) (withGdb "riscv64-linux-gnu-gdb".toList)
    (withGdb "gdb-multiarch".toList)

/-! ### The end of run-gdb.sh -/

abbrev Log := List (Call × ℕ)

/-- `true` succeeds. -/
def possible : Call → ℕ → Prop
  | .true, n => n = 0
  | _, _ => True

/-- The messages and the pause, which nothing protects. -/
def Call.bare : Call → Bool
  | .echo _ | .sleep => .true
  | _ => .false

/-- The calls by which the script acts on the debugger, on QEMU and on the session. -/
def Call.acts : Call → Bool
  | .gdb _ _ | .testSocket | .printf _ | .socat | .killSession => .true
  | _ => .false

/-- No message and not the pause has failed. -/
def Undisturbed (l : Log) : Prop := ∀ x ∈ l, x.1.bare = true → x.2 = 0

/-- What was done, and with which success. -/
def done (l : Log) : Log := l.filter (·.1.acts)

/-- The debugger was called, `printf` and `socat` with the quit command if the socket was there, and `tmux` to
kill the session, whatever they returned. -/
def Closed (bin : Text) (l : Log) : Prop := ∃ g t p c k, l = (.gdb bin gdbArgs, g) :: (.testSocket, t) ::
  ((if t = 0 then [(.printf quitText, p), (.socat, c)] else []) ++ [(.killSession, k)])

/-- What is to be shown of a complete run. -/
def Closes (n : ℕ) (l : Log) : Prop :=
  (.killSession ∈ l.map Prod.fst ↔ Undisturbed l) ∧
    (Undisturbed l → n = 0 ∧
      ∃ bin ∈ ["riscv64-linux-gnu-gdb".toList, "gdb-multiarch".toList], Closed bin (done l))

/-- The script has gone on undisturbed, has not closed the session, and has done what `P` says. -/
structure At (P : Log → Prop) (l : Log) : Prop where
  undisturbed : Undisturbed l
  notClosed : .killSession ∉ l.map Prod.fst
  done : P (done l)

section Rules
variable {P : Log → Prop} {l : Log} {a : Call} {n : ℕ}

theorem undisturbed_append : Undisturbed (l ++ [(a, n)]) ↔ Undisturbed l ∧ (a.bare = true → n = 0) := by
  unfold Undisturbed
  rw [List.forall_mem_append, List.forall_mem_singleton]

theorem done_append : done (l ++ [(a, n)]) = done l ++ if a.acts then [(a, n)] else [] := by
  unfold done
  rw [List.filter_append, List.filter_singleton]
  cases a.acts <;> rfl

theorem At.append (h : At P l) (hb : a.bare = true → n = 0) (hk : a ≠ .killSession) :
    At (fun d => ∃ d', P d' ∧ d = d' ++ if a.acts then [(a, n)] else []) (l ++ [(a, n)]) where
  undisturbed := undisturbed_append.mpr ⟨h.undisturbed, hb⟩
  notClosed := by
    rw [List.map_append, List.mem_append, not_or]
    exact ⟨h.notClosed, by simpa using fun he => hk he.symm⟩
  done := ⟨_, h.done, done_append⟩

/-- A call that does nothing to be recorded. -/
theorem At.silent (h : At P l) (hb : a.bare = true → n = 0) (ha : a.acts = false) :
    At P (l ++ [(a, n)]) := by
  have hk : a ≠ .killSession := by
    rintro rfl
    simp [Call.acts] at ha
  obtain ⟨h1, h2, d', hd, he⟩ := h.append hb hk
  rw [ha, if_neg (by simp), List.append_nil] at he
  exact ⟨h1, h2, he ▸ hd⟩

/-- A message, or the pause: if it fails, the script ends with the session still open. -/
theorem triple_bare (hb : a.bare = true) (ha : a.acts = false) :
    Triple options (recording possible) Closes false (At P) (.call a) fun _ => At P := by
  refine Triple.call fun l n l' hl he => ?_
  obtain ⟨-, rfl⟩ := he
  have hstop : options.stops false n = decide (n ≠ 0) := by
    by_cases hn : n = 0 <;> simp [Options.stops, options, hn]
  rw [hstop]
  by_cases hn : n = 0
  · rw [if_neg (by simpa using hn)]
    exact hl.silent (fun _ => hn) ha
  · rw [if_pos (by simpa using hn)]
    have hd : ¬ Undisturbed (l ++ [(a, n)]) := fun h => hn ((undisturbed_append.mp h).2 hb)
    refine ⟨iff_of_false (fun hm => ?_) hd, fun h => absurd h hd⟩
    rw [List.map_append, List.mem_append] at hm
    rcases hm with hm | hm
    · exact hl.notClosed hm
    · obtain rfl : Call.killSession = a := by simpa using hm
      simp [Call.acts] at ha

/-- A call whose failure does not matter, as it is tested. -/
theorem triple_tested {X : ℕ → Log → Prop} (hb : a.bare = false) (hk : a ≠ .killSession) :
    Triple options (recording possible) X true (At P) (.call a) fun n =>
      At fun d => ∃ d', P d' ∧ d = d' ++ if a.acts then [(a, n)] else [] := by
  refine Triple.call_tested fun l n l' hl he => ?_
  obtain ⟨-, rfl⟩ := he
  exact hl.append (by simp [hb]) hk

/-- `true` changes nothing. -/
theorem at_true {l' : Log} (h : At P l) (he : recording possible .true l n l') : n = 0 ∧ At P l' := by
  obtain ⟨hn, rfl⟩ := he
  exact ⟨hn, h.silent (by simp [Call.bare]) rfl⟩

end Rules

theorem At.mono {P Q : Log → Prop} {l : Log} (h : At P l) (hq : ∀ d, P d → Q d) : At Q l :=
  ⟨h.undisturbed, h.notClosed, hq _ h.done⟩

/-- The parts of `run-gdb.sh`, each with what has been done before and after. -/
def Nothing (d : Log) : Prop := d = []
def Debugged (bin : Text) (d : Log) : Prop := ∃ g, d = [(.gdb bin gdbArgs, g)]
def Asked (bin : Text) (d : Log) : Prop := ∃ g t p c, d = (.gdb bin gdbArgs, g) :: (.testSocket, t) ::
  if t = 0 then [(.printf quitText, p), (.socat, c)] else []

section Parts
variable (bin : Text)

theorem triple_warnSocat : Triple options (recording possible) Closes false (At Nothing) warnSocat
    fun _ => At Nothing := by
  have hsame : ∀ n l, At (fun d => ∃ d', Nothing d' ∧ d = d' ++
      if (Call.command "socat".toList).acts then [(Call.command "socat".toList, n)] else []) l →
        At Nothing l := fun n l h => h.mono fun d ⟨d', hd, he⟩ => by
    rw [he, hd]
    rfl
  refine Triple.ite (N := fun _ => At Nothing) (Triple.not (triple_tested rfl (by simp)) ?_) ?_ ?_
  · exact fun n l h => hsame n l h
  · exact Triple.cons (triple_bare rfl rfl) (fun _ _ h => h) (triple_bare rfl rfl)
  · exact Triple.skip fun l ⟨_, _, h⟩ => h

theorem triple_debug : Triple options (recording possible) Closes false (At Nothing)
    (.or (.call (.gdb bin gdbArgs)) (.call .true)) fun _ => At (Debugged bin) := by
  refine (Triple.or_true (M := At (Debugged bin)) ?_ fun l n l' h he => at_true h he).conseq
    (fun _ h => h) fun _ _ h => h.2
  refine (triple_tested rfl (by simp)).conseq (fun _ h => h) fun n l h => h.mono ?_
  rintro d ⟨d', rfl, he⟩
  exact ⟨n, he⟩

/-- Whatever becomes of the request, the script goes on. -/
theorem triple_qmpCmd : Triple options (recording possible) Closes false (At (Debugged bin))
    (qmpCmd quitText) fun _ => At (Asked bin) := by
  refine Triple.ite (triple_tested rfl (by simp)) ?_ ?_
  · refine (Triple.or_true (M := At (Asked bin)) ?_ fun l n l' h he => at_true h he).conseq
      (fun _ h => h) fun _ _ h => h.2
    refine Triple.pipe (triple_tested rfl (by simp)) (fun m => triple_tested rfl (by simp)) ?_
    intro p c l h
    have hno : options.stops true (options.pipeStatus p c) = false := by simp [Options.stops]
    rw [hno, if_neg (by simp)]
    refine h.mono ?_
    rintro d ⟨d₃, ⟨d₂, ⟨d₁, ⟨g, rfl⟩, rfl⟩, rfl⟩, rfl⟩
    exact ⟨g, 0, p, c, rfl⟩
  · refine Triple.skip ?_
    rintro l ⟨t, ht, h⟩
    refine h.mono ?_
    rintro d ⟨d₁, ⟨g, rfl⟩, rfl⟩
    exact ⟨g, t, 0, 0, by rw [if_neg ht]; rfl⟩

theorem triple_close (hbin : bin ∈ ["riscv64-linux-gnu-gdb".toList, "gdb-multiarch".toList]) :
    Triple options (recording possible) Closes false (At (Asked bin))
      (.or (.call .killSession) (.call .true)) Closes := by
  let M : Log → Prop := fun l =>
    .killSession ∈ l.map Prod.fst ∧ Undisturbed l ∧ Closed bin (done l)
  have hfinal : ∀ n l, n = 0 ∧ M l → Closes n l := fun n l ⟨hn, hk, hu, hd⟩ =>
    ⟨iff_of_true hk hu, fun _ => ⟨hn, bin, hbin, hd⟩⟩
  refine (Triple.or_true (M := M) ?_ ?_).conseq (fun _ h => h) hfinal
  · refine Triple.call_tested fun l n l' h he => ?_
    obtain ⟨-, rfl⟩ := he
    refine ⟨by simp, undisturbed_append.mpr ⟨h.undisturbed, by simp [Call.bare]⟩, ?_⟩
    obtain ⟨g, t, p, c, hd⟩ := h.done
    rw [done_append, hd]
    exact ⟨g, t, p, c, n, rfl⟩
  · rintro l n l' ⟨hk, hu, hd⟩ ⟨hn, rfl⟩
    refine ⟨hn, ?_, undisturbed_append.mpr ⟨hu, by simp [Call.bare]⟩, ?_⟩
    · rw [List.map_append]
      exact List.mem_append_left _ hk
    · rwa [done_append, if_neg (by simp [Call.acts]), List.append_nil]

theorem triple_withGdb (hbin : bin ∈ ["riscv64-linux-gnu-gdb".toList, "gdb-multiarch".toList]) :
    Triple options (recording possible) Closes false (At Nothing) (withGdb bin) Closes :=
  .cons triple_warnSocat (fun _ _ h => h) <|
  .cons (triple_bare rfl rfl) (fun _ _ h => h) <|
  .cons (triple_debug bin) (fun _ _ h => h) <|
  .cons (triple_bare rfl rfl) (fun _ _ h => h) <|
  .cons (triple_qmpCmd bin) (fun _ _ h => h) <|
  .cons (triple_bare rfl rfl) (fun _ _ h => h) <|
  .cons (triple_bare rfl rfl) (fun _ _ h => h) <|
  triple_close bin hbin

end Parts

/-- **When `run-gdb.sh` closes its session**: exactly if no message and not the pause fails, whatever the
debugger, `socat` and `tmux` return; and then this is what it has done. -/
theorem closes_of_runs {l : Log} {n : ℕ}
    (h : Runs (recording possible) (script options runGdb) [] n l) : Closes n l := by
  have hstart : At Nothing [] := ⟨by simp [Undisturbed], by simp, rfl⟩
  have hsame : ∀ (_ : ℕ) l, At (fun d => ∃ d', Nothing d' ∧ d = d' ++ []) l → At Nothing l :=
    fun _ _ h => h.mono fun d ⟨d', hd, he⟩ => by rw [he, hd]; rfl
  refine Triple.runs (P := At Nothing) ?_ hstart h
  refine Triple.ite (N := fun _ => At Nothing) ((triple_tested rfl (by simp)).conseq
    (fun _ h => h) hsame) (triple_withGdb _ (by simp)) ?_
  exact (triple_withGdb _ (by simp)).conseq (fun _ ⟨_, _, h⟩ => h) fun _ _ h => h

/-- The debugger fails, and there is no socket: the session is closed all the same. -/
theorem closes_of_runs_failed : ∃ l n, Runs (recording possible) (script options runGdb) [] n l ∧
    (.gdb "gdb-multiarch".toList gdbArgs, 1) ∈ l ∧ (.testSocket, 1) ∈ l ∧ Closes n l := by
  have hr : Runs (recording possible) (script options runGdb) [] 0 _ :=
    .call (m := 1) ⟨trivial, rfl⟩ <| .call (m := 0) ⟨trivial, rfl⟩ <|
    .call (m := 0) ⟨trivial, rfl⟩ <| .call (m := 1) ⟨trivial, rfl⟩ <| .call (m := 0) ⟨rfl, rfl⟩ <|
    .call (m := 0) ⟨trivial, rfl⟩ <| .call (m := 1) ⟨trivial, rfl⟩ <| .call (m := 0) ⟨trivial, rfl⟩ <|
    .call (m := 0) ⟨trivial, rfl⟩ <| .call (m := 0) ⟨trivial, rfl⟩ <| .done 0 _
  exact ⟨_, _, hr, by simp, by simp, closes_of_runs hr⟩

end Lightbox.Riscv.Programs
