import Lightbox.Launcher.Phases
import Lightbox.Shell.Quoted

/-! # The kernel command line on its way to QEMU

`QEMU_CMD` holds the kernel command line in single quotes. With gnome and cli-qemu it is read once,
by `bash -c`; with xfce4 it is put in double quotes, split by the terminal without expansion, and
then read by `bash -c`. The kernel command line comes through all three exactly if the value of
`--append` holds no single quote, no double quote, and no backslash that escapes inside double
quotes (`intact_iff`). -/

namespace Lightbox.Launcher.Append

open Lightbox.Shell.Lex Lightbox.Shell.Read Lightbox.Shell.Size Lightbox.Shell.Quoted
open Lightbox.Launcher.Options Lightbox.Launcher.Script Lightbox.Launcher.Phases

/-! ### The three front ends -/

/-- The texts of the words among the tokens. -/
def words (ts : List Token) : List Text :=
  ts.filterMap fun
    | .word w => some (text w)
    | _ => none

/-- The command that `bash -c` makes of an argument vector. -/
def execArgv (other : Text → Option (List Text)) : List Text → Option (List Text)
  | b :: f :: c :: _ => if b = "bash".toList ∧ f = "-c".toList then shell other c else none
  | _ => none

/-- The argument vector QEMU receives from an action of the launcher. -/
def received (other : Text → Option (List Text)) : Action → Option (List Text)
  | .gnomeTerminal _ cmd => shell other cmd
  | .bash cmd => shell other cmd
  | .xfce4Terminal _ command => (lex argv command).bind fun ts => execArgv other (words ts)
  | _ => none

/-- The launches of the front ends. -/
def launches (w : Vars) : List Action :=
  [.gnomeTerminal w.qemuTitle w.qemuCmd, .bash w.qemuCmd,
    .xfce4Terminal w.qemuTitle (xfce4Command w.qemuCmd)]

theorem launchAction_mem (H : Host) (w : Vars) : launchAction H w ∈ launches w := by
  unfold launchAction launches
  split_ifs <;> simp

/-- A run that launches QEMU does so first, and in one of these ways. -/
theorem head_launch {H : Host} {args : List Text} {v : Vars} {s : Settings}
    (hs : given H args v = some s) (hr : Ready H args) (hq : RunsQemu H (givenTerminal H args)) :
    ∃ a ∈ launches (derived H (start args s v)),
      (external (launch .sourced H args v).acts).head? = some a := by
  refine ⟨_, launchAction_mem H _, ?_⟩
  rw [(launch_of_ready hs hr).2.1]
  refine head_visible ?_
  rw [(derived_spec H _).opts]
  show RunsQemu H s.terminal
  rw [given_terminal hs]
  exact hq

/-- **The kernel command line arrives intact**: in every front end, whatever the environment, QEMU
receives the words of the rest of the command, the last of them `-append`, and then one argument. -/
structure Intact (w : Vars) : Prop where
  option : (fields (qemuHead w)).getLast? = some "-append".toList
  received : ∀ other, ∀ a ∈ launches w, received other a = some (fields (qemuHead w) ++ [appendArg w])

/-- The other settings hold no characters that are special to the shell; the path of QEMU is a
single word that is no assignment. -/
structure MetaFree (w : Vars) : Prop where
  qemuExec : ∀ c ∈ w.qemuExec, plainChar c = true
  noAssign : '=' ∉ w.qemuExec
  kernelImage : Simple w.kernelImage
  dtbPram : Simple w.dtbPram
  rootfsParam : Simple w.rootfsParam
  shareParam : Simple w.shareParam
  qemuExtraParam : Simple w.opts.qemuExtraParam

/-! ### The head of the command -/

theorem simple_append {t u : Text} : Simple (t ++ u) ↔ Simple t ∧ Simple u := by
  simp only [Simple, List.mem_append]
  exact ⟨fun h => ⟨fun c hc => h c (Or.inl hc), fun c hc => h c (Or.inr hc)⟩,
    fun h c hc => hc.elim (h.1 c) (h.2 c)⟩

theorem simple_of_plain {t : Text} (h : ∀ c ∈ t, plainChar c = true) : Simple t :=
  fun c hc => Or.inl (h c hc)

theorem plainChar_of_isDigit {c : Char} (h : c.isDigit = true) : plainChar c = true := by
  by_contra hp
  have hm : c ∈ [' ', '\t', '\'', '"', '\\', '$', '\x60', '#', '~', '*', '?', '[', ']', '{', '}',
      '!'] ++ opChars := by
    rw [List.mem_append]
    simpa only [plainChar, Bool.not_eq_true', Bool.not_eq_false, Bool.or_eq_true,
      List.contains_eq_mem, decide_eq_true_eq] using hp
  have hd : ([' ', '\t', '\'', '"', '\\', '$', '\x60', '#', '~', '*', '?', '[', ']', '{', '}',
      '!'] ++ opChars).all (fun s => !s.isDigit) = true := by decide
  have hc := List.all_eq_true.mp hd c hm
  rw [h] at hc
  simp at hc

theorem simple_toDigits (n : ℕ) : Simple (Nat.toDigits 10 n) :=
  simple_of_plain fun _ hc =>
    plainChar_of_isDigit (Nat.isDigit_of_mem_toDigits (by omega) (by omega) hc)

theorem simple_rootfsBootargsOf (s : Settings) : Simple (rootfsBootargsOf s) := by
  unfold rootfsBootargsOf
  split_ifs <;> decide

theorem simple_qemuHead {w : Vars} (h : MetaFree w) (hp : Simple w.debugPort) :
    Simple (qemuHead w) := by
  unfold qemuHead
  refine simple_append.mpr ⟨?_, by rewrite [String.toList_ofList]; decide⟩
  refine simple_append.mpr ⟨?_, hp⟩
  refine simple_append.mpr ⟨?_, by rewrite [String.toList_ofList]; decide⟩
  refine simple_append.mpr ⟨?_, by rewrite [String.toList_ofList]; decide⟩
  refine simple_append.mpr ⟨?_, h.qemuExtraParam⟩
  refine simple_append.mpr ⟨?_, by rewrite [String.toList_ofList]; decide⟩
  refine simple_append.mpr ⟨?_, by rewrite [String.toList_ofList]; decide⟩
  refine simple_append.mpr ⟨?_, h.shareParam⟩
  refine simple_append.mpr ⟨?_, by rewrite [String.toList_ofList]; decide⟩
  refine simple_append.mpr ⟨?_, h.rootfsParam⟩
  refine simple_append.mpr ⟨?_, by rewrite [String.toList_ofList]; decide⟩
  refine simple_append.mpr ⟨?_, h.dtbPram⟩
  refine simple_append.mpr ⟨?_, by rewrite [String.toList_ofList]; decide⟩
  refine simple_append.mpr ⟨?_, h.kernelImage⟩
  refine simple_append.mpr ⟨?_, by rewrite [String.toList_ofList]; decide⟩
  refine simple_append.mpr ⟨?_, by rewrite [String.toList_ofList]; decide⟩
  exact simple_append.mpr ⟨simple_of_plain h.qemuExec, by rewrite [String.toList_ofList]; decide⟩

/-- The head of the command begins with the path of QEMU. -/
theorem qemuHead_begins (w : Vars) : ∃ mid, qemuHead w = w.qemuExec ++ ' ' :: mid := by
  have hm : "                  -machine virt,gic_version=3            -cpu cortex-a72         ".toList =
      ' ' :: "                 -machine virt,gic_version=3            -cpu cortex-a72         ".toList := by
    rewrite [String.toList_ofList, String.toList_ofList]; rfl
  unfold qemuHead
  rw [hm]
  simp only [List.append_assoc, List.cons_append]
  exact ⟨_, rfl⟩

/-- It ends with `-append`. -/
theorem qemuHead_ends (w : Vars) : ∃ pre, qemuHead w = pre ++ ' ' :: "-append".toList := by
  have hs : "                -S -append".toList =
      "                -S".toList ++ ' ' :: "-append".toList := rfl
  unfold qemuHead
  rw [hs, ← List.append_assoc]
  exact ⟨_, rfl⟩

/-- The first word of a simple text that begins with a path. -/
theorem names_of_path {t x : Text} (hx : ∀ c ∈ x, plainChar c = true) (hs : '/' ∈ x)
    (he : '=' ∉ x) (u : Text) (ht : t = x ++ ' ' :: u) : Names t := by
  have hb : ' ' ∉ x := fun hb => absurd (hx _ hb) (by decide)
  have hne : x ≠ [] := fun h => by simp [h] at hs
  refine ⟨x, fields u, ?_, ?_, ?_⟩
  · rw [ht, fields_append_blank, fields_of_not_mem hb hne]
    rfl
  · rw [← Bool.not_eq_true]
    exact fun h => he (mem_of_assigns h)
  · -- no reserved word holds a slash
    have hr : ∀ r ∈ reservedWords, '/' ∉ r := by decide
    unfold isReserved
    rw [text_marked, Bool.and_eq_false_iff]
    refine Or.inr ?_
    rw [List.contains_eq_mem, decide_eq_false_iff_not]
    exact fun hm => hr x hm hs

/-- What holds of the variables of every run. -/
structure IsRun (w : Vars) : Prop where
  exec : '/' ∈ w.qemuExec
  port : Simple w.debugPort
  boot : Simple w.rootfsBootargs
  cmd : w.qemuCmd = qemuHead w ++ " '".toList ++ appendArg w ++ "'".toList

theorem isRun_derived (H : Host) (v : Vars) : IsRun (derived H v) := by
  have hd := derived_spec H v
  refine ⟨?_, ?_, ?_, hd.qemuCmd⟩
  · rw [hd.qemuExec]
    exact List.mem_append_right _ (by decide)
  · rw [hd.debugPort]
    exact simple_toDigits _
  · rw [hd.rootfsBootargs]
    exact simple_rootfsBootargsOf _

section Run
variable {w : Vars} (hm : MetaFree w) (hr : IsRun w)

include hr in
theorem qemuCmd_quoted : w.qemuCmd = qemuHead w ++ ' ' :: '\'' :: (appendArg w ++ ['\'']) := by
  rw [hr.cmd]
  simp

include hr in
/-- What the script adds to the kernel command line is harmless. -/
theorem quote_mem_appendArg : '\'' ∈ appendArg w ↔ '\'' ∈ w.opts.cmdline := by
  have hb : '\'' ∉ w.rootfsBootargs := fun h => absurd (hr.boot _ h) (by decide)
  have ht : '\'' ∉ " earlycon=pl011,0x9000000 nokaslr".toList := by decide
  unfold appendArg
  simp only [List.mem_append, List.mem_cons]
  constructor
  · rintro ((h | h | h) | h)
    · exact absurd h hb
    · simp at h
    · exact h
    · exact absurd h ht
  · exact fun h => Or.inl (Or.inr (Or.inr h))

include hm hr in
/-- `bash -c` reads the argument as it stands, unless it holds a single quote. -/
theorem readCommand_qemuCmd :
    readCommand w.qemuCmd = some (fields (qemuHead w) ++ [appendArg w]) ↔
      '\'' ∉ w.opts.cmdline := by
  have hs := simple_qemuHead hm hr.port
  rw [qemuCmd_quoted hr, ← quote_mem_appendArg hr]
  constructor
  · exact quote_not_mem_of_readCommand hs
  · intro ha
    obtain ⟨mid, hmid⟩ := qemuHead_begins w
    exact readCommand_quoted hs (names_of_path hm.qemuExec hr.exec hm.noAssign mid hmid) ha

/-! ### xfce4 -/

/-- The tokens before the quoted command. -/
def bashC : List Token := [.word (marked .bare "bash".toList), .word (marked .bare "-c".toList)]

theorem run_bashC : run argv init "bash -c \"".toList = ⟨bashC, [], .double⟩ := by decide

theorem lex_xfce4Command (t : Text) :
    lex argv (xfce4Command t) = finish (run argv ⟨bashC, [], .double⟩ (t ++ ['"'])) := by
  have hq : "\"".toList = ['"'] := rfl
  unfold lex xfce4Command
  rw [List.append_assoc, run_append, hq]
  exact congrArg (fun s => finish (run argv s (t ++ ['"']))) run_bashC

theorem execArgv_bashC (other : Text → Option (List Text)) (x : List QChar) (us : List Token) :
    execArgv other (words (bashC ++ .word x :: us)) = shell other (text x) := by
  have hw : words (bashC ++ .word x :: us) =
      "bash".toList :: "-c".toList :: text x :: words us := by
    simp [words, bashC, marked, text]
  rw [hw, execArgv, if_pos ⟨rfl, rfl⟩]

/-- The part of the command before the value of `--append`. -/
def upToCmdline (w : Vars) : Text := qemuHead w ++ ' ' :: '\'' :: (w.rootfsBootargs ++ [' '])

theorem special_not_mem_of_simple {t : Text} (h : Simple t) : '"' ∉ t ∧ '\\' ∉ t :=
  ⟨fun hm => absurd (h _ hm) (by decide), fun hm => absurd (h _ hm) (by decide)⟩

include hm hr in
theorem keeps_upToCmdline : keeps (upToCmdline w) = true ∧ (upToCmdline w).getLast? ≠ some '\\' := by
  obtain ⟨h1, h2⟩ := special_not_mem_of_simple (simple_qemuHead hm hr.port)
  obtain ⟨h3, h4⟩ := special_not_mem_of_simple hr.boot
  refine ⟨keeps_of_not_mem ?_ ?_, ?_⟩
  · simp [upToCmdline, h1, h3]
  · simp [upToCmdline, h2, h4]
  · have he : upToCmdline w = (qemuHead w ++ ' ' :: '\'' :: w.rootfsBootargs) ++ [' '] := by
      simp [upToCmdline]
    rw [he, List.getLast?_concat]
    simp

/-- The part of the command from the value of `--append` on, without the closing quote. -/
def fromCmdline (w : Vars) : Text := w.opts.cmdline ++ " earlycon=pl011,0x9000000 nokaslr".toList

theorem appendArg_eq (w : Vars) : appendArg w = w.rootfsBootargs ++ ' ' :: fromCmdline w := by
  simp [appendArg, fromCmdline]

include hr in
theorem qemuCmd_eq_append : w.qemuCmd = upToCmdline w ++ (fromCmdline w ++ ['\'']) := by
  rw [qemuCmd_quoted hr, appendArg_eq]
  simp [upToCmdline]

theorem keeps_fromCmdline (w : Vars) :
    keeps (fromCmdline w ++ ['\'']) = true ↔ keeps w.opts.cmdline = true := by
  unfold fromCmdline
  rw [List.append_assoc]
  refine ⟨keeps_of_append, fun h => keeps_append h (by decide) fun _ => ?_⟩
  simp [escapable]

include hm hr in
/-- With xfce4, a kernel command line that keeps is read as by `bash -c`. -/
theorem received_xfce4_of_keeps (other : Text → Option (List Text)) (title : Text)
    (hk : keeps w.opts.cmdline = true) :
    received other (.xfce4Terminal title (xfce4Command w.qemuCmd)) = shell other w.qemuCmd := by
  obtain ⟨h1, h2⟩ := keeps_upToCmdline hm hr
  have hall : keeps w.qemuCmd = true := by
    rw [qemuCmd_eq_append hr]
    exact keeps_append h1 ((keeps_fromCmdline w).mpr hk) fun h => absurd h h2
  have hlast : w.qemuCmd.getLast? ≠ some '\\' := by
    rw [qemuCmd_eq_append hr, ← List.append_assoc, List.getLast?_concat]
    simp
  have hl : lex argv (xfce4Command w.qemuCmd) = some (bashC ++ [.word (marked .double w.qemuCmd)]) := by
    rw [lex_xfce4Command, argv_keeps hall hlast]
  rw [received, hl, Option.bind_some, execArgv_bashC, text_marked]

include hm hr in
/-- With xfce4, no other kernel command line arrives as it stands. -/
theorem keeps_of_received_xfce4 {title : Text}
    (h : ∀ other, received other (.xfce4Terminal title (xfce4Command w.qemuCmd)) =
      some (fields (qemuHead w) ++ [appendArg w])) : keeps w.opts.cmdline = true := by
  by_contra hk
  rw [← keeps_fromCmdline, Bool.not_eq_true] at hk
  obtain ⟨h1, h2⟩ := keeps_upToCmdline hm hr
  obtain ⟨ts, hts, -⟩ := Option.bind_eq_some_iff.mp (h fun _ => none)
  have hts' := hts
  rw [lex_xfce4Command, qemuCmd_eq_append hr, List.append_assoc, List.append_assoc] at hts'
  obtain ⟨x, us, r, rfl, hx, hlt⟩ := argv_not_keeps h1 h2 hk hts'
  -- what is read is shorter than the command, by at least one character of the argument
  have hc : readCommand (upToCmdline w ++ r) = some (fields (qemuHead w) ++ [appendArg w]) := by
    rw [← hx, ← shell_forall_iff]
    intro other
    have := h other
    rw [received, hts, Option.bind_some, execArgv_bashC] at this
    exact this
  have hsplit : upToCmdline w ++ r =
      qemuHead w ++ ' ' :: '\'' :: (w.rootfsBootargs ++ ' ' :: r) := by
    simp [upToCmdline]
  rw [hsplit] at hc
  have hlen := (length_of_readCommand (simple_qemuHead hm hr.port) hc).1
  rw [appendArg_eq, List.length_append, List.length_append, List.length_cons, List.length_cons] at hlen
  omega

/-! ### All front ends -/

theorem gnome_mem (w : Vars) : Action.gnomeTerminal w.qemuTitle w.qemuCmd ∈ launches w := by
  simp [launches]

theorem xfce4_mem (w : Vars) :
    Action.xfce4Terminal w.qemuTitle (xfce4Command w.qemuCmd) ∈ launches w := by
  simp [launches]

include hm hr in
theorem of_intact (h : Intact w) : '\'' ∉ w.opts.cmdline ∧ keeps w.opts.cmdline = true := by
  refine ⟨?_, ?_⟩
  · rw [← readCommand_qemuCmd hm hr, ← shell_forall_iff]
    exact fun other => h.received other _ (gnome_mem w)
  · exact keeps_of_received_xfce4 hm hr fun other =>
      h.received other _ (xfce4_mem w)

include hm hr in
theorem intact_of (hq : '\'' ∉ w.opts.cmdline) (hk : keeps w.opts.cmdline = true) : Intact w := by
  have hshell := shell_forall_iff.mpr ((readCommand_qemuCmd hm hr).mpr hq)
  refine ⟨?_, fun other a ha => ?_⟩
  · obtain ⟨pre, hpre⟩ := qemuHead_ends w
    have hf : fields "-append".toList = ["-append".toList] :=
      fields_of_not_mem (by decide) (by decide)
    rw [hpre, fields_append_blank, hf, List.getLast?_concat]
  · simp only [launches, List.mem_cons, List.not_mem_nil, or_false] at ha
    rcases ha with rfl | rfl | rfl
    · exact hshell other
    · exact hshell other
    · rw [received_xfce4_of_keeps hm hr other _ hk]
      exact hshell other

end Run

/-- A run with the given kernel command line. -/
def withCmdline (cmdline : Text) : Vars := { opts := { kernel := "k".toList, cmdline := cmdline } }

end Lightbox.Launcher.Append
