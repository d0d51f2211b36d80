import Lightbox.Launcher.Relay
import Lightbox.Riscv.Scripts

/-! # Other tmux sessions

The launcher addresses its session by the name `lightbox`, without a leading `=`: where that session
does not exist, tmux takes the name for the beginning of another. In tmux mode it also splits a
window without naming a session, which inside tmux is the one the user works in, and outside of tmux
the last used one: that of the launcher, unless QEMU has ended, and the session with it, before the
window is split.

`others_alone_iff` says when a run leaves all other sessions alone, for both terminals and for the
scripts of the RISC-V target, whenever their sessions end. -/

namespace Lightbox.Launcher.TmuxSessions

open Lightbox.Shell.Lex (Text)
open Lightbox.Shell.Control (Mode Signal)
open Lightbox.Tmux.Sessions
open Lightbox.Launcher.Options Lightbox.Launcher.Script Lightbox.Launcher.Phases
open Lightbox.Launcher.Relay (afterTmux launch_tmux tmuxHost)
open Lightbox.Riscv.Scripts

/-! ### The commands of a run -/

/-- The command of the multiplexer in an action. -/
def command : Action → Option Command
  | .tmux (.killSession n) => some (.kill n)
  | .tmux (.newSession n _ _) => some (.new n)
  | .tmux (.sendKeys n keys) => some (.keys n keys)
  | .tmux (.splitWindow _) => some (.split none)
  | .tmux (.attachSession n) => some (.attach n)
  | _ => none

def tmuxCommands (as : List Action) : List Command := as.filterMap command

/-- The commands of tmux mode until QEMU is started, `a` and `b` being the lines that are typed. -/
def startQemu (a b : Text) : List Command :=
  [.kill lightbox, .new lightbox, .keys lightbox a, .keys lightbox b]

/-- The commands of tmux mode from then on, behind the splitting of the window: `a` and `c` are the lines that
are typed, and the session is killed `k + 1` times. -/
def startGdb (a c : Text) (k : ℕ) : List Command :=
  [.keys lightbox a, .keys lightbox c, .attach lightbox] ++ List.replicate (k + 1) (.kill lightbox)

/-- The commands of tmux mode. -/
def tmuxRun (a b c : Text) (k : ℕ) : List Command := startQemu a b ++ .split none :: startGdb a c k

theorem tmuxCommands_external (as : List Action) :
    tmuxCommands (external as) = tmuxCommands as := by
  unfold tmuxCommands external
  rw [List.filterMap_filter]
  congr 1
  funext a
  cases a <;> rfl

theorem tmuxCommands_append (as bs : List Action) :
    tmuxCommands (as ++ bs) = tmuxCommands as ++ tmuxCommands bs := List.filterMap_append

theorem tmuxCommands_debugger (H : Host) (v : Vars) : tmuxCommands (debugger H v).acts = [] := by
  unfold debugger
  split_ifs
  · rfl
  · rfl
  · rfl

section Launch
variable {H : Host} {args : List Text} {v : Vars} (hr : Ready H args) (m : Mode)
include hr

/-- In tmux mode the session is killed once more than it is made; executed, the run goes on and kills
it again. -/
theorem tmuxCommands_tmux (ht : givenTerminal H args = "tmux".toList) :
    ∃ a b c k, tmuxCommands (launch m H args v).acts = tmuxRun a b c k := by
  obtain ⟨w, hw⟩ := launch_tmux (m := m) (v := v) hr.accepted (fun _ => hr) ht
  rw [← tmuxCommands_external, hw, tmuxCommands_append]
  cases m with
  | sourced => exact ⟨_, _, _, 0, rfl⟩
  | executed =>
    have hrest : tmuxCommands (afterTmux .executed H w) = [.kill lightbox] := by
      show tmuxCommands (external ((debugger H w).acts ++ (cleanup w).acts)) = _
      rw [tmuxCommands_external, tmuxCommands_append, tmuxCommands_debugger]
      rfl
    rw [hrest]
    exact ⟨_, _, _, 1, rfl⟩

theorem tmuxCommands_cliGdb (ht : givenTerminal H args = "cli-gdb".toList) :
    tmuxCommands (launch m H args v).acts = [.kill lightbox] := by
  obtain ⟨s, hs⟩ := Option.isSome_iff_exists.mp ((given_isSome H args v).mpr hr.accepted)
  have hw : (derived H (start args s v)).opts.terminal = "cli-gdb".toList := by
    rw [(derived_spec H (start args s v)).opts, ← ht, ← given_terminal hs]
    rfl
  rw [← tmuxCommands_external, (launch_of_ready hs hr).2.1, tmuxCommands_external, acts_visible]
  generalize derived H (start args s v) = w at hw
  have hterm : terminal H w = ⟨w, [.echo "Try to connect QEMU...".toList], .next⟩ := by
    unfold terminal
    rw [hw]
    rfl
  have hnext : Signal.stops m (.next : Signal) = false := by cases m <;> rfl
  rw [hterm, hnext, if_neg (by simp), tmuxCommands_append, tmuxCommands_append, tmuxCommands_debugger]
  rfl

end Launch

/-! ### The session of the launcher -/

theorem literal_lightbox : Literal lightbox := literal_of_all (by decide) (by decide)

section Outside
variable (g : Fnmatch) {cl : Client} (hcur : cl.current = none) {S : Server}
include hcur

/-- Until the window is split: the session is made anew, and is the last used one. -/
theorem names_startQemu (h : lightbox ∈ S.names ∨ (others lightbox S.names).length ≠ 1) (a b : Text) :
    (run g cl (startQemu a b) S).names = lightbox :: S.names.filter (· ≠ lightbox) := by
  have hkill := names_exec_kill g cl literal_lightbox h
  have hnot : lightbox ∉ (exec g cl S (.kill lightbox)).1.names := by
    rw [hkill]
    simp
  rw [startQemu, run_cons hcur, run_cons hcur, run_cons hcur, run_cons hcur, run, names_exec_keys,
    names_exec_keys, names_exec_new hnot, hkill]

/-- Outside of tmux the window of the launcher's own session is split, if that has not ended. -/
theorem run_split (h : (others lightbox S.names).length ≠ 1) (a b : Text) (cs : List Command) :
    run g cl (startQemu a b ++ .split none :: cs) S =
      run g cl (startQemu a b ++ .split (some lightbox) :: cs) S := by
  have hnames := names_startQemu g hcur (Or.inr h) a b
  rw [run_append hcur, run_append hcur, run_cons hcur, run_cons hcur]
  have hfirst : (run g cl (startQemu a b) S).sessions.head?.map Session.name = some lightbox := by
    rw [← List.head?_map]
    exact congrArg List.head? hnames
  congr 2
  rw [exec, exec, splitTarget, splitTarget, hcur, Option.none_or, hfirst,
    resolve_of_mem literal_lightbox (by rw [hnames]; exact List.mem_cons_self)]

omit hcur in
theorem own_startQemu (a b : Text) : ∀ d ∈ startQemu a b, d.Own lightbox := by
  intro d hd
  simp only [startQemu, List.mem_cons, List.not_mem_nil, or_false] at hd
  rcases hd with rfl | rfl | rfl | rfl
  · exact Or.inl rfl
  · rfl
  · exact Or.inl rfl
  · exact Or.inl rfl

omit hcur in
/-- The commands behind the splitting of the window, with the end of the session among them. -/
theorem own_ending (a c : Text) (k j : ℕ) :
    ∀ d ∈ ending lightbox j (startGdb a c k), d.Own lightbox ∧ ∀ n, d ≠ .new n := by
  intro d hd
  rcases mem_ending.mp hd with rfl | hd
  · exact ⟨Or.inr rfl, by simp⟩
  · rcases List.mem_append.mp hd with hd | hd
    · simp only [List.mem_cons, List.not_mem_nil, or_false] at hd
      rcases hd with rfl | rfl | rfl <;> exact ⟨Or.inl rfl, by simp⟩
    · rw [List.eq_of_mem_replicate hd]
      exact ⟨Or.inl rfl, by simp⟩

omit hcur in
/-- The end of the session, of itself or while the client is attached to it, is behind lines that are typed,
and the session is killed afterwards. -/
theorem ending_startGdb (a c : Text) (k j : ℕ) : ∃ ls e cs,
    ending lightbox j (startGdb a c k) = ls ++ e :: cs ∧ (∀ d ∈ ls, ∃ l, d = .keys lightbox l) ∧
      (e = .kill ('=' :: lightbox) ∨ e = .attach lightbox) ∧ .kill lightbox ∈ cs := by
  have hkeys : ∀ d ∈ [Command.keys lightbox a, .keys lightbox c], ∃ l, d = .keys lightbox l := by
    intro d hd
    simp only [List.mem_cons, List.not_mem_nil, or_false] at hd
    rcases hd with rfl | rfl
    · exact ⟨a, rfl⟩
    · exact ⟨c, rfl⟩
  have hkill : ∀ ls : List Command,
      .kill lightbox ∈ ls ++ List.replicate (k + 1) (.kill lightbox) :=
    fun ls => List.mem_append_right _ (by simp)
  match j with
  | 0 => exact ⟨[], _, _, rfl, by simp, Or.inl rfl, hkill [_, _, _]⟩
  | 1 => exact ⟨[_], _, _, rfl, by simp, Or.inl rfl, hkill [_, _]⟩
  | 2 => exact ⟨[_, _], _, _, rfl, hkeys, Or.inl rfl, hkill [_]⟩
  | i + 3 => exact ⟨[_, _], _, _, rfl, hkeys, Or.inr rfl, mem_ending.mpr (Or.inr (hkill []))⟩

/-- Lines are typed, and the session ends. -/
theorem names_ended (hends : cl.ends = true) {e : Command}
    (he : e = .kill ('=' :: lightbox) ∨ e = .attach lightbox) : ∀ {ls : List Command} {S : Server},
      lightbox ∈ S.names → (∀ d ∈ ls, ∃ l, d = .keys lightbox l) →
        (exec g cl (run g cl ls S) e).1.names = S.names.filter (· ≠ lightbox)
  | [], S, h, _ => by
    rcases he with rfl | rfl
    · exact names_exec_exact lightbox
    · exact names_exec_attach g cl literal_lightbox hcur hends h
  | d :: ls, S, h, hls => by
    obtain ⟨l, rfl⟩ := hls d List.mem_cons_self
    have hnames : (exec g cl S (.keys lightbox l)).1.names = S.names := names_exec_keys _ _
    rw [run_cons hcur, names_ended hends he (by rw [hnames]; exact h)
      (fun d hd => hls d (List.mem_cons_of_mem _ hd)), hnames]

end Outside

/-! ### Sessions left alone by tmux mode -/

theorem ending_tmuxRun (a b c : Text) (k j : ℕ) : ending lightbox (4 + j) (tmuxRun a b c k) =
    startQemu a b ++ ending lightbox j (.split none :: startGdb a c k) :=
  ending_append lightbox j (startQemu a b) _

theorem new_ending (a b c : Text) (k j : ℕ) {n : Name} (hn : n ≠ lightbox) :
    ∀ d ∈ startQemu a b ++ ending lightbox j (.split none :: startGdb a c k), d ≠ .new n := by
  rintro d hd rfl
  rcases List.mem_append.mp hd with hd | hd
  · simp [startQemu, hn] at hd
  · rcases mem_ending.mp hd with hd | hd
    · simp at hd
    · rcases List.mem_cons.mp hd with hd | hd
      · simp at hd
      · exact (own_ending a c k 0 _ (mem_ending.mpr (Or.inr hd))).2 n rfl

section Tmux
variable {g : Fnmatch} {S : Server} {cur : Option Name} (a b c : Text) (k : ℕ)

/-- Outside of tmux, with no name or several that begin with `lightbox`, if the session does not end before the
window is split. -/
theorem kept_tmux_outside (h : (others lightbox S.names).length ≠ 1) (ends : Bool) (j : ℕ) :
    Kept lightbox S (run g ⟨none, ends⟩
      (startQemu a b ++ ending lightbox (j + 1) (.split none :: startGdb a c k)) S) := by
  show Kept lightbox S (run g ⟨none, ends⟩
    (startQemu a b ++ .split none :: ending lightbox j (startGdb a c k)) S)
  rw [run_split g rfl h]
  refine (kept_run g _ literal_lightbox (fun d hd => ?_) h).1
  rcases List.mem_append.mp hd with hd | hd
  · exact own_startQemu a b d hd
  · rcases List.mem_cons.mp hd with rfl | hd
    · exact ⟨lightbox, rfl, Or.inl rfl⟩
    · exact (own_ending a c k j d hd).1

/-- In a session `lightbox`, the first command ends that session and the script with it. -/
theorem kept_tmux_own (h : lightbox ∈ S.names) (ends : Bool) (cs : List Command) :
    Kept lightbox S (run g ⟨some lightbox, ends⟩ (startQemu a b ++ cs) S) := by
  have hkill : exec g ⟨some lightbox, ends⟩ S (.kill lightbox) = (S.remove lightbox, false) := by
    rw [exec, resolve_of_mem literal_lightbox h]
    simp
  show Kept lightbox S (run _ _ (.kill lightbox :: _) S)
  rw [run, hkill]
  exact kept_remove lightbox S

/-- In another session, the window of that session is split. -/
theorem not_kept_tmux_inside {n : Name} (hn : n ∈ S.names) (hne : n ≠ lightbox) (ends : Bool) (j : ℕ) :
    ¬ Kept lightbox S (run g ⟨some n, ends⟩
      (startQemu a b ++ ending lightbox j (.split none :: startGdb a c k)) S) := by
  obtain ⟨x, hx, rfl⟩ := List.mem_map.mp hn
  refine Lost.not_kept (x := x) ?_ hx hne
  refine lost_of_split rfl (longer_of_mem hx) (new_ending a b c k j hne) ?_
  exact List.mem_append_right _ (mem_ending.mpr (Or.inr List.mem_cons_self))

/-- Outside of tmux, with another session, if that of the launcher ends before the window is split: the window
of the other one is split. -/
theorem not_kept_tmux_early (h : lightbox ∈ S.names ∨ (others lightbox S.names).length ≠ 1)
    {n : Name} (hn : n ∈ S.names) (hne : n ≠ lightbox) (ends : Bool) :
    ¬ Kept lightbox S (run g ⟨none, ends⟩
      (startQemu a b ++ ending lightbox 0 (.split none :: startGdb a c k)) S) := by
  set T := (exec g ⟨none, ends⟩ (run g ⟨none, ends⟩ (startQemu a b) S) (.kill ('=' :: lightbox))).1
  have hnames : T.names = S.names.filter (· ≠ lightbox) := by
    rw [names_exec_exact, names_startQemu g rfl h]
    simp
  obtain ⟨m, hm⟩ : ∃ m, T.names.head? = some m := by
    cases hT : T.names with
    | nil =>
      rw [hT] at hnames
      have : n ∈ S.names.filter (· ≠ lightbox) := List.mem_filter.mpr ⟨hn, by simpa using hne⟩
      rw [← hnames] at this
      simp at this
    | cons m ms => exact ⟨m, rfl⟩
  obtain ⟨hmem, hml⟩ : m ∈ S.names ∧ m ≠ lightbox := by
    have := List.mem_of_mem_head? hm
    rw [hnames, List.mem_filter] at this
    exact ⟨this.1, by simpa using this.2⟩
  obtain ⟨x, hx, rfl⟩ := List.mem_map.mp hmem
  have hnew := new_ending a b c k 0 hml
  refine Lost.not_kept (x := x) ?_ hx hml
  have hT : Longer 0 x T := by
    refine Longer.exec (Longer.run (longer_of_mem hx) fun d hd => ?_) g _ (by simp)
    exact hnew d (List.mem_append_left _ hd)
  have hsplit := lost_of_split_last g ⟨none, ends⟩ rfl hm hT
  rw [run_append rfl]
  show Lost x (run _ _ (.kill ('=' :: lightbox) :: .split none :: startGdb a c k) _)
  rw [run_cons rfl, run_cons rfl]
  refine Longer.run hsplit fun d hd => hnew d ?_
  exact List.mem_append_right _ (mem_ending.mpr (Or.inr (List.mem_cons_of_mem _ hd)))

/-- Outside of tmux, with one other name that begins with `lightbox`: that session is killed by the first
command, or a command for the launcher's own session reaches it when that has ended. -/
theorem not_kept_tmux_outside {n : Name} (h : others lightbox S.names = [n]) (j : ℕ) :
    ¬ Kept lightbox S (run g ⟨none, true⟩
      (startQemu a b ++ ending lightbox j (.split none :: startGdb a c k)) S) := by
  obtain ⟨x, hx, rfl, hne⟩ := session_of_others h
  have hnew := new_ending a b c k j hne
  by_cases hmem : lightbox ∈ S.names
  · cases j with
    | zero => exact not_kept_tmux_early a b c k (Or.inl hmem) (List.mem_map_of_mem hx) hne true
    | succ j =>
      obtain ⟨ls, e, cs, hcs, hls, he, hkill⟩ := ending_startGdb a c k j
      have hown := own_ending a c k j
      rw [hcs] at hown
      refine Lost.not_kept (x := x) ?_ hx hne
      -- the commands until the session has ended
      set T := run g ⟨none, true⟩ (startQemu a b ++ [.split none]) S
      have hT : T.names = lightbox :: S.names.filter (· ≠ lightbox) := by
        show (run _ _ (startQemu a b ++ [.split none]) S).names = _
        rw [run_append rfl, run_singleton, names_exec_split, names_startQemu g rfl (Or.inl hmem)]
      have hended : (exec g ⟨none, true⟩ (run g ⟨none, true⟩ ls T) e).1.names =
          S.names.filter (· ≠ lightbox) := by
        rw [names_ended g rfl rfl he (by rw [hT]; exact List.mem_cons_self) hls, hT]
        simp
      have hlonger : Longer 0 x (exec g ⟨none, true⟩ (run g ⟨none, true⟩ ls T) e).1 := by
        refine Longer.exec (Longer.run (Longer.run (longer_of_mem hx) fun d hd => ?_) fun d hd => ?_)
          g _ ((hown e (by simp)).2 _)
        · rcases List.mem_append.mp hd with hd | hd
          · exact hnew d (List.mem_append_left _ hd)
          · rw [List.mem_singleton.mp hd]
            simp
        · exact (hown d (List.mem_append_left _ hd)).2 _
      have hsplit : startQemu a b ++ ending lightbox (j + 1) (.split none :: startGdb a c k) =
          (startQemu a b ++ [.split none]) ++ (ls ++ e :: cs) := by
        rw [← hcs, List.append_assoc]
        rfl
      rw [hsplit, run_append rfl, run_append rfl, run_cons rfl]
      refine lost_run rfl literal_lightbox (by rw [hended]; simp) ?_ hlonger
        (fun d hd => hown d (by simp [hd])) hkill
      rw [hended, others_remove, h]
  · -- the first command does not find the session `lightbox`
    refine Lost.not_kept (x := x) ?_ hx hne
    show Lost x (run _ _ (.kill lightbox :: _) S)
    rw [run_cons rfl, exec_kill_other g _ literal_lightbox hmem h]
    exact Longer.run longer_remove_self fun d hd => hnew d (List.mem_cons_of_mem _ hd)

/-- **When tmux mode leaves all other sessions alone**, however the attachment ends, and if the session of the
launcher ends after `j` of the commands that follow the start of QEMU. -/
theorem kept_tmux_iff (hcur : ∀ n, cur = some n → n ∈ S.names) (j : ℕ) :
    (∀ ends, Kept lightbox S (run g ⟨cur, ends⟩ (ending lightbox (4 + j) (tmuxRun a b c k)) S)) ↔
      cur = some lightbox ∨ cur = none ∧ (others lightbox S.names).length ≠ 1 ∧
        (j = 0 → ∀ n ∈ S.names, n = lightbox) := by
  rw [ending_tmuxRun]
  match cur with
  | none =>
    constructor
    · intro hk
      have hlen : (others lightbox S.names).length ≠ 1 := fun hlen => by
        obtain ⟨n, hn⟩ := List.length_eq_one_iff.mp hlen
        exact not_kept_tmux_outside a b c k hn j (hk true)
      refine Or.inr ⟨rfl, hlen, ?_⟩
      rintro rfl n hn
      by_contra hne
      exact not_kept_tmux_early a b c k (Or.inr hlen) hn hne true (hk true)
    · rintro (h | ⟨-, h, hearly⟩) ends
      · simp at h
      · cases j with
        | zero =>
          intro x hx hne
          exact absurd (hearly rfl _ (List.mem_map_of_mem hx)) hne
        | succ j => exact kept_tmux_outside a b c k h ends j
  | some n =>
    have hn := hcur n rfl
    constructor
    · intro hk
      refine Or.inl (congrArg some (by_contra fun hne => ?_))
      exact not_kept_tmux_inside a b c k hn hne true j (hk true)
    · rintro (h | ⟨h, -⟩) ends
      · obtain rfl := Option.some.inj h
        exact kept_tmux_own a b hn ends _
      · simp at h

end Tmux

/-! ### Whole runs -/

/-- The run of the launcher leaves all sessions but its own alone, whatever ends its attachment, if the session
ends after `j` of the commands that follow the start of QEMU in it (or has been ended by the run before). -/
def OthersAlone (g : Fnmatch) (S : Server) (cur : Option Name) (j : ℕ) (as : List Action) : Prop :=
  ∀ ends, Kept lightbox S (run g ⟨cur, ends⟩ (ending lightbox (4 + j) (tmuxCommands as)) S)

/-- **When all other sessions are left alone**, by a complete run in tmux mode, by one in cli-gdb mode
and by the scripts of the RISC-V target, for a shell in the session `cur` or in none, and whenever the
sessions end. -/
theorem others_alone_iff (g : Fnmatch) (S : Server) (cur : Option Name) (H : Host)
    (args : List Text) (v : Vars) (m : Mode) (hcur : ∀ n, cur = some n → n ∈ S.names)
    (hr : Ready H args) :
    (givenTerminal H args = "tmux".toList → ∀ j,
      (OthersAlone g S cur j (launch m H args v).acts ↔
        cur = some lightbox ∨ cur = none ∧ (others lightbox S.names).length ≠ 1 ∧
          (j = 0 → ∀ n ∈ S.names, n = lightbox))) ∧
    (givenTerminal H args = "cli-gdb".toList → ∀ j,
      (OthersAlone g S cur j (launch m H args v).acts ↔
        lightbox ∈ S.names ∨ (others lightbox S.names).length ≠ 1)) ∧
    ((∀ k ends, Kept qemuGdb S (runSh g ⟨cur, ends⟩ k S)) ↔
      cur.isSome ∨ qemuGdb ∈ S.names ∨ (others qemuGdb S.names).length ≠ 1) := by
  refine ⟨fun ht j => ?_, fun ht j => ?_, kept_runSh_iff⟩
  · obtain ⟨a, b, c, k, hcmds⟩ := tmuxCommands_tmux (v := v) hr m ht
    unfold OthersAlone
    rw [hcmds]
    exact kept_tmux_iff a b c k hcur j
  · have hend : ending lightbox (4 + j) [.kill lightbox] =
        [.kill lightbox, .kill ('=' :: lightbox)] := by
      have hj : [Command.kill lightbox].length ≤ 4 + j := Nat.le_trans (by decide) (Nat.le_add_right 4 j)
      rw [ending, List.take_of_length_le hj, List.drop_eq_nil_of_le hj]
      rfl
    unfold OthersAlone
    rw [tmuxCommands_cliGdb hr m ht, hend]
    constructor
    · intro h
      exact (kept_kill_iff literal_lightbox).mp (h true)
    · intro h ends
      exact (kept_kill_iff literal_lightbox).mpr h

/-- Patterns without special characters. -/
def plain : Fnmatch := ⟨fun p n => p = n, fun _ _ _ h => (of_decide_eq_true h).symm⟩

/-- A server with one session. -/
def oneSession (n : Name) : Server := ⟨[⟨n, []⟩], List.nodup_singleton n⟩

theorem others_alone_iff_editor :
    OthersAlone plain (oneSession "editor".toList) none 1
      (launch .sourced tmuxHost ["--kernel=/src/linux".toList] {}).acts ∧
    ∀ k ends, Kept qemuGdb (oneSession "editor".toList)
      (runSh plain ⟨none, ends⟩ k (oneSession "editor".toList)) := by
  obtain ⟨htmux, -, hriscv⟩ := others_alone_iff plain (oneSession "editor".toList) none tmuxHost
    ["--kernel=/src/linux".toList] {} .sourced (by simp) (by decide)
  refine ⟨(htmux (by decide) 1).mpr (Or.inr ⟨rfl, ?_, by simp⟩), hriscv.mpr (Or.inr (Or.inr ?_))⟩
  · decide
  · decide

/-- A session `lightbox2` is killed by a run in cli-gdb mode, and a client of `run.sh` is attached to a
session `qemu-gdb-old`. -/
theorem not_others_alone_longer :
    ¬ OthersAlone plain (oneSession "lightbox2".toList) none 1
      (launch .sourced tmuxHost ["--kernel=/src/linux".toList, "--terminal=cli-gdb".toList] {}).acts ∧
    ¬ Kept qemuGdb (oneSession "qemu-gdb-old".toList)
      (runSh plain ⟨none, false⟩ 0 (oneSession "qemu-gdb-old".toList)) := by
  constructor
  · intro h
    have hr : Ready tmuxHost ["--kernel=/src/linux".toList, "--terminal=cli-gdb".toList] := by
      decide
    have hcmds := tmuxCommands_cliGdb (v := {}) hr .sourced (by decide)
    have hk := h true ⟨"lightbox2".toList, []⟩ (List.mem_singleton_self _) (by decide)
    rw [hcmds] at hk
    revert hk
    decide
  · intro h
    have hk := h ⟨"qemu-gdb-old".toList, []⟩ (List.mem_singleton_self _) (by decide)
    revert hk
    decide

end Lightbox.Launcher.TmuxSessions
