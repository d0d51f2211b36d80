import Lightbox.Riscv.Programs
import Lightbox.Tmux.Sessions

/-! # The session of the RISC-V target

`run.sh` attaches to the session `qemu-gdb`, or makes it, types `run-qemu.sh` and `run-gdb.sh` into
its panes and attaches to it then. `run-gdb.sh` runs in that session, and kills it when the debugger
has ended. `runSh` says what the two do to the server; the executions of `run.sh` under `set -e`, in
which `run-gdb.sh` may end as soon as it has been started, do this and nothing else (`runs_runSh`,
`exists_runs`).

Where the name `qemu-gdb` is taken for another session, `run.sh` attaches to that one: this is the
only way in which another session is touched (`kept_runSh_iff`). -/

namespace Lightbox.Riscv.Scripts

open Lightbox.Shell.Errexit
open Lightbox.Tmux.Sessions

def qemuGdb : Name := "qemu-gdb".toList

/-- `run.sh` until `run-gdb.sh` is started. -/
def openSession : List Command :=
  [.new qemuGdb, .keys qemuGdb "./run-qemu.sh".toList, .split (some qemuGdb),
    .keys qemuGdb "./run-gdb.sh".toList]

def showSession : List Command := [.layout qemuGdb, .attach qemuGdb]

/-- The end of `run-gdb.sh`, which is gone if the session it runs in is gone. -/
def closeSession (g : Fnmatch) (S : Server) : Server :=
  if S.names.contains qemuGdb then (exec g ⟨some qemuGdb, false⟩ S (.kill qemuGdb)).1 else S

/-- **`run.sh` with `run-gdb.sh`**, which ends after `k` of the commands that follow its start. -/
def runSh (g : Fnmatch) (cl : Client) (k : ℕ) (S : Server) : Server :=
  if (resolve g S.names qemuGdb).isSome then closeSession g (run g cl [.attach qemuGdb] S)
  -- a command whose target is gone does nothing, and neither does the rest of the script
  else run g cl (showSession.drop k)
    (closeSession g (run g cl (openSession ++ showSession.take k) S))

theorem literal_qemuGdb : Literal qemuGdb := literal_of_all (by decide) (by decide)

theorem own_openSession : ∀ c ∈ openSession, c.Own qemuGdb := by
  intro c hc
  simp only [openSession, List.mem_cons, List.not_mem_nil, or_false] at hc
  rcases hc with rfl | rfl | rfl | rfl
  · rfl
  · exact Or.inl rfl
  · exact ⟨qemuGdb, rfl, Or.inl rfl⟩
  · exact Or.inl rfl

theorem own_showSession : ∀ c ∈ showSession, c.Own qemuGdb := by
  intro c hc
  simp only [showSession, List.mem_cons, List.not_mem_nil, or_false] at hc
  rcases hc with rfl | rfl <;> exact Or.inl rfl

section Sessions
variable {g : Fnmatch} {S : Server}

theorem touches_closeSession : Touches (.kill qemuGdb) qemuGdb S (closeSession g S) := by
  unfold closeSession
  split_ifs with h
  · exact touches_exec g _ literal_qemuGdb (Or.inl (List.contains_iff_mem.mp h)) (Or.inl rfl)
  · exact .none

theorem lost_closeSession {x : Session} (h : Lost x S) : Lost x (closeSession g S) := by
  unfold closeSession
  split_ifs
  · exact Longer.exec h g _ (by simp)
  · exact h

/-- The session that a shell outside of all sessions attaches to, if it is not the one meant. -/
theorem lost_attach {n : Name} {x : Session} (hn : resolve g S.names n = some x.name)
    (hx : x ∈ S.sessions) (ends : Bool) : Lost x (run g ⟨none, ends⟩ [.attach n] S) := by
  have hlog : Lost x (S.note x.name .attached) := (longer_of_mem hx).note_self .attached
  rw [run_singleton, exec, hn]
  cases ends with
  | true => exact hlog.remove x.name
  | false => exact hlog

/-- No session stands for the name: the script makes its own. -/
theorem kept_open (h : (others qemuGdb S.names).length ≠ 1) (cl : Client) (k : ℕ) :
    Kept qemuGdb S (run g cl (showSession.drop k)
      (closeSession g (run g cl (openSession ++ showSession.take k) S))) := by
  have hfirst : ∀ c ∈ openSession ++ showSession.take k, c.Own qemuGdb := by
    intro c hc
    rcases List.mem_append.mp hc with hc | hc
    · exact own_openSession c hc
    · exact own_showSession c (List.mem_of_mem_take hc)
  obtain ⟨hk, ho⟩ := kept_run g cl literal_qemuGdb hfirst h
  have hclose := touches_closeSession (g := g) (S := run g cl (openSession ++ showSession.take k) S)
  refine (hk.trans hclose.kept).trans (kept_run g cl literal_qemuGdb ?_ ?_).1
  · exact fun c hc => own_showSession c (List.mem_of_mem_drop hc)
  · rw [hclose.others, ho]
    exact h

/-- **When the scripts of the RISC-V target leave all other sessions alone.** -/
theorem kept_runSh_iff {cur : Option Name} :
    (∀ k ends, Kept qemuGdb S (runSh g ⟨cur, ends⟩ k S)) ↔
      cur.isSome ∨ qemuGdb ∈ S.names ∨ (others qemuGdb S.names).length ≠ 1 := by
  constructor
  · intro hk
    by_contra h
    push Not at h
    obtain ⟨hcur, hmem, hlen⟩ := h
    obtain rfl : cur = none := by simpa using hcur
    obtain ⟨m, hm⟩ := List.length_eq_one_iff.mp hlen
    obtain ⟨x, hx, rfl, hne⟩ := session_of_others hm
    have hres : resolve g S.names qemuGdb = some x.name := by
      rw [resolve_of_not_mem literal_qemuGdb hmem, hm]
      rfl
    have hlost := lost_attach hres hx true
    have hrun := hk 0 true
    rw [runSh, if_pos (by rw [hres]; rfl)] at hrun
    exact Lost.not_kept (lost_closeSession hlost) hx hne hrun
  · intro h k ends
    rw [runSh]
    split_ifs with hres
    · refine Kept.trans ?_ touches_closeSession.kept
      rw [run_singleton]
      rcases h with hcur | h
      · -- inside of tmux, a client does not attach
        rw [exec, if_pos hcur]
        exact Kept.refl qemuGdb S
      · exact (touches_exec g _ literal_qemuGdb h (c := .attach qemuGdb) (Or.inl rfl)).kept
    · have hnone : resolve g S.names qemuGdb = none := by simpa using hres
      exact kept_open ((resolve_eq_none literal_qemuGdb).mp hnone).2 _ k

end Sessions

/-! ### The script -/

/-- The command of tmux in a call of the script. -/
def tmuxCommand : Programs.Call → Option Command
  | .newSession => some (.new qemuGdb)
  | .sendKeys t => some (.keys qemuGdb t)
  | .splitWindow => some (.split (some qemuGdb))
  | .selectLayout => some (.layout qemuGdb)
  | .attach => some (.attach qemuGdb)
  | _ => none

/-- A command of tmux succeeds: its target stands for a session, a new session has a new name, and a client
that attaches is outside of all sessions. -/
def succeeds (g : Fnmatch) (cl : Client) (S : Server) : Command → Bool
  | .new n => !S.names.contains n
  | .attach t => cl.current.isNone && (resolve g S.names t).isSome
  | c => (target g cl S c).isSome

/-- `run-gdb.sh` has been started, at the latest by the call. -/
def started : Programs.Call → Bool
  | .sendKeys t => t = Programs.runGdbLine
  | .selectLayout | .attach => true
  | _ => false

/-- **What a call of `run.sh` makes of the server**, where messages succeed. As soon as it has been started,
`run-gdb.sh` may end. -/
def effect (g : Fnmatch) (cl : Client) (a : Programs.Call) (S : Server) (n : ℕ) (S' : Server) : Prop :=
  match tmuxCommand a with
  | some c => (n = 0 ↔ succeeds g cl S c = true) ∧ (S' = (exec g cl S c).1 ∨
      started a = true ∧ S' = closeSession g (exec g cl S c).1)
  | none => (if a = .hasSession then n = 0 ↔ (resolve g S.names qemuGdb).isSome else n = 0) ∧ S' = S

section Script
variable {g : Fnmatch} {cl : Client} {S T : Server}

/-- The session is not there, and its name stands for no other. -/
def Gone (S : Server) : Prop := qemuGdb ∉ S.names ∧ (others qemuGdb S.names).length ≠ 1

/-- The session is there. -/
def Here (S : Server) : Prop := qemuGdb ∈ S.names ∧ (others qemuGdb S.names).length ≠ 1

theorem closeSession_eq_self (h : qemuGdb ∉ S.names) : closeSession g S = S := by
  rw [closeSession, if_neg (by simpa using h)]

theorem not_mem_closeSession (g : Fnmatch) (S : Server) : qemuGdb ∉ (closeSession g S).names := by
  by_cases h : qemuGdb ∈ S.names
  · rw [closeSession, if_pos (List.contains_iff_mem.mpr h),
      names_exec_kill g _ literal_qemuGdb (Or.inl h)]
    simp
  · rwa [closeSession_eq_self h]

/-- When `run-gdb.sh` has ended, nothing is left for it to close. -/
theorem closeSession_closeSession (g : Fnmatch) (S : Server) :
    closeSession g (closeSession g S) = closeSession g S :=
  closeSession_eq_self (not_mem_closeSession g S)

theorem gone_closeSession (h : (others qemuGdb S.names).length ≠ 1) : Gone (closeSession g S) :=
  ⟨not_mem_closeSession g S, by rwa [(touches_closeSession (g := g) (S := S)).others]⟩

/-- The commands that show a session do nothing without it. -/
theorem exec_gone (g : Fnmatch) (cl : Client) (h : Gone S) :
    exec g cl S (.layout qemuGdb) = (S, true) ∧ exec g cl S (.attach qemuGdb) = (S, true) := by
  have hnone := (resolve_eq_none (g := g) literal_qemuGdb).mpr h
  refine ⟨by rw [exec, noteTarget, hnone], ?_⟩
  rw [exec, hnone]
  split_ifs <;> rfl

theorem run_gone (h : Gone S) (k : ℕ) : run g cl (showSession.drop k) S = S := by
  obtain ⟨hl, ha⟩ := exec_gone g cl h
  match k with
  | 0 =>
    show run g cl [.layout qemuGdb, .attach qemuGdb] S = S
    rw [run, hl, if_pos rfl, run_singleton, ha]
  | 1 =>
    show run g cl [.attach qemuGdb] S = S
    rw [run_singleton, ha]
  | k + 2 =>
    rw [List.drop_eq_nil_of_le (by simp [showSession])]
    rfl

/-- What is to be shown of a complete execution. -/
def Follows (g : Fnmatch) (cl : Client) (S : Server) (_ : ℕ) (S' : Server) : Prop :=
  ∃ k, closeSession g S' = runSh g cl k S

/-- A call that succeeds. -/
theorem triple_call {X : ℕ → Server → Prop} {a : Programs.Call} {c : Command}
    (ha : tmuxCommand a = some c) (hs : succeeds g cl T c = true) :
    Triple Programs.options (effect g cl) X false (· = T) (.call a) fun _ S' =>
      S' = (exec g cl T c).1 ∨ started a = true ∧ S' = closeSession g (exec g cl T c).1 := by
  refine Triple.call fun s n s' hT he => ?_
  subst hT
  rw [effect, ha] at he
  obtain rfl := he.1.mpr hs
  exact he.2

/-- A call before `run-gdb.sh` is started. -/
theorem triple_before {X : ℕ → Server → Prop} {a : Programs.Call} {c : Command}
    (ha : tmuxCommand a = some c) (hs : succeeds g cl T c = true) (hb : started a = false) :
    Triple Programs.options (effect g cl) X false (· = T) (.call a) fun _ => (· = (exec g cl T c).1) :=
  (triple_call ha hs).conseq (fun _ h => h) fun _ _ h =>
    h.resolve_right fun h => by rw [hb] at h; simp at h

/-- The session is found: the script attaches to it. -/
theorem triple_attach (h : (resolve g S.names qemuGdb).isSome) {Q : ℕ → Server → Prop} :
    Triple Programs.options (effect g cl) (Follows g cl S) false (· = S) (.exec .attach) Q := by
  refine Triple.exec fun s n s' hs he => ⟨0, ?_⟩
  subst hs
  rw [runSh, if_pos h, run_singleton]
  rcases he.2 with rfl | ⟨-, rfl⟩
  · rfl
  · exact closeSession_closeSession g _

/-- A command for the session that is there. -/
theorem here_exec (g : Fnmatch) (cl : Client) {c : Command} (h : Here T) (hc : c.Own qemuGdb)
    (hnames : (exec g cl T c).1.names = T.names) : Here (exec g cl T c).1 := by
  refine ⟨by rw [hnames]; exact h.1, ?_⟩
  rw [(touches_exec g cl literal_qemuGdb (Or.inl h.1) hc).others]
  exact h.2

theorem resolve_here (h : Here T) : resolve g T.names qemuGdb = some qemuGdb :=
  resolve_of_mem literal_qemuGdb h.1

theorem resolve_isSome (h : Here T) : (resolve g T.names qemuGdb).isSome = true := by
  rw [resolve_here h]
  rfl

/-- `runSh` where the session is made. -/
theorem runSh_eq (hS : resolve g S.names qemuGdb = none) (k : ℕ) : runSh g cl k S =
    run g cl (showSession.drop k)
      (closeSession g (run g cl (showSession.take k) (run g cl openSession S))) := by
  have hne : ∀ c ∈ openSession, ∀ t, c ≠ .kill t := by
    intro c hc t
    simp only [openSession, List.mem_cons, List.not_mem_nil, or_false] at hc
    rcases hc with rfl | rfl | rfl | rfl <;> simp
  rw [runSh, hS, run_append_of_ne_kill _ _ _ hne]
  rfl

theorem here_layout (cl : Client) (h : Here T) : Here (exec g cl T (.layout qemuGdb)).1 :=
  here_exec g cl h (Or.inl rfl) (names_exec_layout _)

/-- When `run-gdb.sh` has ended, the panes can not be arranged. -/
theorem not_succeeds_closed (cl : Client) (h : Here T) :
    ¬ succeeds g cl (closeSession g T) (.layout qemuGdb) = true := by
  show ¬ (resolve g (closeSession g T).names qemuGdb).isSome = true
  rw [(resolve_eq_none literal_qemuGdb).mpr (gone_closeSession h.2)]
  simp

/-! `run-gdb.sh` ends before the panes are arranged, before the script attaches, or later. -/

theorem runSh_zero (hS : resolve g S.names qemuGdb = none) (h : Here (run g cl openSession S)) :
    runSh g cl 0 S = closeSession g (run g cl openSession S) := by
  rw [runSh_eq hS]
  exact run_gone (gone_closeSession h.2) 0

theorem runSh_one (hS : resolve g S.names qemuGdb = none) (h : Here (run g cl openSession S)) :
    runSh g cl 1 S = closeSession g (exec g cl (run g cl openSession S) (.layout qemuGdb)).1 := by
  rw [runSh_eq hS]
  show run g cl (showSession.drop 1) (closeSession g (run g cl [.layout qemuGdb] _)) = _
  rw [run_singleton, run_gone (gone_closeSession (here_layout cl h).2)]

theorem runSh_two (hS : resolve g S.names qemuGdb = none) (k : ℕ) : runSh g cl (k + 2) S =
    closeSession g
      (exec g cl (exec g cl (run g cl openSession S) (.layout qemuGdb)).1 (.attach qemuGdb)).1 := by
  have hlen : showSession.length ≤ k + 2 := Nat.le_add_left 2 k
  have halive : (exec g cl (run g cl openSession S) (.layout qemuGdb)).2 = true := rfl
  rw [runSh_eq hS, List.take_of_length_le hlen, List.drop_eq_nil_of_le hlen]
  show closeSession g (run g cl [.layout qemuGdb, .attach qemuGdb] _) = _
  rw [run, if_pos halive, run_singleton]

/-- The session has been made: it is shown, unless `run-gdb.sh` ends before. -/
theorem triple_show (hS : resolve g S.names qemuGdb = none) (hhere : Here (run g cl openSession S)) :
    Triple Programs.options (effect g cl) (Follows g cl S) false
      (fun S' => S' = run g cl openSession S ∨ S' = closeSession g (run g cl openSession S))
      (.list [.call .selectLayout, .call .attach]) (Follows g cl S) := by
  refine Triple.cons
    (N := fun _ S' => S' = (exec g cl (run g cl openSession S) (.layout qemuGdb)).1 ∨
      S' = closeSession g (exec g cl (run g cl openSession S) (.layout qemuGdb)).1)
    ?_ (fun _ _ h => h) ?_
  · refine Triple.call fun s n s' hs he => ?_
    rcases hs with rfl | rfl
    · obtain rfl : n = 0 := he.1.mpr (resolve_isSome hhere)
      exact he.2.imp_right And.right
    · -- `run-gdb.sh` has ended before the panes are arranged: the command fails, and ends the script
      have hn : n ≠ 0 := fun h0 => not_succeeds_closed cl hhere (he.1.mp h0)
      have hstop : Programs.options.stops false n = true := by
        simp [Options.stops, Programs.options, hn]
      have he2 := he.2
      rw [(exec_gone g cl (gone_closeSession hhere.2)).1, closeSession_closeSession] at he2
      obtain rfl : s' = closeSession g _ := he2.elim id And.right
      rw [if_pos hstop]
      exact ⟨0, (closeSession_closeSession g _).trans (runSh_zero hS hhere).symm⟩
  · refine Triple.call_last fun s n s' hs he => ?_
    rcases hs with rfl | rfl
    · refine ⟨2, (runSh_two hS 0).symm ▸ ?_⟩
      rcases he.2 with rfl | ⟨-, rfl⟩
      · rfl
      · exact closeSession_closeSession g _
    · -- `run-gdb.sh` has ended before the script attaches
      have he2 := he.2
      rw [(exec_gone g cl (gone_closeSession (here_layout cl hhere).2)).2,
        closeSession_closeSession] at he2
      obtain rfl : s' = closeSession g _ := he2.elim id And.right
      exact ⟨1, (closeSession_closeSession g _).trans (runSh_one hS hhere).symm⟩

/-- The servers in between when the session is made. -/
structure Makes (g : Fnmatch) (cl : Client) (S S₁ S₂ S₃ T : Server) : Prop where
  new : (exec g cl S (.new qemuGdb)).1 = S₁
  keys : (exec g cl S₁ (.keys qemuGdb Programs.runQemuLine)).1 = S₂
  split : (exec g cl S₂ (.split (some qemuGdb))).1 = S₃
  last : (exec g cl S₃ (.keys qemuGdb Programs.runGdbLine)).1 = T
  here₁ : Here S₁
  here₂ : Here S₂
  here₃ : Here S₃
  here : Here T

theorem exists_makes (g : Fnmatch) (cl : Client) (hS : Gone S) :
    ∃ S₁ S₂ S₃, Makes g cl S S₁ S₂ S₃ (run g cl openSession S) := by
  have h1 : Here (exec g cl S (.new qemuGdb)).1 := by
    refine ⟨?_, ?_⟩
    · rw [names_exec_new hS.1]
      exact List.mem_cons_self
    · rw [names_exec_new hS.1, others_cons]
      exact hS.2
  have h2 := here_exec g cl (c := .keys qemuGdb Programs.runQemuLine) h1 (Or.inl rfl)
    (names_exec_keys _ _)
  have h3 := here_exec g cl (c := .split (some qemuGdb)) h2 ⟨_, rfl, Or.inl rfl⟩
    (names_exec_split _)
  have h4 := here_exec g cl (c := .keys qemuGdb Programs.runGdbLine) h3 (Or.inl rfl)
    (names_exec_keys _ _)
  have halive : ∀ {T : Server} {c : Command}, (∀ t, c ≠ .kill t) → (exec g cl T c).2 = true :=
    fun hc => alive_of_ne_kill g cl hc
  refine ⟨_, _, _, rfl, rfl, rfl, ?_, h1, h2, h3, ?_⟩
  · rw [openSession, run, if_pos (halive (by simp)), run, if_pos (halive (by simp)), run,
      if_pos (halive (by simp)), run_singleton]
    rfl
  · rw [openSession, run, if_pos (halive (by simp)), run, if_pos (halive (by simp)), run,
      if_pos (halive (by simp)), run_singleton]
    exact h4

/-- The session is not found: the script makes it. -/
theorem triple_makeSession (hS : resolve g S.names qemuGdb = none) :
    Triple Programs.options (effect g cl) (Follows g cl S) false (· = S)
      (.list Programs.makeSession) (Follows g cl S) := by
  have hgone := (resolve_eq_none literal_qemuGdb).mp hS
  obtain ⟨S₁, S₂, S₃, h⟩ := exists_makes g cl hgone
  have hnew : succeeds g cl S (.new qemuGdb) = true := by simpa [succeeds] using hgone.1
  refine Triple.cons (M := (· = S₁)) (triple_before rfl hnew rfl) (fun _ s hs => ?_) <|
    Triple.cons (M := (· = S₂)) (triple_before rfl (resolve_isSome h.here₁) rfl) (fun _ s hs => ?_) <|
    Triple.cons (M := (· = S₃)) (triple_before rfl (resolve_isSome h.here₂) rfl) (fun _ s hs => ?_) <|
    Triple.cons (triple_call rfl (resolve_isSome h.here₃)) (fun _ s hs => ?_) <|
    triple_show hS h.here
  · exact hs.trans h.new
  · exact hs.trans h.keys
  · exact hs.trans h.split
  · rw [← h.last]
    exact hs.imp_right And.right

/-- **What an execution of `run.sh` does to the server**, `runSh` does. -/
theorem runs_runSh {n : ℕ} {S' : Server}
    (h : Runs (effect g cl) (script Programs.options Programs.runSh) S n S') :
    ∃ k, closeSession g S' = runSh g cl k S := by
  have hfound : Triple Programs.options (effect g cl) (Follows g cl S) true (· = S)
      (.call .hasSession) fun n S' => (n = 0 ↔ (resolve g S.names qemuGdb).isSome) ∧ S' = S := by
    refine Triple.call_tested fun s n s' hs he => ?_
    subst hs
    exact he
  have hecho : ∀ line, Triple Programs.options (effect g cl) (Follows g cl S) false (· = S)
      (.call (.echo line)) fun _ => (· = S) := by
    refine fun line => Triple.call fun s n s' hs he => ?_
    obtain ⟨rfl, rfl⟩ : n = 0 ∧ s' = s := he
    exact hs
  refine Triple.runs (X := Follows g cl S) (P := (· = S)) ?_ rfl h
  refine Triple.seq (M := fun S' => S' = S ∧ resolve g S.names qemuGdb = none)
    (Triple.ite hfound ?_ (Triple.skip ?_)) ?_
  · by_cases hs : (resolve g S.names qemuGdb).isSome = true
    · exact (Triple.cons (hecho _) (fun _ _ h => h) (triple_attach hs)).conseq (fun _ h => h.2)
        fun _ _ h => h
    · exact fun k s hpre => absurd (hpre.1.mp rfl) hs
  · rintro s ⟨n, hn, hfound, hs⟩
    exact ⟨hs, by simpa using fun h => hn (hfound.mpr h)⟩
  · exact fun k s hs hk => triple_makeSession hs.2 k s hs.1 hk

theorem exists_status (b : Bool) : ∃ n : ℕ, n = 0 ↔ b = true := by
  cases b with
  | true => exact ⟨0, by simp⟩
  | false => exact ⟨1, by simp⟩

/-- The calls of `run.sh` until `run-gdb.sh` is started. -/
theorem runs_of_started (hS : resolve g S.names qemuGdb = none)
    (hT : T = run g cl openSession S ∨ T = closeSession g (run g cl openSession S)) {n : ℕ}
    {S' : Server} (hr : Runs (effect g cl)
      (script Programs.options (.list [.call .selectLayout, .call .attach])) T n S') :
    Runs (effect g cl) (script Programs.options Programs.runSh) S n S' := by
  have hgone := (resolve_eq_none literal_qemuGdb).mp hS
  have hfound : ¬ (resolve g S.names qemuGdb).isSome = true := by simp [hS]
  have hnew : succeeds g cl S (.new qemuGdb) = true := by simpa [succeeds] using hgone.1
  obtain ⟨S₁, S₂, S₃, h⟩ := exists_makes g cl hgone
  have hstarted : effect g cl (.sendKeys Programs.runGdbLine) S₃ 0 T := by
    rw [← h.last] at hT
    exact ⟨iff_of_true rfl (resolve_isSome h.here₃), hT.imp_right fun hT => ⟨rfl, hT⟩⟩
  exact .call (m := 1) ⟨iff_of_false (by simp) hfound, rfl⟩ <|
    .call (m := 0) ⟨iff_of_true rfl hnew, Or.inl h.new.symm⟩ <|
    .call (m := 0) ⟨iff_of_true rfl (resolve_isSome h.here₁), Or.inl h.keys.symm⟩ <|
    .call (m := 0) ⟨iff_of_true rfl (resolve_isSome h.here₂), Or.inl h.split.symm⟩ <|
    .call hstarted hr

/-- The last call of a script. -/
theorem runs_last (n : ℕ) (S : Server) :
    Runs (effect g cl) (check Programs.options false .done n) S n S := by
  unfold check
  split_ifs <;> exact .done n S

/-- **What `runSh` does** is done by an execution of `run.sh`. -/
theorem exists_runs (k : ℕ) : ∃ n S', Runs (effect g cl) (script Programs.options Programs.runSh) S n S' ∧
    closeSession g S' = runSh g cl k S := by
  by_cases hs : (resolve g S.names qemuGdb).isSome = true
  · obtain ⟨n, hn⟩ := exists_status (succeeds g cl S (.attach qemuGdb))
    refine ⟨n, (exec g cl S (.attach qemuGdb)).1, ?_, ?_⟩
    · exact .call (m := 0) ⟨iff_of_true rfl hs, rfl⟩ <| .call (m := 0) ⟨rfl, rfl⟩ <|
        .call (m := n) ⟨hn, Or.inl rfl⟩ <| .done n _
    · rw [runSh, if_pos hs, run_singleton]
  · have hnone : resolve g S.names qemuGdb = none := by simpa using hs
    obtain ⟨S₁, S₂, S₃, h⟩ := exists_makes g cl ((resolve_eq_none literal_qemuGdb).mp hnone)
    match k with
    | 0 =>
      have hl := (exec_gone g cl (gone_closeSession (g := g) h.here.2)).1
      refine ⟨1, closeSession g (run g cl openSession S), runs_of_started hnone (Or.inr rfl) ?_, ?_⟩
      · exact .call (m := 1) ⟨iff_of_false (by simp) (not_succeeds_closed cl h.here),
          Or.inl (by rw [hl])⟩ (.done 1 _)
      · rw [runSh_zero hnone h.here, closeSession_closeSession]
    | 1 =>
      have ha := (exec_gone g cl (gone_closeSession (g := g) (here_layout (g := g) cl h.here).2)).2
      obtain ⟨n, hn⟩ := exists_status (succeeds g cl (closeSession g
        (exec g cl (run g cl openSession S) (.layout qemuGdb)).1) (.attach qemuGdb))
      refine ⟨n, closeSession g (exec g cl (run g cl openSession S) (.layout qemuGdb)).1,
        runs_of_started hnone (Or.inl rfl) ?_, ?_⟩
      · exact .call (m := 0) ⟨iff_of_true rfl (resolve_isSome h.here), Or.inr ⟨rfl, rfl⟩⟩ <|
          .call (m := n) ⟨hn, Or.inl (by rw [ha])⟩ (runs_last n _)
      · rw [runSh_one hnone h.here, closeSession_closeSession]
    | k + 2 =>
      obtain ⟨n, hn⟩ := exists_status (succeeds g cl
        (exec g cl (run g cl openSession S) (.layout qemuGdb)).1 (.attach qemuGdb))
      refine ⟨n, (exec g cl (exec g cl (run g cl openSession S) (.layout qemuGdb)).1
        (.attach qemuGdb)).1, runs_of_started hnone (Or.inl rfl) ?_, (runSh_two hnone k).symm⟩
      exact .call (m := 0) ⟨iff_of_true rfl (resolve_isSome h.here), Or.inl rfl⟩ <|
        .call (m := n) ⟨hn, Or.inl rfl⟩ (runs_last n _)

end Script

end Lightbox.Riscv.Scripts
