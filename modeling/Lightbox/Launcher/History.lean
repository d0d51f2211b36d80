import Lightbox.Launcher.Phases

/-! # Sourcing the launcher again and again

A sourced run leaves its variables in the shell. Most of them are assigned before they are read in
the next run (`derived_spec`), but `ROOTFS`, `DTB` and `QEMU_DIR` have no default: a run that does
not name the option uses what an earlier run left. So a run depends on its own arguments only,
exactly if it launches no QEMU of its own or names both `--rootfs` and `--qemu-dir`
(`dependsOnlyOnArgs_iff`). What is left in `DTB` is never used: `QEMU_CMD` reads another variable,
which nothing assigns. -/

namespace Lightbox.Launcher.History

open Lightbox.Shell.Lex (Text)
open Lightbox.Shell.Read (joinWords)
open Lightbox.Shell.Control
open Lightbox.Launcher.Options Lightbox.Launcher.Script Lightbox.Launcher.Phases

/-- Sourced runs in one shell: the machine at the time, and the arguments. -/
abbrev Runs := List (Host × List Text)

/-- The variables after the runs. -/
def after (v : Vars) (h : Runs) : Vars :=
  h.foldl (fun v r => (launch .sourced r.1 r.2 v).vars) v

/-- The arguments of every run are accepted, and no run exits the shell. -/
def Returns (v : Vars) : Runs → Prop
  | [] => True
  | (H, args) :: h => Accepted args ∧ (launch .sourced H args v).signal ≠ .exit ∧
      Returns (launch .sourced H args v).vars h

/-- **A run depends on its arguments only**: what it does is the same after any two sequences of
earlier runs. -/
def DependsOnlyOnArgs (H : Host) (args : List Text) (v : Vars) : Prop :=
  ∀ h₁ h₂, Returns v h₁ → Returns v h₂ →
    external (launch .sourced H args (after v h₁)).acts =
      external (launch .sourced H args (after v h₂)).acts

/-! ### Variables that are never assigned -/

/-- No block assigns the variables that the script misspells. -/
theorem block_keeps {H : Host} {args : List Text} : ∀ b ∈ script H args, ∀ v,
    ((b v).vars.dtbPram, (b v).vars.qemuTitle) = (v.dtbPram, v.qemuTitle) := by
  intro b hb v
  simp only [script, body, derive, List.mem_cons, List.mem_append, List.mem_map, List.not_mem_nil,
    or_false] at hb
  rcases hb with rfl | ⟨i, -, rfl⟩ | (rfl | rfl |
    (rfl | rfl | rfl | rfl | rfl | rfl | rfl | rfl | rfl | rfl) | rfl | rfl) | rfl
  · rfl
  · unfold optBlock
    split <;> rfl
  · unfold checkKernel
    split_ifs <;> rfl
  · unfold checkDir
    split_ifs <;> rfl
  · rfl
  · unfold kernelPaths assign androidPaths linuxPaths
    dsimp only
    split_ifs <;> rfl
  · rw [vars_qemuDir]
  · rfl
  · rw [vars_gdbExec]
  · obtain ⟨p, f, d, i, hr⟩ := vars_rootfs H v
    rw [hr]
  · obtain ⟨p, d, hd⟩ := vars_dtb H v
    rw [hd]
  · rfl
  · rfl
  · simp only [qemuCmd, assign]
  · unfold terminal
    split_ifs <;> rfl
  · unfold debugger
    split_ifs <;> rfl
  · rfl

theorem after_keeps : ∀ (h : Runs) (v : Vars),
    ((after v h).dtbPram, (after v h).qemuTitle) = (v.dtbPram, v.qemuTitle)
  | [], _ => rfl
  | (H, args) :: h, v => by
    have hr : ((launch .sourced H args v).vars.dtbPram, (launch .sourced H args v).vars.qemuTitle) =
        (v.dtbPram, v.qemuTitle) :=
      runBlocks_keeps (f := fun v => (v.dtbPram, v.qemuTitle)) v block_keeps
    exact (after_keeps h _).trans hr

/-! ### What a run does, block by block -/

section Blocks
variable {H : Host} {v w : Vars}

/-- The variables that the terminal and the debugger blocks read agree, those of QEMU apart. -/
structure SameDebug (v w : Vars) : Prop where
  terminal : v.opts.terminal = w.opts.terminal
  debugger : v.opts.debugger = w.opts.debugger
  params : v.params = w.params
  kernelSource : v.kernelSource = w.kernelSource
  kernelVmlinux : v.kernelVmlinux = w.kernelVmlinux
  kernelScripts : v.kernelScripts = w.kernelScripts
  relocSections : v.relocSections = w.relocSections
  gdbExec : v.gdbExec = w.gdbExec
  gdbData : v.gdbData = w.gdbData
  debugPort : v.debugPort = w.debugPort

theorem debugger_congr (h : SameDebug v w) : (debugger H v).acts = (debugger H w).acts := by
  have hc : gdbCommands v = gdbCommands w := by
    unfold gdbCommands safePathLine fileLine symbolLine
    rw [h.kernelScripts, h.kernelVmlinux, h.relocSections, h.debugPort]
  have hl : dddLines v = dddLines w := by
    unfold dddLines safePathLine fileLine symbolLine
    rw [h.kernelScripts, h.kernelVmlinux, h.relocSections, h.debugPort]
  unfold debugger dddActions
  rw [h.debugger, h.kernelSource, h.gdbExec, h.gdbData, hc, hl]
  split_ifs <;> rfl

/-- The terminal block reads the variables of QEMU only if it launches QEMU. -/
theorem terminal_congr (h : SameDebug v w)
    (hq : RunsQemu H v.opts.terminal → v.qemuTitle = w.qemuTitle ∧ v.qemuCmd = w.qemuCmd) :
    (terminal H v).acts = (terminal H w).acts ∧ (terminal H v).signal = (terminal H w).signal := by
  unfold terminal
  rw [← h.terminal, ← h.params]
  split_ifs with h1 h2 h3 h4 h5
  · obtain ⟨h6, h7⟩ := hq (Or.inl h1)
    rw [h6, h7]
    exact ⟨rfl, rfl⟩
  · obtain ⟨h6, h7⟩ := hq (Or.inr (Or.inl h2))
    rw [h6, h7]
    exact ⟨rfl, rfl⟩
  · obtain ⟨h6, h7⟩ := hq (Or.inr (Or.inr h3))
    rw [h7]
    exact ⟨rfl, rfl⟩
  · exact ⟨rfl, rfl⟩
  · exact ⟨rfl, rfl⟩
  · exact ⟨rfl, rfl⟩

theorem visible_congr (h : SameDebug v w)
    (hq : RunsQemu H v.opts.terminal → v.qemuTitle = w.qemuTitle ∧ v.qemuCmd = w.qemuCmd) :
    (runBlocks .sourced (visible H) v).acts = (runBlocks .sourced (visible H) w).acts := by
  obtain ⟨ha, hs⟩ := terminal_congr h hq
  rw [visible_acts, visible_acts, ha, hs, debugger_congr h]
  rfl

end Blocks

/-! ### Two runs with the same arguments -/

section TwoRuns
variable {H : Host} {args : List Text} {v w : Vars} {s t : Settings}
  (hs : given H args v = some s) (ht : given H args w = some t)
include hs ht

/-- The options with a default do not depend on the shell. -/
theorem get_eq_of_default {o : Opt} (h : o ≠ .rootfs ∧ o ≠ .dtb ∧ o ≠ .qemuDir) :
    s.get o = t.get o := by
  have hd : (defaultSettings H v.opts).get o = (defaultSettings H w.opts).get o := by
    cases o <;> first | rfl | simp at h
  rw [get_optionLoop o args hs, get_optionLoop o args ht, hd]

/-- Neither do those that are named. -/
theorem get_eq_of_names {o : Opt} (h : Names o args) : s.get o = t.get o := by
  obtain ⟨x, hx⟩ := Option.isSome_iff_exists.mp ((lastValue_isSome o args).mpr h)
  rw [get_optionLoop o args hs, get_optionLoop o args ht, hx]
  rfl

theorem sameDebug_derived :
    SameDebug (derived H (start args s v)) (derived H (start args t w)) := by
  have hv := derived_spec H (start args s v)
  have hw := derived_spec H (start args t w)
  have hk : (start args s v).opts.kernel = (start args t w).opts.kernel :=
    get_eq_of_default hs ht (o := .kernel) (by simp)
  have hT : (start args s v).opts.terminal = (start args t w).opts.terminal :=
    get_eq_of_default hs ht (o := .terminal) (by simp)
  have hd : (start args s v).opts.debugger = (start args t w).opts.debugger :=
    get_eq_of_default hs ht (o := .with) (by simp)
  exact
    { terminal := by rw [hv.opts, hw.opts]; exact hT
      debugger := by rw [hv.opts, hw.opts]; exact hd
      params := by rw [hv.params, hw.params]; rfl
      kernelSource := by rw [hv.kernelSource, hw.kernelSource, hk]
      kernelVmlinux := by rw [hv.kernelVmlinux, hw.kernelVmlinux, hk]
      kernelScripts := by rw [hv.kernelScripts, hw.kernelScripts, hk]
      relocSections := by rw [hv.relocSections, hw.relocSections, hk]
      gdbExec := by rw [hv.gdbExec, hw.gdbExec]
      gdbData := by rw [hv.gdbData, hw.gdbData]
      debugPort := by rw [hv.debugPort, hw.debugPort, hT] }

/-- The command line of QEMU is the same if the options without a default are. -/
theorem qemuCmd_eq (hp : v.dtbPram = w.dtbPram) (hr : s.rootfs = t.rootfs)
    (hq : s.qemuDir = t.qemuDir) :
    (derived H (start args s v)).qemuCmd = (derived H (start args t w)).qemuCmd := by
  have hv := derived_spec H (start args s v)
  have hw := derived_spec H (start args t w)
  have hk : s.kernel = t.kernel := get_eq_of_default hs ht (o := .kernel) (by simp)
  have hi : s.initrd = t.initrd := get_eq_of_default hs ht (o := .initrd) (by simp)
  have hc : s.cmdline = t.cmdline := get_eq_of_default hs ht (o := .append) (by simp)
  have hf : s.shareFolder = t.shareFolder := get_eq_of_default hs ht (o := .share) (by simp)
  have hT : s.terminal = t.terminal := get_eq_of_default hs ht (o := .terminal) (by simp)
  have he : s.qemuExtraParam = t.qemuExtraParam :=
    get_eq_of_default hs ht (o := .qemuExtra) (by simp)
  have hrp : rootfsParamOf H s = rootfsParamOf H t := by unfold rootfsParamOf; rw [hr, hi]
  have hrb : rootfsBootargsOf s = rootfsBootargsOf t := by unfold rootfsBootargsOf; rw [hr]
  have hh : qemuHead (derived H (start args s v)) = qemuHead (derived H (start args t w)) := by
    unfold qemuHead
    rw [hv.qemuExec, hw.qemuExec, hv.kernelImage, hw.kernelImage, hv.dtbPram, hw.dtbPram,
      hv.rootfsParam, hw.rootfsParam, hv.shareParam, hw.shareParam, hv.debugPort, hw.debugPort,
      hv.opts, hw.opts]
    simp only [start, hrp, hk, hf, hT, he, hp, hq]
  have ha : appendArg (derived H (start args s v)) = appendArg (derived H (start args t w)) := by
    unfold appendArg
    rw [hv.rootfsBootargs, hw.rootfsBootargs, hv.opts, hw.opts]
    simp only [start, hrb, hc]
  rw [hv.qemuCmd, hw.qemuCmd, hh, ha]

end TwoRuns

/-- What a run does is the same if the variables of QEMU are, in case it launches QEMU. -/
theorem external_launch_eq {H : Host} {args : List Text} {v w : Vars}
    (hp : v.dtbPram = w.dtbPram) (ht : v.qemuTitle = w.qemuTitle)
    (hq : RunsQemu H (givenTerminal H args) → Names .rootfs args ∧ Names .qemuDir args) :
    external (launch .sourced H args v).acts = external (launch .sourced H args w).acts := by
  by_cases hr : Ready H args
  · obtain ⟨s, hs⟩ := Option.isSome_iff_exists.mp ((given_isSome H args v).mpr hr.accepted)
    obtain ⟨t, htw⟩ := Option.isSome_iff_exists.mp ((given_isSome H args w).mpr hr.accepted)
    rw [(launch_of_ready hs hr).2.1, (launch_of_ready htw hr).2.1,
      visible_congr (sameDebug_derived hs htw)]
    intro hT
    rw [(derived_spec H _).opts] at hT
    obtain ⟨h1, h2⟩ := hq (by rw [← given_terminal hs]; exact hT)
    refine ⟨?_, ?_⟩
    · rw [(derived_spec H _).qemuTitle, (derived_spec H _).qemuTitle]
      exact ht
    · exact qemuCmd_eq hs htw hp (get_eq_of_names hs htw (o := .rootfs) h1)
        (get_eq_of_names hs htw (o := .qemuDir) h2)
  · rw [(launch_of_not_ready hr).2, (launch_of_not_ready hr).2]

/-! ### What a run shows of the shell -/

theorem qemuCmd_eq_of_launchAction {H : Host} {v w : Vars}
    (ht : v.opts.terminal = w.opts.terminal) (h : launchAction H v = launchAction H w) :
    v.qemuCmd = w.qemuCmd := by
  unfold launchAction at h
  rw [ht] at h
  split_ifs at h
  · exact (Action.gnomeTerminal.inj h).2
  · have hx := (Action.xfce4Terminal.inj h).2
    unfold xfce4Command at hx
    exact List.append_cancel_left (List.append_cancel_right hx)
  · exact Action.bash.inj h

/-- Two runs that launch QEMU and do the same have the same command line. -/
theorem qemuCmd_eq_of_external {H : Host} {args : List Text} {v w : Vars} {s t : Settings}
    (hs : given H args v = some s) (ht : given H args w = some t) (hr : Ready H args)
    (hq : RunsQemu H (givenTerminal H args))
    (h : external (launch .sourced H args v).acts = external (launch .sourced H args w).acts) :
    (derived H (start args s v)).qemuCmd = (derived H (start args t w)).qemuCmd := by
  have hv : (derived H (start args s v)).opts.terminal = givenTerminal H args := by
    rw [(derived_spec H _).opts, ← given_terminal hs]
    rfl
  have hw : (derived H (start args t w)).opts.terminal = givenTerminal H args := by
    rw [(derived_spec H _).opts, ← given_terminal ht]
    rfl
  rw [(launch_of_ready hs hr).2.1, (launch_of_ready ht hr).2.1] at h
  have hh := congrArg List.head? h
  rw [head_visible (by rw [hv]; exact hq), head_visible (by rw [hw]; exact hq)] at hh
  exact qemuCmd_eq_of_launchAction (hv.trans hw.symm) (Option.some.inj hh)

/-- A run with a single option other than `--kernel` leaves the option in the shell. -/
theorem after_option {H : Host} {v : Vars} {i : Text} {o : Opt} (hb : branch i = some o)
    (ho : o ≠ .kernel) : Returns v [(H, [i])] ∧ after v [(H, [i])] =
      start [i] ((defaultSettings H v.opts).set o (afterEq i)) v := by
  have hg : given H [i] v = some ((defaultSettings H v.opts).set o (afterEq i)) := by
    simp [given, optionLoop, hb]
  have hr : ¬ Ready H [i] := fun hr => hr.kernel (by simp [givenKernel, lastValue, hb, ho])
  obtain ⟨line, hl⟩ := launch_of_refused hg hr
  refine ⟨⟨?_, ?_, trivial⟩, ?_⟩
  · simp [Accepted, hb]
  · rw [hl]; simp
  · simp [after, hl]

/-- An option without a default that is not named keeps the value it has in the shell. -/
theorem get_eq_of_not_names {H : Host} {args : List Text} {v : Vars} {s : Settings} {o : Opt}
    (hs : given H args v = some s) (hn : ¬ Names o args) (ho : o = .rootfs ∨ o = .qemuDir) :
    s.get o = v.opts.get o := by
  rw [get_optionLoop o args hs, lastValue_eq_none.mpr hn]
  rcases ho with rfl | rfl <;> rfl

/-- The command line of QEMU begins with its path and goes on with the file system. -/
theorem qemuCmd_split (H : Host) (v : Vars) : ∃ mid tail,
    (derived H v).qemuCmd = qemuDirOf H v.opts.qemuDir ++ ("/qemu-system-aarch64".toList ++
      (mid ++ (rootfsParamOf H v.opts ++ tail))) ∧
    ∀ w : Vars, w.opts.kernel = v.opts.kernel → w.dtbPram = v.dtbPram → ∃ tail',
      (derived H w).qemuCmd = qemuDirOf H w.opts.qemuDir ++ ("/qemu-system-aarch64".toList ++
        (mid ++ (rootfsParamOf H w.opts ++ tail'))) := by
  have key : ∀ w : Vars, ∃ tail', (derived H w).qemuCmd = qemuDirOf H w.opts.qemuDir ++
      ("/qemu-system-aarch64".toList ++
      (("                  -machine virt,gic_version=3            -cpu cortex-a72         ".toList ++
      ("               -m 1024                                -smp 8                    ".toList ++
      ("             -kernel ".toList ++ ((tree H w.opts.kernel).kernelImage ++
      ("                ".toList ++ (w.dtbPram ++
      "                            ".toList)))))) ++
      (rootfsParamOf H w.opts ++ tail'))) := by
    intro w
    have hw := derived_spec H w
    have hq : (derived H w).qemuCmd = _ := hw.qemuCmd
    unfold qemuHead at hq
    rw [hw.qemuExec, hw.kernelImage, hw.dtbPram, hw.rootfsParam] at hq
    simp only [List.append_assoc] at hq ⊢
    exact ⟨_, hq⟩
  obtain ⟨tail, h⟩ := key v
  refine ⟨_, tail, h, fun w hk hp => ?_⟩
  rw [← hk, ← hp]
  exact key w

/-! ### Leaks -/

section Leak
variable {H : Host} {args : List Text} {v : Vars}

/-- `QEMU_DIR` leaks into a run that launches QEMU without naming it. -/
theorem leak_qemuDir (hr : Ready H args) (hq : RunsQemu H (givenTerminal H args))
    (hn : ¬ Names .qemuDir args) : ¬ DependsOnlyOnArgs H args v := by
  intro h
  obtain ⟨ha, hva⟩ := after_option (H := H) (v := v) (i := "--qemu-dir=a".toList) (o := .qemuDir)
    (by decide) (by simp)
  obtain ⟨hb, hvb⟩ := after_option (H := H) (v := v) (i := "--qemu-dir=b".toList) (o := .qemuDir)
    (by decide) (by simp)
  have he := h _ _ ha hb
  rw [hva, hvb] at he
  generalize hv : start _ _ v = va at he
  generalize hw : start _ _ v = vb at he
  have hda : va.opts.qemuDir = "a".toList := by
    rw [← hv]
    exact (by decide : afterEq "--qemu-dir=a".toList = "a".toList)
  have hdb : vb.opts.qemuDir = "b".toList := by
    rw [← hw]
    exact (by decide : afterEq "--qemu-dir=b".toList = "b".toList)
  obtain ⟨s, hs⟩ := Option.isSome_iff_exists.mp ((given_isSome H args va).mpr hr.accepted)
  obtain ⟨t, ht⟩ := Option.isSome_iff_exists.mp ((given_isSome H args vb).mpr hr.accepted)
  have hsd : s.qemuDir = "a".toList :=
    (get_eq_of_not_names (o := .qemuDir) hs hn (Or.inr rfl)).trans hda
  have htd : t.qemuDir = "b".toList :=
    (get_eq_of_not_names (o := .qemuDir) ht hn (Or.inr rfl)).trans hdb
  have hc := qemuCmd_eq_of_external hs ht hr hq he
  obtain ⟨m, u, h1, -⟩ := qemuCmd_split H (start args s va)
  obtain ⟨m', u', h2, -⟩ := qemuCmd_split H (start args t vb)
  rw [h1, h2] at hc
  simp [start, hsd, htd, qemuDirOf] at hc

/-- `ROOTFS` leaks into a run that launches QEMU without naming it. -/
theorem leak_rootfs (hr : Ready H args) (hq : RunsQemu H (givenTerminal H args))
    (hd : Names .qemuDir args) (hn : ¬ Names .rootfs args) : ¬ DependsOnlyOnArgs H args v := by
  intro h
  obtain ⟨ha, hva⟩ := after_option (H := H) (v := v) (i := "--rootfs=".toList) (o := .rootfs)
    (by decide) (by simp)
  obtain ⟨hb, hvb⟩ := after_option (H := H) (v := v) (i := "--rootfs=x".toList) (o := .rootfs)
    (by decide) (by simp)
  have hp : (after v [(H, ["--rootfs=x".toList])]).dtbPram =
      (after v [(H, ["--rootfs=".toList])]).dtbPram :=
    (congrArg Prod.fst (after_keeps [(H, ["--rootfs=x".toList])] v)).trans
      (congrArg Prod.fst (after_keeps [(H, ["--rootfs=".toList])] v)).symm
  have he := h _ _ ha hb
  rw [hva, hvb] at he hp
  generalize hv : start _ _ v = va at he hp
  generalize hw : start _ _ v = vb at he hp
  have hra : va.opts.rootfs = [] := by
    rw [← hv]
    exact (by decide : afterEq "--rootfs=".toList = [])
  have hrb : vb.opts.rootfs = "x".toList := by
    rw [← hw]
    exact (by decide : afterEq "--rootfs=x".toList = "x".toList)
  obtain ⟨s, hs⟩ := Option.isSome_iff_exists.mp ((given_isSome H args va).mpr hr.accepted)
  obtain ⟨t, ht⟩ := Option.isSome_iff_exists.mp ((given_isSome H args vb).mpr hr.accepted)
  have hsr : s.rootfs = [] := (get_eq_of_not_names (o := .rootfs) hs hn (Or.inl rfl)).trans hra
  have htr : t.rootfs = "x".toList :=
    (get_eq_of_not_names (o := .rootfs) ht hn (Or.inl rfl)).trans hrb
  have hk : t.kernel = s.kernel := get_eq_of_default ht hs (o := .kernel) (by simp)
  have hqd : t.qemuDir = s.qemuDir := get_eq_of_names ht hs (o := .qemuDir) hd
  have hc := qemuCmd_eq_of_external hs ht hr hq he
  obtain ⟨m, u, h1, h2⟩ := qemuCmd_split H (start args s va)
  obtain ⟨u', h2⟩ := h2 (start args t vb) hk hp
  rw [h1, h2] at hc
  -- the two command lines are the same up to `-initrd` in one and `-drive` in the other
  simp [start, hsr, htr, hqd, rootfsParamOf] at hc

end Leak

/-- **A sourced run depends on its own arguments only** exactly if it launches no QEMU itself or
names both options that have no default and are used. -/
theorem dependsOnlyOnArgs_iff (H : Host) (args : List Text) (v : Vars) :
    DependsOnlyOnArgs H args v ↔
      ¬ (Ready H args ∧ RunsQemu H (givenTerminal H args)) ∨
        (Names .rootfs args ∧ Names .qemuDir args) := by
  constructor
  · intro h
    by_contra hn
    rw [not_or, not_not] at hn
    obtain ⟨⟨hr, hq⟩, hn⟩ := hn
    by_cases hd : Names .qemuDir args
    · exact leak_rootfs hr hq hd (fun hf => hn ⟨hf, hd⟩) h
    · exact leak_qemuDir hr hq hd h
  · intro hc h₁ h₂ _ _
    have hk := (after_keeps h₁ v).trans (after_keeps h₂ v).symm
    by_cases hr : Ready H args
    · refine external_launch_eq (congrArg Prod.fst hk) (congrArg Prod.snd hk) fun hq => ?_
      exact hc.resolve_left fun hn => hn ⟨hr, hq⟩
    · rw [(launch_of_not_ready hr).2, (launch_of_not_ready hr).2]

/-- After a run with `--rootfs` in gnome mode, a run without it does not use its initrd. -/
theorem not_dependsOnlyOnArgs_gnome :
    ¬ DependsOnlyOnArgs sampleHost ["--kernel=k".toList, "--terminal=gnome".toList] {} := by
  intro h
  have he := h [] [(sampleHost, ["--kernel=k".toList, "--rootfs=r".toList, "--terminal=gnome".toList])]
    trivial ⟨by decide, by decide +kernel, trivial⟩
  revert he
  decide +kernel

end Lightbox.Launcher.History
