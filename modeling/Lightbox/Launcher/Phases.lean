import Lightbox.Launcher.Script

/-! # The phases of a run

A run of the launcher reads its options (`given`, `givenKernel`, `givenTerminal`), gives up with a
message if an argument is unknown or the kernel is no directory, derives its variables, and only
then does something that is seen outside the shell. A run that is `Ready` does, sourced or executed,
what its terminal, debugger and clean-up blocks do from the derived variables (`launch_of_ready`); a
sourced run that is not does nothing (`launch_of_not_ready`). -/

namespace Lightbox.Launcher.Phases

open Lightbox.Shell.Lex (Text)
open Lightbox.Shell.Read (joinWords)
open Lightbox.Shell.Control
open Lightbox.Launcher.Options Lightbox.Launcher.Script

/-! ### What the arguments say -/

/-- The last `--kernel` given. -/
def givenKernel (args : List Text) : Text := (lastValue .kernel args).getD []

/-- The terminal used without `--terminal`. -/
def defaultTerminal (H : Host) : Text := if H.hasTmux then "tmux".toList else "gnome".toList

/-- The last `--terminal` given, or the default. -/
def givenTerminal (H : Host) (args : List Text) : Text :=
  (lastValue .terminal args).getD (defaultTerminal H)

/-- The option loop knows every argument. -/
def Accepted (args : List Text) : Prop := ∀ i ∈ args, (branch i).isSome

/-- The run comes to the choice of a terminal. -/
structure Ready (H : Host) (args : List Text) : Prop where
  accepted : Accepted args
  kernel : givenKernel args ≠ []
  isDir : H.isDir (givenKernel args) = true

instance (args : List Text) : Decidable (Accepted args) :=
  inferInstanceAs (Decidable (∀ i ∈ args, _))

instance (H : Host) (args : List Text) : Decidable (Ready H args) :=
  decidable_of_iff (Accepted args ∧ givenKernel args ≠ [] ∧ H.isDir (givenKernel args) = true)
    ⟨fun h => ⟨h.1, h.2.1, h.2.2⟩, fun h => ⟨h.1, h.2, h.3⟩⟩

/-- The settings after the option loop. -/
def given (H : Host) (args : List Text) (v : Vars) : Option Settings :=
  optionLoop (defaultSettings H v.opts) args

theorem given_isSome (H : Host) (args : List Text) (v : Vars) :
    (given H args v).isSome ↔ Accepted args := optionLoop_isSome args _

section Given
variable {H : Host} {args : List Text} {v : Vars} {s : Settings} (h : given H args v = some s)
include h

theorem given_kernel : s.kernel = givenKernel args := get_optionLoop .kernel args h

theorem given_terminal : s.terminal = givenTerminal H args := get_optionLoop .terminal args h

end Given

/-! ### Silent phases -/

/-- The variables of the shell after the option loop. -/
def start (args : List Text) (s : Settings) (v : Vars) : Vars :=
  { v with opts := s, params := joinWords args }

theorem runBlocks_options {m : Mode} (bs : List ScriptBlock) : ∀ (args : List Text) {v : Vars}
    {s : Settings}, optionLoop v.opts args = some s →
      runBlocks m (args.map optBlock ++ bs) v = runBlocks m bs { v with opts := s }
  | [], v, s, h => by
    obtain rfl : v.opts = s := by simpa [optionLoop] using h
    rfl
  | i :: is, v, s, h => by
    obtain ⟨o, hb, h⟩ := Option.bind_eq_some_iff.mp h
    have ho : optBlock i v = ⟨{ v with opts := v.opts.set o (afterEq i) }, [], .next⟩ := by
      simp only [optBlock, hb]
    rw [List.map_cons, List.cons_append, runBlocks_next (by rw [ho]; cases m <;> rfl), ho]
    have ih := runBlocks_options (m := m) bs is (v := { v with opts := v.opts.set o (afterEq i) }) h
    simpa using ih

/-- An unknown argument ends a sourced run with a message. -/
theorem runBlocks_options_none (bs : List ScriptBlock) : ∀ (args : List Text) {v : Vars},
    optionLoop v.opts args = none →
      (runBlocks .sourced (args.map optBlock ++ bs) v).signal = .ret ∧
        external (runBlocks .sourced (args.map optBlock ++ bs) v).acts = []
  | [], v, h => by simp [optionLoop] at h
  | i :: is, v, h => by
    cases hb : branch i with
    | none =>
      have ho : (optBlock i v).signal = .ret := by simp only [optBlock, hb]
      rw [List.map_cons, List.cons_append, runBlocks_stop (by rw [ho]; rfl)]
      refine ⟨ho, ?_⟩
      simp [optBlock, hb, external, Action.external]
    | some o =>
      have ho : optBlock i v = ⟨{ v with opts := v.opts.set o (afterEq i) }, [], .next⟩ := by
        simp only [optBlock, hb]
      rw [optionLoop, hb] at h
      have ih := runBlocks_options_none bs is
        (v := { v with opts := v.opts.set o (afterEq i) }) h
      rw [List.map_cons, List.cons_append, runBlocks_next (by rw [ho]; rfl), ho]
      simpa using ih

theorem silent_gdbExec (H : Host) : Silent Action.external (gdbExec H) := by
  intro v
  unfold gdbExec
  split_ifs <;> exact ⟨rfl, rfl⟩

theorem silent_rootfs (H : Host) : Silent Action.external (rootfs H) := by
  intro v
  unfold rootfs
  split_ifs <;> exact ⟨rfl, rfl⟩

theorem silent_dtb (H : Host) : Silent Action.external (dtb H) := by
  intro v
  unfold dtb
  split_ifs <;> exact ⟨rfl, rfl⟩

theorem silent_derive (H : Host) : ∀ b ∈ derive H, Silent Action.external b := by
  intro b hb
  simp only [derive, List.mem_cons, List.not_mem_nil, or_false] at hb
  rcases hb with rfl | rfl | rfl | rfl | rfl | rfl | rfl | rfl | rfl | rfl
  · exact silent_assign _ _
  · exact silent_assign _ _
  · exact silent_assign _ _
  · exact fun v => ⟨rfl, rfl⟩
  · exact silent_gdbExec H
  · exact silent_rootfs H
  · exact silent_dtb H
  · exact silent_assign _ _
  · exact silent_assign _ _
  · exact silent_assign _ _

/-- The variables when the terminal is chosen. -/
def derived (H : Host) (v : Vars) : Vars := through (derive H) v

/-! ### Derived variables

Each block with branches, as one assignment to every variable that one of its branches assigns. -/

theorem testEq_android (H : Host) : H.testEq "android".toList "android".toList = true := rfl

theorem testEq_linux (H : Host) : H.testEq "linux".toList "android".toList = false ∧
    H.testEq "linux".toList "linux".toList = true := ⟨rfl, rfl⟩

/-- The variables of the kernel tree. -/
theorem vars_kernelPaths (H : Host) (v : Vars) :
    (kernelPaths H (kernelType H v).vars).vars =
      if H.isDir (v.opts.kernel ++ "/common".toList) then androidPaths H (kernelType H v).vars
      else linuxPaths (kernelType H v).vars := by
  by_cases hd : H.isDir (v.opts.kernel ++ "/common".toList) = true
  · have ht : (kernelType H v).vars.kernelType = "android".toList := if_pos hd
    rw [if_pos hd, kernelPaths, assign, ht, if_pos (testEq_android H)]
  · have ht : (kernelType H v).vars.kernelType = "linux".toList := if_neg hd
    rw [if_neg hd, kernelPaths, assign, ht, if_neg (by rw [(testEq_linux H).1]; simp),
      if_pos (testEq_linux H).2]

/-- `QEMU_DIR`, given its value before. -/
def qemuDirOf (H : Host) (d : Text) : Text :=
  if d = [] then
    if H.machine = "aarch64".toList then "/usr/bin".toList
    else H.realpath "./prebuilts/qemu/bin".toList
  else d

theorem vars_qemuDir (H : Host) (v : Vars) : (qemuDir H v).vars =
    { v with opts := { v.opts with qemuDir := qemuDirOf H v.opts.qemuDir } } := by
  unfold qemuDir qemuDirOf assign
  dsimp only
  split_ifs <;> rfl

theorem vars_gdbExec (H : Host) (v : Vars) : (gdbExec H v).vars =
    { v with
      gdbDir := if H.machine = "aarch64".toList then v.gdbDir
        else H.cdPwd "./prebuilts/gdb".toList
      gdbExec := if H.machine = "aarch64".toList then "gdb".toList
        else H.cdPwd "./prebuilts/gdb".toList ++ "/usr/local/bin/aarch64-linux-gnu-gdb".toList
      gdbData := if H.machine = "aarch64".toList then "/usr/share/gdb".toList
        else H.cdPwd "./prebuilts/gdb".toList ++ "/usr/local/share/gdb".toList } := by
  unfold gdbExec
  split_ifs <;> rfl

/-- `ROOTFS_PARAM` -/
def rootfsParamOf (H : Host) (s : Settings) : Text :=
  if s.rootfs = [] then "-initrd ".toList ++ H.realpath s.initrd
  else "-drive if=none,file=".toList ++ H.realpath s.rootfs ++ ",format=".toList ++
    (if isQcow2 s.rootfs then "qcow2".toList else "raw".toList) ++
    ",id=hd0 -device virtio-blk-device,drive=hd0".toList

/-- `ROOTFS_BOOTARGS` -/
def rootfsBootargsOf (s : Settings) : Text :=
  if s.rootfs = [] then []
  else "root=".toList ++ (if isQcow2 s.rootfs then "/dev/vda1".toList else "/dev/vda".toList) ++
    " rw".toList

/-- The block of `ROOTFS`, up to the variables that no other block reads. -/
theorem vars_rootfs (H : Host) (v : Vars) : ∃ p f d i, (rootfs H v).vars =
    { v with
      rootfsPath := p, rootfsFormat := f, rootfsDevice := d, initrdPath := i
      rootfsParam := rootfsParamOf H v.opts
      rootfsBootargs := rootfsBootargsOf v.opts } := by
  unfold rootfs rootfsParamOf rootfsBootargsOf
  by_cases h : v.opts.rootfs = []
  · exact ⟨_, _, _, _, by simp only [h, ne_eq, not_true_eq_false, if_true, if_false]; rfl⟩
  · exact ⟨_, _, _, _, by simp only [h, ne_eq, not_false_eq_true, if_true, if_false]; rfl⟩

theorem vars_dtb (H : Host) (v : Vars) : ∃ p d, (dtb H v).vars =
    { v with dtbPath := p, dtbParam := d } := by
  unfold dtb
  split_ifs
  · exact ⟨_, _, rfl⟩
  · exact ⟨_, _, rfl⟩

/-- The variables of the kernel tree, in a shell where nothing else is set. -/
def tree (H : Host) (kernel : Text) : Vars :=
  let v := (kernelType H { opts := { kernel := kernel } }).vars
  if H.isDir (kernel ++ "/common".toList) then androidPaths H v else linuxPaths v

/-- The text of `DEBUG_PORT`. -/
def portText (H : Host) (t : Text) : Text :=
  Nat.toDigits 10 (if isCli t then 12880 else randomPort H)

/-- **The derived variables that are read later** depend on the options only. -/
structure Derived (H : Host) (v w : Vars) : Prop where
  opts : w.opts = { v.opts with qemuDir := qemuDirOf H v.opts.qemuDir }
  params : w.params = v.params
  qemuTitle : w.qemuTitle = v.qemuTitle
  dtbPram : w.dtbPram = v.dtbPram
  kernelSource : w.kernelSource = (tree H v.opts.kernel).kernelSource
  kernelImage : w.kernelImage = (tree H v.opts.kernel).kernelImage
  kernelVmlinux : w.kernelVmlinux = (tree H v.opts.kernel).kernelVmlinux
  kernelScripts : w.kernelScripts = (tree H v.opts.kernel).kernelScripts
  relocSections : w.relocSections = (tree H v.opts.kernel).relocSections
  qemuExec : w.qemuExec = qemuDirOf H v.opts.qemuDir ++ "/qemu-system-aarch64".toList
  gdbExec : w.gdbExec = if H.machine = "aarch64".toList then "gdb".toList
    else H.cdPwd "./prebuilts/gdb".toList ++ "/usr/local/bin/aarch64-linux-gnu-gdb".toList
  gdbData : w.gdbData = if H.machine = "aarch64".toList then "/usr/share/gdb".toList
    else H.cdPwd "./prebuilts/gdb".toList ++ "/usr/local/share/gdb".toList
  rootfsParam : w.rootfsParam = rootfsParamOf H v.opts
  rootfsBootargs : w.rootfsBootargs = rootfsBootargsOf v.opts
  shareParam : w.shareParam =
    "-fsdev local,security_model=mapped,id=fsdev0,path=".toList ++ H.realpath v.opts.shareFolder ++
      " -device virtio-9p-pci,id=fs0,fsdev=fsdev0,mount_tag=hostshare".toList
  debugPort : w.debugPort = portText H v.opts.terminal
  qemuCmd : w.qemuCmd = qemuHead w ++ " '".toList ++ appendArg w ++ "'".toList

/-- The blocks after those of the kernel tree. -/
theorem derived_eq (H : Host) (v k : Vars) (hk : (kernelPaths H (kernelType H v).vars).vars = k) :
    ∃ p f d i q r, derived H v = (qemuCmd (debugPort H (shareParam H
      { (gdbExec H (qemuExec (qemuDir H k).vars).vars).vars with
        rootfsPath := p, rootfsFormat := f, rootfsDevice := d, initrdPath := i
        rootfsParam := rootfsParamOf H k.opts
        rootfsBootargs := rootfsBootargsOf k.opts
        dtbPath := q, dtbParam := r }).vars).vars).vars := by
  obtain ⟨p, f, d, i, hr⟩ := vars_rootfs H (gdbExec H (qemuExec (qemuDir H k).vars).vars).vars
  obtain ⟨q, r, hd⟩ := vars_dtb H (rootfs H (gdbExec H (qemuExec (qemuDir H k).vars).vars).vars).vars
  have ho : (gdbExec H (qemuExec (qemuDir H k).vars).vars).vars.opts =
      { k.opts with qemuDir := qemuDirOf H k.opts.qemuDir } := by
    rw [vars_gdbExec, vars_qemuDir]
    rfl
  have hp : rootfsParamOf H (gdbExec H (qemuExec (qemuDir H k).vars).vars).vars.opts =
      rootfsParamOf H k.opts := by rw [ho]; rfl
  have hb : rootfsBootargsOf (gdbExec H (qemuExec (qemuDir H k).vars).vars).vars.opts =
      rootfsBootargsOf k.opts := by rw [ho]; rfl
  refine ⟨p, f, d, i, q, r, ?_⟩
  calc derived H v
      = (qemuCmd (debugPort H (shareParam H (dtb H (rootfs H (gdbExec H (qemuExec (qemuDir H
          k).vars).vars).vars).vars).vars).vars).vars).vars := by rw [← hk]; rfl
    _ = _ := by rw [hd, hr, hp, hb]

/-- The blocks of the kernel tree. -/
structure Tree (H : Host) (v k : Vars) : Prop where
  opts : k.opts = v.opts
  params : k.params = v.params
  qemuTitle : k.qemuTitle = v.qemuTitle
  dtbPram : k.dtbPram = v.dtbPram
  kernelSource : k.kernelSource = (tree H v.opts.kernel).kernelSource
  kernelImage : k.kernelImage = (tree H v.opts.kernel).kernelImage
  kernelVmlinux : k.kernelVmlinux = (tree H v.opts.kernel).kernelVmlinux
  kernelScripts : k.kernelScripts = (tree H v.opts.kernel).kernelScripts
  relocSections : k.relocSections = (tree H v.opts.kernel).relocSections

theorem tree_spec (H : Host) (v : Vars) :
    Tree H v (kernelPaths H (kernelType H v).vars).vars := by
  rw [vars_kernelPaths]
  by_cases hc : H.isDir (v.opts.kernel ++ "/common".toList) = true
  · have hk : tree H v.opts.kernel =
        androidPaths H (kernelType H { opts := { kernel := v.opts.kernel } }).vars := if_pos hc
    rw [if_pos hc]
    exact ⟨rfl, rfl, rfl, rfl, by rw [hk]; rfl, by rw [hk]; rfl, by rw [hk]; rfl, by rw [hk]; rfl,
      by rw [hk]; rfl⟩
  · have hk : tree H v.opts.kernel =
        linuxPaths (kernelType H { opts := { kernel := v.opts.kernel } }).vars := if_neg hc
    rw [if_neg hc]
    exact ⟨rfl, rfl, rfl, rfl, by rw [hk]; rfl, by rw [hk]; rfl, by rw [hk]; rfl, by rw [hk]; rfl,
      by rw [hk]; rfl⟩

theorem vars_qemuCmd (v : Vars) : (qemuCmd v).vars.qemuCmd =
    qemuHead (qemuCmd v).vars ++ " '".toList ++ appendArg (qemuCmd v).vars ++ "'".toList := by
  have hh : ∀ x, qemuHead { v with qemuCmd := x } = qemuHead v := fun _ => by
    unfold qemuHead; rfl
  have ha : ∀ x, appendArg { v with qemuCmd := x } = appendArg v := fun _ => rfl
  have hq := hh (qemuHead v ++ " '".toList ++ appendArg v ++ "'".toList)
  have hr := ha (qemuHead v ++ " '".toList ++ appendArg v ++ "'".toList)
  rw [qemuCmd, assign]
  dsimp only
  rw [hq, hr]

theorem derived_spec (H : Host) (v : Vars) : Derived H v (derived H v) := by
  have ht := tree_spec H v
  generalize hk : (kernelPaths H (kernelType H v).vars).vars = k at ht
  obtain ⟨p, f, d, i, q, r, hv⟩ := derived_eq H v k hk
  rw [vars_gdbExec, vars_qemuDir] at hv
  rw [hv]
  exact
    { opts := by rw [← ht.opts]; rfl
      params := ht.params
      qemuTitle := ht.qemuTitle
      dtbPram := ht.dtbPram
      kernelSource := ht.kernelSource
      kernelImage := ht.kernelImage
      kernelVmlinux := ht.kernelVmlinux
      kernelScripts := ht.kernelScripts
      relocSections := ht.relocSections
      qemuExec := by rw [← ht.opts]; rfl
      gdbExec := rfl
      gdbData := rfl
      rootfsParam := by rw [← ht.opts]; rfl
      rootfsBootargs := by rw [← ht.opts]; rfl
      shareParam := by rw [← ht.opts]; rfl
      debugPort := by rw [← ht.opts]; rfl
      qemuCmd := vars_qemuCmd _ }

/-! ### Runs -/

variable {H : Host} {args : List Text} {v : Vars}

/-- The blocks that are seen outside. -/
def visible (H : Host) : List ScriptBlock := [terminal H, debugger H, cleanup]

theorem launch_of_given {m : Mode} {s : Settings} (h : given H args v = some s) :
    launch m H args v = runBlocks m (body H ++ [cleanup]) (start args s v) := by
  rw [launch, script, defaults, runBlocks_assign]
  exact runBlocks_options _ args
    (v := { v with opts := defaultSettings H v.opts, params := joinWords args }) h

/-- **A run that is ready** does what its last three blocks do. -/
theorem launch_of_ready {m : Mode} {s : Settings} (hs : given H args v = some s)
    (hr : Ready H args) :
    (launch m H args v).vars = (runBlocks m (visible H) (derived H (start args s v))).vars ∧
      external (launch m H args v).acts =
        external (runBlocks m (visible H) (derived H (start args s v))).acts ∧
      (launch m H args v).signal =
        (runBlocks m (visible H) (derived H (start args s v))).signal := by
  have hk : checkKernel (start args s v) = ⟨start args s v, [], .next⟩ := by
    have : ¬ s.kernel = [] := by rw [given_kernel hs]; exact hr.kernel
    simp [checkKernel, start, this]
  have hd : checkDir H (start args s v) = ⟨start args s v, [], .next⟩ := by
    have : H.isDir s.kernel = true := by rw [given_kernel hs]; exact hr.isDir
    simp [checkDir, start, this]
  have hb : body H ++ [cleanup] = checkKernel :: checkDir H :: (derive H ++ visible H) := by
    simp [body, visible]
  rw [launch_of_given hs, hb, runBlocks_next (by rw [hk]; cases m <;> rfl), hk]
  dsimp only
  rw [runBlocks_next (by rw [hd]; cases m <;> rfl), hd]
  exact runBlocks_silent (silent_derive H)

/-- **An executed run** comes to its last three blocks whether it is ready or not: the checks of `--kernel`
end in a `return`. -/
theorem launch_executed {s : Settings} (hs : given H args v = some s) :
    external (launch .executed H args v).acts =
      external (runBlocks .executed (visible H) (derived H (start args s v))).acts := by
  have hchecks : ∀ b ∈ [checkKernel, checkDir H], ∀ w : Vars,
      (b w).signal.stops .executed = false ∧ (b w).vars = w ∧ external (b w).acts = [] := by
    intro b hb w
    simp only [List.mem_cons, List.not_mem_nil, or_false] at hb
    rcases hb with rfl | rfl
    · unfold checkKernel
      split_ifs <;> exact ⟨rfl, rfl, rfl⟩
    · unfold checkDir
      split_ifs <;> exact ⟨rfl, rfl, rfl⟩
  obtain ⟨hk, hkv, hka⟩ := hchecks checkKernel (by simp) (start args s v)
  obtain ⟨hd, hdv, hda⟩ := hchecks (checkDir H) (by simp) (start args s v)
  have hb : body H ++ [cleanup] = checkKernel :: checkDir H :: (derive H ++ visible H) := by
    simp [body, visible]
  unfold external at hka hda ⊢
  rw [launch_of_given hs, hb, runBlocks_next hk, hkv]
  dsimp only
  rw [runBlocks_next hd, hdv, List.filter_append, List.filter_append, hka, hda]
  exact (runBlocks_silent (silent_derive H)).2.1

/-- A sourced run whose kernel is refused prints a message and leaves its settings behind. -/
theorem launch_of_refused {s : Settings} (hs : given H args v = some s) (hr : ¬ Ready H args) :
    ∃ line, launch .sourced H args v = ⟨start args s v, [.echo line], .ret⟩ := by
  have hb : body H ++ [cleanup] = checkKernel :: checkDir H :: (derive H ++ visible H) := by
    simp [body, visible]
  rw [launch_of_given hs, hb]
  by_cases hk : s.kernel = []
  · have hc : checkKernel (start args s v) = ⟨start args s v,
        [.echo "Please pass the kernel path: --kernel=<path>".toList], .ret⟩ := if_pos hk
    exact ⟨_, by rw [runBlocks_stop (by rw [hc]; rfl), hc]⟩
  · have hc : checkKernel (start args s v) = ⟨start args s v, [], .next⟩ := if_neg hk
    have hd : H.isDir s.kernel = false := by
      by_contra hd
      rw [given_kernel hs] at hk hd
      exact hr ⟨(given_isSome H args v).mp (by simp [hs]), hk, by simpa using hd⟩
    have hc' : checkDir H (start args s v) = ⟨start args s v,
        [.echo "ERROR: Directory not found: --kernel=<path>".toList], .ret⟩ := if_pos hd
    refine ⟨"ERROR: Directory not found: --kernel=<path>".toList, ?_⟩
    rw [runBlocks_next (by rw [hc]; rfl), hc]
    dsimp only
    rw [runBlocks_stop (by rw [hc']; rfl), hc']
    rfl

/-- **A sourced run that is not ready** only prints a message. -/
theorem launch_of_not_ready (hr : ¬ Ready H args) :
    (launch .sourced H args v).signal = .ret ∧ external (launch .sourced H args v).acts = [] := by
  cases hs : given H args v with
  | none =>
    rw [launch, script, defaults, runBlocks_assign]
    exact runBlocks_options_none _ args
      (v := { v with opts := defaultSettings H v.opts, params := joinWords args }) hs
  | some s =>
    obtain ⟨line, hl⟩ := launch_of_refused hs hr
    rw [hl]
    exact ⟨rfl, rfl⟩

/-! ### From the choice of the terminal on -/

/-- The terminal is one in which the run itself launches QEMU. -/
def RunsQemu (H : Host) (t : Text) : Prop :=
  H.testEq t "gnome".toList = true ∨ H.testEq t "xfce4".toList = true ∨
    H.testEq t "cli-qemu".toList = true

instance (H : Host) (t : Text) : Decidable (RunsQemu H t) := inferInstanceAs (Decidable (_ ∨ _ ∨ _))

/-- The action by which a run launches QEMU. -/
def launchAction (H : Host) (v : Vars) : Action :=
  if H.testEq v.opts.terminal "gnome".toList then .gnomeTerminal v.qemuTitle v.qemuCmd
  else if H.testEq v.opts.terminal "xfce4".toList then
    .xfce4Terminal v.qemuTitle (xfce4Command v.qemuCmd)
  else .bash v.qemuCmd

theorem terminal_vars (h : (terminal H v).signal = .next) : (terminal H v).vars = v := by
  unfold terminal at h ⊢
  split_ifs at h ⊢ <;> rfl

/-- **What a run does** from the choice of the terminal on. -/
theorem acts_visible (m : Mode) (H : Host) (v : Vars) :
    (runBlocks m (visible H) v).acts = (terminal H v).acts ++
      if (terminal H v).signal.stops m then []
      else (debugger H (terminal H v).vars).acts ++ (cleanup v).acts := by
  cases ht : (terminal H v).signal.stops m with
  | true => rw [visible, runBlocks_stop ht]; simp
  | false =>
    have hd : (debugger H (terminal H v).vars).signal = .next := by
      unfold debugger; split_ifs <;> rfl
    rw [visible, runBlocks_next ht]
    dsimp only
    rw [runBlocks_next (by rw [hd]; cases m <;> rfl)]
    cases m <;> simp [runBlocks, cleanup, Signal.stops]

/-- **What a sourced run does** from the choice of the terminal on. -/
theorem visible_acts : (runBlocks .sourced (visible H) v).acts = (terminal H v).acts ++
    if (terminal H v).signal = .next then (debugger H v).acts ++ (cleanup v).acts else [] := by
  rw [acts_visible]
  cases ht : (terminal H v).signal with
  | next => rw [terminal_vars ht]; rfl
  | ret => rfl
  | exit => rfl

theorem head_terminal (h : RunsQemu H v.opts.terminal) :
    (external (terminal H v).acts).head? = some (launchAction H v) := by
  unfold terminal launchAction
  by_cases h1 : H.testEq v.opts.terminal "gnome".toList = true
  · rw [if_pos h1, if_pos h1]
    rfl
  by_cases h2 : H.testEq v.opts.terminal "xfce4".toList = true
  · rw [if_neg h1, if_neg h1, if_pos h2, if_pos h2]
    rfl
  have h3 : H.testEq v.opts.terminal "cli-qemu".toList = true :=
    (h.resolve_left h1).resolve_left h2
  rw [if_neg h1, if_neg h1, if_neg h2, if_neg h2, if_pos h3]
  rfl

theorem head_visible (h : RunsQemu H v.opts.terminal) :
    (external (runBlocks .sourced (visible H) v).acts).head? = some (launchAction H v) := by
  have ht := head_terminal h
  unfold external at ht ⊢
  rw [visible_acts, List.filter_append, List.head?_append, ht]
  rfl

/-- A machine without tmux on which every path is a directory. -/
def sampleHost : Host where
  realpath x := x
  isDir _ := true
  cdPwd x := x
  lsGrepAndroid _ := []
  machine := "x86_64".toList
  hasTmux := false
  random := 0
  pwd := "/work".toList
  testOther _ _ := false

end Lightbox.Launcher.Phases
