import Lightbox.Launcher.Append

/-! # The command line of QEMU

The options reach QEMU through intermediate variables and one long string that a second shell splits
into words. `qemuArgs` is the argument vector that the options ask for. With values that hold no
character special to the shell, the run invokes QEMU with it exactly if the words of `DTB_PRAM` are
those of `--dtb` (`invoked_iff`): the script assigns `DTB_PARAM` and reads `DTB_PRAM`, which nothing
assigns, so the option is lost. -/

namespace Lightbox.Launcher.Invocation

open Lightbox.Shell.Lex Lightbox.Shell.Read Lightbox.Shell.Quoted
open Lightbox.Launcher.Options Lightbox.Launcher.Script Lightbox.Launcher.Phases
open Lightbox.Launcher.Append

/-! ### What the options ask for -/

/-- `-dtb` and the path, if the option is given. -/
def dtbWords (H : Host) (s : Settings) : List Text :=
  if s.dtb = [] then [] else ["-dtb".toList, H.realpath s.dtb]

/-- The initial ramdisk, or the root file system as a drive. -/
def rootfsWords (H : Host) (s : Settings) : List Text :=
  if s.rootfs = [] then ["-initrd".toList, H.realpath s.initrd]
  else ["-drive".toList, "if=none,file=".toList ++ H.realpath s.rootfs ++ ",format=".toList ++
    (if isQcow2 s.rootfs then "qcow2".toList else "raw".toList) ++ ",id=hd0".toList,
    "-device".toList, "virtio-blk-device,drive=hd0".toList]

/-- The shared directory. -/
def shareWords (H : Host) (s : Settings) : List Text :=
  ["-fsdev".toList, "local,security_model=mapped,id=fsdev0,path=".toList ++
    H.realpath s.shareFolder, "-device".toList,
    "virtio-9p-pci,id=fs0,fsdev=fsdev0,mount_tag=hostshare".toList]

/-- The kernel command line. -/
def kernelCmdline (s : Settings) : Text :=
  joinWords [rootfsBootargsOf s, s.cmdline, "earlycon=pl011,0x9000000 nokaslr".toList]

/-- The words before those of `--dtb`. -/
def wordsBefore (H : Host) (s : Settings) : List Text :=
  (qemuDirOf H s.qemuDir ++ "/qemu-system-aarch64".toList) ::
    ["-machine", "virt,gic_version=3", "-cpu", "cortex-a72", "-m", "1024", "-smp", "8",
      "-kernel"].map String.toList ++ [H.cdPwd s.kernel ++ "/arch/arm64/boot/Image".toList]

/-- The words after those of `--dtb`. -/
def wordsAfter (H : Host) (s : Settings) : List Text :=
  rootfsWords H s ++ shareWords H s ++
    ["-netdev", "user,id=net0", "-device", "virtio-net-device,netdev=net0"].map String.toList ++
    fields s.qemuExtraParam ++
    ["-serial", "mon:stdio", "-display", "none", "-gdb"].map String.toList ++
    ["tcp::".toList ++ portText H s.terminal, "-S".toList, "-append".toList, kernelCmdline s]

/-- **The argument vector the options ask for**, with a kernel tree of type linux. -/
def qemuArgs (H : Host) (s : Settings) : List Text :=
  wordsBefore H s ++ dtbWords H s ++ wordsAfter H s

/-- The commands an action gives to a debugger. -/
def debuggerLines : Action → List Text
  | .gdb _ _ _ ex => ex
  | .append _ line => [line]
  | _ => []

/-- **QEMU is invoked as the options ask**, and the debugger connects to its port: the debugger of the
same run, or the one in the other pane. -/
structure Invoked (H : Host) (args : List Text) (v : Vars) (s : Settings) : Prop where
  qemu : ∀ other, ∃ a, (external (launch .sourced H args v).acts).head? = some a ∧
    received other a = some (qemuArgs H s)
  debugger : ∀ a ∈ (launch .sourced H args v).acts, ∀ line ∈ debuggerLines a,
    "target".toList <+: line → line = targetLine (portText H s.terminal)
  pane : isCli s.terminal = true → ∀ H', portText H' "cli-gdb".toList = portText H s.terminal

/-- The values hold no character that is special to the shell, nor do the paths they resolve to. -/
structure Plain (H : Host) (s : Settings) : Prop where
  kernelDir : ∀ c ∈ H.cdPwd s.kernel, plainChar c = true
  qemuDir : ∀ c ∈ qemuDirOf H s.qemuDir, plainChar c = true
  noAssign : '=' ∉ qemuDirOf H s.qemuDir
  rootfs : s.rootfs ≠ [] → ∀ c ∈ H.realpath s.rootfs, plainChar c = true
  initrd : s.rootfs = [] → H.realpath s.initrd ≠ [] ∧ ∀ c ∈ H.realpath s.initrd, plainChar c = true
  share : ∀ c ∈ H.realpath s.shareFolder, plainChar c = true
  extra : Simple s.qemuExtraParam
  cmdline : Simple s.cmdline

/-! ### Words between blanks -/

theorem fields_joinWords : ∀ ts : List Text, fields (joinWords ts) = ts.flatMap fields
  | [] => rfl
  | [t] => by simp [joinWords]
  | t :: u :: ts => by
    rw [joinWords, fields_append_blank, fields_joinWords (u :: ts)]
    rfl

/-- Words without blanks are the words of the text that joins them. -/
theorem fields_words (ts : List Text) (h : ∀ t ∈ ts, t ≠ [] ∧ ' ' ∉ t) :
    fields (joinWords ts) = ts := by
  rw [fields_joinWords]
  induction ts with
  | nil => rfl
  | cons t ts ih =>
    obtain ⟨hne, hb⟩ := h t List.mem_cons_self
    rw [List.flatMap_cons, fields_of_not_mem hb hne, ih fun u hu => h u (List.mem_cons_of_mem _ hu)]
    rfl

theorem blank_of_plain {t : Text} (h : ∀ c ∈ t, plainChar c = true) : ' ' ∉ t :=
  fun hb => absurd (h ' ' hb) (by decide)

theorem fields_append_of_head {t l : Text} (h : l.head? = some ' ') :
    fields (t ++ l) = fields t ++ fields l := by
  obtain ⟨m, rfl⟩ := List.head?_eq_some_iff.mp h
  have h0 : fields (' ' :: m) = fields m := fields_append_blank [] m
  rw [fields_append_blank, h0]

theorem fields_append_of_last {l u : Text} (h : l.getLast? = some ' ') :
    fields (l ++ u) = fields l ++ fields u := by
  obtain ⟨m, rfl⟩ := List.getLast?_eq_some_iff.mp h
  have h0 : fields (m ++ [' ']) = fields m := by
    rw [fields_append_blank]
    exact List.append_nil _
  rw [h0, List.append_assoc, List.singleton_append, fields_append_blank]

/-- A text with blanks at both ends separates what is before it from what is after it. -/
theorem fields_between {l : Text} (t u : Text) (h1 : l.head? = some ' ')
    (h2 : l.getLast? = some ' ') : fields (t ++ (l ++ u)) = fields t ++ (fields l ++ fields u) := by
  have h : (l ++ u).head? = some ' ' := by rw [List.head?_append, h1]; rfl
  rw [fields_append_of_head h, fields_append_of_last h2]

/-- **The words of the command**, but for the kernel command line. -/
theorem fields_qemuHead (w : Vars) : fields (qemuHead w) =
    fields w.qemuExec ++ (["-machine", "virt,gic_version=3", "-cpu", "cortex-a72", "-m", "1024", "-smp",
      "8", "-kernel"].map String.toList ++ (fields w.kernelImage ++ (fields w.dtbPram ++
    (fields w.rootfsParam ++ (fields w.shareParam ++
    (["-netdev", "user,id=net0", "-device", "virtio-net-device,netdev=net0"].map String.toList ++
    (fields w.opts.qemuExtraParam ++
    (["-serial", "mon:stdio", "-display", "none", "-gdb"].map String.toList ++
    (fields ("tcp::".toList ++ w.debugPort) ++ ["-S".toList, "-append".toList]))))))))) := by
  have hg : "                   -gdb tcp::".toList =
      "                   -gdb ".toList ++ "tcp::".toList := by decide
  -- every literal text of the command has blanks at both ends, but for the last two
  have edges : ∀ l : Text, (l.head? = some ' ' ∧ l.getLast? = some ' ') →
      ∀ t u, fields (t ++ (l ++ u)) = fields t ++ (fields l ++ fields u) :=
    fun l h t u => fields_between t u h.1 h.2
  have last : ∀ l : Text, l.getLast? = some ' ' → ∀ u, fields (l ++ u) = fields l ++ fields u :=
    fun l h u => fields_append_of_last h
  unfold qemuHead
  simp only [List.append_assoc]
  rw [hg, List.append_assoc,
    edges "                  -machine virt,gic_version=3            -cpu cortex-a72         ".toList
      (by rewrite [String.toList_ofList]; decide),
    last "               -m 1024                                -smp 8                    ".toList
      (by rewrite [String.toList_ofList]; decide),
    last "             -kernel ".toList (by decide),
    edges "                ".toList (by decide),
    edges "                            ".toList (by decide),
    edges "                        ".toList (by decide),
    edges "                         -netdev user,id=net0                   -device ".toList
      (by rewrite [String.toList_ofList]; decide),
    last "virtio-net-device,netdev=net0  ".toList (by decide),
    edges "                    -serial mon:stdio                      -display none       ".toList
      (by rewrite [String.toList_ofList]; decide),
    last "                   -gdb ".toList (by decide),
    ← List.append_assoc "tcp::".toList,
    fields_append_of_head (l := "                -S -append".toList) (by decide)]
  have h1 : fields
      "                  -machine virt,gic_version=3            -cpu cortex-a72         ".toList =
        ["-machine", "virt,gic_version=3", "-cpu", "cortex-a72"].map String.toList := by
    rewrite [String.toList_ofList]; decide
  have h2 : fields
      "               -m 1024                                -smp 8                    ".toList =
        ["-m", "1024", "-smp", "8"].map String.toList := by
    rewrite [String.toList_ofList]; decide
  have h3 : fields "             -kernel ".toList = ["-kernel".toList] := by decide
  have h4 : fields "                ".toList = [] := by decide
  have h5 : fields "                            ".toList = [] := by decide
  have h6 : fields "                        ".toList = [] := by decide
  have h7 : fields "                         -netdev user,id=net0                   -device ".toList =
      ["-netdev", "user,id=net0", "-device"].map String.toList := by
    rewrite [String.toList_ofList]; decide
  have h8 : fields "virtio-net-device,netdev=net0  ".toList =
      ["virtio-net-device,netdev=net0".toList] := by decide
  have h9 : fields
      "                    -serial mon:stdio                      -display none       ".toList =
        ["-serial", "mon:stdio", "-display", "none"].map String.toList := by
    rewrite [String.toList_ofList]; decide
  have h10 : fields "                   -gdb ".toList = ["-gdb".toList] := by decide
  have h11 : fields "                -S -append".toList = ["-S".toList, "-append".toList] := by
    decide
  rw [h1, h2, h3, h4, h5, h6, h7, h8, h9, h10, h11]
  simp only [List.nil_append, List.map_cons, List.map_nil, List.cons_append]

/-! ### The variables of the command -/

section Values
variable {H : Host} {s : Settings} (hp : Plain H s)
include hp

theorem fields_rootfsParam : fields (rootfsParamOf H s) = rootfsWords H s := by
  unfold rootfsParamOf rootfsWords
  by_cases h : s.rootfs = []
  · rw [if_pos h, if_pos h]
    obtain ⟨hne, hc⟩ := hp.initrd h
    refine fields_words ["-initrd".toList, H.realpath s.initrd] ?_
    intro t ht
    rcases List.mem_pair.mp ht with rfl | rfl
    · decide
    · exact ⟨hne, blank_of_plain hc⟩
  · rw [if_neg h, if_neg h]
    have hc := blank_of_plain (hp.rootfs h)
    have hf : ' ' ∉ (if isQcow2 s.rootfs then "qcow2".toList else "raw".toList) := by
      split_ifs <;> decide
    generalize (if isQcow2 s.rootfs then "qcow2".toList else "raw".toList) = f at hf ⊢
    have h1 : "-drive if=none,file=".toList = "-drive".toList ++ ' ' :: "if=none,file=".toList := by
      decide
    have h2 : ",id=hd0 -device virtio-blk-device,drive=hd0".toList = ",id=hd0".toList ++
        ' ' :: ("-device".toList ++ ' ' :: "virtio-blk-device,drive=hd0".toList) := by decide
    have hi : "if=none,file=".toList = 'i' :: "f=none,file=".toList := by decide
    have hb : ' ' ∉ "f=none,file=".toList ∧ ' ' ∉ ",format=".toList ∧ ' ' ∉ ",id=hd0".toList := by
      decide
    have hw := fields_words ["-drive".toList, "if=none,file=".toList ++ H.realpath s.rootfs ++
      ",format=".toList ++ f ++ ",id=hd0".toList, "-device".toList,
      "virtio-blk-device,drive=hd0".toList] (by
        simp only [List.forall_mem_cons, List.not_mem_nil, false_imp_iff, implies_true, and_true]
        refine ⟨by decide, ⟨?_, ?_⟩, by decide, by decide⟩
        · rw [hi]
          simp
        · rw [hi]
          simp only [List.mem_append, List.mem_cons, not_or]
          exact ⟨⟨⟨⟨⟨by decide, hb.1⟩, hc⟩, hb.2.1⟩, hf⟩, hb.2.2⟩)
    rw [← hw, h1, h2]
    simp only [joinWords, List.append_assoc, List.cons_append]

theorem fields_shareParam : fields ("-fsdev local,security_model=mapped,id=fsdev0,path=".toList ++
    H.realpath s.shareFolder ++
      " -device virtio-9p-pci,id=fs0,fsdev=fsdev0,mount_tag=hostshare".toList) = shareWords H s := by
  have hc := blank_of_plain hp.share
  have h1 : "-fsdev local,security_model=mapped,id=fsdev0,path=".toList = "-fsdev".toList ++
      ' ' :: 'l' :: "ocal,security_model=mapped,id=fsdev0,path=".toList := by
    rewrite [String.toList_ofList]; decide
  have h2 : " -device virtio-9p-pci,id=fs0,fsdev=fsdev0,mount_tag=hostshare".toList =
      ' ' :: ("-device".toList ++ ' ' ::
        "virtio-9p-pci,id=fs0,fsdev=fsdev0,mount_tag=hostshare".toList) := by
    rewrite [String.toList_ofList]; decide
  have hl : "local,security_model=mapped,id=fsdev0,path=".toList =
      'l' :: "ocal,security_model=mapped,id=fsdev0,path=".toList := by
    rewrite [String.toList_ofList]; decide
  have hb : ' ' ∉ 'l' :: "ocal,security_model=mapped,id=fsdev0,path=".toList := by
    rewrite [String.toList_ofList]; decide
  unfold shareWords
  rw [h1, h2, hl]
  have hw := fields_words ["-fsdev".toList,
    'l' :: "ocal,security_model=mapped,id=fsdev0,path=".toList ++ H.realpath s.shareFolder,
    "-device".toList, "virtio-9p-pci,id=fs0,fsdev=fsdev0,mount_tag=hostshare".toList] (by
      simp only [List.forall_mem_cons, List.not_mem_nil, false_imp_iff, implies_true, and_true]
      refine ⟨by decide, ⟨by simp, ?_⟩, by decide, by decide⟩
      rw [List.mem_append, not_or]
      exact ⟨hb, hc⟩)
  rw [← hw]
  simp only [joinWords, List.append_assoc, List.cons_append]

theorem simple_rootfsParam : Simple (rootfsParamOf H s) := by
  unfold rootfsParamOf
  by_cases h : s.rootfs = []
  · rw [if_pos h]
    exact simple_append.mpr ⟨by decide, simple_of_plain (hp.initrd h).2⟩
  · rw [if_neg h]
    have hf : Simple (if isQcow2 s.rootfs then "qcow2".toList else "raw".toList) := by
      split_ifs <;> decide
    refine simple_append.mpr ⟨simple_append.mpr ⟨?_, hf⟩, by decide⟩
    refine simple_append.mpr ⟨?_, by decide⟩
    exact simple_append.mpr ⟨by decide, simple_of_plain (hp.rootfs h)⟩

end Values

/-- With a kernel tree of type linux, the image lies in the tree. -/
theorem kernelImage_linux {H : Host} {k : Text} (hl : H.isDir (k ++ "/common".toList) = false) :
    (tree H k).kernelImage = H.cdPwd k ++ "/arch/arm64/boot/Image".toList := by
  unfold tree
  dsimp only
  rw [hl, if_neg (by simp)]
  rfl

section Run
variable {H : Host} {v : Vars} (hl : H.isDir (v.opts.kernel ++ "/common".toList) = false)
  (hp : Plain H v.opts)
include hl hp

theorem plain_kernelImage : ∀ c ∈ (derived H v).kernelImage, plainChar c = true := by
  rw [(derived_spec H v).kernelImage, kernelImage_linux hl]
  intro c hc
  rcases List.mem_append.mp hc with hc | hc
  · exact hp.kernelDir c hc
  · have hall : "/arch/arm64/boot/Image".toList.all plainChar = true := by decide
    exact List.all_eq_true.mp hall c hc

omit hl in
theorem plain_qemuExec : ∀ c ∈ (derived H v).qemuExec, plainChar c = true := by
  rw [(derived_spec H v).qemuExec]
  intro c hc
  rcases List.mem_append.mp hc with hc | hc
  · exact hp.qemuDir c hc
  · have hall : "/qemu-system-aarch64".toList.all plainChar = true := by decide
    exact List.all_eq_true.mp hall c hc

theorem metaFree_derived (hd : Simple v.dtbPram) : MetaFree (derived H v) := by
  have h := derived_spec H v
  refine ⟨plain_qemuExec hp, ?_, simple_of_plain (plain_kernelImage hl hp), ?_, ?_, ?_, ?_⟩
  · rw [h.qemuExec, List.mem_append, not_or]
    exact ⟨hp.noAssign, by decide⟩
  · rw [h.dtbPram]
    exact hd
  · rw [h.rootfsParam]
    exact simple_rootfsParam hp
  · rw [h.shareParam]
    refine simple_append.mpr ⟨simple_append.mpr ⟨by decide, simple_of_plain hp.share⟩, ?_⟩
    decide
  · rw [h.opts]
    exact hp.extra

/-- **The words of the command**: those the options ask for, with the words of `DTB_PRAM` in the place
of those of `--dtb`. -/
theorem words_derived : fields (qemuHead (derived H v)) ++ [appendArg (derived H v)] =
    wordsBefore H v.opts ++ fields v.dtbPram ++ wordsAfter H v.opts := by
  have h := derived_spec H v
  have he : fields (derived H v).qemuExec = [(derived H v).qemuExec] := by
    refine fields_of_not_mem (blank_of_plain (plain_qemuExec hp)) ?_
    rw [h.qemuExec]
    exact List.append_ne_nil_of_right_ne_nil _ (by decide)
  have hk : fields (derived H v).kernelImage = [(derived H v).kernelImage] := by
    refine fields_of_not_mem (blank_of_plain (plain_kernelImage hl hp)) ?_
    rw [h.kernelImage, kernelImage_linux hl]
    exact List.append_ne_nil_of_right_ne_nil _ (by decide)
  have ht : fields ("tcp::".toList ++ (derived H v).debugPort) =
      ["tcp::".toList ++ (derived H v).debugPort] := by
    refine fields_of_not_mem ?_ (List.append_ne_nil_of_left_ne_nil (by decide) _)
    rw [List.mem_append, not_or, h.debugPort]
    refine ⟨by decide, fun hb => ?_⟩
    exact absurd (Nat.isDigit_of_mem_toDigits (by omega) (by omega) hb) (by decide)
  have ha : appendArg (derived H v) = kernelCmdline v.opts := by
    have hc : (derived H v).opts.cmdline = v.opts.cmdline := by rw [h.opts]
    have hf : " earlycon=pl011,0x9000000 nokaslr".toList =
        ' ' :: "earlycon=pl011,0x9000000 nokaslr".toList := by decide
    rw [appendArg, h.rootfsBootargs, hc, hf]
    simp only [kernelCmdline, joinWords, List.append_assoc, List.cons_append]
  have hx : (derived H v).opts.qemuExtraParam = v.opts.qemuExtraParam := by rw [h.opts]
  rw [fields_qemuHead, he, hk, ht, ha, hx, h.dtbPram, h.rootfsParam, fields_rootfsParam hp,
    h.shareParam, fields_shareParam hp, h.qemuExec, h.kernelImage, kernelImage_linux hl, h.debugPort]
  simp only [wordsBefore, wordsAfter, List.append_assoc, List.cons_append, List.nil_append]

end Run

/-! ### The port of the debugger -/

/-- A line with a fixed beginning. -/
theorem head_append {t : Text} {c : Char} (h : t.head? = some c) (u : Text) :
    (t ++ u).head? = some c := by
  rw [List.head?_append, h]
  rfl

theorem head_of_target {l : Text} (h : "target".toList <+: l) : l.head? = some 't' := by
  obtain ⟨r, rfl⟩ := h
  rfl

/-- Among the commands of a debugger, one connects to QEMU. -/
theorem target_of_mem {w : Vars} {line : Text} (hm : line ∈ gdbCommands w ∨ line ∈ dddLines w)
    (ht : "target".toList <+: line) : line = targetLine w.debugPort := by
  have hm' : line ∈ gdbCommands w := by
    rcases hm with hm | hm
    · exact hm
    · -- the script of ddd has the same lines, without the text interface
      have hsub : ∀ a b c d e f g h : Text, [a, b, c, d, e, f, h] ⊆ [a, b, c, d, e, f, g, h] := by
        intro a b c d e f g h
        simp
      exact hsub _ _ _ _ _ _ _ _ hm
  have hh := head_of_target ht
  have hn : ∀ {c : Char}, line.head? = some c → c = 't' := fun hc =>
    Option.some.inj (hc.symm.trans hh)
  simp only [gdbCommands, List.mem_cons, List.not_mem_nil, or_false] at hm'
  rcases hm' with rfl | rfl | rfl | rfl | rfl | rfl | rfl | rfl
  · exact absurd (hn (head_append (c := 'a') (by decide) _)) (by decide)
  · exact absurd hh (by decide)
  · exact absurd (hn (head_append (c := 'f') (by decide) _)) (by decide)
  · refine absurd (hn ?_) (by decide : 'a' ≠ 't')
    exact head_append (head_append (by decide) _) _
  · rfl
  · exact absurd hh (by decide)
  · exact absurd ht (by decide)
  · exact absurd hh (by decide)

theorem debuggerLines_terminal {H : Host} {w : Vars} : ∀ a ∈ (terminal H w).acts,
    debuggerLines a = [] := by
  intro a ha
  unfold terminal at ha
  split_ifs at ha <;> simp only [tmuxActions, List.mem_cons, List.not_mem_nil, or_false] at ha
  · rw [ha]
    rfl
  · rw [ha]
    rfl
  · rcases ha with rfl | rfl <;> rfl
  · rw [ha]
    rfl
  · rcases ha with rfl | rfl | rfl | rfl | rfl | rfl | rfl | rfl | rfl <;> rfl
  · rw [ha]
    rfl

theorem debuggerLines_debugger {H : Host} {w : Vars} : ∀ a ∈ (debugger H w).acts,
    ∀ line ∈ debuggerLines a, line ∈ gdbCommands w ∨ line ∈ dddLines w := by
  intro a ha line hline
  unfold debugger at ha
  split_ifs at ha
  · obtain rfl := List.mem_singleton.mp ha
    exact Or.inl hline
  · simp only [dddActions, List.mem_append, List.mem_cons, List.not_mem_nil, or_false,
      List.mem_map] at ha
    rcases ha with ((rfl | rfl) | ⟨l, hl, rfl⟩) | rfl | rfl
    · simp [debuggerLines] at hline
    · simp [debuggerLines] at hline
    · obtain rfl := List.mem_singleton.mp hline
      exact Or.inr hl
    · simp [debuggerLines] at hline
    · simp [debuggerLines] at hline
  · simp at ha

section Launch
variable {H : Host} {args : List Text} {v : Vars} {s : Settings}
  (hs : given H args v = some s) (hr : Ready H args)
include hs hr

/-- **The debugger of a run connects to the port of its QEMU.** -/
theorem target_of_launch : ∀ a ∈ (launch .sourced H args v).acts, ∀ line ∈ debuggerLines a,
    "target".toList <+: line → line = targetLine (portText H s.terminal) := by
  intro a ha line hline ht
  have hx : a.external = true := by
    cases a <;> first | rfl | simp [debuggerLines] at hline
  have hm : a ∈ external (launch .sourced H args v).acts := List.mem_filter.mpr ⟨ha, hx⟩
  rw [(launch_of_ready hs hr).2.1] at hm
  have hv := (List.mem_filter.mp hm).1
  have hport : (derived H (start args s v)).debugPort = portText H s.terminal :=
    (derived_spec H (start args s v)).debugPort
  rw [← hport]
  rw [visible_acts, List.mem_append] at hv
  rcases hv with hv | hv
  · rw [debuggerLines_terminal a hv] at hline
    simp at hline
  · split_ifs at hv
    · rcases List.mem_append.mp hv with hv | hv
      · exact target_of_mem (debuggerLines_debugger a hv line hline) ht
      · simp only [cleanup, List.mem_cons, List.not_mem_nil, or_false] at hv
        rcases hv with rfl | rfl
        · simp [debuggerLines] at hline
        · simp [debuggerLines] at hline
    · simp at hv

variable (hq : RunsQemu H (givenTerminal H args))
  (hl : H.isDir (s.kernel ++ "/common".toList) = false) (hp : Plain H s) (hd : Simple v.dtbPram)
include hq hl hp hd

/-- What a run invokes QEMU with. -/
theorem received_launch : ∀ other, ∃ a, (external (launch .sourced H args v).acts).head? = some a ∧
    received other a = some (wordsBefore H s ++ fields v.dtbPram ++ wordsAfter H s) := by
  intro other
  obtain ⟨a, ha, hhead⟩ := head_launch hs hr hq
  have hm : MetaFree (derived H (start args s v)) :=
    metaFree_derived (v := start args s v) hl hp hd
  have hc : (derived H (start args s v)).opts.cmdline = s.cmdline := by
    rw [(derived_spec H (start args s v)).opts]
    rfl
  have hi : Intact (derived H (start args s v)) := by
    obtain ⟨h1, h2⟩ := special_not_mem_of_simple hp.cmdline
    refine intact_of hm (isRun_derived H _) ?_ ?_
    · rw [hc]
      exact fun hm => absurd (hp.cmdline _ hm) (by decide)
    · rw [hc]
      exact keeps_of_not_mem h1 h2
  refine ⟨a, hhead, ?_⟩
  rw [hi.received other a ha, words_derived (v := start args s v) hl hp]
  rfl

theorem dtb_of_invoked (h : Invoked H args v s) : fields v.dtbPram = dtbWords H s := by
  obtain ⟨a, ha, he⟩ := h.qemu fun _ => none
  obtain ⟨b, hb, he'⟩ := received_launch hs hr hq hl hp hd fun _ => none
  obtain rfl := Option.some.inj (hb.symm.trans ha)
  rw [he', qemuArgs] at he
  exact List.append_cancel_left (List.append_cancel_right (Option.some.inj he))

end Launch

/-- A machine on which every path is a directory without `common`. -/
def linuxHost : Host := { sampleHost with isDir := fun p => !"/common".toList.isSuffixOf p }

/-- The settings of a run with a kernel `k` and the given `--dtb`. -/
def linuxSettings (dtb : Text) : Settings :=
  { defaultSettings linuxHost {} with kernel := "k".toList, dtb := dtb }

theorem plain_linux (dtb : Text) : Plain linuxHost (linuxSettings dtb) where
  kernelDir := List.all_eq_true.mp (show "k".toList.all plainChar = true by decide)
  qemuDir := List.all_eq_true.mp
    (show "./prebuilts/qemu/bin".toList.all plainChar = true by decide)
  noAssign := show '=' ∉ "./prebuilts/qemu/bin".toList by decide
  rootfs h := absurd rfl h
  initrd _ := ⟨show "./prebuilts/rootfs/initrd_aarch64.cpio.gz".toList ≠ [] by decide,
    List.all_eq_true.mp
      (show "./prebuilts/rootfs/initrd_aarch64.cpio.gz".toList.all plainChar = true by decide)⟩
  share := List.all_eq_true.mp (show "./host-share".toList.all plainChar = true by decide)
  extra := show Simple [] by decide
  cmdline := show Simple [] by decide

end Lightbox.Launcher.Invocation
