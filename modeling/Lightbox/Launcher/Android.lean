import Lightbox.Launcher.Invocation
import Lightbox.Shell.Lines
import Mathlib.Data.List.Infix

/-! # Kernel trees of type android

In a tree with a directory `common`, the image is looked up in the directory of `out/` whose name holds
`android`, as `ls` and `grep` find it. If there are several, the path of the image has several lines, and so
has the command of QEMU: QEMU is started without the options that follow the image, and the other lines are
executed as commands of their own (`executed_launch`). QEMU gets the arguments that the options ask for
exactly if there is one such directory (`asked_iff_unique`). -/

namespace Lightbox.Launcher.Android

open Lightbox.Shell.Lex Lightbox.Shell.Read Lightbox.Shell.Quoted Lightbox.Shell.Commands
open Lightbox.Shell.Lines
open Lightbox.Launcher.Options Lightbox.Launcher.Script Lightbox.Launcher.Phases
open Lightbox.Launcher.Append Lightbox.Launcher.Invocation

/-! ### The directory of the build -/

/-- `grep android` -/
def isBuild (name : Text) : Bool := decide ("android".toList <:+: name)

def builds (names : List Text) : List Text := names.filter isBuild

/-- `$(ls ${KERNEL_DIR}/out/ | grep android)`, with the names in `out/`, one on a line. -/
def lsGrepAndroid (names : List Text) : Text := joinLines (builds names)

/-- The path of the image in a build. -/
def imageOf (H : Host) (s : Settings) (build : Text) : Text :=
  H.cdPwd s.kernel ++ "/out/".toList ++ build ++ "/dist/Image".toList

/-- The words before the path of the image. -/
def headWords (H : Host) (s : Settings) : List Text :=
  (qemuDirOf H s.qemuDir ++ "/qemu-system-aarch64".toList) ::
    ["-machine", "virt,gic_version=3", "-cpu", "cortex-a72", "-m", "1024", "-smp", "8",
      "-kernel"].map String.toList

/-- **The argument vector the options ask for**, with the image of a build. -/
def androidArgs (H : Host) (s : Settings) (build : Text) : List Text :=
  headWords H s ++ [imageOf H s build] ++ dtbWords H s ++ wordsAfter H s

/-- The tree is of type android, with plain names in `out/`, none of which has the form of an assignment. The
path of QEMU names no job. -/
structure IsAndroid (H : Host) (s : Settings) (names : List Text) : Prop where
  common : H.isDir (s.kernel ++ "/common".toList) = true
  listing : H.lsGrepAndroid (H.cdPwd s.kernel) = lsGrepAndroid names
  plain : ∀ x ∈ names, ∀ c ∈ x, plainChar c = true
  noAssign : ∀ x ∈ names, '=' ∉ x
  noJob : (qemuDirOf H s.qemuDir ++ "/qemu-system-aarch64".toList).head? ≠ some '%'

/-! ### What the front ends execute -/

/-- The commands of the shell that a front end starts. -/
def execCommands : List Text → Option (List (List Text))
  | b :: f :: c :: _ => if b = "bash".toList ∧ f = "-c".toList then executes c else none
  | _ => none

/-- **The commands that an action of the launcher makes a shell execute.** -/
def executed : Action → Option (List (List Text))
  | .gnomeTerminal _ cmd => executes cmd
  | .bash cmd => executes cmd
  | .xfce4Terminal _ command => (lex argv command).bind fun ts => execCommands (words ts)
  | _ => none

/-- A command without double quotes and backslashes is the same in every front end. -/
theorem executed_launches {w : Vars} (hq : '"' ∉ w.qemuCmd) (hb : '\\' ∉ w.qemuCmd) :
    ∀ a ∈ launches w, executed a = executes w.qemuCmd := by
  intro a ha
  simp only [launches, List.mem_cons, List.not_mem_nil, or_false] at ha
  rcases ha with rfl | rfl | rfl
  · rfl
  · rfl
  · have hlast : w.qemuCmd.getLast? ≠ some '\\' := fun h => hb (List.mem_of_getLast? h)
    have hl : lex argv (xfce4Command w.qemuCmd) =
        some (bashC ++ [.word (marked .double w.qemuCmd)]) := by
      rw [lex_xfce4Command, argv_keeps (keeps_of_not_mem hq hb) hlast]
    have hw : words (bashC ++ [.word (marked .double w.qemuCmd)]) =
        ["bash".toList, "-c".toList, text (marked .double w.qemuCmd)] := by
      rfl
    rw [executed, hl, Option.bind_some, hw, execCommands, if_pos ⟨rfl, rfl⟩, text_marked]

/-! ### The command around the image -/

/-- The command up to the image. -/
def headOf (w : Vars) : Text :=
  w.qemuExec ++
  "                  -machine virt,gic_version=3            -cpu cortex-a72         ".toList ++
  "               -m 1024                                -smp 8                    ".toList ++
  "             -kernel ".toList

/-- The command behind the image, up to the kernel command line. -/
def tailOf (w : Vars) : Text :=
  "                ".toList ++ w.dtbPram ++
  "                            ".toList ++ w.rootfsParam ++
  "                        ".toList ++ w.shareParam ++
  "                         -netdev user,id=net0                   -device ".toList ++
  "virtio-net-device,netdev=net0  ".toList ++ w.opts.qemuExtraParam ++
  "                    -serial mon:stdio                      -display none       ".toList ++
  "                   -gdb tcp::".toList ++ w.debugPort ++
  "                -S -append".toList

theorem qemuHead_split (w : Vars) : qemuHead w = headOf w ++ (w.kernelImage ++ tailOf w) := by
  unfold qemuHead headOf tailOf
  simp only [List.append_assoc]

theorem head_tailOf (w : Vars) : ∃ t, tailOf w = ' ' :: t := by
  have h : "                ".toList = ' ' :: "               ".toList := by decide
  unfold tailOf
  rw [h]
  exact ⟨_, rfl⟩

theorem last_headOf (w : Vars) : (headOf w).getLast? = some ' ' := by
  unfold headOf
  rw [List.getLast?_append]
  have h : "             -kernel ".toList.getLast? = some ' ' := by decide
  rw [h]
  rfl

theorem fields_split (w : Vars) (x : Text) :
    fields (headOf w ++ (x ++ tailOf w)) = fields (headOf w) ++ (fields x ++ fields (tailOf w)) := by
  obtain ⟨t, ht⟩ := head_tailOf w
  have hh : (tailOf w).head? = some ' ' := by rw [ht]; rfl
  rw [fields_append_of_last (last_headOf w), fields_append_of_head hh]

theorem fields_headOf (w : Vars) : fields (headOf w) = fields w.qemuExec ++
    ["-machine", "virt,gic_version=3", "-cpu", "cortex-a72", "-m", "1024", "-smp", "8",
      "-kernel"].map String.toList := by
  have h1 : "                  -machine virt,gic_version=3            -cpu cortex-a72         ".toList.head? =
      some ' ' := by rewrite [String.toList_ofList]; decide
  have h2 : "                  -machine virt,gic_version=3            -cpu cortex-a72         ".toList.getLast? =
      some ' ' := by rewrite [String.toList_ofList]; decide
  have h3 : "               -m 1024                                -smp 8                    ".toList.getLast? =
      some ' ' := by rewrite [String.toList_ofList]; decide
  have f1 : fields
      "                  -machine virt,gic_version=3            -cpu cortex-a72         ".toList =
        ["-machine", "virt,gic_version=3", "-cpu", "cortex-a72"].map String.toList := by
    rewrite [String.toList_ofList]; decide
  have f2 : fields
      "               -m 1024                                -smp 8                    ".toList =
        ["-m", "1024", "-smp", "8"].map String.toList := by
    rewrite [String.toList_ofList]; decide
  have f3 : fields "             -kernel ".toList = ["-kernel".toList] := by decide
  unfold headOf
  rw [List.append_assoc, List.append_assoc, fields_between _ _ h1 h2, fields_append_of_last h3, f1, f2, f3]
  simp only [List.map_cons, List.map_nil, List.cons_append, List.nil_append]

/-! ### The variables of a run

The kernel tree has no part in what stands around the image, so this is as with a tree of type linux. -/

/-- The machine without directories: every tree is of type linux. -/
def asLinux (H : Host) : Host := { H with isDir := fun _ => false }

theorem headOf_asLinux (H : Host) (v : Vars) : headOf (derived (asLinux H) v) = headOf (derived H v) := by
  unfold headOf
  rw [(derived_spec H v).qemuExec, (derived_spec (asLinux H) v).qemuExec]
  rfl

theorem tailOf_asLinux (H : Host) (v : Vars) : tailOf (derived (asLinux H) v) = tailOf (derived H v) := by
  have h := derived_spec H v
  have h' := derived_spec (asLinux H) v
  unfold tailOf
  rw [h.dtbPram, h'.dtbPram, h.rootfsParam, h'.rootfsParam, h.shareParam, h'.shareParam, h.opts, h'.opts,
    h.debugPort, h'.debugPort]
  rfl

theorem appendArg_asLinux (H : Host) (v : Vars) :
    appendArg (derived (asLinux H) v) = appendArg (derived H v) := by
  have h := derived_spec H v
  have h' := derived_spec (asLinux H) v
  unfold appendArg
  rw [h.rootfsBootargs, h'.rootfsBootargs, h.opts, h'.opts]

section Run
variable {H : Host} {v : Vars} (hp : Plain H v.opts)
include hp

theorem plain_asLinux : Plain (asLinux H) v.opts :=
  ⟨hp.kernelDir, hp.qemuDir, hp.noAssign, hp.rootfs, hp.initrd, hp.share, hp.extra, hp.cmdline⟩

theorem simple_around (hd : Simple v.dtbPram) :
    Simple (headOf (derived H v)) ∧ Simple (tailOf (derived H v)) := by
  have hm := metaFree_derived (H := asLinux H) (v := v) rfl (plain_asLinux hp) hd
  have hs := simple_qemuHead hm (isRun_derived (asLinux H) v).port
  rw [qemuHead_split, simple_append, simple_append, headOf_asLinux, tailOf_asLinux] at hs
  exact ⟨hs.1, hs.2.2⟩

/-- The words before the image. -/
theorem fields_head : fields (headOf (derived H v)) = headWords H v.opts := by
  have he : fields (derived H v).qemuExec = [(derived H v).qemuExec] := by
    refine fields_of_not_mem (blank_of_plain (plain_qemuExec hp)) ?_
    rw [(derived_spec H v).qemuExec]
    exact List.append_ne_nil_of_right_ne_nil _ (by decide)
  rw [fields_headOf, he, (derived_spec H v).qemuExec]
  rfl

/-- The words behind it. -/
theorem fields_tail : fields (tailOf (derived H v)) ++ [appendArg (derived H v)] =
    fields v.dtbPram ++ wordsAfter H v.opts := by
  have hw := words_derived (H := asLinux H) (v := v) rfl (plain_asLinux hp)
  have hi : fields (derived (asLinux H) v).kernelImage =
      [H.cdPwd v.opts.kernel ++ "/arch/arm64/boot/Image".toList] := by
    rw [(derived_spec (asLinux H) v).kernelImage, kernelImage_linux rfl]
    refine fields_of_not_mem ?_ (List.append_ne_nil_of_right_ne_nil _ (by decide))
    rw [List.mem_append, not_or]
    exact ⟨blank_of_plain hp.kernelDir, by decide⟩
  rw [qemuHead_split, fields_split, hi, headOf_asLinux, tailOf_asLinux, appendArg_asLinux, fields_head hp,
    List.append_assoc, List.append_assoc] at hw
  have hw' : headWords H v.opts ++ ([H.cdPwd v.opts.kernel ++ "/arch/arm64/boot/Image".toList] ++
      (fields (tailOf (derived H v)) ++ [appendArg (derived H v)])) = headWords H v.opts ++
        ([H.cdPwd v.opts.kernel ++ "/arch/arm64/boot/Image".toList] ++
          (fields v.dtbPram ++ wordsAfter H v.opts)) := by
    rw [hw]
    rfl
  exact List.append_cancel_left (List.append_cancel_left hw')

end Run

/-! ### The lines of the command -/

/-- The path of the image of a tree of type android. -/
theorem kernelImage_android {H : Host} {s : Settings} {names : List Text} (h : IsAndroid H s names) :
    (tree H s.kernel).kernelImage = H.cdPwd s.kernel ++ "/out/".toList ++ lsGrepAndroid names ++
      "/dist/Image".toList := by
  rw [← h.listing]
  unfold tree
  dsimp only
  rw [if_pos h.common]
  rfl

theorem isBuild_of_mem {names : List Text} {b : Text} (h : b ∈ builds names) :
    b ∈ names ∧ isBuild b = true := List.mem_filter.mp h

theorem mem_of_isBuild {b : Text} {c : Char} (h : isBuild b = true) (hc : c ∈ "android".toList) : c ∈ b :=
  (of_decide_eq_true h).subset hc

theorem ne_nil_of_isBuild {b : Text} (h : isBuild b = true) : b ≠ [] :=
  List.ne_nil_of_mem (mem_of_isBuild (c := 'a') h (by decide))

/-- A line that begins with a path, or with the name of a build, names a command. -/
theorem names_of_fields {t w : Text} {ws : List Text} (ht : fields t = w :: ws)
    (hw : '/' ∈ w ∨ isBuild w = true) (he : '=' ∉ w) : Names t := by
  refine ⟨w, ws, ht, ?_, ?_⟩
  · rw [← Bool.not_eq_true]
    exact fun ha => he (mem_of_assigns ha)
  · -- no reserved word holds a slash, or the letters of `android`
    have hr : ∀ r ∈ reservedWords, '/' ∉ r ∧ ('d' ∈ r → 'r' ∉ r) := by decide
    unfold isReserved
    rw [text_marked, Bool.and_eq_false_iff]
    refine Or.inr ?_
    rw [List.contains_eq_mem, decide_eq_false_iff_not]
    intro hm
    rcases hw with hw | hw
    · exact (hr w hm).1 hw
    · exact (hr w hm).2 (mem_of_isBuild hw (by decide)) (mem_of_isBuild hw (by decide))

/-- The directory of the builds. -/
def outOf (H : Host) (s : Settings) : Text := H.cdPwd s.kernel ++ "/out/".toList

theorem called_of_not_job {w : Text} (h : w.head? ≠ some '%') (ws : List Text) :
    called (w :: ws) = w :: ws := if_neg h

section Lines
variable {H : Host} {v : Vars} {names : List Text} (ha : IsAndroid H v.opts names)
  (hp : Plain H v.opts)

include hp in
theorem plain_out : ∀ c ∈ outOf H v.opts, plainChar c = true := by
  intro c hc
  rcases List.mem_append.mp hc with hc | hc
  · exact hp.kernelDir c hc
  · have hall : "/out/".toList.all plainChar = true := by decide
    exact List.all_eq_true.mp hall c hc

theorem plain_dist : ∀ c ∈ "/dist/Image".toList, plainChar c = true :=
  List.all_eq_true.mp (show "/dist/Image".toList.all plainChar = true by decide)

theorem plain_append {t u : Text} (ht : ∀ c ∈ t, plainChar c = true) (hu : ∀ c ∈ u, plainChar c = true) :
    ∀ c ∈ t ++ u, plainChar c = true :=
  fun c hc => (List.mem_append.mp hc).elim (ht c) (hu c)

include ha in
theorem plain_build {b : Text} (hb : b ∈ builds names) : ∀ c ∈ b, plainChar c = true :=
  ha.plain b (isBuild_of_mem hb).1

/-- The command of QEMU, up to the kernel command line. -/
theorem qemuHead_android (ha : IsAndroid H v.opts names) : qemuHead (derived H v) =
    headOf (derived H v) ++ (outOf H v.opts ++ joinLines (builds names)) ++
      ("/dist/Image".toList ++ tailOf (derived H v)) := by
  rw [qemuHead_split, (derived_spec H v).kernelImage, kernelImage_android ha]
  simp only [outOf, lsGrepAndroid, List.append_assoc]

include hp in
/-- The first line names QEMU. -/
theorem names_first (x : Text) : Names (headOf (derived H v) ++ x) := by
  have hf : fields (headOf (derived H v) ++ x) = headWords H v.opts ++ fields x := by
    rw [fields_append_of_last (last_headOf _), fields_head hp]
  refine names_of_fields hf (Or.inl (List.mem_append_right _ (by decide))) ?_
  rw [List.mem_append, not_or]
  exact ⟨hp.noAssign, by decide⟩

include hp in
theorem quote_not_mem_appendArg : '\'' ∉ appendArg (derived H v) := by
  rw [quote_mem_appendArg (isRun_derived H v), (derived_spec H v).opts]
  exact fun hm => absurd (hp.cmdline _ hm) (by decide)

include hp in
/-- **One build**: one command, with the arguments asked for, but for those of `--dtb`. -/
theorem executes_one (ha : IsAndroid H v.opts names) (hd : Simple v.dtbPram) {b : Text}
    (hb : builds names = [b]) : executes (derived H v).qemuCmd =
      some [headWords H v.opts ++ [imageOf H v.opts b] ++ fields v.dtbPram ++ wordsAfter H v.opts] := by
  obtain ⟨hhead, htail⟩ := simple_around hp hd
  have hmem : b ∈ builds names := by rw [hb]; exact List.mem_singleton_self b
  have hi : ∀ c ∈ imageOf H v.opts b, plainChar c = true :=
    plain_append (plain_append (plain_out hp) (plain_build ha hmem)) plain_dist
  have hline : qemuHead (derived H v) =
      joinLines ([] ++ [headOf (derived H v) ++ (imageOf H v.opts b ++ tailOf (derived H v))]) := by
    rw [qemuHead_android ha, hb]
    simp only [joinLines, List.nil_append, imageOf, outOf, List.append_assoc]
  have hwords : fields (headOf (derived H v) ++ (imageOf H v.opts b ++ tailOf (derived H v))) ++
      [appendArg (derived H v)] =
        headWords H v.opts ++ [imageOf H v.opts b] ++ fields v.dtbPram ++ wordsAfter H v.opts := by
    have hne : imageOf H v.opts b ≠ [] := List.append_ne_nil_of_right_ne_nil _ (by decide)
    rw [fields_split, fields_head hp, fields_of_not_mem (blank_of_plain hi) hne, List.append_assoc,
      List.append_assoc, fields_tail hp]
    simp only [List.append_assoc]
  rw [qemuCmd_quoted (isRun_derived H v), hline, executes_joinLines, List.map_nil, List.nil_append, hwords]
  · exact congrArg (fun c => some [c]) (called_of_not_job ha.noJob _)
  · intro t ht
    obtain rfl : t = _ := List.mem_singleton.mp ht
    exact simple_append.mpr ⟨hhead, simple_append.mpr ⟨simple_of_plain hi, htail⟩⟩
  · intro t ht
    obtain rfl : t = _ := List.mem_singleton.mp ht
    exact names_first hp _
  · exact quote_not_mem_appendArg hp

include hp in
/-- **Several builds**: QEMU gets nothing behind the first of them, and the other lines are commands. -/
theorem executes_several (ha : IsAndroid H v.opts names) (hd : Simple v.dtbPram) {b last : Text}
    {mid : List Text} (hb : builds names = b :: (mid ++ [last])) :
    executes (derived H v).qemuCmd =
      some ((headWords H v.opts ++ [outOf H v.opts ++ b]) :: (mid.map (fun m => called [m]) ++
        [called ((last ++ "/dist/Image".toList) :: (fields v.dtbPram ++ wordsAfter H v.opts))])) := by
  obtain ⟨hhead, htail⟩ := simple_around hp hd
  have hplain : ∀ x ∈ b :: (mid ++ [last]), ∀ c ∈ x, plainChar c = true := fun x hx =>
    plain_build ha (by rw [hb]; exact hx)
  have hbuild : ∀ x ∈ b :: (mid ++ [last]), x ∈ names ∧ isBuild x = true := fun x hx =>
    isBuild_of_mem (by rw [hb]; exact hx)
  have hb' : ∀ c ∈ outOf H v.opts ++ b, plainChar c = true :=
    plain_append (plain_out hp) (hplain b List.mem_cons_self)
  have hl' : ∀ c ∈ last ++ "/dist/Image".toList, plainChar c = true :=
    plain_append (hplain last (by simp)) plain_dist
  -- the lines of the command
  have hline : qemuHead (derived H v) =
      joinLines ((headOf (derived H v) ++ (outOf H v.opts ++ b)) :: mid ++
        [last ++ ("/dist/Image".toList ++ tailOf (derived H v))]) := by
    rw [qemuHead_android ha, hb, append_joinLines, append_joinLines, ← List.cons_append, joinLines_append]
  have hfirst : fields (headOf (derived H v) ++ (outOf H v.opts ++ b)) =
      headWords H v.opts ++ [outOf H v.opts ++ b] := by
    have hne : outOf H v.opts ++ b ≠ [] :=
      List.append_ne_nil_of_right_ne_nil _ (ne_nil_of_isBuild (hbuild b List.mem_cons_self).2)
    rw [fields_append_of_last (last_headOf _), fields_head hp, fields_of_not_mem (blank_of_plain hb') hne]
  have hmid : ∀ m ∈ mid, fields m = [m] := fun m hm => by
    have hm' : m ∈ b :: (mid ++ [last]) := by simp [hm]
    exact fields_of_not_mem (blank_of_plain (hplain m hm')) (ne_nil_of_isBuild (hbuild m hm').2)
  have hlast : fields (last ++ ("/dist/Image".toList ++ tailOf (derived H v))) =
      [last ++ "/dist/Image".toList] ++ fields (tailOf (derived H v)) := by
    obtain ⟨t, ht⟩ := head_tailOf (derived H v)
    have hh : (tailOf (derived H v)).head? = some ' ' := by rw [ht]; rfl
    have hne : last ++ "/dist/Image".toList ≠ [] := List.append_ne_nil_of_right_ne_nil _ (by decide)
    rw [← List.append_assoc, fields_append_of_head hh, fields_of_not_mem (blank_of_plain hl') hne]
  have hcommands : mid.map (fun m => called (fields m)) = mid.map fun m => called [m] :=
    List.map_congr_left fun m hm => by rw [hmid m hm]
  rw [qemuCmd_quoted (isRun_derived H v), hline, executes_joinLines, List.map_cons, hfirst, hcommands,
    hlast, List.append_assoc, fields_tail hp]
  · exact congrArg (fun c => some (c :: _)) (called_of_not_job ha.noJob _)
  · intro t ht
    rw [List.cons_append, List.mem_cons, List.mem_append, List.mem_singleton] at ht
    rcases ht with rfl | ht | rfl
    · exact simple_append.mpr ⟨hhead, simple_of_plain hb'⟩
    · exact simple_of_plain (hplain t (by simp [ht]))
    · rw [← List.append_assoc]
      exact simple_append.mpr ⟨simple_of_plain hl', htail⟩
  · intro t ht
    rw [List.cons_append, List.mem_cons, List.mem_append, List.mem_singleton] at ht
    rcases ht with rfl | ht | rfl
    · exact names_first hp _
    · have hm : t ∈ b :: (mid ++ [last]) := by simp [ht]
      exact names_of_fields (hmid t ht) (Or.inr (hbuild t hm).2) (ha.noAssign t (hbuild t hm).1)
    · refine names_of_fields hlast (Or.inl (List.mem_append_right _ (by decide))) ?_
      rw [List.mem_append, not_or]
      exact ⟨ha.noAssign last (hbuild last (by simp)).1, by decide⟩
  · exact quote_not_mem_appendArg hp

include hp in
/-- The command holds neither double quotes nor backslashes. -/
theorem special_not_mem_qemuCmd (ha : IsAndroid H v.opts names) (hd : Simple v.dtbPram) :
    '"' ∉ (derived H v).qemuCmd ∧ '\\' ∉ (derived H v).qemuCmd := by
  obtain ⟨hhead, htail⟩ := simple_around hp hd
  have happend : Simple (appendArg (derived H v)) := by
    have hr := isRun_derived H v
    have hc : Simple (derived H v).opts.cmdline := by
      rw [(derived_spec H v).opts]
      exact hp.cmdline
    refine simple_append.mpr ⟨simple_append.mpr ⟨hr.boot, ?_⟩, by decide⟩
    exact fun c hm => (List.mem_cons.mp hm).elim Or.inr (hc c)
  have hall : ∀ c ∈ (derived H v).qemuCmd, plainChar c = true ∨ c = ' ' ∨ c = '\n' ∨ c = '\'' := by
    intro c hc
    rw [qemuCmd_quoted (isRun_derived H v), qemuHead_android ha] at hc
    simp only [List.mem_append, List.mem_cons, List.not_mem_nil, or_false] at hc
    rcases hc with ((hc | hc | hc) | hc | hc) | hc | hc | hc | hc
    · exact (hhead c hc).imp_right Or.inl
    · exact Or.inl (plain_out hp c hc)
    · rcases mem_joinLines hc with hc | ⟨b, hb, hc⟩
      · exact Or.inr (Or.inr (Or.inl hc))
      · exact Or.inl (plain_build ha hb c hc)
    · exact Or.inl (plain_dist c (by simpa using hc))
    · exact (htail c hc).imp_right Or.inl
    · exact Or.inr (Or.inl hc)
    · exact Or.inr (Or.inr (Or.inr hc))
    · exact (happend c hc).imp_right Or.inl
    · exact Or.inr (Or.inr (Or.inr hc))
  exact ⟨fun hm => absurd (hall _ hm) (by decide), fun hm => absurd (hall _ hm) (by decide)⟩

end Lines

/-! ### Runs -/

theorem length_called (ws : List Text) : (called ws).length ≤ ws.length + 1 := by
  cases ws with
  | nil => simp [called]
  | cons w ws =>
    rw [called]
    split_ifs <;> simp

theorem length_androidArgs (H : Host) (s : Settings) (b : Text) :
    (androidArgs H s b).length = 11 + (dtbWords H s).length + (wordsAfter H s).length := by
  simp [androidArgs, headWords]
  omega

theorem length_wordsAfter (H : Host) (s : Settings) : 1 ≤ (wordsAfter H s).length := by
  simp [wordsAfter]
  omega

/-- None of the commands of a command with several lines has all the arguments. -/
theorem androidArgs_not_mem {H : Host} {s : Settings} {b last : Text} {mid : List Text} (build : Text) :
    androidArgs H s build ∉ (headWords H s ++ [outOf H s ++ b]) :: (mid.map (fun m => called [m]) ++
      [called ((last ++ "/dist/Image".toList) :: (dtbWords H s ++ wordsAfter H s))]) := by
  have hlen := length_androidArgs H s build
  have hafter := length_wordsAfter H s
  rw [List.mem_cons, List.mem_append, List.mem_singleton]
  rintro (h | h | h)
  · have hfirst : (headWords H s ++ [outOf H s ++ b]).length = 11 := by simp [headWords]
    rw [h, hfirst] at hlen
    omega
  · obtain ⟨m, -, hm⟩ := List.mem_map.mp h
    have hc := length_called [m]
    rw [hm, hlen, List.length_singleton] at hc
    omega
  · have hc := length_called ((last ++ "/dist/Image".toList) :: (dtbWords H s ++ wordsAfter H s))
    rw [← h, hlen, List.length_cons, List.length_append] at hc
    omega

section Launch
variable {H : Host} {args : List Text} {v : Vars} {s : Settings} {names : List Text}
  (hs : given H args v = some s) (hr : Ready H args) (hq : RunsQemu H (givenTerminal H args))
  (ha : IsAndroid H s names) (hp : Plain H s) (hd : Simple v.dtbPram)
include hs hr hq ha hp hd

/-- What the front end of a run executes. -/
theorem executed_launch : ∃ a, (external (launch .sourced H args v).acts).head? = some a ∧
    executed a = executes (derived H (start args s v)).qemuCmd := by
  obtain ⟨a, hmem, hhead⟩ := head_launch hs hr hq
  obtain ⟨h1, h2⟩ := special_not_mem_qemuCmd (v := start args s v) hp ha hd
  exact ⟨a, hhead, executed_launches h1 h2 a hmem⟩

end Launch

/-- Two builds in `out/`. -/
def twoBuilds : List Text := ["android13-5.15", "android14-6.1", "cache"].map String.toList

/-- A machine on which every path is a directory. -/
def androidHost : Host :=
  { linuxHost with isDir := fun _ => true, lsGrepAndroid := fun _ => lsGrepAndroid twoBuilds }

end Lightbox.Launcher.Android
