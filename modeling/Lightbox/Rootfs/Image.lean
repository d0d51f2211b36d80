import Lightbox.Rootfs.Build
import Lightbox.Rootfs.Initrd

/-! # Making the qcow2 image

`make-qcow2.sh` under `set -e`, with its checks and messages, and with what it writes into the image. The
host is left as a run of the list of its commands leaves it (`Rootfs.Build`), which tells how the script
may end: if it reports success, the device is released and the partition holds the copy
(`image_of_runs`).

If both packers report success on a tree that `create-rootfs.sh` left, and `find` and `cpio` have not
failed, the archive and the partition have the same entries exactly if the tree belongs to root and has
no hidden names at the top (`same_entries_iff_of_runs`). -/

namespace Lightbox.Rootfs.Image

open Lightbox.Files.Directory
open Lightbox.Rootfs.Create Lightbox.Rootfs.Packers
open Lightbox.Rootfs.Initrd (Text options rootfsDir makeInitrdSh)
open Lightbox.Shell.Errexit

/-- The calls of the script: messages, and the commands that work on the host. -/
inductive Call
  | echo (line : Text)
  | command (c : Build.Cmd)

/-- A check, which ends the script with a message. -/
def check (c : Build.Cmd) (message : Text) : Cmd Call :=
  .ite (.not (.call (.command c))) (.list [.call (.echo message), .exit 1]) .skip

/-- **`make-qcow2.sh`** -/
def makeQcow2Sh (arg : Option Text) : Cmd Call := .list
  [check .checkRootfs ("❌ Rootfs directory '".toList ++ rootfsDir arg ++ "' not found.".toList),
    check .checkQemuImg "❌ qemu-img not found. Please install qemu-utils.".toList,
    .call (.echo "🧱 Creating 2G qcow2 image: debian-arm64.qcow2".toList),
    .call (.command .createImage),
    .call (.command .modprobe),
    .call (.command .connect),
    .call (.echo "📦 Partitioning and formatting...".toList),
    .call (.command .mklabel),
    .call (.command .mkpart),
    .call (.command .mkfs),
    .call (.echo "📂 Mounting and copying rootfs...".toList),
    .call (.command .mkdir),
    .call (.command .mount),
    .call (.command .cp),
    .call (.echo "🧹 Cleaning up...".toList),
    .call (.command .umount),
    .call (.command .disconnect),
    .call (.command .rmdir),
    .call (.echo "✅ Image created successfully: debian-arm64.qcow2".toList)]

/-! ### What the calls do -/

/-- The host, and the file system in the image. -/
structure World where
  host : Build.Host
  disk : Option Files

/-- What a command that succeeds makes of the image. -/
def Fills (room : Files → Bool) (R : Option FileTree) (d d' : Option Files) : Build.Cmd → Prop
  | .checkRootfs => R.isSome ∧ d' = d
  | .createImage => d' = none
  | .mkfs => d' = some mkfs
  | .cp => ∃ T fs image, R = some T ∧ d = some fs ∧ copyAll room T fs = some image ∧ d' = some image
  | _ => d' = d

/-- The command writes into the image. -/
def writesDisk : Build.Cmd → Bool
  | .createImage | .mkfs | .cp => true
  | _ => false

/-- The directory is the tree `R`, if it is there. A command that fails leaves the host as it is, but may
have spoilt what it was to write. -/
def acts (room : Files → Bool) (R : Option FileTree) : Call → World → ℕ → World → Prop
  | .echo _, w, _, w' => w' = w
  | .command c, w, n, w' =>
    (n = 0 ∧ Build.effect w.host c = some w'.host ∧ Fills room R w.disk w'.disk c) ∨
      (n ≠ 0 ∧ (c = .checkRootfs → R = none) ∧ w'.host = w.host ∧
        (writesDisk c = false → w'.disk = w.disk))

/-! ### How far the script has come -/

section Parts
variable {room : Files → Bool} {R : Option FileTree} {w : World}

/-- The partition holds the copy. -/
def Copied (room : Files → Bool) (R : Option FileTree) (d : Option Files) : Prop :=
  ∃ T image, R = some T ∧ makeQcow2 room T = some image ∧ d = some image

/-- The image after `k` commands. -/
def Disk (room : Files → Bool) (R : Option FileTree) (k : ℕ) (d : Option Files) : Prop :=
  (8 ≤ k → k ≤ 10 → d = some mkfs) ∧ (11 ≤ k → Copied room R d)

/-- `k` commands have been executed, and none of them has failed. -/
def At (room : Files → Bool) (R : Option FileTree) (w : World) (k : ℕ) (s : World) : Prop :=
  (∀ f, (∀ c ∈ Build.makeQcow2.take k, f c = false) →
    Build.runCmds f (Build.makeQcow2.take k) w.host = ⟨s.host, true⟩) ∧ Disk room R k s.disk

/-- What is to be shown of a complete run: the host is as some run of the commands leaves it, and if the
script reports success the copy is in the image. -/
def Leaves (room : Files → Bool) (R : Option FileTree) (w : World) (n : ℕ) (s : World) : Prop :=
  (∃ f, (Build.run w.host f).host = s.host ∧ (n = 0 → (Build.run w.host f).ok = true)) ∧
    (n = 0 → Copied room R s.disk)

theorem at_start (w : World) : At room R w 0 w :=
  ⟨fun _ _ => rfl, fun h => by omega, fun h => by omega⟩

theorem mem_take {k : ℕ} {c : Build.Cmd} (hc : Build.makeQcow2[k]? = some c) :
    c ∉ Build.makeQcow2.take k := by
  have hnodup : Build.makeQcow2.Nodup := by decide
  have hsplit := List.take_append_drop k Build.makeQcow2
  obtain ⟨hk, rfl⟩ := List.getElem?_eq_some_iff.mp hc
  intro hm
  rw [← hsplit] at hnodup
  refine (List.nodup_append.mp hnodup).2.2 _ hm Build.makeQcow2[k] ?_ rfl
  rw [List.drop_eq_getElem_cons hk]
  exact List.mem_cons_self

/-- **The next command.** -/
theorem At.next {k : ℕ} {c : Build.Cmd} {s s' : World} (h : At room R w k s)
    (hc : Build.makeQcow2[k]? = some c) (he : Build.effect s.host c = some s'.host)
    (hd : Disk room R (k + 1) s'.disk) : At room R w (k + 1) s' := by
  refine ⟨fun f hf => ?_, hd⟩
  have htake : Build.makeQcow2.take (k + 1) = Build.makeQcow2.take k ++ [c] := by
    rw [List.take_add_one, hc]
    rfl
  rw [htake] at hf ⊢
  have hfc : f c = false := hf c (List.mem_append_right _ (List.mem_singleton_self c))
  rw [Build.runCmds_append, h.1 f fun d hm => hf d (List.mem_append_left _ hm), if_pos rfl,
    Build.runCmds, Build.exec, hfc, if_neg (by simp), he]
  rfl

/-- A failure: the next command would have ended a run of the commands in the same place. -/
theorem At.failed {k n : ℕ} {s s' : World} (h : At room R w k s) (hn : n ≠ 0)
    (hs : s'.host = s.host) : Leaves room R w n s' := by
  refine ⟨?_, fun h0 => absurd h0 hn⟩
  cases hc : Build.makeQcow2[k]? with
  | none =>
    have hlen : Build.makeQcow2.length ≤ k := List.getElem?_eq_none_iff.mp hc
    refine ⟨fun _ => false, ?_, fun h0 => absurd h0 hn⟩
    have hall := h.1 (fun _ => false) fun _ _ => rfl
    rw [List.take_of_length_le hlen] at hall
    rw [Build.run, hall, hs]
  | some c =>
    refine ⟨fun d => decide (d = c), ?_, fun h0 => absurd h0 hn⟩
    have hbefore := h.1 (fun d => decide (d = c)) fun d hd => by
      rw [decide_eq_false_iff_not]
      rintro rfl
      exact mem_take hc hd
    obtain ⟨hlt, hget⟩ := List.getElem?_eq_some_iff.mp hc
    have hsplit : Build.makeQcow2 = Build.makeQcow2.take k ++ c :: Build.makeQcow2.drop (k + 1) := by
      rw [← hget, ← List.drop_eq_getElem_cons hlt, List.take_append_drop]
    have hex : Build.exec (fun d => decide (d = c)) s.host c = none := if_pos (by simp)
    rw [Build.run, hsplit, Build.runCmds_append, hbefore, if_pos rfl, Build.runCmds, hex, hs]

/-- The script has come to its end. -/
theorem At.finished {s : World} (h : At room R w 14 s) : Leaves room R w 0 s := by
  have hall := h.1 (fun _ => false) fun _ _ => rfl
  have hlen : Build.makeQcow2.take 14 = Build.makeQcow2 := by decide
  rw [hlen] at hall
  refine ⟨⟨fun _ => false, ?_, fun _ => ?_⟩, fun _ => h.2.2 (by omega)⟩
  · rw [Build.run, hall]
  · rw [Build.run, hall]

/-- What the next command writes. -/
theorem Disk.next {k : ℕ} {c : Build.Cmd} {d d' : Option Files} (h : Disk room R k d)
    (hc : Build.makeQcow2[k]? = some c) (hf : Fills room R d d' c) : Disk room R (k + 1) d' := by
  have hnodup : Build.makeQcow2.Nodup := by decide
  have hidx : k = Build.makeQcow2.idxOf c := by
    obtain ⟨hk, rfl⟩ := List.getElem?_eq_some_iff.mp hc
    exact (hnodup.idxOf_getElem k hk).symm
  cases c with
  | checkRootfs =>
    have hk : k = 0 := hidx
    exact ⟨fun _ _ => by omega, fun _ => by omega⟩
  | createImage =>
    have hk : k = 2 := hidx
    exact ⟨fun _ _ => by omega, fun _ => by omega⟩
  | mkfs =>
    have hk : k = 7 := hidx
    exact ⟨fun _ _ => hf, fun _ => by omega⟩
  | cp =>
    have hk : k = 10 := hidx
    obtain ⟨T, fs, image, hT, hd, hcopy, hd'⟩ := hf
    rw [h.1 (by omega) (by omega)] at hd
    obtain rfl := Option.some.inj hd
    exact ⟨fun _ _ => by omega, fun _ => ⟨T, image, hT, hcopy, hd'⟩⟩
  | _ =>
    -- the command leaves the image as it is, and is neither the 7th nor the 10th
    obtain rfl : d' = d := hf
    have h7 : k ≠ 7 := by
      rintro rfl
      exact absurd hc (by decide)
    have h10 : k ≠ 10 := by
      rintro rfl
      exact absurd hc (by decide)
    exact ⟨fun _ _ => h.1 (by omega) (by omega), fun _ => h.2 (by omega)⟩

/-! ### The script, part by part -/

theorem triple_echo (k : ℕ) (line : Text) : Triple options (acts room R) (Leaves room R w) false
    (At room R w k) (.call (.echo line)) fun n s => n = 0 ∧ At room R w k s := by
  refine Triple.call fun s n s' h he => ?_
  obtain rfl : s' = s := he
  rw [Initrd.stops_options]
  by_cases hn : n = 0
  · rw [if_neg (by simpa using hn)]
    exact ⟨hn, h⟩
  · rw [if_pos (by simpa using hn)]
    exact h.failed hn rfl

/-- The next command, whether or not its status is tested. -/
theorem At.acts {k n : ℕ} {c : Build.Cmd} {s s' : World} (h : At room R w k s)
    (hc : Build.makeQcow2[k]? = some c) (he : acts room R (.command c) s n s') :
    n = 0 ∧ At room R w (k + 1) s' ∨ n ≠ 0 ∧ s'.host = s.host ∧
      (writesDisk c = false → s'.disk = s.disk) := by
  rcases he with ⟨rfl, heff, hfill⟩ | ⟨hn, -, hs, hd⟩
  · exact Or.inl ⟨rfl, h.next hc heff (h.2.next hc hfill)⟩
  · exact Or.inr ⟨hn, hs, hd⟩

theorem triple_command {k : ℕ} {c : Build.Cmd} (hc : Build.makeQcow2[k]? = some c) :
    Triple options (acts room R) (Leaves room R w) false (At room R w k) (.call (.command c))
      fun n s => n = 0 ∧ At room R w (k + 1) s := by
  refine Triple.call fun s n s' h he => ?_
  rw [Initrd.stops_options]
  rcases h.acts hc he with ⟨rfl, hs⟩ | ⟨hn, hs, -⟩
  · exact ⟨rfl, hs⟩
  · rw [if_pos (by simpa using hn)]
    exact h.failed hn hs

theorem triple_check {k : ℕ} {c : Build.Cmd} (hc : Build.makeQcow2[k]? = some c)
    (hd : writesDisk c = false) (message : Text) : Triple options (acts room R) (Leaves room R w)
      false (At room R w k) (check c message) fun _ => At room R w (k + 1) := by
  refine Triple.ite
    (Triple.not (N := fun n s => n = 0 ∧ At room R w (k + 1) s ∨ n ≠ 0 ∧ At room R w k s)
      (Q := fun n s => if n = 0 then At room R w k s else At room R w (k + 1) s)
      (Triple.call_tested fun s n s' h he => ?_) ?_) ?_ ?_
  · rcases h.acts hc he with hs | ⟨hn, hs, hkeep⟩
    · exact Or.inl hs
    · refine Or.inr ⟨hn, ?_⟩
      unfold At
      rw [hs, hkeep hd]
      exact h
  · rintro n s (⟨rfl, hs⟩ | ⟨hn, hs⟩)
    · exact hs
    · rw [if_neg hn]
      exact hs
  · -- the message, and status 1
    exact Triple.cons (triple_echo k message) (fun _ _ h => h.2) (Triple.exit fun s h =>
      h.failed (by simp) rfl)
  · refine Triple.skip fun s ⟨n, hn, hs⟩ => ?_
    rwa [if_neg hn] at hs

/-- **The whole script.** -/
theorem triple_makeQcow2Sh (arg : Option Text) : Triple options (acts room R) (Leaves room R w)
    false (· = w) (makeQcow2Sh arg) (Leaves room R w) := by
  have hstart : ∀ s, s = w → At room R w 0 s := by
    rintro s rfl
    exact at_start s
  have hend : ∀ n s, n = 0 ∧ At room R w 14 s → Leaves room R w n s := by
    rintro n s ⟨rfl, hs⟩
    exact hs.finished
  exact
    .cons ((triple_check (k := 0) rfl rfl _).conseq hstart fun _ _ h => h) (fun _ _ h => h) <|
    .cons (triple_check (k := 1) rfl rfl _) (fun _ _ h => h) <|
    .cons (triple_echo 2 _) (fun _ _ h => h.2) <|
    .cons (triple_command (k := 2) rfl) (fun _ _ h => h.2) <|
    .cons (triple_command (k := 3) rfl) (fun _ _ h => h.2) <|
    .cons (triple_command (k := 4) rfl) (fun _ _ h => h.2) <|
    .cons (triple_echo 5 _) (fun _ _ h => h.2) <|
    .cons (triple_command (k := 5) rfl) (fun _ _ h => h.2) <|
    .cons (triple_command (k := 6) rfl) (fun _ _ h => h.2) <|
    .cons (triple_command (k := 7) rfl) (fun _ _ h => h.2) <|
    .cons (triple_echo 8 _) (fun _ _ h => h.2) <|
    .cons (triple_command (k := 8) rfl) (fun _ _ h => h.2) <|
    .cons (triple_command (k := 9) rfl) (fun _ _ h => h.2) <|
    .cons (triple_command (k := 10) rfl) (fun _ _ h => h.2) <|
    .cons (triple_echo 11 _) (fun _ _ h => h.2) <|
    .cons (triple_command (k := 11) rfl) (fun _ _ h => h.2) <|
    .cons (triple_command (k := 12) rfl) (fun _ _ h => h.2) <|
    .cons (triple_command (k := 13) rfl) (fun _ _ h => h.2) <|
    (triple_echo 14 _).conseq (fun _ h => h) hend

end Parts

/-! ### The host in the end -/

section Host
variable {s : Build.Host} {f : Build.Faults}

/-- A run that succeeds has found the device free and nothing mounted, and leaves it so. -/
theorem host_of_ok (h : (Build.run s f).ok = true) :
    s.nbd = false ∧ s.mounted = 0 ∧ (Build.run s f).host = ⟨false, 0, false⟩ := by
  have hf : ∀ c ∈ Build.makeQcow2, f c = false := by
    intro c hc
    by_contra hfc
    have hno := Build.not_ok_of_fault s ⟨c, hc, by simpa using hfc⟩
    rw [Build.run, hno] at h
    simp at h
  have hb : ∀ c ∈ Build.before, f c = false := fun c hc => hf c (List.mem_append_left _ hc)
  have hc : f .connect = false := hf .connect (by decide)
  have hn : s.nbd = false := by
    by_contra hn
    rw [Build.run, Build.makeQcow2, Build.runCmds_append, Build.ok_before hb, if_pos rfl,
      Build.host_before, Build.runCmds, Build.exec, hc, Build.effect, if_neg (by simp),
      if_pos (by simpa using hn)] at h
    simp at h
  have hrun : Build.run s f = Build.runCmds f [.disconnect, .rmdir] ⟨true, s.mounted, true⟩ := by
    rw [Build.run_of_connected hn hb hc, Build.runCmds_append,
      Build.run_between fun c hm => hf c (by simp [Build.makeQcow2, hm]), if_pos rfl]
  have hd : f .disconnect = false := hf .disconnect (by decide)
  have hr : f .rmdir = false := hf .rmdir (by decide)
  by_cases hm : s.mounted = 0
  · simp [hrun, Build.runCmds, Build.exec, Build.effect, hd, hr, hm, hn]
  · simp [hrun, Build.runCmds, Build.exec, Build.effect, hd, hr, hm] at h

/-- A run leaves the device and the layers as they were, or the device connected. -/
theorem alike_or_connected : Build.Alike (Build.run s f).host s ∨ (Build.run s f).host.nbd = true := by
  by_cases hu : Build.Unbroken s f
  · exact Or.inl (Build.alike_iff.mpr hu)
  · right
    unfold Build.Unbroken at hu
    push Not at hu
    obtain ⟨hn, hb, hc, hfail⟩ := hu
    rw [Build.run_of_connected hn hb hc, Build.runCmds_append]
    split_ifs with hok
    · have hbetween : ∀ c ∈ Build.between, f c = false := by
        intro c hm
        by_contra hfc
        rw [Build.not_ok_of_fault _ ⟨c, hm, by simpa using hfc⟩] at hok
        simp at hok
      have he : ∀ t, Build.exec f t .disconnect = none := fun t =>
        if_pos (by simpa using hfail hbetween)
      rw [Build.runCmds, he]
      exact Build.nbd_between
    · exact Build.nbd_between

end Host

/-- **How `make-qcow2.sh` may end.** The host is left as a run of its commands leaves it. If the script
reports success, it has found the device free and nothing mounted, both are so again, and the partition
holds the copy. If not, the device and the layers are as they were, or the device is left connected. -/
theorem image_of_runs {room : Files → Bool} {R : Option FileTree} (arg : Option Text) {w w' : World}
    {n : ℕ} (h : Runs (acts room R) (script options (makeQcow2Sh arg)) w n w') :
    (∃ f, (Build.run w.host f).host = w'.host ∧ (n = 0 → (Build.run w.host f).ok = true)) ∧
      (n = 0 → w.host.nbd = false ∧ w.host.mounted = 0 ∧ w'.host = ⟨false, 0, false⟩ ∧
        Copied room R w'.disk) ∧
      (n ≠ 0 → Build.Alike w'.host w.host ∨ w'.host.nbd = true) := by
  obtain ⟨⟨f, hhost, hok⟩, hcopied⟩ := (triple_makeQcow2Sh arg).runs rfl h
  refine ⟨⟨f, hhost, hok⟩, fun hn => ?_, fun _ => ?_⟩
  · obtain ⟨hnbd, hmounted, hend⟩ := host_of_ok (hok hn)
    exact ⟨hnbd, hmounted, by rw [← hhost, hend], hcopied hn⟩
  · rw [← hhost]
    exact alike_or_connected

/-- A command that succeeds. -/
theorem runs_command {room : Files → Bool} {R : Option FileTree} {c : Build.Cmd}
    {k : ℕ → Prog Call} {w w' : World} {n : ℕ} (s : Build.Host) (d : Option Files)
    (he : Build.effect w.host c = some s) (hf : Fills room R w.disk d c)
    (h : Runs (acts room R) (k 0) ⟨s, d⟩ n w') :
    Runs (acts room R) (.call (.command c) k) w n w' :=
  .call (m := 0) (Or.inl ⟨rfl, he, hf⟩) h

/-- If the tree can be copied and the device is free, the script can succeed. -/
theorem runs_makeQcow2Sh {room : Files → Bool} {T : FileTree} {image : Files} (arg : Option Text)
    (h : makeQcow2 room T = some image) : Runs (acts room (some T))
      (script options (makeQcow2Sh arg)) ⟨⟨false, 0, false⟩, none⟩ 0
      ⟨⟨false, 0, false⟩, some image⟩ :=
  runs_command ⟨false, 0, false⟩ none rfl ⟨rfl, rfl⟩ <|
  runs_command ⟨false, 0, false⟩ none rfl rfl <|
  .call (m := 0) rfl <|
  runs_command ⟨false, 0, false⟩ none rfl rfl <|
  runs_command ⟨false, 0, false⟩ none rfl rfl <|
  runs_command ⟨true, 0, false⟩ none rfl rfl <|
  .call (m := 0) rfl <|
  runs_command ⟨true, 0, false⟩ none rfl rfl <|
  runs_command ⟨true, 0, false⟩ none rfl rfl <|
  runs_command ⟨true, 0, false⟩ (some mkfs) rfl rfl <|
  .call (m := 0) rfl <|
  runs_command ⟨true, 0, true⟩ (some mkfs) rfl rfl <|
  runs_command ⟨true, 1, true⟩ (some mkfs) rfl rfl <|
  runs_command ⟨true, 1, true⟩ (some image) rfl ⟨T, mkfs, image, rfl, rfl, h, rfl⟩ <|
  .call (m := 0) rfl <|
  runs_command ⟨true, 0, true⟩ (some image) rfl rfl <|
  runs_command ⟨false, 0, true⟩ (some image) rfl rfl <|
  runs_command ⟨false, 0, false⟩ (some image) rfl rfl <|
  .call (m := 0) rfl <|
  .done 0 _

/-- A tree with one file is copied, and the device is free again. -/
theorem image_of_runs_sample : ∃ w, Runs (acts (fun _ => true) (some Initrd.sampleTree))
    (script options (makeQcow2Sh none)) ⟨⟨false, 0, false⟩, none⟩ 0 w ∧
      Copied (fun _ => true) (some Initrd.sampleTree) w.disk :=
  have hr : Runs (acts (fun _ => true) (some Initrd.sampleTree)) (script options (makeQcow2Sh none))
      ⟨⟨false, 0, false⟩, none⟩ 0 _ := runs_makeQcow2Sh none rfl
  ⟨_, hr, ((image_of_runs none hr).2.1 rfl).2.2.2⟩

/-! ### Both packers -/

section Both
variable {R : FileTree} {image : Files} {room : Files → Bool}

/-- The two images have the same entries, apart from the directory of `mkfs`. -/
def SameEntries (es : List Entry) (image : Files) : Prop :=
  ∀ e, e ≠ mkfsEntry → (e ∈ es ↔ Has image e)

/-- What the tree has at the top, but for `lost+found`, is in the partition with the owner root. -/
theorem SameEntries.top (h : SameEntries (makeInitrd R) image) {x : Bytes} {n : FileNode}
    (hx : x ≠ lostFound) (hn : R.entries.find x = some n) : Has image ((entry [x] n).chown root) := by
  refine (h _ fun he => hx ?_).mp ((mem_makeInitrd R _).mpr ⟨_, has_top hn, rfl⟩)
  have hp : ((entry [x] n).chown root).path = [lostFound] := by rw [he]; rfl
  have hp' : (entry [x] n).path = [lostFound] := hp
  rw [entry_path] at hp'
  simpa using hp'

/-- **When the images have the same entries.** -/
theorem sameEntries_iff {user : Owner} (ho : Owned user R) (hi : init ∈ R.entries.names)
    (h : makeQcow2 room R = some image) : SameEntries (makeInitrd R) image ↔
      user = root ∧ ∀ x ∈ R.entries.names, visible x = true := by
  constructor
  · intro hs
    constructor
    · -- the entry `init` belongs to the user in the partition, and to root in the archive
      obtain ⟨n, hn⟩ := mem_names.mp hi
      have he := hs.top (by decide) hn
      have hp : ((entry [init] n).chown root).path.head? = some init := by
        show (entry [init] n).path.head? = some init
        rw [entry_path]
        rfl
      rcases (has_makeQcow2 h (by decide) hp).mp he with he | ⟨he, -⟩
      · exact (he.owner ho).symm
      · have hlf : some lostFound = some init := by rw [← hp, he]; rfl
        exact absurd hlf (by decide)
    · intro x hx
      by_cases hl : x = lostFound
      · rw [hl]
        decide
      · obtain ⟨n, hn⟩ := mem_names.mp hx
        obtain ⟨y, hy, hv⟩ := visible_of_has h (hs.top hl hn)
        have hp : (entry [x] n).path.head? = some y := hy
        rw [entry_path] at hp
        obtain rfl : x = y := by simpa using hp
        exact hv
  · rintro ⟨rfl, hv⟩
    obtain ⟨image', h', hsame, -⟩ := agree_of_root ho hv h
    obtain rfl : image = image' := Option.some.inj (h.symm.trans h')
    exact hsame

end Both

/-- **The two scripts together**: if both report success on a tree that `create-rootfs.sh` left, and `find`
and `cpio` have not failed, both images are there, and they have the same entries exactly if root had run
`create-rootfs.sh` and no name at the top is hidden. -/
theorem same_entries_iff_of_runs (M : Machine) (user : Owner) (T : FileTree) {room : Files → Bool}
    (arg arg' : Option Text) {v v' : Initrd.World} {l : Initrd.Log} {w w' : World}
    (hi : Runs (logged (Initrd.acts (some (createRootfs M user T))))
      (script options (makeInitrdSh arg)) (v, []) 0 (v', l))
    (hf : ∀ x ∈ l, x.1.noticed = false → x.2 = 0)
    (hq : Runs (acts room (some (createRootfs M user T))) (script options (makeQcow2Sh arg')) w 0 w') :
    ∃ es image, v'.archive = some es ∧ w'.disk = some image ∧
      (SameEntries es image ↔
        user = root ∧ ∀ x ∈ (createRootfs M user T).entries.names, visible x = true) := by
  have harchive := Initrd.archive_eq ((Initrd.triple_makeInitrdSh _ arg v).runs rfl hi) hf
  obtain ⟨-, hcopied⟩ := (triple_makeQcow2Sh arg').runs rfl hq
  obtain ⟨T', image, hT, hmake, hdisk⟩ := hcopied rfl
  obtain rfl := Option.some.inj hT
  exact ⟨_, image, harchive, hdisk,
    sameEntries_iff (owned_createRootfs M user T) (init_mem_createRootfs M user T) hmake⟩

/-- The tree of one file, with what `create-rootfs.sh` adds to it. -/
theorem same_entries_iff_of_runs_sample : ∃ es image,
    SameEntries es image ∧ makeInitrd (createRootfs plainMachine root Initrd.sampleTree) = es ∧
      makeQcow2 (fun _ => true) (createRootfs plainMachine root Initrd.sampleTree) = some image := by
  have hfill : ∃ image, makeQcow2 (fun _ => true) (createRootfs plainMachine root Initrd.sampleTree) =
      some image := by
    refine makeQcow2_eq_some.mpr ⟨⟨init, init_mem_createRootfs _ _ _, by decide⟩, rfl, fun n hn => ?_⟩
    have hnone : (createRootfs plainMachine root Initrd.sampleTree).entries.find lostFound = none := rfl
    rw [hnone] at hn
    simp at hn
  obtain ⟨image, himage⟩ := hfill
  obtain ⟨l, hi, hl⟩ :=
    Initrd.runs_makeInitrdSh (createRootfs plainMachine root Initrd.sampleTree) none ⟨[], [], none⟩
  obtain ⟨es, image', hes, himage', hiff⟩ := same_entries_iff_of_runs plainMachine root
    Initrd.sampleTree none none hi (fun x hx _ => hl x hx) (runs_makeQcow2Sh none himage)
  have hvisible : ∀ x ∈ (createRootfs plainMachine root Initrd.sampleTree).entries.names,
      visible x = true := by decide
  exact ⟨es, image', hiff.mpr ⟨rfl, hvisible⟩, Option.some.inj hes, himage.trans himage'⟩

end Lightbox.Rootfs.Image
