import Mathlib.Data.List.Basic
import Mathlib.Tactic.Common

/-! # Building an image as root

`make-qcow2.sh` connects an image to `/dev/nbd0`, mounts its partition, copies the tree and releases
both again. With `set -e` a command that fails ends the run where it stands, so a failure between the
connection and its release leaves the device connected, and the next run cannot connect it.

A run leaves the device and the mount point as they were exactly if no command fails between the two
(`alike_iff`), and so does a sequence of runs (`restore_iff`). -/

namespace Lightbox.Rootfs.Build

/-- The commands of the script that can fail. -/
inductive Cmd
  | checkRootfs | checkQemuImg | createImage | modprobe | connect
  | mklabel | mkpart | mkfs | mkdir | mount | cp | umount | disconnect
  | rmdir
  deriving DecidableEq

/-- The commands up to the connection. -/
def before : List Cmd := [.checkRootfs, .checkQemuImg, .createImage, .modprobe]

/-- The commands between the connection and its release. -/
def between : List Cmd := [.mklabel, .mkpart, .mkfs, .mkdir, .mount, .cp, .umount]

/-- **`make-qcow2.sh`** -/
def makeQcow2 : List Cmd := before ++ .connect :: (between ++ [.disconnect, .rmdir])

/-- The device, and the mount point `/mnt/rootfs-temp` with the layers on it. -/
structure Host where
  nbd : Bool
  mounted : ℕ
  dir : Bool
  deriving DecidableEq

/-- The commands that fail of themselves in a run. -/
abbrev Faults := Cmd → Bool

/-- What a command does if it does not fail of itself. A device that is connected cannot be connected
again, nothing is unmounted where nothing is mounted, and a mount point cannot be removed. -/
def effect (s : Host) : Cmd → Option Host
  | .connect => if s.nbd then none else some { s with nbd := true }
  | .mkdir => some { s with dir := true }
  | .mount => some { s with mounted := s.mounted + 1 }
  | .umount => if s.mounted = 0 then none else some { s with mounted := s.mounted - 1 }
  | .disconnect => some { s with nbd := false }
  | .rmdir => if s.mounted = 0 then some { s with dir := false } else none
  | _ => some s

def exec (f : Faults) (s : Host) (c : Cmd) : Option Host := if f c then none else effect s c

/-- The host at the end of a run, and whether the run succeeded. -/
structure Result where
  host : Host
  ok : Bool
  deriving DecidableEq

/-- Execute commands under `set -e`. -/
def runCmds (f : Faults) : List Cmd → Host → Result
  | [], s => ⟨s, true⟩
  | c :: cs, s =>
    match exec f s c with
    | some s' => runCmds f cs s'
    | none => ⟨s, false⟩

def run (s : Host) (f : Faults) : Result := runCmds f makeQcow2 s

/-- The host after a sequence of runs. -/
def after (s : Host) : List Faults → Host
  | [] => s
  | f :: fs => after (run s f).host fs

/-- **The runs restore the host**: after each of them the device and the mount point are as they were,
and a later run comes out as it would have without the earlier ones. -/
def Restore (s : Host) (fs : List Faults) : Prop :=
  ∀ gs, gs <+: fs → (after s gs).nbd = s.nbd ∧ (after s gs).mounted = s.mounted ∧
    ∀ g, (run (after s gs) g).ok = (run s g).ok

/-- If the run connects the device, no command fails up to and including its release. -/
def Unbroken (s : Host) (f : Faults) : Prop :=
  s.nbd = false → (∀ c ∈ before, f c = false) → f .connect = false →
    (∀ c ∈ between, f c = false) ∧ f .disconnect = false

/-- Every run of a sequence is unbroken, in the state the earlier ones leave. -/
def AllUnbroken : Host → List Faults → Prop
  | _, [] => True
  | s, f :: fs => Unbroken s f ∧ AllUnbroken (run s f).host fs

/-! ### Runs under `set -e` -/

section Runs
variable {f : Faults}

theorem runCmds_append (ds : List Cmd) : ∀ (cs : List Cmd) (s : Host),
    runCmds f (cs ++ ds) s =
      if (runCmds f cs s).ok then runCmds f ds (runCmds f cs s).host else runCmds f cs s
  | [], s => by simp [runCmds]
  | c :: cs, s => by
    rw [List.cons_append, runCmds, runCmds]
    cases exec f s c with
    | none => simp
    | some s' => exact runCmds_append ds cs s'

/-- A command that fails of itself ends the run without success. -/
theorem not_ok_of_fault : ∀ {cs : List Cmd} (s : Host), (∃ c ∈ cs, f c = true) →
    (runCmds f cs s).ok = false
  | [], s, h => by simp at h
  | c :: cs, s, h => by
    rw [runCmds]
    cases he : exec f s c with
    | none => rfl
    | some s' =>
      refine not_ok_of_fault s' ?_
      obtain ⟨d, hd, hf⟩ := h
      rcases List.mem_cons.mp hd with rfl | hd
      · rw [exec, hf, if_pos rfl] at he
        simp at he
      · exact ⟨d, hd, hf⟩

/-- What every command that succeeds keeps, the run keeps. -/
theorem runCmds_keeps {B : Type} {g : Host → B} : ∀ {cs : List Cmd} (s : Host),
    (∀ c ∈ cs, ∀ s s', effect s c = some s' → g s' = g s) → g (runCmds f cs s).host = g s
  | [], s, _ => rfl
  | c :: cs, s, h => by
    rw [runCmds]
    cases he : exec f s c with
    | none => rfl
    | some s' =>
      rw [exec] at he
      split_ifs at he
      exact (runCmds_keeps s' fun d hd => h d (List.mem_cons_of_mem _ hd)).trans
        (h c List.mem_cons_self s s' he)

/-! Whether a run succeeds depends on the device and the layers only. -/

/-- The same device and layers. -/
def Alike (s t : Host) : Prop := s.nbd = t.nbd ∧ s.mounted = t.mounted

theorem effect_alike {s t : Host} (h : Alike s t) (c : Cmd) :
    (effect s c = none ∧ effect t c = none) ∨
      ∃ s' t', effect s c = some s' ∧ effect t c = some t' ∧ Alike s' t' := by
  obtain ⟨n, m, d⟩ := s
  obtain ⟨n', m', d'⟩ := t
  obtain ⟨hn, hm⟩ : n = n' ∧ m = m' := h
  subst hn hm
  cases c with
  | connect =>
    cases n with
    | true => exact Or.inl ⟨rfl, rfl⟩
    | false => exact Or.inr ⟨_, _, rfl, rfl, rfl, rfl⟩
  | umount =>
    by_cases h0 : m = 0
    · exact Or.inl ⟨if_pos h0, if_pos h0⟩
    · exact Or.inr ⟨_, _, if_neg h0, if_neg h0, rfl, rfl⟩
  | rmdir =>
    by_cases h0 : m = 0
    · exact Or.inr ⟨_, _, if_pos h0, if_pos h0, rfl, rfl⟩
    · exact Or.inl ⟨if_neg h0, if_neg h0⟩
  | _ => exact Or.inr ⟨_, _, rfl, rfl, rfl, rfl⟩

theorem ok_alike : ∀ (cs : List Cmd) {s t : Host}, Alike s t →
    (runCmds f cs s).ok = (runCmds f cs t).ok
  | [], _, _, _ => rfl
  | c :: cs, s, t, h => by
    rw [runCmds, runCmds, exec, exec]
    cases f c with
    | true => rfl
    | false =>
      rw [if_neg (by simp), if_neg (by simp)]
      rcases effect_alike h c with ⟨h1, h2⟩ | ⟨s', t', h1, h2, h'⟩
      · rw [h1, h2]
      · rw [h1, h2]
        exact ok_alike cs h'

end Runs

/-! ### One run -/

section Run
variable {s : Host} {f : Faults}

/-- The commands before the connection change nothing. -/
theorem host_before : (runCmds f before s).host = s := by
  refine runCmds_keeps (g := id) s fun c hc s s' he => ?_
  simp only [before, List.mem_cons, List.not_mem_nil, or_false] at hc
  rcases hc with rfl | rfl | rfl | rfl <;> exact (Option.some.inj he).symm

/-- Where the device is not connected in the run, nothing changes. -/
theorem host_of_not_connected
    (h : s.nbd = true ∨ (∃ c ∈ before, f c = true) ∨ f .connect = true) : (run s f).host = s := by
  rw [run, makeQcow2, runCmds_append, host_before]
  split_ifs with hok
  · have hc : exec f s .connect = none := by
      rcases h with h | h | h
      · rw [exec, effect, h, if_pos rfl, ite_self]
      · rw [not_ok_of_fault s h] at hok
        simp at hok
      · rw [exec, if_pos h]
    rw [runCmds, hc]
  · exact host_before

theorem ok_before (h : ∀ c ∈ before, f c = false) : (runCmds f before s).ok = true := by
  simp only [before, List.forall_mem_cons, List.not_mem_nil, false_imp_iff, implies_true,
    and_true] at h
  obtain ⟨h1, h2, h3, h4⟩ := h
  simp [before, runCmds, exec, effect, h1, h2, h3, h4]

/-- Otherwise the rest of the run starts with the device connected. -/
theorem run_of_connected (hn : s.nbd = false) (hb : ∀ c ∈ before, f c = false)
    (hc : f .connect = false) :
    run s f = runCmds f (between ++ [.disconnect, .rmdir]) { s with nbd := true } := by
  have he : exec f s .connect = some { s with nbd := true } := by
    rw [exec, hc, if_neg (by simp), effect, hn, if_neg (by simp)]
  rw [run, makeQcow2, runCmds_append, ok_before hb, if_pos rfl, host_before, runCmds, he]

/-- Between connection and release nothing disconnects the device. -/
theorem nbd_between : (runCmds f between s).host.nbd = s.nbd := by
  refine runCmds_keeps s fun c hc s s' he => ?_
  simp only [between, List.mem_cons, List.not_mem_nil, or_false] at hc
  rcases hc with rfl | rfl | rfl | rfl | rfl | rfl | rfl
  · rw [← Option.some.inj he]
  · rw [← Option.some.inj he]
  · rw [← Option.some.inj he]
  · rw [← Option.some.inj he]
  · rw [← Option.some.inj he]
  · rw [← Option.some.inj he]
  · rw [effect] at he
    split_ifs at he
    rw [← Option.some.inj he]

/-- With no failure in between, what was mounted is unmounted again. -/
theorem run_between (h : ∀ c ∈ between, f c = false) :
    runCmds f between s = ⟨{ s with dir := true }, true⟩ := by
  simp only [between, List.forall_mem_cons, List.not_mem_nil, false_imp_iff, implies_true,
    and_true] at h
  obtain ⟨h1, h2, h3, h4, h5, h6, h7⟩ := h
  simp [between, runCmds, exec, effect, h1, h2, h3, h4, h5, h6, h7]

/-- The last two commands, from a host with the device connected. -/
theorem run_release (hd : f .disconnect = false) :
    Alike (runCmds f [.disconnect, .rmdir] s).host { s with nbd := false } := by
  have he : exec f s .disconnect = some { s with nbd := false } := by
    rw [exec, hd, if_neg (by simp), effect]
  rw [runCmds, he]
  dsimp only
  rw [runCmds]
  cases hr : exec f { s with nbd := false } .rmdir with
  | none => exact ⟨rfl, rfl⟩
  | some s' =>
    rw [exec] at hr
    split_ifs at hr
    rw [effect] at hr
    split_ifs at hr
    obtain rfl := Option.some.inj hr
    exact ⟨rfl, rfl⟩

/-- A run that connects the device restores the host exactly if nothing fails until the release. -/
theorem alike_iff_of_connected (hn : s.nbd = false) (hb : ∀ c ∈ before, f c = false)
    (hc : f .connect = false) :
    Alike (run s f).host s ↔ (∀ c ∈ between, f c = false) ∧ f .disconnect = false := by
  rw [run_of_connected hn hb hc, runCmds_append]
  by_cases hbet : ∀ c ∈ between, f c = false
  · rw [run_between hbet, if_pos rfl]
    cases hd : f .disconnect with
    | true =>
      -- the release fails
      have he : exec f ⟨true, s.mounted, true⟩ .disconnect = none := by rw [exec, if_pos hd]
      rw [runCmds, he]
      refine iff_of_false (fun ha => ?_) fun h => by simp at h
      have := ha.1
      rw [hn] at this
      simp at this
    | false =>
      refine iff_of_true ?_ ⟨hbet, rfl⟩
      obtain ⟨h1, h2⟩ := run_release (s := ⟨true, s.mounted, true⟩) hd
      exact ⟨h1.trans hn.symm, h2⟩
  · -- a command fails while the device is connected
    have hf : ∃ c ∈ between, f c = true := by
      push Not at hbet
      obtain ⟨c, hm, h⟩ := hbet
      exact ⟨c, hm, by simpa using h⟩
    rw [not_ok_of_fault _ hf, if_neg (by simp)]
    refine iff_of_false (fun ha => ?_) fun h => hbet h.1
    have := ha.1
    rw [nbd_between, hn] at this
    simp at this

/-- **A run leaves the device and the layers as they were** exactly if it is unbroken. -/
theorem alike_iff : Alike (run s f).host s ↔ Unbroken s f := by
  by_cases h : s.nbd = true ∨ (∃ c ∈ before, f c = true) ∨ f .connect = true
  · -- the device is not connected
    rw [host_of_not_connected h]
    refine iff_of_true ⟨rfl, rfl⟩ fun hn hb hc => ?_
    rcases h with h | ⟨c, hm, h⟩ | h
    · rw [h] at hn
      simp at hn
    · rw [hb c hm] at h
      simp at h
    · rw [hc] at h
      simp at h
  · push Not at h
    obtain ⟨hn, hb, hc⟩ := h
    rw [ne_eq, Bool.not_eq_true] at hn hc
    have hb' : ∀ c ∈ before, f c = false := fun c hm => by simpa using hb c hm
    have hiff := alike_iff_of_connected hn hb' hc
    exact ⟨fun ha _ _ _ => hiff.mp ha, fun hu => hiff.mpr (hu hn hb' hc)⟩

end Run

/-! ### Sequences of runs -/

theorem Alike.trans {s t u : Host} (h : Alike s t) (h' : Alike t u) : Alike s u :=
  ⟨h.1.trans h'.1, h.2.trans h'.2⟩

theorem Alike.symm {s t : Host} (h : Alike s t) : Alike t s := ⟨h.1.symm, h.2.symm⟩

theorem restore_iff_alike {s : Host} {fs : List Faults} :
    Restore s fs ↔ ∀ gs, gs <+: fs → Alike (after s gs) s := by
  constructor
  · exact fun h gs hg => ⟨(h gs hg).1, (h gs hg).2.1⟩
  · exact fun h gs hg => ⟨(h gs hg).1, (h gs hg).2, fun g => ok_alike makeQcow2 (h gs hg)⟩

/-- **When runs restore the host**: exactly if in none of them a command fails between the connection
of the device and its release. -/
theorem restore_iff (s : Host) (fs : List Faults) : Restore s fs ↔ AllUnbroken s fs := by
  rw [restore_iff_alike]
  induction fs generalizing s with
  | nil =>
    refine iff_of_true (fun gs hg => ?_) trivial
    rw [List.prefix_nil.mp hg]
    exact ⟨rfl, rfl⟩
  | cons f fs ih =>
    rw [AllUnbroken, ← alike_iff, ← ih]
    constructor
    · intro h
      have h1 : Alike (run s f).host s := h [f] ⟨fs, rfl⟩
      refine ⟨h1, fun gs hg => ?_⟩
      exact (h (f :: gs) (List.cons_prefix_cons.mpr ⟨rfl, hg⟩)).trans h1.symm
    · rintro ⟨h1, h2⟩ gs hg
      match gs with
      | [] => exact ⟨rfl, rfl⟩
      | g :: gs =>
        obtain ⟨rfl, hgs⟩ := List.cons_prefix_cons.mp hg
        exact (h2 gs hgs).trans h1

/-- The copy fails, since the image is too small: the device stays connected, and the next run, in
which nothing goes wrong, fails at the connection. -/
theorem not_restore_full : ¬ Restore ⟨false, 0, false⟩ [fun c => c = .cp] ∧
    (run ⟨false, 0, false⟩ fun c => c = .cp) = ⟨⟨true, 1, true⟩, false⟩ ∧
    (run ⟨true, 1, true⟩ fun _ => false).ok = false ∧
    (run ⟨false, 0, false⟩ fun _ => false).ok = true := by
  refine ⟨fun h => ?_, by decide, by decide, by decide⟩
  have := (h [fun c => c = .cp] (List.prefix_refl _)).1
  revert this
  decide

end Lightbox.Rootfs.Build
