import Lightbox.Run.System
import Mathlib.Data.List.Infix

/-! # The mounts of create-rootfs.sh

`create-rootfs.sh` mounts `proc` and `sysfs` below `rootfs` for the package scripts, and unmounts
them before it removes the tree or changes its owner as root. It has no `set -e` and looks at no
result. The state is what is left of the run that is going on and the number of layers on the two
mount points, which outlive a run.

In every sequence of runs, each completed or interrupted anywhere, the tree is removed and changed
only with nothing mounted below it, as long as no `umount` of something mounted fails
(`safe_of_released`). A failing one goes unnoticed (`busy_chown`). -/

namespace Lightbox.Rootfs.Mounts

open Lightbox.Run.System

/-- The two mount points below `rootfs`. -/
inductive Point
  | proc | sys
  deriving DecidableEq

/-- The commands of the script. The two installations and the copy of QEMU depend on the machine and
may do nothing. -/
inductive Cmd
  | installMultistrap | installQemuStatic
  | umount (p : Point)
  | rmRootfs | mkdirRootfs | multistrap | copyQemu
  | mount (p : Point)
  | configure | chpasswd | chown | lnInit | writeInterfaces | touchResolv | writeResolv
  deriving DecidableEq

/-- **`create-rootfs.sh`** -/
def createRootfs : List Cmd :=
  [.installMultistrap, .installQemuStatic,
    .umount .proc, .umount .sys, .rmRootfs, .mkdirRootfs, .multistrap, .copyQemu,
    .mount .proc, .mount .sys, .configure, .configure, .chpasswd,
    .umount .proc, .umount .sys, .chown,
    .lnInit, .writeInterfaces, .writeInterfaces, .touchResolv, .writeResolv, .writeResolv,
    .writeResolv]

/-- The commands left of the run that is going on, if there is one, and the mounted layers. -/
structure State where
  left : Option (List Cmd)
  proc : ℕ
  sys : ℕ
  deriving DecidableEq

def State.depth (s : State) : Point → ℕ
  | .proc => s.proc
  | .sys => s.sys

def State.setDepth (s : State) (p : Point) (n : ℕ) : State :=
  match p with
  | .proc => { s with proc := n }
  | .sys => { s with sys := n }

/-- A run is started; its next command is executed, with success or not; a run ends, at its end or
by an interruption. -/
inductive Act
  | start
  | exec (ok : Bool)
  | stop
  deriving DecidableEq

/-- The effect of a command on the mounts. A layer is removed by a successful `umount`, which needs
one, and added by a successful `mount`. -/
def effect (s : State) : Cmd → Bool → Option State
  | .umount p, true => if 0 < s.depth p then some (s.setDepth p (s.depth p - 1)) else none
  | .mount p, true => some (s.setDepth p (s.depth p + 1))
  | _, _ => some s

def step : StepFn State Act
  | s, .start => if s.left = none then some { s with left := some createRootfs } else none
  | s, .exec ok =>
    match s.left with
    | some (c :: cs) => (effect s c ok).map fun s' => { s' with left := some cs }
    | _ => none
  | s, .stop => if s.left = none then none else some { s with left := none }

/-- No run and nothing mounted. -/
def Init (s : State) : Prop := s = ⟨none, 0, 0⟩

/-- The command works on the whole tree as root. -/
def Cmd.onTree : Cmd → Bool
  | .rmRootfs | .chown => true
  | _ => false

/-- **Nothing is mounted** below the tree when a command that works on all of it is executed, nor when
a run is completed. -/
def Safe (s : State) : Prop :=
  ∀ cs, s.left = some cs → (cs.head?.all Cmd.onTree = true) → ∀ p, s.depth p = 0

/-- No `umount` fails while something is mounted on its mount point. -/
def Released (s : State) : Act → Prop
  | .exec false => ∀ p, (s.left.bind List.head?) = some (.umount p) → s.depth p = 0
  | _ => True

instance (s : State) (a : Act) : Decidable (Released s a) :=
  match a with
  | .exec false =>
    decidable_of_iff (((s.left.bind List.head?) = some (.umount .proc) → s.proc = 0) ∧
        ((s.left.bind List.head?) = some (.umount .sys) → s.sys = 0))
      ⟨fun h p => match p with
        | .proc => h.1
        | .sys => h.2, fun h => ⟨h .proc, h .sys⟩⟩
  | .exec true => .isTrue trivial
  | .start => .isTrue trivial
  | .stop => .isTrue trivial

/-! ### The layers a run may find -/

/-- The command mounts or unmounts something on `p`. -/
def Cmd.concerns (p : Point) : Cmd → Bool
  | .umount q => q = p
  | .mount q => q = p
  | _ => false

/-- The layers there may be on `p` when `cs` are left to be executed: one if it is unmounted before
anything else happens to it, and otherwise none. -/
def limit (p : Point) (cs : List Cmd) : ℕ :=
  match cs.find? (·.concerns p) with
  | some (.umount _) => 1
  | _ => 0

theorem limit_le_one (p : Point) (cs : List Cmd) : limit p cs ≤ 1 := by
  unfold limit
  split <;> omega

theorem limit_cons {p : Point} {c : Cmd} (h : c.concerns p = false) (cs : List Cmd) :
    limit p (c :: cs) = limit p cs := by
  rw [limit, List.find?_cons, h]
  rfl

theorem limit_mount (p : Point) (cs : List Cmd) : limit p (.mount p :: cs) = 0 := by
  simp [limit, Cmd.concerns]

/-! What the order of the commands gives. -/

theorem limit_createRootfs (p : Point) : limit p createRootfs = 1 := by
  cases p <;> decide

/-- What is mounted is unmounted next. -/
theorem limit_after_mount {p : Point} {cs : List Cmd} (h : .mount p :: cs <:+ createRootfs) :
    limit p cs = 1 := by
  have hall : ∀ l ∈ createRootfs.tails, ∀ q, l.head? = some (.mount q) → limit q l.tail = 1 := by
    have hp : ∀ l ∈ createRootfs.tails, l.head? = some (.mount .proc) → limit .proc l.tail = 1 := by
      decide
    have hs : ∀ l ∈ createRootfs.tails, l.head? = some (.mount .sys) → limit .sys l.tail = 1 := by
      decide
    intro l hl q
    match q with
    | .proc => exact hp l hl
    | .sys => exact hs l hl
  exact hall _ ((List.mem_tails _ _).mpr h) p rfl

/-- Before a command that works on the whole tree, and at the end, everything has been unmounted. -/
theorem limit_onTree {cs : List Cmd} (h : cs <:+ createRootfs) (ht : cs.head?.all Cmd.onTree = true)
    (p : Point) : limit p cs = 0 := by
  have hall : ∀ l ∈ createRootfs.tails, l.head?.all Cmd.onTree = true →
      limit .proc l = 0 ∧ limit .sys l = 0 := by decide
  have := hall cs ((List.mem_tails _ _).mpr h) ht
  match p with
  | .proc => exact this.1
  | .sys => exact this.2

/-! ### The invariant -/

structure Inv (s : State) : Prop where
  idle : s.left = none → ∀ p, s.depth p ≤ 1
  suffix : ∀ cs, s.left = some cs → cs <:+ createRootfs
  layers : ∀ cs, s.left = some cs → ∀ p, s.depth p ≤ limit p cs

theorem depth_setDepth (s : State) (p q : Point) (n : ℕ) :
    (s.setDepth p n).depth q = if q = p then n else s.depth q := by
  cases p <;> cases q <;> rfl

/-- A command changes nothing on the mount points it does not concern. -/
theorem depth_effect {s s' : State} {c : Cmd} {ok : Bool} (h : effect s c ok = some s') {p : Point}
    (hp : c.concerns p = false) : s'.depth p = s.depth p := by
  unfold effect at h
  split at h
  · split_ifs at h
    obtain rfl := Option.some.inj h
    rw [depth_setDepth, if_neg]
    rintro rfl
    simp [Cmd.concerns] at hp
  · obtain rfl := Option.some.inj h
    rw [depth_setDepth, if_neg]
    rintro rfl
    simp [Cmd.concerns] at hp
  · obtain rfl := Option.some.inj h
    rfl

/-- **One command keeps the bound** on the layers. -/
theorem depth_effect_le {s s' : State} {c : Cmd} {ok : Bool} {cs : List Cmd}
    (hsuf : c :: cs <:+ createRootfs) (hle : ∀ p, s.depth p ≤ limit p (c :: cs))
    (hrel : ok = false → ∀ p, c = .umount p → s.depth p = 0) (h : effect s c ok = some s')
    (p : Point) : s'.depth p ≤ limit p cs := by
  cases hc : c.concerns p with
  | false =>
    rw [depth_effect h hc, ← limit_cons hc cs]
    exact hle p
  | true =>
    have hp := hle p
    match c, ok with
    | .umount q, true =>
      obtain rfl : q = p := by simpa [Cmd.concerns] using hc
      have h1 := limit_le_one q (.umount q :: cs)
      rw [effect] at h
      split_ifs at h
      obtain rfl := Option.some.inj h
      rw [depth_setDepth, if_pos rfl]
      omega
    | .umount q, false =>
      obtain rfl : q = p := by simpa [Cmd.concerns] using hc
      obtain rfl := Option.some.inj h
      rw [hrel rfl q rfl]
      omega
    | .mount q, true =>
      obtain rfl : q = p := by simpa [Cmd.concerns] using hc
      obtain rfl := Option.some.inj h
      rw [limit_mount] at hp
      rw [depth_setDepth, if_pos rfl, limit_after_mount hsuf]
      omega
    | .mount q, false =>
      obtain rfl : q = p := by simpa [Cmd.concerns] using hc
      obtain rfl := Option.some.inj h
      rw [limit_mount] at hp
      omega

theorem inv_init {s : State} (h : Init s) : Inv s := by
  rw [Init] at h
  subst h
  exact ⟨fun _ p => by cases p <;> exact Nat.zero_le 1, fun cs h => by simp at h,
    fun cs h => by simp at h⟩

theorem inv_step (s : State) (a : Act) (s' : State) (h : Inv s) (hr : Released s a)
    (hs : step s a = some s') : Inv s' := by
  cases a with
  | start =>
    rw [step] at hs
    split_ifs at hs with hn
    obtain rfl := Option.some.inj hs
    refine ⟨fun h0 => by simp at h0, fun cs hcs => ?_, fun cs hcs p => ?_⟩
    · obtain rfl := Option.some.inj hcs
      exact List.suffix_refl _
    · obtain rfl := Option.some.inj hcs
      rw [limit_createRootfs]
      exact h.idle hn p
  | exec ok =>
    rw [step] at hs
    split at hs
    · next c cs hl =>
      obtain ⟨s1, he, rfl⟩ := Option.map_eq_some_iff.mp hs
      have hsuf := h.suffix _ hl
      have hrel : ok = false → ∀ p, c = .umount p → s.depth p = 0 := by
        rintro rfl p rfl
        exact hr p (by rw [hl]; rfl)
      refine ⟨fun h0 => by simp at h0, fun cs' hcs => ?_, fun cs' hcs p => ?_⟩
      · obtain rfl := Option.some.inj hcs
        exact (List.suffix_cons c cs).trans hsuf
      · obtain rfl := Option.some.inj hcs
        exact depth_effect_le hsuf (h.layers _ hl) hrel he p
    · simp at hs
  | stop =>
    rw [step] at hs
    split_ifs at hs with hn
    obtain rfl := Option.some.inj hs
    refine ⟨fun _ p => ?_, fun cs hcs => by simp at hcs, fun cs hcs => by simp at hcs⟩
    obtain ⟨cs, hcs⟩ := Option.ne_none_iff_exists'.mp hn
    exact (h.layers cs hcs p).trans (limit_le_one p cs)

theorem Inv.safe {s : State} (h : Inv s) : Safe s := by
  intro cs hcs ht p
  have := h.layers cs hcs p
  rw [limit_onTree (h.suffix cs hcs) ht] at this
  omega

/-- **Where no `umount` of something mounted fails, nothing is ever mounted** below the tree when it is
removed, when its owner is changed, or at the end of a run: in every sequence of runs. -/
theorem safe_of_released {s : State} (h : Reach step Init Released s) : Safe s :=
  (h.invariant (fun _ => inv_init) inv_step).safe

/-- The commands of a run up to the first `umount`, and from there to the last `mount`, with nothing
mounted before. -/
def cleanStart : List Act :=
  [.start, .exec true, .exec true, .exec false, .exec false, .exec true, .exec true, .exec true,
    .exec true, .exec true, .exec true]

/-- A run is interrupted with both file systems mounted; the next one unmounts them before it removes
the tree. -/
theorem safe_of_released_interrupted :
    ∃ s, Reach step Init Released s ∧ (s.left.bind List.head?) = some .rmRootfs ∧ Safe s := by
  obtain ⟨s, hs, hl⟩ : ∃ s, runFrom (guarded step Released) ⟨none, 0, 0⟩
      (cleanStart ++ [.stop, .start, .exec true, .exec true, .exec true, .exec true]) = some s ∧
      (s.left.bind List.head?) = some .rmRootfs := ⟨_, rfl, rfl⟩
  have hr : Reach step Init Released s := Reach.runGuarded _ (.start rfl) hs
  exact ⟨s, hr, hl, safe_of_released hr⟩

/-- `umount rootfs/proc` fails, since a daemon of a package still runs in the tree: the owner of the
host's `proc` entries is changed. -/
theorem busy_chown :
    ∃ s, Reach step Init always s ∧ (s.left.bind List.head?) = some .chown ∧ s.proc = 1 ∧
      ¬ Safe s := by
  obtain ⟨s, hs, hl, hp⟩ : ∃ s, runFrom step ⟨none, 0, 0⟩
      (cleanStart ++ [.exec true, .exec true, .exec true, .exec false, .exec true]) = some s ∧
      s.left = some (.chown :: createRootfs.drop 16) ∧ s.proc = 1 := ⟨_, rfl, rfl, rfl⟩
  refine ⟨s, Reach.runFrom _ (.start rfl) hs, by rw [hl]; rfl, hp, fun h => ?_⟩
  have := h _ hl rfl .proc
  rw [State.depth, hp] at this
  omega

end Lightbox.Rootfs.Mounts
