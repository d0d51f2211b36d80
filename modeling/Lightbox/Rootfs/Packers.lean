import Lightbox.Files.Archive
import Lightbox.Rootfs.Create

/-! # The two packers of a root file system

`make-initrd.sh` archives every path that `find` lists and records the owner `root:root`.
`make-qcow2.sh` makes an ext4 partition, which has a `lost+found`, and copies what the shell expands
`rootfs/*` to, with the owners it has. The two agree on a tree that `create-rootfs.sh` leaves exactly
if the script was run by root, no name of the top directory begins with a dot, a `lost+found` there
is a directory, and the tree has room in the partition (`agree_iff`). -/

namespace Lightbox.Rootfs.Packers

open Lightbox.Files.Archive Lightbox.Files.Directory Lightbox.Rootfs.Create

/-! ### Entries -/

/-- What an image has at a path. -/
abbrev Entry := Item Bytes Attr Content

abbrev entry (path : List Bytes) (n : FileNode) : Entry := item path n

def Entry.chown (owner : Owner) (e : Entry) : Entry := { e with attr := ⟨e.attr.mode, owner⟩ }

/-- A tree has the entry. -/
def Has (R : Files) (e : Entry) : Prop := ∃ n, R.get e.path = some n ∧ entry e.path n = e

/-! ### The packers -/

/-- **`make-initrd.sh`**: `find . -print0 | cpio --create -R root:root`. -/
def makeInitrd (R : FileTree) : List Entry :=
  R.entries.paths.filterMap fun p => (R.entries.get p).map fun n => (entry p n).chown root

def lostFound : Bytes := ascii "lost+found"

/-- `mkfs.ext4` -/
def mkfs : Files := .cons lostFound (.dir ⟨0o700, root⟩ .nil) .nil

/-- The pattern `*` matches a name: it does not begin with a dot. -/
def visible (x : Bytes) : Bool := x.head? != some 46

/-- `cp -a rootfs/* …` into a file system. Without a match the pattern stands for itself, and there is
no such file; `room` says whether the copy has room in the file system. -/
def copyAll (room : Files → Bool) (R : FileTree) (fs : Files) : Option Files :=
  let sources := R.entries.filter visible
  if sources.names = [] then none
  else if room sources then sources.copyInto fs
  else none

/-- **`make-qcow2.sh`**: `cp -a rootfs/* /mnt/rootfs-temp/`. -/
def makeQcow2 (room : Files → Bool) (R : FileTree) : Option Files := copyAll room R mkfs

/-- The directory of `mkfs`. -/
def mkfsEntry : Entry := ⟨[lostFound], ⟨0o700, root⟩, none⟩

/-- **The packers agree**: both images have the same entries, apart from the directory of `mkfs`, and
both have every entry of the tree with the owner root. -/
def Agree (room : Files → Bool) (R : FileTree) : Prop :=
  ∃ image, makeQcow2 room R = some image ∧
    (∀ e, e ≠ mkfsEntry → (e ∈ makeInitrd R ↔ Has image e)) ∧
    ∀ e, Has R.entries e → e.chown root ∈ makeInitrd R ∧ Has image (e.chown root)

/-! ### The archive -/

theorem entry_path (p : List Bytes) (n : FileNode) : (entry p n).path = p := by
  cases n <;> rfl

theorem entry_attr (p : List Bytes) (n : FileNode) : (entry p n).attr = n.attr := by
  cases n <;> rfl

/-- **The archive has every entry of the tree**, with the owner root. -/
theorem mem_makeInitrd (R : FileTree) (e : Entry) :
    e ∈ makeInitrd R ↔ ∃ e₀, Has R.entries e₀ ∧ e₀.chown root = e := by
  rw [makeInitrd, List.mem_filterMap]
  constructor
  · rintro ⟨p, -, h⟩
    obtain ⟨n, hn, rfl⟩ := Option.map_eq_some_iff.mp h
    exact ⟨entry p n, ⟨n, by rw [entry_path]; exact hn, by rw [entry_path]⟩, rfl⟩
  · rintro ⟨e₀, ⟨n, hn, he⟩, rfl⟩
    refine ⟨e₀.path, (Forest.mem_paths R.distinct _).mpr ⟨n, hn⟩, ?_⟩
    rw [hn, Option.map_some, he]

theorem Has.owner {R : FileTree} {user : Owner} {e : Entry} (h : Owned user R)
    (he : Has R.entries e) : e.attr.owner = user := by
  obtain ⟨n, hn, he⟩ := he
  rw [← he, entry_attr]
  exact (h.get hn).attr

theorem Entry.chown_owner (e : Entry) : e.chown e.attr.owner = e := rfl

/-- If everything belongs to root, the archive has the entries of the tree. -/
theorem mem_makeInitrd_of_owned {R : FileTree} (h : Owned root R) (e : Entry) :
    e ∈ makeInitrd R ↔ Has R.entries e := by
  have hself : ∀ e₀, Has R.entries e₀ → e₀.chown root = e₀ := by
    intro e₀ h₀
    rw [← h₀.owner h, Entry.chown_owner]
  rw [mem_makeInitrd]
  constructor
  · rintro ⟨e₀, h₀, rfl⟩
    rw [hself e₀ h₀]
    exact h₀
  · exact fun he => ⟨e, he, hself e he⟩

/-! ### The partition -/

theorem find_mkfs (x : Bytes) :
    mkfs.find x = if x = lostFound then some (.dir ⟨0o700, root⟩ .nil) else none := rfl

/-- Over the directory of `mkfs` a directory is copied as it is, and nothing else can be. -/
theorem copyOnto_mkfs {n : FileNode} (hn : n.Distinct) (x : Bytes) :
    n.copyOnto (mkfs.find x) = if x = lostFound ∧ n.isDir = false then none else some n := by
  rw [find_mkfs]
  by_cases hx : x = lostFound
  · rw [if_pos hx]
    cases n with
    | leaf a c => simp [hx, Node.isDir, Node.copyOnto]
    | dir a f =>
      have hf := Forest.copyInto_fresh (g := .nil) hn (by simp [Forest.names])
      rw [Node.copyOnto, hf, if_neg (by simp [Node.isDir])]
      rfl
  · rw [if_neg hx, if_neg (fun h => hx h.1), Node.copyOnto_none hn]

variable {room : Files → Bool} {R : FileTree} {image : Files}

/-- The copy fails only if a `lost+found` that is no directory meets the directory of `mkfs`. -/
theorem copyInto_mkfs : (∃ image, (R.entries.filter visible).copyInto mkfs = some image) ↔
    ∀ n, R.entries.find lostFound = some n → n.isDir = true := by
  have hd : (R.entries.filter visible).Distinct := R.distinct.filter visible
  rw [copyInto_eq_some hd]
  constructor
  · intro h n hn
    have hf : (R.entries.filter visible).find lostFound = some n := by
      rw [find_filter, if_pos (by decide), hn]
    obtain ⟨m, hm⟩ := h lostFound n hf
    rw [copyOnto_mkfs (hd.find hf)] at hm
    by_contra hdir
    rw [if_pos ⟨rfl, by simpa using hdir⟩] at hm
    simp at hm
  · intro h x n hn
    refine ⟨n, ?_⟩
    rw [copyOnto_mkfs (hd.find hn), if_neg]
    rintro ⟨rfl, hdir⟩
    rw [find_filter, if_pos (by decide)] at hn
    rw [h n hn] at hdir
    simp at hdir

/-- **When the partition is filled.** -/
theorem makeQcow2_eq_some : (∃ image, makeQcow2 room R = some image) ↔
    (∃ x ∈ R.entries.names, visible x = true) ∧ room (R.entries.filter visible) = true ∧
      ∀ n, R.entries.find lostFound = some n → n.isDir = true := by
  have hnil : (R.entries.filter visible).names = [] ↔ ¬ ∃ x ∈ R.entries.names, visible x = true := by
    rw [List.eq_nil_iff_forall_not_mem]
    simp only [mem_names_filter, not_and, not_exists]
    exact ⟨fun h x hx hv => h x hv hx, fun h x hv hx => h x hx hv⟩
  unfold makeQcow2 copyAll
  dsimp only
  split_ifs with h1 h2
  · simp [hnil.mp h1]
  · rw [copyInto_mkfs]
    simp [h2, not_not.mp (fun h => h1 (hnil.mpr h))]
  · simp [h2]

/-- **What is in the partition**: the visible entries of the tree, and the directory of `mkfs` unless
the tree has one. -/
theorem find_makeQcow2 (h : makeQcow2 room R = some image) (x : Bytes) :
    image.find x = if visible x then (R.entries.find x).or (mkfs.find x) else none := by
  have hd : (R.entries.filter visible).Distinct := R.distinct.filter visible
  have hc : (R.entries.filter visible).copyInto mkfs = some image := by
    unfold makeQcow2 copyAll at h
    dsimp only at h
    split_ifs at h
    exact h
  have hx := find_copyInto hd hc x
  rw [find_filter] at hx
  by_cases hv : visible x = true
  · rw [if_pos hv] at hx
    rw [if_pos hv, hx]
    cases hf : R.entries.find x with
    | none => rfl
    | some n =>
      have hsrc : (R.entries.filter visible).find x = some n := by rw [find_filter, if_pos hv, hf]
      obtain ⟨m, hm⟩ := (copyInto_eq_some hd).mp ⟨image, hc⟩ x n hsrc
      dsimp only
      rw [copyOnto_mkfs (R.distinct.find hf)] at hm ⊢
      split_ifs at hm ⊢
      rfl
  · rw [if_neg hv] at hx
    rw [if_neg hv, hx]
    have hne : x ≠ lostFound := fun e => hv (by rw [e]; decide)
    show mkfs.find x = none
    rw [find_mkfs, if_neg hne]

theorem has_mkfs (e : Entry) : Has mkfs e ↔ e = mkfsEntry := by
  constructor
  · rintro ⟨n, hn, he⟩
    obtain ⟨path, attr, content⟩ := e
    rcases path with _ | ⟨x, _ | ⟨y, p⟩⟩
    · simp [Forest.get] at hn
    · rw [Forest.get, find_mkfs] at hn
      split_ifs at hn with hx
      · obtain rfl : Node.dir ⟨0o700, root⟩ .nil = n := by simpa [Node.get] using hn
        rw [← he, hx]
        rfl
      · simp at hn
    · rw [Forest.get, find_mkfs] at hn
      split_ifs at hn
      · simp [Node.get, Forest.find] at hn
      · simp at hn
  · rintro rfl
    exact ⟨.dir ⟨0o700, root⟩ .nil, rfl, rfl⟩

/-- **The entries of the partition** at and below a name of the top directory. -/
theorem has_makeQcow2 (h : makeQcow2 room R = some image) {x : Bytes} (hv : visible x = true)
    {e : Entry} (hx : e.path.head? = some x) :
    Has image e ↔ Has R.entries e ∨ (e = mkfsEntry ∧ R.entries.find x = none) := by
  obtain ⟨p, hp⟩ : ∃ p, e.path = x :: p := List.head?_eq_some_iff.mp hx
  have hi : image.get e.path = ((R.entries.find x).or (mkfs.find x)).bind (Node.get p) := by
    rw [hp, Forest.get, find_makeQcow2 h, if_pos hv]
  have hr : R.entries.get e.path = (R.entries.find x).bind (Node.get p) := by
    rw [hp, Forest.get]
  rw [← has_mkfs]
  unfold Has
  rw [hi, hr, hp, Forest.get]
  cases R.entries.find x with
  | none => simp
  | some n => simp

/-- Only visible names of the top directory are in the partition. -/
theorem visible_of_has (h : makeQcow2 room R = some image) {e : Entry} (he : Has image e) :
    ∃ x, e.path.head? = some x ∧ visible x = true := by
  obtain ⟨n, hn, -⟩ := he
  cases hp : e.path with
  | nil => simp [hp, Forest.get] at hn
  | cons x p =>
    refine ⟨x, rfl, ?_⟩
    by_contra hv
    rw [hp, Forest.get, find_makeQcow2 h, if_neg hv] at hn
    simp at hn

/-! ### Agreement -/

/-- An entry of the top directory. -/
theorem has_top {x : Bytes} {n : FileNode} (h : R.entries.find x = some n) :
    Has R.entries (entry [x] n) := by
  refine ⟨n, ?_, by rw [entry_path]⟩
  rw [entry_path, Forest.get, h]
  rfl

/-- **The packers agree** on a tree of root without hidden names at the top. -/
theorem agree_of_root (ho : Owned root R) (hv : ∀ x ∈ R.entries.names, visible x = true)
    (h : makeQcow2 room R = some image) : Agree room R := by
  -- the partition has the entries of the tree and the directory of `mkfs`
  have hboth : ∀ e, Has image e ↔ Has R.entries e ∨
      (e = mkfsEntry ∧ R.entries.find lostFound = none) := by
    intro e
    constructor
    · intro he
      obtain ⟨x, hx, hvx⟩ := visible_of_has h he
      rcases (has_makeQcow2 h hvx hx).mp he with he | ⟨rfl, hn⟩
      · exact Or.inl he
      · obtain rfl : lostFound = x := by simpa [mkfsEntry] using hx
        exact Or.inr ⟨rfl, hn⟩
    · rintro (he | ⟨rfl, hn⟩)
      · obtain ⟨n, hn, -⟩ := id he
        cases hp : e.path with
        | nil => simp [hp, Forest.get] at hn
        | cons x p =>
          rw [hp, Forest.get] at hn
          obtain ⟨m, hm, -⟩ := Option.bind_eq_some_iff.mp hn
          have hvx := hv x (mem_names.mpr ⟨m, hm⟩)
          exact (has_makeQcow2 h hvx (by rw [hp]; rfl)).mpr (Or.inl he)
      · exact (has_makeQcow2 h (x := lostFound) (by decide) rfl).mpr (Or.inr ⟨rfl, hn⟩)
  refine ⟨image, h, fun e hne => ?_, fun e he => ?_⟩
  · rw [mem_makeInitrd_of_owned ho, hboth]
    simp [hne]
  · rw [← he.owner ho, Entry.chown_owner, mem_makeInitrd_of_owned ho, hboth]
    exact ⟨he, Or.inl he⟩

/-- A hidden name at the top is not in the partition. -/
theorem visible_of_agree (h : Agree room R) : ∀ x ∈ R.entries.names, visible x = true := by
  obtain ⟨image, h, -, hall⟩ := h
  intro x hx
  obtain ⟨n, hn⟩ := mem_names.mp hx
  obtain ⟨y, hy, hvy⟩ := visible_of_has h (hall _ (has_top hn)).2
  have hp : (entry [x] n).path.head? = some y := hy
  rw [entry_path] at hp
  obtain rfl : x = y := by simpa using hp
  exact hvy

/-- The partition has the entry `init` of the tree, which belongs to the user. -/
theorem root_of_agree {user : Owner} (ho : Owned user R) (hi : init ∈ R.entries.names)
    (h : Agree room R) : user = root := by
  have hv := visible_of_agree h init hi
  obtain ⟨image, h, -, hall⟩ := h
  obtain ⟨n, hn⟩ := mem_names.mp hi
  have he := (hall _ (has_top hn)).2
  have hp : ((entry [init] n).chown root).path.head? = some init := by
    show (entry [init] n).path.head? = some init
    rw [entry_path]
    rfl
  rcases (has_makeQcow2 h hv hp).mp he with he | ⟨he, -⟩
  · exact (he.owner ho).symm
  · have hlf : some lostFound = some init := by rw [← hp, he]; rfl
    exact absurd hlf (by decide)

/-- **When the packers agree** on what `create-rootfs.sh` leaves. -/
theorem agree_iff (M : Machine) (user : Owner) (T : FileTree) (room : Files → Bool) :
    Agree room (createRootfs M user T) ↔
      user = root ∧
      (∀ x ∈ (createRootfs M user T).entries.names, visible x = true) ∧
      (∀ n, (createRootfs M user T).entries.find lostFound = some n → n.isDir = true) ∧
      room (createRootfs M user T).entries = true := by
  have ho := owned_createRootfs M user T
  have hi := init_mem_createRootfs M user T
  generalize createRootfs M user T = R at ho hi ⊢
  constructor
  · intro h
    have hvis := visible_of_agree h
    have huser := root_of_agree ho hi h
    obtain ⟨image, h, -, -⟩ := h
    obtain ⟨-, hroom, hdir⟩ := makeQcow2_eq_some.mp ⟨image, h⟩
    rw [filter_eq_self hvis] at hroom
    exact ⟨huser, hvis, hdir, hroom⟩
  · rintro ⟨rfl, hvis, hdir, hroom⟩
    have hfill : ∃ image, makeQcow2 room R = some image := by
      refine makeQcow2_eq_some.mpr ⟨⟨init, hi, hvis init hi⟩, ?_, hdir⟩
      rw [filter_eq_self hvis]
      exact hroom
    obtain ⟨image, h⟩ := hfill
    exact agree_of_root ho hvis h

/-- A machine whose paths lead where they say. -/
def plainMachine : Machine := ⟨fun _ p => some p, 0o644⟩

/-- A tree with one file. -/
def oneFile (name : Bytes) : FileTree :=
  ⟨.cons name (.leaf ⟨0o644, root⟩ (.file [])) .nil, by simp [Forest.names], trivial, trivial⟩

/-- In a tree of user 1000 the entry `init` has two owners, and a hidden file is in the archive
only. -/
theorem not_agree_owner_hidden :
    ¬ Agree (fun _ => true) (createRootfs plainMachine ⟨1000, 1000⟩ (oneFile (ascii "vmlinuz"))) ∧
      ¬ Agree (fun _ => true) (createRootfs plainMachine root (oneFile (ascii ".profile"))) := by
  constructor
  · rintro ⟨image, h, -, hall⟩
    have hi : Has (createRootfs plainMachine ⟨1000, 1000⟩ (oneFile (ascii "vmlinuz"))).entries
        (entry [init] (initLink ⟨1000, 1000⟩)) := ⟨_, rfl, rfl⟩
    have he := (has_makeQcow2 h (x := init) (by decide) rfl).mp (hall _ hi).2
    rcases he with he | ⟨he, -⟩
    · exact absurd (he.owner (owned_createRootfs _ _ _)) (by decide)
    · exact absurd he (by decide)
  · rintro ⟨image, h, -, hall⟩
    have hi : Has (createRootfs plainMachine root (oneFile (ascii ".profile"))).entries
        (entry [ascii ".profile"] (.leaf ⟨0o644, root⟩ (.file []))) := ⟨_, rfl, rfl⟩
    obtain ⟨x, hx, hv⟩ := visible_of_has h (hall _ hi).2
    obtain rfl : ascii ".profile" = x := Option.some.inj hx
    exact absurd hv (by decide)

end Lightbox.Rootfs.Packers
