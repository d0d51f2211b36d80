import Lightbox.Files.Directory

/-! # The tree that create-rootfs.sh leaves

`multistrap` and the package scripts fill the directory `rootfs`; nothing is assumed of what they
leave. The rest of `create-rootfs.sh` is modelled: `chown -R` to the invoking user, the link `init`,
and the lines appended to two configuration files. Where a path leads, through links, is a parameter
(`Machine`). In the end every entry belongs to the user (`owned_createRootfs`) and there is an entry
`init` (`init_mem_createRootfs`). -/

namespace Lightbox.Rootfs.Create

open Lightbox.Files.Directory

/-- File names, link targets and contents are strings of bytes. -/
abbrev Bytes := List UInt8

/-- The bytes of an ASCII text. -/
def ascii (s : String) : Bytes := s.toList.map fun c => c.toNat.toUInt8

structure Owner where
  uid : ℕ
  gid : ℕ
  deriving DecidableEq

def root : Owner := ⟨0, 0⟩

structure Attr where
  mode : ℕ
  owner : Owner
  deriving DecidableEq

inductive Content
  | file (bytes : Bytes)
  | link (target : Bytes)
  deriving DecidableEq

abbrev FileNode := Node Bytes Attr Content
abbrev Files := Forest Bytes Attr Content
abbrev FileTree := Tree Bytes Attr Content

/-- What the commands find out from the machine. -/
structure Machine where
  /-- Where a path leads that is opened to be written: `none` if that is outside of the tree, or if
  the file cannot be opened. -/
  resolve : Files → List Bytes → Option (List Bytes)
  /-- The mode of a new file. -/
  newMode : ℕ

/-! ### The commands -/

/-- A change of owner drops the set-user-id bit of a file, and the set-group-id bit if the group may
execute it. -/
def dropSetId (mode : ℕ) : ℕ :=
  if mode &&& 0o0010 ≠ 0 then mode &&& 0o1777 else mode &&& 0o3777

/-- `chown -R`, which changes links themselves and not what they point to. -/
def chown (user : Owner) (R : FileTree) : FileTree :=
  R.map
    (fun a c => match c with
      | .file _ => ⟨dropSetId a.mode, user⟩
      | .link _ => ⟨a.mode, user⟩)
    fun a => ⟨a.mode, user⟩

def init : Bytes := ascii "init"

def initLink (user : Owner) : FileNode := .leaf ⟨0o777, user⟩ (.link (ascii "sbin/init"))

/-- `ln -snf sbin/init rootfs/init`: what is there is replaced, unless it is a directory. Then the
link is made in it, unless there is a directory again. -/
def lnInit (user : Owner) : Option FileNode → FileNode
  | some (.dir a f) =>
    match f.find init with
    | some (.dir _ _) => .dir a f
    | _ => .dir a (f.insert init (initLink user))
  | _ => initLink user

/-- `echo line >> file` and `touch file` -/
inductive Write
  | append (line : String)
  | touch

def Write.apply (M : Machine) (user : Owner) : Write → Option FileNode → FileNode
  | .append line, some (.leaf a (.file b)) => .leaf a (.file (b ++ ascii line ++ [10]))
  | .append line, none => .leaf ⟨M.newMode, user⟩ (.file (ascii line ++ [10]))
  | .touch, none => .leaf ⟨M.newMode, user⟩ (.file [])
  | _, some n => n

def interfaces : List Bytes := [ascii "etc", ascii "network", ascii "interfaces"]

def resolvConf : List Bytes := [ascii "etc", ascii "resolv.conf"]

/-- The files that are written. -/
def writes : List (List Bytes × Write) :=
  [(interfaces, .append "auto eth0"),
    (interfaces, .append "iface eth0 inet dhcp"),
    (resolvConf, .touch),
    (resolvConf, .append "nameserver 223.5.5.5       # AliDNS"),
    (resolvConf, .append "nameserver 119.29.29.29    # DNSPod"),
    (resolvConf, .append "nameserver 114.114.114.114 # 114DNS")]

/-! ### The commands keep names distinct -/

theorem distinct_lnInit (user : Owner) : Careful (lnInit user) := by
  intro o ho
  unfold lnInit
  split
  · rename_i a f
    have hf : f.Distinct := ho (.dir a f) rfl
    split
    · exact hf
    · exact hf.insert (n := initLink user) trivial
  · trivial

theorem distinct_apply (M : Machine) (user : Owner) (w : Write) : Careful (w.apply M user) := by
  intro o ho
  unfold Write.apply
  split
  · trivial
  · trivial
  · trivial
  · exact ho _ rfl

/-- A file is written, where its path leads. -/
def write (M : Machine) (user : Owner) (R : FileTree) (w : List Bytes × Write) : FileTree :=
  match M.resolve R.entries w.1 with
  | some p => R.alter (w.2.apply M user) (distinct_apply M user w.2) p
  | none => R

/-- **`create-rootfs.sh`** after the clean-up of the chroot, on the tree of `multistrap`. -/
def createRootfs (M : Machine) (user : Owner) (R : FileTree) : FileTree :=
  writes.foldl (write M user) ((chown user R).alter (lnInit user) (distinct_lnInit user) [init])

/-! ### Owners -/

/-- Every entry belongs to the user. -/
def Owned (user : Owner) (R : FileTree) : Prop := R.entries.All fun a => a.owner = user

variable {M : Machine} {user : Owner}

theorem owned_chown (R : FileTree) : Owned user (chown user R) := by
  refine Forest.all_map (P := fun a => a.owner = user) (fun a c => ?_) (fun a => ?_) R.entries
  · cases c <;> rfl
  · rfl

theorem all_lnInit (o : Option FileNode) (h : ∀ n ∈ o, n.All fun a => a.owner = user) :
    (lnInit user o).All fun a => a.owner = user := by
  unfold lnInit
  split
  · rename_i a f
    have hf : (Node.dir a f).All fun a => a.owner = user := h _ rfl
    split
    · exact hf
    · have hl : (initLink user).All fun a => a.owner = user := rfl
      exact ⟨hf.1, hf.2.insert hl⟩
  · rfl

theorem all_apply (w : Write) (o : Option FileNode) (h : ∀ n ∈ o, n.All fun a => a.owner = user) :
    (w.apply M user o).All fun a => a.owner = user := by
  unfold Write.apply
  split
  · rename_i line a b
    have ha : (Node.leaf a (Content.file b) : FileNode).All fun a => a.owner = user := h _ rfl
    exact ha
  · rfl
  · rfl
  · exact h _ rfl

theorem owned_write {R : FileTree} (h : Owned user R) (w : List Bytes × Write) :
    Owned user (write M user R w) := by
  unfold write
  split
  · exact Forest.All.alter (all_apply w.2) _ h
  · exact h

theorem mem_names_write {R : FileTree} {x : Bytes} (h : x ∈ R.entries.names)
    (w : List Bytes × Write) : x ∈ (write M user R w).entries.names := by
  unfold write
  split
  · exact mem_names_alter h _
  · exact h

/-- What holds of a tree and is kept by every write holds of the tree that is left. -/
theorem createRootfs_induction {P : FileTree → Prop} {R : FileTree}
    (h0 : P ((chown user R).alter (lnInit user) (distinct_lnInit user) [init]))
    (hw : ∀ R w, P R → P (write M user R w)) : P (createRootfs M user R) := by
  have hfold : ∀ (ws : List (List Bytes × Write)) (R : FileTree), P R →
      P (ws.foldl (write M user) R) := by
    intro ws
    induction ws with
    | nil => exact fun R h => h
    | cons w ws ih => exact fun R h => ih _ (hw R w h)
  exact hfold writes _ h0

/-- **Every entry that is left belongs to the invoking user.** -/
theorem owned_createRootfs (M : Machine) (user : Owner) (R : FileTree) :
    Owned user (createRootfs M user R) :=
  createRootfs_induction (Forest.All.alter all_lnInit [init] (owned_chown R))
    fun _ w h => owned_write h w

/-- **There is an entry** `init`. -/
theorem init_mem_createRootfs (M : Machine) (user : Owner) (R : FileTree) :
    init ∈ (createRootfs M user R).entries.names :=
  createRootfs_induction (P := fun R => init ∈ R.entries.names)
    (mem_names_insert.mpr (Or.inl rfl)) fun _ w h => mem_names_write h w

end Lightbox.Rootfs.Create
