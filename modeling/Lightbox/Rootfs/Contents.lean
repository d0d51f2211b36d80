import Lightbox.Files.Change
import Lightbox.Rootfs.Initrd

/-! # What create-rootfs.sh makes of the entries

The tree is seen as a map from paths to what is there. Of the six writes to configuration files those
count that land at a path (`landed`): a path is resolved when the file is opened, and the directory must be
there. Then `create-rootfs.sh` changes every path for itself: the owner is changed, and the lines that
land at the path are appended (`written`); the rest is as `multistrap` left it, and `init` is a link
(`itemAt_createRootfs`). If the two paths lead somewhere for the whole time (`Leads`), this is what the
archive of `make-initrd.sh` unpacks to (`configured_of_runs`). -/

namespace Lightbox.Rootfs.Contents

open Lightbox.Shell.Errexit
open Lightbox.Files.Directory Lightbox.Files.Archive Lightbox.Files.Change
open Lightbox.Rootfs.Create Lightbox.Rootfs.Packers Lightbox.Rootfs.Initrd

variable {M : Machine} {user : Owner}

/-! ### One write -/

theorem flat_apply (w : Write) : Flat (w.apply M user) := by
  cases w with
  | append line =>
    refine ⟨fun a g => rfl, fun a c => ?_, ⟨_, _, rfl⟩⟩
    cases c with
    | file b => exact ⟨_, _, rfl⟩
    | link t => exact ⟨_, _, rfl⟩
  | touch => exact ⟨fun a g => rfl, fun a c => ⟨_, _, rfl⟩, ⟨_, _, rfl⟩⟩

/-- A write lands at the path. -/
def Lands (M : Machine) (R : FileTree) (w : List Bytes × Write) (q : List Bytes) : Prop :=
  M.resolve R.entries w.1 = some q ∧ hasDir q R.entries = true

instance (M : Machine) (R : FileTree) (w : List Bytes × Write) (q : List Bytes) :
    Decidable (Lands M R w q) := inferInstanceAs (Decidable (_ ∧ _))

theorem itemAt_write (M : Machine) (user : Owner) (R : FileTree) (w : List Bytes × Write) (q : List Bytes) :
    itemAt (write M user R w).entries q =
      if Lands M R w q then some (onItem (w.2.apply M user) q (itemAt R.entries q))
      else itemAt R.entries q := by
  unfold write
  split
  · next p hp =>
    show itemAt (R.entries.alter (w.2.apply M user) p) q = _
    rcases hd : hasDir p R.entries with _ | _
    · have hno : ¬ Lands M R w q := fun ⟨hq, hdir⟩ => by
        obtain rfl := Option.some.inj (hp.symm.trans hq)
        rw [hd] at hdir
        simp at hdir
      rw [alter_eq_self hd, if_neg hno]
    · rw [itemAt_alter (flat_apply w.2) hd]
      by_cases hq : q = p
      · rw [if_pos hq, hq, if_pos ⟨hp, hd⟩]
      · rw [if_neg hq, if_neg fun h => hq (Option.some.inj (h.1.symm.trans hp))]
  · next hp =>
    have hno : ¬ Lands M R w q := fun h => by simpa [hp] using h.1
    rw [if_neg hno]

theorem hasDir_write {R : FileTree} {q : List Bytes} (hq : hasDir q R.entries = true)
    (w : List Bytes × Write) : hasDir q (write M user R w).entries = true := by
  unfold write
  split
  · exact hasDir_alter (flat_apply w.2) hq
  · exact hq

/-! ### All writes -/

/-- The writes that land at a path, in their order. -/
def landed (M : Machine) (user : Owner) (q : List Bytes) :
    List (List Bytes × Write) → FileTree → List Write
  | [], _ => []
  | w :: ws, R =>
    if Lands M R w q then w.2 :: landed M user q ws (write M user R w)
    else landed M user q ws (write M user R w)

def bytes : Write → Bytes
  | .append line => ascii line ++ [10]
  | .touch => []

/-- What writes make of what is at a path. -/
def written (M : Machine) (user : Owner) (ws : List Write) : Option FileNode → Option FileNode
  | some (.leaf a (.file b)) => some (.leaf a (.file (b ++ ws.flatMap bytes)))
  | some n => some n
  | none => if ws = [] then none else some (.leaf ⟨M.newMode, user⟩ (.file (ws.flatMap bytes)))

theorem written_cons (w : Write) (ws : List Write) (o : Option FileNode) :
    written M user (w :: ws) o = written M user ws (some (w.apply M user o)) := by
  rcases o with _ | ⟨a, b | t⟩ | ⟨a, g⟩
  · cases w <;> simp [written, Write.apply, bytes]
  · cases w <;> simp [written, Write.apply, bytes]
  · cases w <;> rfl
  · cases w <;> rfl

/-- **The writes act on every path for itself.** -/
theorem itemAt_writes (q : List Bytes) : ∀ (ws : List (List Bytes × Write)) (R : FileTree)
    (o : Option FileNode), itemAt R.entries q = o.map (item q) →
      itemAt (ws.foldl (write M user) R).entries q = (written M user (landed M user q ws R) o).map (item q)
  | [], R, o, ho => by
    rw [List.foldl_nil, ho, landed]
    rcases o with _ | ⟨a, b | t⟩ | ⟨a, g⟩ <;> simp [written]
  | w :: ws, R, o, ho => by
    have hstep := itemAt_write M user R w q
    rw [List.foldl_cons, landed]
    by_cases hw : Lands M R w q
    · rw [if_pos hw, ho, ← (flat_apply w.2).item_eq] at hstep
      rw [if_pos hw, written_cons]
      exact itemAt_writes q ws _ (some (w.2.apply M user o)) hstep
    · rw [if_neg hw, ho] at hstep
      rw [if_neg hw]
      exact itemAt_writes q ws _ o hstep

/-! ### The whole script -/

/-- The tree before the writes. -/
def linked (user : Owner) (R : FileTree) : FileTree :=
  (chown user R).alter (lnInit user) (distinct_lnInit user) [init]

theorem get_linked {R : FileTree} (h : ∀ a g, R.entries.find init ≠ some (.dir a g)) :
    (linked user R).entries.get [init] = some (initLink user) := by
  have hget : (linked user R).entries.get [init] = some (lnInit user ((chown user R).entries.get [init])) :=
    get_alter rfl
  have hfind : (chown user R).entries.get [init] = (R.entries.get [init]).map (Node.map _ _) :=
    Forest.get_map _ _ _ _
  rw [hget, hfind, Forest.get]
  rcases ho : R.entries.find init with _ | ⟨a, c⟩ | ⟨a, g⟩
  · rfl
  · rfl
  · exact absurd ho (h a g)

theorem createRootfs_eq (R : FileTree) :
    createRootfs M user R = writes.foldl (write M user) (linked user R) := rfl

theorem itemAt_other (R : FileTree) {q : List Bytes} (hq : ¬ [init] <+: q) :
    itemAt (createRootfs M user R).entries q =
      (written M user (landed M user q writes (linked user R)) ((chown user R).entries.get q)).map (item q) := by
  rw [createRootfs_eq]
  exact itemAt_writes q writes _ _ (itemAt_alter_other hq)

/-- Nothing is appended to a link. -/
theorem itemAt_init {R : FileTree} (h : ∀ a g, R.entries.find init ≠ some (.dir a g)) :
    itemAt (createRootfs M user R).entries [init] = some (item [init] (initLink user)) := by
  have hlink : itemAt (linked user R).entries [init] = (some (initLink user)).map (item [init]) := by
    rw [itemAt, get_linked h]
  rw [createRootfs_eq, itemAt_writes [init] writes _ _ hlink]
  rfl

/-- **What `create-rootfs.sh` leaves.** At every path that is not in `init`, what `multistrap` left with
the user as its owner, and with the lines that land there. And `init` is the link, if it was no directory. -/
theorem itemAt_createRootfs (M : Machine) (user : Owner) (R : FileTree) :
    (∀ q, ¬ [init] <+: q → itemAt (createRootfs M user R).entries q =
      (written M user (landed M user q writes (linked user R)) ((chown user R).entries.get q)).map (item q)) ∧
    ((∀ a g, R.entries.find init ≠ some (.dir a g)) →
      itemAt (createRootfs M user R).entries [init] = some (item [init] (initLink user))) :=
  ⟨fun _ hq => itemAt_other R hq, itemAt_init⟩

/-- What `multistrap` may leave: no `interfaces` yet, and a `resolv.conf`. -/
def debianTree : FileTree where
  entries := .cons (ascii "etc") (.dir ⟨0o755, root⟩ <|
      .cons (ascii "network") (.dir ⟨0o755, root⟩ .nil) <|
      .cons (ascii "resolv.conf") (.leaf ⟨0o644, root⟩ (.file (ascii "search lan\n"))) .nil) <|
    .cons (ascii "vmlinuz") (.leaf ⟨0o644, root⟩ (.link (ascii "boot/vmlinuz"))) .nil
  distinct := ⟨by decide, ⟨by decide, trivial, by decide, trivial, trivial⟩, by decide, trivial, trivial⟩

theorem itemAt_createRootfs_debian :
    itemAt (createRootfs plainMachine ⟨1000, 1000⟩ debianTree).entries interfaces =
        some ⟨interfaces, ⟨0o644, ⟨1000, 1000⟩⟩,
          some (.file (ascii "auto eth0\niface eth0 inet dhcp\n"))⟩ ∧
      itemAt (createRootfs plainMachine ⟨1000, 1000⟩ debianTree).entries [ascii "vmlinuz"] =
        some ⟨[ascii "vmlinuz"], ⟨0o644, ⟨1000, 1000⟩⟩, some (.link (ascii "boot/vmlinuz"))⟩ ∧
      itemAt (createRootfs plainMachine ⟨1000, 1000⟩ debianTree).entries [init] =
        some (item [init] (initLink ⟨1000, 1000⟩)) := by
  obtain ⟨hother, hinit⟩ := itemAt_createRootfs plainMachine ⟨1000, 1000⟩ debianTree
  refine ⟨(hother interfaces (by decide)).trans rfl, (hother [ascii "vmlinuz"] (by decide)).trans rfl,
    hinit fun a g h => ?_⟩
  rw [show debianTree.entries.find init = none from rfl] at h
  simp at h

/-! ### Where the paths lead -/

/-- While the script writes, its two paths lead to files outside of `init`, which may still have to be
made. -/
structure Leads (M : Machine) (user : Owner) (T : FileTree) (dest : List Bytes → List Bytes) : Prop where
  resolved : ∀ ws w, ws ++ [w] <+: writes →
    M.resolve (ws.foldl (write M user) (linked user T)).entries w.1 = some (dest w.1)
  ne : dest interfaces ≠ dest resolvConf
  hasDir : ∀ w ∈ writes, hasDir (dest w.1) T.entries = true
  notInit : ∀ w ∈ writes, ¬ [init] <+: dest w.1
  file : ∀ w ∈ writes, ∀ n, T.entries.get (dest w.1) = some n → ∃ a b, n = .leaf a (.file b)

variable {T : FileTree} {dest : List Bytes → List Bytes}

theorem hasDir_linked {q : List Bytes} (hq : hasDir q T.entries = true) (hi : ¬ [init] <+: q) :
    hasDir q (linked user T).entries = true := by
  refine hasDir_congr (fun i h hdir => ?_) hq
  have hother : itemAt (linked user T).entries q.dropLast = itemAt (chown user T).entries q.dropLast :=
    itemAt_alter_other fun hp => hi (hp.trans (List.dropLast_prefix q))
  rw [hother]
  refine ⟨_, (itemAt_map _ _ _ _).trans (congrArg (Option.map _) h), hdir⟩

/-- **Every write lands where its path leads.** -/
theorem landed_of_leads (h : Leads M user T dest) (q : List Bytes) : ∀ (ws pre : List (List Bytes × Write)),
    pre ++ ws = writes → landed M user q ws (pre.foldl (write M user) (linked user T)) =
      (ws.filter fun w => dest w.1 = q).map (·.2)
  | [], _, _ => rfl
  | w :: ws, pre, hsplit => by
    have hmem : w ∈ writes := by
      rw [← hsplit]
      simp
    have hdir : hasDir (dest w.1) (pre.foldl (write M user) (linked user T)).entries = true :=
      List.foldlRecOn pre (write M user) (motive := fun R => hasDir (dest w.1) R.entries = true)
        (hasDir_linked (h.hasDir w hmem) (h.notInit w hmem)) fun R hR w _ => hasDir_write hR w
    have hres := h.resolved pre w ⟨ws, by rw [List.append_assoc]; exact hsplit⟩
    have hlands : Lands M (pre.foldl (write M user) (linked user T)) w q ↔ dest w.1 = q := by
      constructor
      · exact fun hl => Option.some.inj (hres.symm.trans hl.1)
      · rintro rfl
        exact ⟨hres, hdir⟩
    have ih := landed_of_leads h q ws (pre ++ [w]) (by rw [List.append_assoc]; exact hsplit)
    rw [List.foldl_concat] at ih
    rw [landed, ih]
    by_cases hq : dest w.1 = q
    · rw [if_pos (hlands.mpr hq), List.filter_cons_of_pos (by simpa using hq), List.map_cons]
    · rw [if_neg fun hl => hq (hlands.mp hl), List.filter_cons_of_neg (by simpa using hq)]

/-! ### The image -/

def lines (l : List String) : Bytes := l.flatMap fun s => ascii s ++ [10]

def interfacesText : Bytes := lines ["auto eth0", "iface eth0 inet dhcp"]

def resolvText : Bytes :=
  lines ["nameserver 223.5.5.5       # AliDNS", "nameserver 119.29.29.29    # DNSPod",
    "nameserver 114.114.114.114 # 114DNS"]

/-- An entry as the archive has it. -/
def packed (i : Item Bytes Attr Content) : Item Bytes Attr Content :=
  match i.content with
  | some (.file _) => { i with attr := ⟨dropSetId i.attr.mode, root⟩ }
  | _ => { i with attr := ⟨i.attr.mode, root⟩ }

/-- A file as the archive has it, with a text at its end. -/
def withText (M : Machine) (p : List Bytes) (text : Bytes) :
    Option (Item Bytes Attr Content) → Item Bytes Attr Content
  | some ⟨_, a, some (.file b)⟩ => ⟨p, ⟨dropSetId a.mode, root⟩, some (.file (b ++ text))⟩
  | _ => ⟨p, ⟨M.newMode, root⟩, some (.file text)⟩

/-- A tree that holds what `multistrap` left, with the configuration. -/
structure Configured (M : Machine) (T : FileTree) (dest : List Bytes → List Bytes) (F : Files) : Prop where
  interfaces : itemAt F (dest interfaces) =
    some (withText M (dest interfaces) interfacesText (itemAt T.entries (dest interfaces)))
  resolvConf : itemAt F (dest resolvConf) =
    some (withText M (dest resolvConf) resolvText (itemAt T.entries (dest resolvConf)))
  init : (∀ a g, T.entries.find init ≠ some (.dir a g)) →
    itemAt F [init] = some ⟨[init], ⟨0o777, root⟩, some (.link (ascii "sbin/init"))⟩
  other : ∀ q, ¬ [Create.init] <+: q → q ≠ dest Create.interfaces → q ≠ dest Create.resolvConf →
    itemAt F q = (itemAt T.entries q).map packed

theorem itemAt_asRoot (R : FileTree) (q : List Bytes) : itemAt (asRoot R).entries q =
    (itemAt R.entries q).map (mapItem (fun a _ => ⟨a.mode, root⟩) fun a => ⟨a.mode, root⟩) :=
  itemAt_map _ _ _ _

/-- The attributes of an entry, first changed by `chown`, then by the archive. -/
theorem packed_chown (user : Owner) (q : List Bytes) : itemAt (asRoot (chown user T)).entries q =
    (itemAt T.entries q).map packed := by
  rw [itemAt_asRoot]
  show (itemAt (T.entries.map _ _) q).map _ = _
  rw [itemAt_map, Option.map_map]
  refine congrArg (Option.map · _) (funext fun i => ?_)
  obtain ⟨p, a, c⟩ := i
  rcases c with _ | b | t <;> rfl

/-- A path where nothing lands. -/
theorem written_nil (o : Option FileNode) : written M user [] o = o := by
  rcases o with _ | ⟨a, b | t⟩ | ⟨a, g⟩ <;> simp [written]

/-- A path where lines land. -/
theorem packed_written {q : List Bytes} {w : Write} {ws : List Write}
    (hfile : ∀ n, T.entries.get q = some n → ∃ a b, n = .leaf a (.file b)) :
    ((written M user (w :: ws) ((chown user T).entries.get q)).map (item q)).map
        (mapItem (fun a _ => ⟨a.mode, root⟩) fun a => ⟨a.mode, root⟩) =
      some (withText M q ((w :: ws).flatMap bytes) (itemAt T.entries q)) := by
  have hget : (chown user T).entries.get q = (T.entries.get q).map (Node.map _ _) := Forest.get_map _ _ _ _
  rw [hget, itemAt]
  rcases ho : T.entries.get q with _ | n
  · rfl
  · obtain ⟨a, b, rfl⟩ := hfile n ho
    rfl

theorem configured_asRoot (h : Leads M user T dest) :
    Configured M T dest (asRoot (createRootfs M user T)).entries := by
  have hpath : ∀ p ∈ writes.map Prod.fst, ¬ [init] <+: dest p ∧
      ∀ n, T.entries.get (dest p) = some n → ∃ a b, n = .leaf a (.file b) := fun p hp => by
    obtain ⟨w, hw, rfl⟩ := List.mem_map.mp hp
    exact ⟨h.notInit w hw, h.file w hw⟩
  have hlanded := fun q => landed_of_leads h q writes [] rfl
  refine ⟨?_, ?_, fun hno => ?_, fun q hq h1 h2 => ?_⟩
  · obtain ⟨hi, hfile⟩ := hpath interfaces (by simp [writes])
    have hl : landed M user (dest interfaces) writes (linked user T) =
        [.append "auto eth0", .append "iface eth0 inet dhcp"] := by
      refine (hlanded _).trans ?_
      simp [writes, h.ne.symm]
    rw [itemAt_asRoot, itemAt_other T hi, hl, packed_written hfile]
    rfl
  · obtain ⟨hi, hfile⟩ := hpath resolvConf (by simp [writes])
    have hl : landed M user (dest resolvConf) writes (linked user T) =
        [.touch, .append "nameserver 223.5.5.5       # AliDNS",
          .append "nameserver 119.29.29.29    # DNSPod",
          .append "nameserver 114.114.114.114 # 114DNS"] := by
      refine (hlanded _).trans ?_
      simp [writes, h.ne]
    rw [itemAt_asRoot, itemAt_other T hi, hl, packed_written hfile]
    rfl
  · rw [itemAt_asRoot, itemAt_init hno]
    rfl
  · have hl : landed M user q writes (linked user T) = [] := by
      refine (hlanded q).trans ?_
      simp [writes, h1.symm, h2.symm]
    rw [itemAt_asRoot, itemAt_other T hq, hl, written_nil, ← packed_chown user, itemAt_asRoot]
    rfl

/-- **From `multistrap` to the initrd**: if `make-initrd.sh` reports success on the tree that
`create-rootfs.sh` left, and `find` and `cpio` have not failed, the archive unpacks to what `multistrap`
left, of root, with the network configuration and `init`. -/
theorem configured_of_runs (h : Leads M user T dest) (arg : Option Text) {w w' : World} {l : Log}
    (hr : Runs (logged (acts (some (createRootfs M user T)))) (script options (makeInitrdSh arg))
      (w, []) 0 (w', l))
    (hf : ∀ x ∈ l, x.1.noticed = false → x.2 = 0) :
    ∃ F, (w'.archive.bind fun es => unpack es .nil) = some F ∧ Configured M T dest F := by
  refine ⟨_, ?_, configured_asRoot h⟩
  rw [archive_eq ((triple_makeInitrdSh _ arg w).runs rfl hr) hf]
  exact unpack_makeInitrd _

theorem leads_debian : Leads plainMachine ⟨1000, 1000⟩ debianTree id where
  resolved _ _ _ := rfl
  ne := by decide
  hasDir := by decide
  notInit := by decide
  file w hw n hn := by
    have hpaths : ∀ w ∈ writes, w.1 = interfaces ∨ w.1 = resolvConf := by decide
    rcases hpaths w hw with h | h
    · rw [h] at hn
      exact absurd (show none = some n from hn) (by simp)
    · rw [h] at hn
      exact ⟨_, _, (Option.some.inj hn).symm⟩

/-- The two scripts, run by a user on this tree. -/
theorem configured_of_runs_debian : ∃ w l, Runs
    (logged (acts (some (createRootfs plainMachine ⟨1000, 1000⟩ debianTree))))
    (script options (makeInitrdSh none)) (⟨[], [], none⟩, []) 0 (w, l) ∧
      ∃ F, (w.archive.bind fun es => unpack es .nil) = some F ∧
        Configured plainMachine debianTree id F := by
  obtain ⟨l, hr, hl⟩ := runs_makeInitrdSh (createRootfs plainMachine ⟨1000, 1000⟩ debianTree) none
    ⟨[], [], none⟩
  exact ⟨_, l, hr, configured_of_runs leads_debian none hr fun x hx _ => hl x hx⟩

end Lightbox.Rootfs.Contents
