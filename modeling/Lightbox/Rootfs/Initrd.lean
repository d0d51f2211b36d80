import Lightbox.Files.Archive
import Lightbox.Rootfs.Packers
import Lightbox.Shell.Errexit

/-! # Making the initrd

`make-initrd.sh` under `set -e`, without `pipefail`: what `find` and `cpio` return is not looked at. The
script reports success exactly if nothing else fails, and then there is an archive, which is complete if
`find` and `cpio` did not fail (`reports_of_runs`). A complete archive unpacks to the tree, with the
owner root (`unpack_makeInitrd`). -/

namespace Lightbox.Rootfs.Initrd

open Lightbox.Files.Directory Lightbox.Files.Archive
open Lightbox.Rootfs.Create Lightbox.Rootfs.Packers
open Lightbox.Shell.Errexit

abbrev Text := List Char

/-- The calls of the script. -/
inductive Call
  | testDir (dir : Text)
  | echo (line : Text)
  | cd (dir : Text)
  | find | cpio
  | gzip (file : Text)
  | cdBack
  deriving DecidableEq

/-- `set -e` -/
def options : Options := ⟨true, false⟩

/-- `${1:-./rootfs}` -/
def rootfsDir : Option Text → Text
  | some (c :: t) => c :: t
  | _ => "./rootfs".toList

def outputFile : Text := "debian-arm64.cpio.gz".toList

def checkDir (dir : Text) : Cmd Call :=
  .ite (.not (.call (.testDir dir)))
    (.list [.call (.echo ("❌ Directory '".toList ++ dir ++ "' not found.".toList)), .exit 1])
    .skip

/-- `find … | cpio … | gzip … > …` -/
def pack : Cmd Call :=
  .pipe (.pipe (.call .find) (.call .cpio)) (.call (.gzip ("../".toList ++ outputFile)))

/-- **`make-initrd.sh`** -/
def makeInitrdSh (arg : Option Text) : Cmd Call := .list
  [checkDir (rootfsDir arg),
    .call (.echo ("📦 Packing directory: ".toList ++ rootfsDir arg)),
    .call (.echo ("🧵 Output file: ".toList ++ outputFile)),
    .call (.cd (rootfsDir arg)),
    pack,
    .call .cdBack,
    .call (.echo ("✅ Done: ".toList ++ outputFile ++ " created".toList))]

/-! ### What the calls do -/

/-- What is in the two pipes, and the archive; `none` if there is none that is whole. -/
structure World where
  paths : List (List Bytes)
  entries : List Entry
  archive : Option (List Entry)

/-- What `cpio` makes of a path. -/
def packed (R : FileTree) (p : List Bytes) : Option Entry :=
  (R.entries.get p).map fun n => (entry p n).chown root

/-- The directory is the tree `R`, if it is there. `find` and `cpio` leave something out if they fail.
The archive is spoilt if `gzip` fails, unless it could not be opened. -/
def acts (R : Option FileTree) : Call → World → ℕ → World → Prop
  | .testDir _, w, n, w' => (n = 0 ↔ R.isSome) ∧ w' = w
  | .find, w, n, w' => ∃ T ps, R = some T ∧ ps.Sublist T.entries.paths ∧
      (n = 0 → ps = T.entries.paths) ∧ w' = { w with paths := ps }
  | .cpio, w, n, w' => ∃ T es, R = some T ∧ es.Sublist (w.paths.filterMap (packed T)) ∧
      (n = 0 → es = w.paths.filterMap (packed T)) ∧ w' = { w with entries := es }
  | .gzip _, w, n, w' => (n = 0 ∧ w' = { w with archive := some w.entries }) ∨
      (n ≠ 0 ∧ (w' = w ∨ w' = { w with archive := none }))
  | _, w, _, w' => w' = w

abbrev Log := List (Call × ℕ)

/-- The script looks at the status of the call. -/
def Call.noticed : Call → Bool
  | .find | .cpio => false
  | _ => true

/-- No call has failed whose status is looked at. -/
def Good (l : Log) : Prop := ∀ x ∈ l, x.1.noticed = true → x.2 = 0

/-- The others. -/
def unnoticed (l : Log) : Log := l.filter (!·.1.noticed)

/-- There is an archive of entries of the tree, of all of them if neither `find` nor `cpio` failed. -/
def Packed (T : FileTree) (w : World) (l : Log) : Prop :=
  ∃ a b es, l = [(.find, a), (.cpio, b)] ∧ w.archive = some es ∧
    es.Sublist (makeInitrd T) ∧ (a = 0 → b = 0 → es = makeInitrd T)

/-- What is to be shown of a complete run, which ends with the status `n`. -/
def Reports (R : Option FileTree) (n : ℕ) (x : World × Log) : Prop :=
  (n = 0 ↔ R.isSome ∧ Good x.2) ∧ (n = 0 → ∃ T, R = some T ∧ Packed T x.1 (unnoticed x.2))

/-! ### The script, part by part -/

theorem good_append {l : Log} {a : Call} {n : ℕ} :
    Good (l ++ [(a, n)]) ↔ Good l ∧ (a.noticed = true → n = 0) := by
  unfold Good
  rw [List.forall_mem_append, List.forall_mem_singleton]

theorem unnoticed_append {l : Log} {a : Call} {n : ℕ} :
    unnoticed (l ++ [(a, n)]) = unnoticed l ++ if a.noticed then [] else [(a, n)] := by
  unfold unnoticed
  rw [List.filter_append, List.filter_singleton]
  cases a.noticed <;> rfl

theorem stops_options (n : ℕ) : options.stops false n = decide (n ≠ 0) := by
  by_cases hn : n = 0 <;> simp [Options.stops, options, hn]

/-- A failure that is noticed ends the script, which then reports it. -/
theorem reports_failed {R : Option FileTree} {w : World} {l : Log} {a : Call} {n m : ℕ}
    (ha : a.noticed = true) (hn : n ≠ 0) (hm : m ≠ 0) : Reports R m (w, l ++ [(a, n)]) := by
  refine ⟨iff_of_false hm fun h => hn ((good_append.mp h.2).2 ha), fun h => absurd h hm⟩

section Parts
variable {T : FileTree} {P : World → Log → Prop}

/-- The script has gone on so far, with `P`. -/
def At (P : World → Log → Prop) (x : World × Log) : Prop := Good x.2 ∧ P x.1 (unnoticed x.2)

/-- A call that does nothing to the archive. -/
theorem triple_noticed {a : Call} (ha : a.noticed = true)
    (hw : ∀ w n w', acts (some T) a w n w' → w' = w) :
    Triple options (logged (acts (some T))) (Reports (some T)) false (At P) (.call a)
      fun n x => n = 0 ∧ At P x := by
  refine Triple.call ?_
  rintro ⟨w, l⟩ n ⟨w', l'⟩ ⟨hg, hp⟩ ⟨he, hl⟩
  obtain rfl : w' = w := hw _ _ _ he
  obtain rfl : l' = l ++ [(a, n)] := hl
  rw [stops_options]
  by_cases hn : n = 0
  · rw [if_neg (by simpa using hn)]
    refine ⟨hn, good_append.mpr ⟨hg, fun _ => hn⟩, ?_⟩
    rwa [unnoticed_append, if_pos ha, List.append_nil]
  · rw [if_pos (by simpa using hn)]
    exact reports_failed ha hn hn

/-- Nothing has been packed yet. -/
def Empty (_ : World) (l : Log) : Prop := l = []

/-- The paths are in the first pipe. -/
def Listed (T : FileTree) (w : World) (l : Log) : Prop :=
  ∃ a, l = [(.find, a)] ∧ w.paths.Sublist T.entries.paths ∧ (a = 0 → w.paths = T.entries.paths)

/-- The entries are in the second pipe. -/
def Collected (T : FileTree) (w : World) (l : Log) : Prop :=
  ∃ a b, l = [(.find, a), (.cpio, b)] ∧ w.entries.Sublist (makeInitrd T) ∧
    (a = 0 → b = 0 → w.entries = makeInitrd T)

/-- A call whose status is not looked at. -/
theorem At.unnoticed {Q : World → Log → Prop} {w w' : World} {l : Log} {a : Call} {n : ℕ}
    (h : At P (w, l)) (ha : a.noticed = false) (hq : ∀ l, P w l → Q w' (l ++ [(a, n)])) :
    At Q (w', l ++ [(a, n)]) := by
  refine ⟨good_append.mpr ⟨h.1, by simp [ha]⟩, ?_⟩
  rw [unnoticed_append, if_neg (by simp [ha])]
  exact hq _ h.2

theorem triple_find : Triple options (logged (acts (some T))) (fun _ => At (Listed T)) false
    (At Empty) (.call .find) fun _ => At (Listed T) := by
  refine Triple.call_last ?_
  rintro ⟨w, l⟩ n ⟨w', l'⟩ h ⟨⟨T', ps, hT, hs, hall, rfl⟩, hl⟩
  obtain rfl := Option.some.inj hT
  obtain rfl : l' = l ++ [(.find, n)] := hl
  refine h.unnoticed rfl fun l' he => ?_
  rw [show l' = [] from he]
  exact ⟨n, rfl, hs, hall⟩

theorem triple_cpio : Triple options (logged (acts (some T))) (fun _ => At (Collected T)) false
    (At (Listed T)) (.call .cpio) fun _ => At (Collected T) := by
  refine Triple.call_last ?_
  rintro ⟨w, l⟩ n ⟨w', l'⟩ h ⟨⟨T', es, hT, hs, hall, rfl⟩, hl⟩
  obtain rfl := Option.some.inj hT
  obtain rfl : l' = l ++ [(.cpio, n)] := hl
  refine h.unnoticed rfl fun l' ⟨a, he, hps, hpaths⟩ => ?_
  refine ⟨a, n, by rw [he]; rfl, hs.trans (hps.filterMap _), fun ha hn => ?_⟩
  show es = _
  rw [hall hn, hpaths ha]
  rfl

/-- **The pipeline**: its status is that of `gzip`. -/
theorem triple_pack : Triple options (logged (acts (some T))) (Reports (some T)) false (At Empty)
    pack fun _ => At (Packed T) := by
  have hinner : Triple options (logged (acts (some T))) (fun _ => At (Collected T)) false (At Empty)
      (.pipe (.call .find) (.call .cpio)) fun _ => At (Collected T) := by
    refine Triple.pipe triple_find (fun _ => triple_cpio) fun m n x hx => ?_
    split_ifs <;> exact hx
  refine Triple.pipe (L := fun _ n x => if n = 0 then At (Packed T) x else Reports (some T) n x) hinner
    (fun _ => Triple.call_last ?_) fun m n x hx => ?_
  · rintro ⟨w, l⟩ n ⟨w', l'⟩ ⟨hg, a, b, hl0, hs, hall⟩ ⟨he, hl⟩
    obtain rfl : l' = l ++ [(.gzip _, n)] := hl
    rcases he with ⟨rfl, rfl⟩ | ⟨hn, -⟩
    · rw [if_pos rfl]
      refine ⟨good_append.mpr ⟨hg, fun _ => rfl⟩, ?_⟩
      rw [unnoticed_append, if_pos (by rfl), List.append_nil]
      exact ⟨a, b, w.entries, hl0, rfl, hs, hall⟩
    · rw [if_neg hn]
      exact reports_failed rfl hn hn
  · have hstatus : options.pipeStatus m n = n := rfl
    rw [hstatus, stops_options]
    by_cases hn : n = 0
    · rw [if_neg (by simpa using hn)]
      rwa [if_pos hn] at hx
    · rw [if_pos (by simpa using hn)]
      rwa [if_neg hn] at hx

end Parts

/-- The directory is there. -/
theorem triple_checkDir (dir : Text) {T : FileTree} : Triple options (logged (acts (some T)))
    (Reports (some T)) false (At Empty) (checkDir dir) fun _ => At Empty := by
  refine Triple.ite (N := fun n x => n ≠ 0 ∧ At Empty x)
    (Triple.not (N := fun n x => n = 0 ∧ At Empty x) (Triple.call_tested ?_) ?_) ?_ ?_
  · rintro ⟨w, l⟩ n ⟨w', l'⟩ ⟨hg, hl0⟩ ⟨⟨hn, rfl⟩, hl⟩
    obtain rfl : l' = l ++ [(.testDir dir, n)] := hl
    have hn0 : n = 0 := hn.mpr rfl
    refine ⟨hn0, good_append.mpr ⟨hg, fun _ => hn0⟩, ?_⟩
    rwa [unnoticed_append, if_pos (by rfl), List.append_nil]
  · rintro n x ⟨rfl, hx⟩
    exact ⟨by simp, hx⟩
  · exact fun _ _ h => absurd rfl h.1
  · exact Triple.skip fun x ⟨_, _, _, hx⟩ => hx

theorem reports_none {n : ℕ} (hn : n ≠ 0) (x : World × Log) : Reports none n x :=
  ⟨iff_of_false hn (by simp), fun h => absurd h hn⟩

/-- The directory is not there: a message, and status 1. -/
theorem triple_checkDir_none (dir : Text) {P : World × Log → Prop} : Triple options
    (logged (acts none)) (Reports none) false P (checkDir dir) fun _ _ => False := by
  have hmessage : ∀ line, Triple options (logged (acts none)) (Reports none) false (fun _ => True)
      (.call (.echo line)) fun _ _ => True := fun line => by
    refine Triple.call fun x n x' _ _ => ?_
    rw [stops_options]
    by_cases hn : n = 0
    · rw [if_neg (by simpa using hn)]
      trivial
    · rw [if_pos (by simpa using hn)]
      exact reports_none hn x'
  refine Triple.ite (N := fun n _ => n = 0)
    (Triple.not (N := fun n _ => n ≠ 0) (Triple.call_tested ?_) ?_) ?_ ?_
  · rintro x n x' - ⟨⟨hn, -⟩, -⟩ h0
    simpa using hn.mp h0
  · intro n x hn
    rw [if_neg hn]
  · refine Triple.cons (M := fun _ => True) ((hmessage _).conseq (fun _ _ => trivial) fun _ _ h => h)
      (fun _ _ h => h) (Triple.exit fun x _ => reports_none (by simp) x)
  · exact Triple.skip fun x ⟨n, hn, h0⟩ => hn h0

/-- **The whole script.** -/
theorem triple_makeInitrdSh (R : Option FileTree) (arg : Option Text) (w : World) :
    Triple options (logged (acts R)) (Reports R) false (· = (w, [])) (makeInitrdSh arg) (Reports R) := by
  cases R with
  | none =>
    exact Triple.cons (M := fun _ => False) (triple_checkDir_none _) (fun _ _ h => h)
      fun _ _ h => h.elim
  | some T =>
    have hstart : ∀ x, x = (w, ([] : Log)) → At Empty x := by
      rintro x rfl
      exact ⟨by simp [Good], rfl⟩
    have hend : ∀ n x, n = 0 ∧ At (Packed T) x → Reports (some T) n x := fun n x ⟨hn, hx⟩ =>
      ⟨iff_of_true hn ⟨rfl, hx.1⟩, fun _ => ⟨T, rfl, hx.2⟩⟩
    have hlast : ∀ line, Triple options (logged (acts (some T))) (Reports (some T)) false
        (At (Packed T)) (.call (.echo line)) (Reports (some T)) := fun line =>
      (triple_noticed (P := Packed T) (a := .echo line) rfl fun _ _ _ h => h).conseq
        (fun _ h => h) hend
    exact
      .cons ((triple_checkDir _).conseq hstart fun _ _ h => h) (fun _ _ h => h) <|
      .cons (triple_noticed rfl fun _ _ _ h => h) (fun _ _ h => h.2) <|
      .cons (triple_noticed rfl fun _ _ _ h => h) (fun _ _ h => h.2) <|
      .cons (triple_noticed rfl fun _ _ _ h => h) (fun _ _ h => h.2) <|
      .cons triple_pack (fun _ _ h => h) <|
      .cons (triple_noticed rfl fun _ _ _ h => h) (fun _ _ h => h.2) <|
      hlast _

/-- **When `make-initrd.sh` reports success**: exactly if the directory is there and nothing but `find`
and `cpio` fails; and what is in the archive then. -/
theorem reports_of_runs {R : Option FileTree} (arg : Option Text) {w w' : World} {l : Log} {n : ℕ}
    (h : Runs (logged (acts R)) (script options (makeInitrdSh arg)) (w, []) n (w', l)) :
    Reports R n (w', l) :=
  (triple_makeInitrdSh R arg w).runs rfl h

/-- A tree with one file. -/
def sampleTree : FileTree := oneFile (ascii "vmlinuz")

/-- `cpio` fails before it has read anything: the script reports success all the same. -/
theorem reports_of_runs_cpio : ∃ w l, Runs (logged (acts (some sampleTree)))
    (script options (makeInitrdSh none)) (⟨[], [], none⟩, []) 0 (w, l) ∧
      w.archive = some [] ∧ (.cpio, 2) ∈ l ∧ Reports (some sampleTree) 0 (w, l) := by
  have hr : Runs (logged (acts (some sampleTree))) (script options (makeInitrdSh none))
      (⟨[], [], none⟩, []) 0 (⟨[[ascii "vmlinuz"]], [], some []⟩, _) :=
    .logged (m := 0) ⟨iff_of_true rfl rfl, rfl⟩ <| .logged (m := 0) rfl <|
    .logged (m := 0) rfl <| .logged (m := 0) rfl <|
    .logged (m := 0) ⟨sampleTree, _, rfl, .refl _, fun _ => rfl, rfl⟩ <|
    .logged (m := 2) ⟨sampleTree, [], rfl, List.nil_sublist _, by simp, rfl⟩ <|
    .logged (m := 0) (Or.inl ⟨rfl, rfl⟩) <| .logged (m := 0) rfl <|
    .logged (m := 0) rfl <| .done 0 _
  exact ⟨_, _, hr, rfl, by simp, reports_of_runs none hr⟩

/-! ### Unpacking -/

/-- The tree with the owner root. -/
def asRoot (T : FileTree) : FileTree := T.map (fun a _ => ⟨a.mode, root⟩) fun a => ⟨a.mode, root⟩

theorem owned_asRoot (T : FileTree) : Owned root (asRoot T) :=
  Forest.all_map (P := fun a : Attr => a.owner = root) (fun _ _ => rfl) (fun _ => rfl) T.entries

theorem chown_entry (p : List Bytes) (n : FileNode) : (entry p n).chown root =
    item p (n.map (fun a _ => ⟨a.mode, root⟩) fun a => ⟨a.mode, root⟩) := by
  cases n <;> rfl

/-- **The archive unpacks to the tree**, with the owner root. -/
theorem unpack_makeInitrd (T : FileTree) :
    unpack (makeInitrd T) .nil = some (asRoot T).entries := by
  have hitems : makeInitrd T = Forest.items (asRoot T).entries := by
    rw [← Forest.items_eq (asRoot T).distinct, makeInitrd]
    show _ = (Forest.map _ _ T.entries).paths.filterMap _
    rw [Forest.paths_map]
    refine List.filterMap_congr fun p _ => ?_
    show _ = ((Forest.map _ _ T.entries).get p).map _
    rw [Forest.get_map, Option.map_map]
    congr 1
    funext n
    exact chown_entry p n
  rw [hitems]
  exact unpack_items (asRoot T)

/-- If `find` and `cpio` have not failed, the archive is complete. -/
theorem archive_eq {T : FileTree} {w : World} {l : Log} (h : Reports (some T) 0 (w, l))
    (hf : ∀ x ∈ l, x.1.noticed = false → x.2 = 0) : w.archive = some (makeInitrd T) := by
  obtain ⟨R, hR, a, b, es, hl, hw, -, hall⟩ := h.2 rfl
  obtain rfl := Option.some.inj hR
  have hzero : ∀ x ∈ unnoticed l, x.2 = 0 := fun x hx => by
    obtain ⟨hx, hn⟩ := List.mem_filter.mp hx
    exact hf x hx (by simpa using hn)
  rw [show unnoticed l = _ from hl] at hzero
  rw [show w.archive = _ from hw,
    hall (hzero _ List.mem_cons_self) (hzero _ (List.mem_cons_of_mem _ List.mem_cons_self))]

/-- **From the tree to the initrd**: if the script reports success on a tree that `create-rootfs.sh` left,
and `find` and `cpio` have not failed, the archive unpacks to that tree, which belongs to root and has an
entry `init`. -/
theorem unpack_of_runs (M : Machine) (user : Owner) (T : FileTree) (arg : Option Text)
    {w w' : World} {l : Log}
    (h : Runs (logged (acts (some (createRootfs M user T)))) (script options (makeInitrdSh arg))
      (w, []) 0 (w', l))
    (hf : ∀ x ∈ l, x.1.noticed = false → x.2 = 0) :
    (w'.archive.bind fun es => unpack es .nil) =
        some (asRoot (createRootfs M user T)).entries ∧
      Owned root (asRoot (createRootfs M user T)) ∧
      init ∈ (asRoot (createRootfs M user T)).entries.names := by
  refine ⟨?_, owned_asRoot _, ?_⟩
  · rw [archive_eq ((triple_makeInitrdSh _ arg w).runs rfl h) hf]
    exact unpack_makeInitrd _
  · show init ∈ (Forest.map _ _ _).names
    rw [names_map]
    exact init_mem_createRootfs M user T

/-- The script can succeed. -/
theorem runs_makeInitrdSh (T : FileTree) (arg : Option Text) (w : World) : ∃ l,
    Runs (logged (acts (some T))) (script options (makeInitrdSh arg)) (w, []) 0
      (⟨T.entries.paths, makeInitrd T, some (makeInitrd T)⟩, l) ∧ ∀ x ∈ l, x.2 = 0 := by
  refine ⟨_, .logged (m := 0) ⟨iff_of_true rfl rfl, rfl⟩ <| .logged (m := 0) rfl <|
    .logged (m := 0) rfl <| .logged (m := 0) rfl <|
    .logged (m := 0) ⟨T, _, rfl, .refl _, fun _ => rfl, rfl⟩ <|
    .logged (m := 0) ⟨T, _, rfl, .refl _, fun _ => rfl, rfl⟩ <|
    .logged (m := 0) (Or.inl ⟨rfl, rfl⟩) <| .logged (m := 0) rfl <|
    .logged (m := 0) rfl <| .done 0 _, ?_⟩
  simp

/-- The tree of one file, with what `create-rootfs.sh` adds to it. -/
theorem unpack_of_runs_sample : ∃ w l, Runs
    (logged (acts (some (createRootfs plainMachine root sampleTree))))
    (script options (makeInitrdSh none)) (⟨[], [], none⟩, []) 0 (w, l) ∧
      (w.archive.bind fun es => unpack es .nil) =
        some (asRoot (createRootfs plainMachine root sampleTree)).entries := by
  obtain ⟨l, hr, hl⟩ := runs_makeInitrdSh (createRootfs plainMachine root sampleTree) none ⟨[], [], none⟩
  exact ⟨_, l, hr, (unpack_of_runs plainMachine root sampleTree none hr fun x hx _ => hl x hx).1⟩

end Lightbox.Rootfs.Initrd
