import Lightbox.Extension.Expand
import Mathlib.Data.List.Infix

/-! # Paths in a setting

The two paths are inserted as replacement strings, and the passes that follow look at them again. So
`expandVars` inserts them as they are only if they have no replacement pattern and nothing in them
begins a reference of a later pass, not even one that the text behind the path would complete.

`verbatim_iff` says that this is exactly the condition. The templates that show a path to be altered
have at most one reference, and literal text around it that makes the alteration visible. -/

namespace Lightbox.Extension.Paths

open Lightbox.Shell.Lex (Text)
open Lightbox.Js.Replace Lightbox.Extension.Config Lightbox.Extension.Expand

/-! ### The condition -/

/-- The directory that stands for `fileDirname` when the folder `F` is open. -/
def activeDir (F : Text) (a : Option Text) : Text := if truthy a then dirname (a.getD []) else F

/-- Some continuation of the text begins with a reference to the environment. -/
def OpensEnv (r : Text) : Prop :=
  r <+: envOpen ∨ envOpen <+: r ∧ (r.drop envOpen.length).head? ≠ some '}'

instance (r : Text) : Decidable (OpensEnv r) := by unfold OpensEnv; infer_instance

/-- No reference to the environment begins in the text, whatever follows it. -/
def EnvFree (P : Text) : Prop := ∀ r ∈ P.tails, r ≠ [] → ¬ OpensEnv r

instance (P : Text) : Decidable (EnvFree P) := by unfold EnvFree; infer_instance

/-- No reference to the directory of the file begins in the text, whatever follows it. -/
def DirFree (P : Text) : Prop := ∀ r ∈ P.tails, r ≠ [] → ¬ dirRef <+: r ∧ ¬ r <+: dirRef

instance (P : Text) : Decidable (DirFree P) := by unfold DirFree; infer_instance

/-- The paths `F` and `G` survive the passes. -/
structure Safe (F G : Text) : Prop where
  folder_pattern : hasPattern F = false
  dir_pattern : hasPattern G = false
  folder_dir : G = dirRef ∨ DirFree F
  folder_env : EnvFree F
  dir_env : EnvFree G

/-- The template refers to the two paths only. -/
def PathsOnly (segs : List Seg) : Prop := ∀ s ∈ segs, s.Valid ∧ ∀ k, s ≠ .env k

/-- **The paths are inserted as they are**, in every template and environment. -/
def Verbatim (W : Workspace) : Prop :=
  ∀ (e : Env) (segs : List Seg), PathsOnly segs →
    expandVars W e (segs.flatMap Seg.text) =
      segs.flatMap (Seg.value (folder W e) (fileDirname W e) e.get)

/-! ### The condition is enough -/

theorem not_matchEnv {r : Text} (h : ¬ OpensEnv r) (t : Text) : matchEnv (r ++ t) = none := by
  by_contra hn
  obtain ⟨n, hn⟩ := Option.ne_none_iff_exists'.mp hn
  obtain ⟨k, s, hk, hb, he, -⟩ := eq_of_matchEnv hn
  have hp : envOpen <+: r ++ t := by
    rw [he, envRef, List.append_assoc]
    exact List.prefix_append _ _
  refine h ?_
  rcases prefix_or_of_append hp with hp | hp
  · -- the name begins in `r`, or `r` ends before it
    obtain ⟨q, rfl⟩ := hp
    rw [envRef, List.append_assoc, List.append_assoc] at he
    have hq := List.append_cancel_left he
    cases q with
    | nil => exact Or.inl (by simp)
    | cons c q =>
      refine Or.inr ⟨List.prefix_append _ _, ?_⟩
      rw [List.drop_left, List.head?_cons]
      intro hc
      obtain ⟨c', k, rfl⟩ := List.exists_cons_of_ne_nil hk
      have hcc : c = c' := by simpa using congrArg List.head? hq
      refine hb ?_
      rw [← hcc, Option.some.inj hc]
      exact List.mem_cons_self
  · exact Or.inl hp

theorem rewrites_of_envFree {f : Text → Text → Text → Text} {P : Text} (h : EnvFree P) :
    Rewrites matchEnv f P P :=
  rewrites_copy fun r t hr hs => not_matchEnv (h r ((List.mem_tails r P).mpr hs) hr) t

theorem rewrites_of_dirFree {f : Text → Text → Text → Text} {P : Text} (h : DirFree P) :
    Rewrites (matchLit dirRef) f P P := by
  refine rewrites_copy fun r t hr hs => ?_
  rw [matchLit_eq_none]
  intro hp
  obtain ⟨h1, h2⟩ := h r ((List.mem_tails r P).mpr hs) hr
  rcases prefix_or_of_append hp with hp | hp
  · exact h1 hp
  · exact h2 hp

theorem proper_dirRef : Proper (matchLit dirRef) := proper_matchLit dirRef_ne

/-- If the directory is written like its reference, the second pass changes nothing. -/
theorem rewrites_dirRef_self (P : Text) :
    Rewrites (matchLit dirRef) (substitute dirRef) P P := by
  have hp : hasPattern dirRef = false := by decide
  have hs : ∀ b t, scan (matchLit dirRef) (substitute dirRef) 0 b t = t :=
    scan_eq_self proper_dirRef fun b u t h => by rw [substitute_eq hp, eq_of_matchLit h]
  intro b t
  rw [hs, hs]

theorem Safe.rewrites {F G : Text} (h : Safe F G) :
    Rewrites (matchLit dirRef) (substitute G) F F := by
  rcases h.folder_dir with rfl | hd
  · exact rewrites_dirRef_self F
  · exact rewrites_of_dirFree hd

section Open
variable {F : Text} {a : Option Text} {c : Text}

theorem folder_open (e : Env) : folder ⟨some F, a, c⟩ e = F := rfl

theorem fileDirname_open (e : Env) : fileDirname ⟨some F, a, c⟩ e = activeDir F a := by
  rw [fileDirname, folder_open, activeDir]

theorem Safe.verbatim (h : Safe F (activeDir F a)) : Verbatim ⟨some F, a, c⟩ := by
  intro e segs hs
  have hv : ∀ s ∈ segs, s.Valid := fun s hm => (hs s hm).1
  refine expandVars_flatMap hv ?_ ?_ ?_ ?_ ?_ <;>
    simp only [folder_open, fileDirname_open]
  · exact h.folder_pattern
  · exact h.dir_pattern
  · exact h.rewrites
  · exact rewrites_of_envFree h.folder_env
  · exact rewrites_of_envFree h.dir_env

end Open

/-! ### The condition is necessary -/

/-- The environment in which every variable is written like the reference to it. -/
def idEnv : Env := processEnv fun k => some (envRef k)

/-- The environment in which every variable is empty. -/
def blankEnv : Env := processEnv fun _ => some []

theorem scan_idEnv (t : Text) : replaceAll matchEnv (envValue idEnv) t = t := by
  refine scan_eq_self proper_matchEnv (fun b u t h => ?_) [] t
  obtain ⟨k, r, -, -, he, hl⟩ := eq_of_matchEnv h
  obtain ⟨rfl, -⟩ := List.append_inj he hl
  rw [envValue, envName_envRef]
  rfl

/-- With empty variables, the last pass shortens every text it finds a reference in. -/
theorem scan_blankEnv_ne {r t : Text} (hr : r <:+ t) (hm : matchEnv r ≠ none) :
    replaceAll matchEnv (envValue blankEnv) t ≠ t := by
  obtain ⟨v, u, w, rfl, hu, -, hs⟩ := scan_first (f := envValue blankEnv) proper_matchEnv hr hm []
  have hle := length_scan_le (f := envValue blankEnv) proper_matchEnv
    (fun b u t _ => Nat.zero_le _) ([] ++ v ++ u) w
  have hpos : 0 < u.length := List.length_pos_iff.mpr hu
  intro he
  rw [replaceAll, hs] at he
  have hl := congrArg List.length he
  have h0 : (envValue blankEnv ([] ++ v) u w).length = 0 := rfl
  simp only [List.length_append, h0] at hl hle
  omega

/-- A name and a closing brace behind `envOpen` make a match. -/
theorem matchEnv_ne_none {s : Text} (h : s.head? ≠ some '}') (hb : '}' ∈ s) :
    matchEnv (envOpen ++ s) ≠ none := by
  have hp : envOpen.isPrefixOf (envOpen ++ s) = true :=
    List.isPrefixOf_iff_prefix.mpr (List.prefix_append _ _)
  have hd : s.dropWhile (· ≠ '}') ≠ [] := by
    intro h0
    simpa using List.dropWhile_eq_nil_iff.mp h0 '}' hb
  have hk : s.takeWhile (· ≠ '}') ≠ [] := by
    obtain ⟨c, s, rfl⟩ := List.exists_cons_of_ne_nil (List.ne_nil_of_mem hb)
    have hc : c ≠ '}' := fun he => h (by rw [he]; rfl)
    simp [hc]
  rw [matchEnv, if_pos hp]
  dsimp only
  rw [List.drop_left, if_pos ⟨hk, hd⟩]
  simp

/-- A text that begins a reference is completed by some text without `$`. -/
theorem exists_matchEnv {r : Text} (hr : r ≠ []) (h : OpensEnv r) :
    ∃ y : Text, '$' ∉ y ∧ matchEnv (r ++ y) ≠ none := by
  rcases h with ⟨z, hz⟩ | ⟨⟨q, rfl⟩, hq⟩
  · -- the rest of the opening, a name and the brace
    refine ⟨z ++ ['x', '}'], ?_, ?_⟩
    · have hzt : z <:+ envOpen.tail := by
        obtain ⟨c, r, rfl⟩ := List.exists_cons_of_ne_nil hr
        rw [← hz]
        exact List.suffix_append r z
      have ht : '$' ∉ envOpen.tail := by decide
      intro hm
      rcases List.mem_append.mp hm with hm | hm
      · exact ht (hzt.subset hm)
      · simp at hm
    · rw [← List.append_assoc, hz]
      exact matchEnv_ne_none (by simp) (by simp)
  · rw [List.drop_left] at hq
    refine ⟨['x', '}'], by simp, ?_⟩
    rw [List.append_assoc]
    refine matchEnv_ne_none ?_ (by simp)
    match q with
    | [] => simp
    | c :: q => exact hq

/-- So a path in which a reference begins is altered in front of some text. -/
theorem exists_scan_ne {P : Text} (h : ¬ EnvFree P) :
    ∃ y : Text, '$' ∉ y ∧ replaceAll matchEnv (envValue blankEnv) (P ++ y) ≠ P ++ y := by
  unfold EnvFree at h
  push Not at h
  obtain ⟨r, hr, hne, ho⟩ := h
  obtain ⟨y, hy, hm⟩ := exists_matchEnv hne ho
  obtain ⟨v, rfl⟩ := (List.mem_tails r P).mp hr
  refine ⟨y, hy, scan_blankEnv_ne ?_ hm⟩
  rw [List.append_assoc]
  exact List.suffix_append v _

/-- A text that begins a reference to the directory is completed by some text without `$`. -/
theorem exists_matchDir {r : Text} (hr : r ≠ []) (h : ¬ dirRef <+: r → r <+: dirRef) :
    ∃ y : Text, '$' ∉ y ∧ matchLit dirRef (r ++ y) ≠ none := by
  by_cases hp : dirRef <+: r
  · refine ⟨[], by simp, ?_⟩
    rwa [Ne, matchLit_eq_none, not_not, List.append_nil]
  · obtain ⟨y, hy⟩ := h hp
    refine ⟨y, fun hm => ?_, ?_⟩
    · obtain ⟨c, r, rfl⟩ := List.exists_cons_of_ne_nil hr
      have ht : '$' ∉ dirRef.tail := by decide
      rw [← hy] at ht
      exact ht (List.mem_append_right r hm)
    · rw [hy]
      exact fun he => matchLit_eq_none.mp he (List.prefix_refl dirRef)

/-- The second pass alters a text with a reference, unless the directory is written like it. -/
theorem scan_dir_ne {G r t : Text} (hG : hasPattern G = false) (hne : G ≠ dirRef) (hr : r <:+ t)
    (hm : matchLit dirRef r ≠ none) : replaceAll (matchLit dirRef) (substitute G) t ≠ t := by
  obtain ⟨v, u, w, rfl, -, hu, hs⟩ := scan_first (f := substitute G) proper_dirRef hr hm []
  obtain rfl := eq_of_matchLit hu
  intro he
  rw [replaceAll, hs, substitute_eq hG] at he
  have hc := List.append_cancel_left he
  have hl := congrArg List.length hc
  rw [List.length_append, List.length_append] at hl
  -- all replacements change the length in the same direction
  have hlen : G.length = dirRef.length := by
    rcases Nat.le_total G.length dirRef.length with hle | hle
    · have := length_scan_le (f := substitute G) proper_dirRef
        (fun b u t hu => by rw [substitute_eq hG, eq_of_matchLit hu]; exact hle)
        ([] ++ v ++ dirRef) w
      omega
    · have := le_length_scan (f := substitute G) proper_dirRef
        (fun b u t hu => by rw [substitute_eq hG, eq_of_matchLit hu]; exact hle)
        ([] ++ v ++ dirRef) w
      omega
  exact hne (List.append_inj hc hlen).1

/-! ### The paths between two letters -/

/-- A pass over one reference between two letters. -/
theorem replaceAll_between {p : Text} {x : Char} (hp : p ≠ []) (hm : AtDollar (matchLit p))
    (hx : '$' ∉ [x]) (r : Text) :
    replaceAll (matchLit p) (substitute r) (x :: (p ++ [x])) =
      x :: (substitute r [x] p [x] ++ [x]) := by
  have hc : Rewrites (matchLit p) (substitute r) [x] [x] := rewrites_of_not_mem hm hx
  have h1 := hc [] (p ++ [x])
  have h2 := scan_match (f := substitute r) [x] hp (matchLit_append (p := p) [x])
  have h3 := hc ([x] ++ p) []
  rw [List.singleton_append] at h1
  rw [List.append_nil] at h3
  rw [replaceAll, h1, List.nil_append, h2, h3]
  simp [scan]

/-- The second pass makes no doubled dollar signs. -/
theorem pairs_second_le {G : Text} (hG : hasPattern G = false) (he : EnvFree G) :
    ∀ b t p, pairs p (scan (matchLit dirRef) (substitute G) 0 b t) ≤ pairs p t := by
  have hd : ¬ ['$'] <:+ G := fun hs =>
    he ['$'] ((List.mem_tails _ _).mpr hs) (by simp) (Or.inl (by rw [envOpen_eq]; simp))
  refine scan_induction proper_dirRef (fun b p => by simp [scan]) (fun b c t hc ih p => ?_)
    fun b u t hu hc ih p => ?_
  · rw [scan_none b hc, pairs, pairs]
    have := ih (c == '$')
    omega
  · have hu' := eq_of_matchLit hc
    rw [scan_match b hu hc, substitute_eq hG]
    have h1 := pairs_append_le (scan (matchLit dirRef) (substitute G) 0 (b ++ u) t) hG hd p
    have h2 := ih false
    have h3 : pairs p (u ++ t) = p.toNat + pairs false t := by
      rw [hu', dirRef_eq, List.cons_append, pairs_dollar]
      exact congrArg _ (pairs_append_of_not_mem (by simp) (by decide) true t)
    omega

section Open
variable {F : Text} {a : Option Text} {c : Text} (h : Verbatim ⟨some F, a, c⟩)
include h

/-- With `idEnv` only the first two passes matter. -/
theorem verbatim_passes (segs : List Seg) (hs : PathsOnly segs) :
    replaceAll (matchLit dirRef) (substitute (activeDir F a))
        (replaceAll (matchLit folderRef) (substitute F) (segs.flatMap Seg.text)) =
      segs.flatMap (Seg.value F (activeDir F a) idEnv.get) := by
  have := h idEnv segs hs
  rw [expandVars, scan_idEnv, folder_open, fileDirname_open] at this
  exact this

theorem dir_pattern_of_verbatim : hasPattern (activeDir F a) = false := by
  have hv := verbatim_passes h [.lit ['f'], .fileDirname, .lit ['f']]
    (by simp [PathsOnly, Seg.Valid])
  have h1 : Rewrites (matchLit folderRef) (substitute F) ('f' :: (dirRef ++ ['f']))
      ('f' :: (dirRef ++ ['f'])) :=
    (rewrites_of_not_mem (u := ['f']) atDollar_folderRef (by simp)).append
      (rewrites_dirRef_first.append (rewrites_of_not_mem atDollar_folderRef (by simp)))
  simp only [List.flatMap_cons, List.flatMap_nil, List.append_nil, Seg.text, Seg.value,
    List.singleton_append] at hv
  rw [h1.replaceAll_eq, replaceAll_between dirRef_ne atDollar_dirRef (by simp)] at hv
  have he : substitute (activeDir F a) ['f'] dirRef ['f'] = activeDir F a :=
    List.append_cancel_right (List.cons.inj hv).2
  obtain ⟨-, hp⟩ := count_substitute (a := 'f') (by simp [patternChars]) (List.mem_singleton_self _)
    (by decide : 'f' ∈ dirRef) (List.mem_singleton_self _) (activeDir F a)
  rw [he] at hp
  by_contra hn
  exact absurd ((hp rfl false).2 (by simpa using hn)) (Nat.lt_irrefl _)

theorem dir_env_of_verbatim : EnvFree (activeDir F a) := by
  by_contra hn
  obtain ⟨y, hy, hne⟩ := exists_scan_ne hn
  have hv := h blankEnv [.fileDirname, .lit y] (by simp [PathsOnly, Seg.Valid, hy])
  have h1 : Rewrites (matchLit folderRef) (substitute F) (dirRef ++ y) (dirRef ++ y) :=
    rewrites_dirRef_first.append (rewrites_of_not_mem atDollar_folderRef hy)
  have h2 : Rewrites (matchLit dirRef) (substitute (activeDir F a)) (dirRef ++ y)
      (activeDir F a ++ y) :=
    (rewrites_match dirRef_ne matchLit_append
      fun b t => substitute_eq (dir_pattern_of_verbatim h)).append
      (rewrites_of_not_mem atDollar_dirRef hy)
  simp only [List.flatMap_cons, List.flatMap_nil, List.append_nil, Seg.text, Seg.value] at hv
  rw [expandVars, folder_open, fileDirname_open, h1.replaceAll_eq, h2.replaceAll_eq] at hv
  exact hne hv

theorem folder_pattern_of_verbatim : hasPattern F = false := by
  have hv := verbatim_passes h [.lit ['w'], .folder, .lit ['w']] (by simp [PathsOnly, Seg.Valid])
  simp only [List.flatMap_cons, List.flatMap_nil, List.append_nil, Seg.text, Seg.value,
    List.singleton_append] at hv
  rw [replaceAll_between folderRef_ne atDollar_folderRef (by simp)] at hv
  set S := substitute F ['w'] folderRef ['w'] with hS
  obtain ⟨hle, hp⟩ := count_substitute (a := 'w') (by simp [patternChars]) (List.mem_singleton_self _)
    (by decide : 'w' ∈ folderRef) (List.mem_singleton_self _) F
  rw [← hS] at hle hp
  -- the second pass loses no `w`, so the first one has inserted none
  have hw : S.count 'w' ≤ F.count 'w' := by
    have := count_le_count_scan (a := 'w') (f := substitute (activeDir F a)) proper_dirRef
      (fun u t hu => by rw [eq_of_matchLit hu]; decide) [] ('w' :: (S ++ ['w']))
    rw [← replaceAll, hv] at this
    simpa using this
  -- and it makes no pair, so the first one has removed none
  have hpairs : pairs false F ≤ pairs false S := by
    have hd := dir_pattern_of_verbatim h
    have := pairs_second_le hd (dir_env_of_verbatim h) [] ('w' :: (S ++ ['w'])) false
    rw [← replaceAll, hv, pairs_cons (by decide), pairs_cons (by decide),
      pairs_concat (by decide), pairs_concat (by decide)] at this
    exact this
  by_contra hn
  have := (hp (by omega) false).2 (by simpa using hn)
  omega

theorem folder_dir_of_verbatim : activeDir F a = dirRef ∨ DirFree F := by
  by_contra hn
  unfold DirFree at hn
  push Not at hn
  obtain ⟨hG, r, hr, hne, ho⟩ := hn
  obtain ⟨y, hy, hp⟩ := exists_matchDir hne ho
  have hv := verbatim_passes h [.folder, .lit y] (by simp [PathsOnly, Seg.Valid, hy])
  have h1 : Rewrites (matchLit folderRef) (substitute F) (folderRef ++ y) (F ++ y) :=
    (rewrites_match folderRef_ne matchLit_append
      fun b t => substitute_eq (folder_pattern_of_verbatim h)).append
      (rewrites_of_not_mem atDollar_folderRef hy)
  simp only [List.flatMap_cons, List.flatMap_nil, List.append_nil, Seg.text, Seg.value] at hv
  rw [h1.replaceAll_eq] at hv
  refine scan_dir_ne (dir_pattern_of_verbatim h) hG ?_ hp hv
  obtain ⟨v, rfl⟩ := (List.mem_tails r F).mp hr
  rw [List.append_assoc]
  exact List.suffix_append v _

theorem folder_env_of_verbatim : EnvFree F := by
  by_contra hn
  obtain ⟨y, hy, hne⟩ := exists_scan_ne hn
  have hF₂ : Rewrites (matchLit dirRef) (substitute (activeDir F a)) F F := by
    rcases folder_dir_of_verbatim h with hd | hd
    · rw [hd]
      exact rewrites_dirRef_self F
    · exact rewrites_of_dirFree hd
  have hs : PathsOnly [.folder, .lit y] := by simp [PathsOnly, Seg.Valid, hy]
  have hv := h blankEnv _ hs
  rw [expandVars_eq (fun s hm => (hs s hm).1)
    (by rw [folder_open]; exact folder_pattern_of_verbatim h)
    (by rw [fileDirname_open]; exact dir_pattern_of_verbatim h)
    (by rw [folder_open, fileDirname_open]; exact hF₂)] at hv
  simp only [List.flatMap_cons, List.flatMap_nil, List.append_nil, Seg.text₂, Seg.text₁, Seg.text,
    Seg.value, folder_open] at hv
  exact hne hv

end Open

/-- **When paths are inserted as they are**: exactly if they have no replacement pattern and nothing
in them begins a reference that a later pass looks for. -/
theorem verbatim_iff (F : Text) (a : Option Text) (c : Text) :
    Verbatim ⟨some F, a, c⟩ ↔ Safe F (activeDir F a) :=
  ⟨fun h => ⟨folder_pattern_of_verbatim h, dir_pattern_of_verbatim h, folder_dir_of_verbatim h,
    folder_env_of_verbatim h, dir_env_of_verbatim h⟩, fun h => h.verbatim⟩

/-- A folder whose name has two dollar signs loses one of them. -/
theorem not_verbatim_dollars : ¬ Verbatim ⟨some "/home/a$$b".toList, none, ['/']⟩ := by
  intro h
  have hv := h blankEnv [.folder] (by simp [PathsOnly, Seg.Valid])
  revert hv
  decide

end Lightbox.Extension.Paths
