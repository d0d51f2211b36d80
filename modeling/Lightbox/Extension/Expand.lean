import Lightbox.Js.Replace
import Lightbox.Extension.Config
import Mathlib.Algebra.Order.BigOperators.Group.List
import Mathlib.Algebra.Order.Group.Nat
import Mathlib.Data.List.TakeWhile
import Mathlib.Logic.Function.Basic

/-! # Expanding the variables of a setting

`expandVars` replaces the references to the workspace folder, to the directory of the active file
and to the environment, in three passes over the text. A *template* is a list of segments (`Seg`):
literal text and references. Its value puts every reference's value in its place.

* `expandVars_flatMap`: the passes give the value of a template if the two paths have no replacement
  pattern and are copied by the passes that come after them. The environment is inserted by the last
  pass, by a function, so its values are never looked at again.
* `inserted_iff`: paths without `$` are of this kind, whatever the environment holds. But a name that is
  not set is looked up in what every object inherits, and if it is found there, that is inserted. -/

namespace Lightbox.Extension.Expand

open Lightbox.Shell.Lex (Text)
open Lightbox.Js.Replace Lightbox.Extension.Config

/-! ### The function -/

/-- What VS Code and the process tell: the first workspace folder, the file of the active editor and
the directory of the process. -/
structure Workspace where
  folders : Option Text
  activeFile : Option Text
  cwd : Text

/-- The members that `process.env` inherits, as every object does. -/
def protoMembers : List Text :=
  ["constructor", "toString", "toLocaleString", "valueOf", "hasOwnProperty", "isPrototypeOf",
    "propertyIsEnumerable", "__proto__", "__defineGetter__", "__defineSetter__", "__lookupGetter__",
    "__lookupSetter__"].map String.toList

/-- `process.env`: the variables that are set, and the text each inherited member is turned into, which
is that of a function or of an object. -/
structure Env where
  vars : Text → Option Text
  inherited : Text → Text
  inherited_ne : ∀ k ∈ protoMembers, inherited k ≠ []

/-- `process.env[k]` as a text; `none` if it is `undefined`. -/
def Env.get (e : Env) (k : Text) : Option Text :=
  (e.vars k).or (if protoMembers.contains k then some (e.inherited k) else none)

/-- The environment with another value of a variable. -/
def Env.set (e : Env) (k : Text) (v : Option Text) : Env :=
  { e with vars := Function.update e.vars k v }

/-- `path.dirname`. Trailing slashes and the last component are dropped, the first character never. -/
def dirname : Text → Text
  | [] => ['.']
  | c :: t =>
    match (t.reverse.dropWhile (· = '/')).dropWhile (· ≠ '/') with
    | [] => if c = '/' then ['/'] else ['.']
    | _ :: r => if c = '/' ∧ r = [] then ['/', '/'] else c :: r.reverse

def folder (W : Workspace) (env : Env) : Text := (W.folders.or (env.get "HOME".toList)).getD W.cwd

def fileDirname (W : Workspace) (env : Env) : Text :=
  if truthy W.activeFile then dirname (W.activeFile.getD []) else folder W env

def folderRef : Text := "$\x7bworkspaceFolder\x7d".toList

def dirRef : Text := "$\x7bfileDirname\x7d".toList

/-- How a reference to the environment begins. -/
def envOpen : Text := "$\x7benv:".toList

def envRef (k : Text) : Text := envOpen ++ (k ++ ['}'])

/-- The expression of the last pass: the name runs up to the next closing brace and is not empty. -/
def matchEnv (t : Text) : Option ℕ :=
  if envOpen.isPrefixOf t then
    let k := (t.drop envOpen.length).takeWhile (· ≠ '}')
    if k ≠ [] ∧ (t.drop envOpen.length).dropWhile (· ≠ '}') ≠ [] then
      some (envOpen.length + (k.length + 1))
    else none
  else none

/-- The group of a match of the last pass. -/
def envName (u : Text) : Text := (u.drop envOpen.length).dropLast

/-- What the last pass puts for a match. -/
def envValue (env : Env) (_ u _ : Text) : Text := (env.get (envName u)).getD []

def expandVars (W : Workspace) (env : Env) (input : Text) : Text :=
  replaceAll matchEnv (envValue env)
    (replaceAll (matchLit dirRef) (substitute (fileDirname W env))
      (replaceAll (matchLit folderRef) (substitute (folder W env)) input))

/-! ### Templates -/

/-- A piece of a template. -/
inductive Seg
  | lit (s : Text)
  | folder
  | fileDirname
  | env (k : Text)
  deriving DecidableEq

def Seg.text : Seg → Text
  | lit s => s
  | folder => folderRef
  | fileDirname => dirRef
  | env k => envRef k

/-- Literal text has no `$`; a name is not empty and has neither `}` nor `$`. -/
def Seg.Valid : Seg → Prop
  | lit s => '$' ∉ s
  | folder => True
  | fileDirname => True
  | env k => k ≠ [] ∧ '}' ∉ k ∧ '$' ∉ k

/-- What a piece stands for, given the two paths and the values of names. -/
def Seg.value (F G : Text) (e : Text → Option Text) : Seg → Text
  | lit s => s
  | folder => F
  | fileDirname => G
  | env k => (e k).getD []

/-! ### The three expressions -/

theorem folderRef_eq : folderRef = '$' :: '{' :: 'w' :: "orkspaceFolder\x7d".toList := by
  decide

theorem dirRef_eq : dirRef = '$' :: '{' :: 'f' :: "ileDirname\x7d".toList := by decide

theorem folderRef_ne : folderRef ≠ [] := by
  rw [folderRef_eq]
  simp

theorem dirRef_ne : dirRef ≠ [] := by
  rw [dirRef_eq]
  simp

theorem envOpen_eq : envOpen = ['$', '{', 'e', 'n', 'v', ':'] := by decide

theorem takeWhile_append_brace {k : Text} (hk : '}' ∉ k) (r : Text) :
    (k ++ '}' :: r).takeWhile (· ≠ '}') = k := by
  have h : ∀ c ∈ k, (decide (c ≠ '}')) = true := fun c hc =>
    decide_eq_true fun he => hk (he ▸ hc)
  rw [List.takeWhile_append_of_pos h, List.takeWhile_cons]
  simp

theorem dropWhile_append_brace {k : Text} (hk : '}' ∉ k) (r : Text) :
    (k ++ '}' :: r).dropWhile (· ≠ '}') = '}' :: r := by
  have h : ∀ c ∈ k, (decide (c ≠ '}')) = true := fun c hc =>
    decide_eq_true fun he => hk (he ▸ hc)
  rw [List.dropWhile_append_of_pos h, List.dropWhile_cons]
  simp

/-- A reference at the beginning of a text is matched. -/
theorem matchEnv_append {k : Text} (hk : k ≠ []) (hb : '}' ∉ k) (r : Text) :
    matchEnv (envRef k ++ r) = some (envRef k).length := by
  have hp : envOpen.isPrefixOf (envRef k ++ r) = true := by
    rw [List.isPrefixOf_iff_prefix, envRef, List.append_assoc]
    exact List.prefix_append _ _
  have hd : (envRef k ++ r).drop envOpen.length = k ++ '}' :: r := by
    rw [envRef, List.append_assoc, List.drop_left]
    simp
  rw [matchEnv, if_pos hp]
  dsimp only
  rw [hd, takeWhile_append_brace hb, dropWhile_append_brace hb, if_pos ⟨hk, by simp⟩]
  simp [envRef]

/-- **What the last pass matches** are references with a name that is not empty. -/
theorem eq_of_matchEnv {t : Text} {n : ℕ} (h : matchEnv t = some n) :
    ∃ k r, k ≠ [] ∧ '}' ∉ k ∧ t = envRef k ++ r ∧ n = (envRef k).length := by
  rw [matchEnv] at h
  split_ifs at h with hp
  obtain ⟨s, rfl⟩ := List.isPrefixOf_iff_prefix.mp hp
  dsimp only at h
  rw [List.drop_left] at h
  split_ifs at h with hs
  obtain ⟨hk, hr⟩ := hs
  have hb : '}' ∉ s.takeWhile (· ≠ '}') := by
    intro hm
    simpa using List.mem_takeWhile_imp hm
  obtain ⟨c, r, hc⟩ := List.exists_cons_of_ne_nil hr
  have hc' : c = '}' := by
    have := List.head?_dropWhile_not (· ≠ '}') s
    rw [hc] at this
    simpa using this
  rw [hc'] at hc
  refine ⟨s.takeWhile (· ≠ '}'), r, hk, hb, ?_, ?_⟩
  · rw [envRef, List.append_assoc, List.append_assoc, List.singleton_append, ← hc,
      List.takeWhile_append_dropWhile]
  · have : envOpen.length + ((s.takeWhile (· ≠ '}')).length + 1) = n := by simpa using h
    rw [← this, envRef]
    simp

theorem proper_matchEnv : Proper matchEnv := by
  intro t n h
  obtain ⟨k, r, -, -, rfl, rfl⟩ := eq_of_matchEnv h
  refine ⟨?_, by rw [List.length_append]; omega⟩
  simp [envRef, envOpen_eq]

theorem envName_envRef (k : Text) : envName (envRef k) = k := by
  rw [envName, envRef, List.drop_left, List.dropLast_concat]

/-! ### Text that a pass copies -/

/-- The expression matches at a `$` only. -/
def AtDollar (m : Text → Option ℕ) : Prop := ∀ t, m t ≠ none → t.head? = some '$'

theorem atDollar_matchLit (p : Text) : AtDollar (matchLit ('$' :: p)) := by
  intro t h
  rw [Ne, matchLit_eq_none, not_not] at h
  obtain ⟨s, rfl⟩ := h
  rfl

theorem atDollar_folderRef : AtDollar (matchLit folderRef) := by
  rw [folderRef_eq]
  exact atDollar_matchLit _

theorem atDollar_dirRef : AtDollar (matchLit dirRef) := by
  rw [dirRef_eq]
  exact atDollar_matchLit _

theorem atDollar_matchEnv : AtDollar matchEnv := by
  intro t h
  obtain ⟨n, hn⟩ := Option.ne_none_iff_exists'.mp h
  obtain ⟨k, r, -, -, rfl, -⟩ := eq_of_matchEnv hn
  simp [envRef, envOpen_eq]

section Copy
variable {m : Text → Option ℕ} {f : Text → Text → Text → Text} (hm : AtDollar m)
include hm

theorem none_of_not_mem {u : Text} (t : Text) (hu : u ≠ []) (h : '$' ∉ u) : m (u ++ t) = none := by
  by_contra hn
  obtain ⟨c, _, rfl⟩ := List.exists_cons_of_ne_nil hu
  have hc : c = '$' := by simpa using hm _ hn
  exact h (by simp [hc])

/-- Text without `$` is copied by every pass. -/
theorem rewrites_of_not_mem {u : Text} (h : '$' ∉ u) : Rewrites m f u u :=
  rewrites_copy fun _ t hr hs => none_of_not_mem hm t hr fun hd => h (hs.subset hd)

/-- So is a reference that the pass does not look for. -/
theorem rewrites_cons {u : Text} (h : '$' ∉ u) (hn : ∀ t, m ('$' :: (u ++ t)) = none) :
    Rewrites m f ('$' :: u) ('$' :: u) := by
  refine rewrites_copy fun r t hr hs => ?_
  rcases List.suffix_cons_iff.mp hs with rfl | hs
  · exact hn t
  · exact none_of_not_mem hm t hr fun hd => h (hs.subset hd)

end Copy

/-- Text without `$` is expanded to itself. -/
theorem expandVars_of_not_mem (W : Workspace) (e : Env) {t : Text} (h : '$' ∉ t) :
    expandVars W e t = t := by
  rw [expandVars, (rewrites_of_not_mem atDollar_folderRef h).replaceAll_eq,
    (rewrites_of_not_mem atDollar_dirRef h).replaceAll_eq,
    (rewrites_of_not_mem atDollar_matchEnv h).replaceAll_eq]

theorem hasPattern_of_not_mem : ∀ {r : Text}, '$' ∉ r → hasPattern r = false
  | [], _ => rfl
  | [_], _ => rfl
  | c :: d :: r, h => by
    have hc : c ≠ '$' := fun he => h (he ▸ List.mem_cons_self)
    have hr : hasPattern (d :: r) = false :=
      hasPattern_of_not_mem fun hm => h (List.mem_cons_of_mem _ hm)
    simp [hasPattern, hc, hr]

/-! ### The passes over a template -/

/-- A template after the first pass, which knows the folder `F`. -/
def Seg.text₁ (F : Text) : Seg → Text
  | folder => F
  | s => s.text

/-- A template after the second pass, which knows the directory `G`. -/
def Seg.text₂ (F G : Text) : Seg → Text
  | fileDirname => G
  | s => s.text₁ F

theorem rewrites_dirRef_first {f : Text → Text → Text → Text} :
    Rewrites (matchLit folderRef) f dirRef dirRef := by
  have hn : ∀ t, matchLit folderRef (dirRef ++ t) = none := by
    intro t
    rw [matchLit_eq_none, folderRef_eq, dirRef_eq]
    simp
  rw [dirRef_eq] at hn ⊢
  exact rewrites_cons atDollar_folderRef (by decide) hn

/-- A reference to the environment is copied by a pass that looks for another name. -/
theorem rewrites_envRef {f : Text → Text → Text → Text} {c : Char} {p k : Text} (hc : c ≠ 'e')
    (hk : '$' ∉ k) : Rewrites (matchLit ('$' :: '{' :: c :: p)) f (envRef k) (envRef k) := by
  have hn : ∀ t, matchLit ('$' :: '{' :: c :: p) (envRef k ++ t) = none := by
    intro t
    rw [matchLit_eq_none, envRef, envOpen_eq]
    simp [hc]
  rw [envRef, envOpen_eq] at hn ⊢
  exact rewrites_cons (atDollar_matchLit _) (by simp [hk]) hn

theorem first_pass {F : Text} (hF : hasPattern F = false) {s : Seg} (hs : s.Valid) :
    Rewrites (matchLit folderRef) (substitute F) s.text (s.text₁ F) := by
  cases s with
  | lit s => exact rewrites_of_not_mem atDollar_folderRef hs
  | folder =>
    exact rewrites_match folderRef_ne matchLit_append
      fun b t => substitute_eq hF
  | fileDirname => exact rewrites_dirRef_first
  | env k =>
    show Rewrites (matchLit folderRef) (substitute F) (envRef k) (envRef k)
    rw [folderRef_eq]
    exact rewrites_envRef (by decide) hs.2.2

theorem second_pass {F G : Text} (hG : hasPattern G = false)
    (hF : Rewrites (matchLit dirRef) (substitute G) F F) {s : Seg} (hs : s.Valid) :
    Rewrites (matchLit dirRef) (substitute G) (s.text₁ F) (s.text₂ F G) := by
  cases s with
  | lit s => exact rewrites_of_not_mem atDollar_dirRef hs
  | folder => exact hF
  | fileDirname =>
    exact rewrites_match dirRef_ne matchLit_append
      fun b t => substitute_eq hG
  | env k =>
    show Rewrites (matchLit dirRef) (substitute G) (envRef k) (envRef k)
    rw [dirRef_eq]
    exact rewrites_envRef (by decide) hs.2.2

theorem third_pass {F G : Text} {e : Env} (hF : Rewrites matchEnv (envValue e) F F)
    (hG : Rewrites matchEnv (envValue e) G G) {s : Seg} (hs : s.Valid) :
    Rewrites matchEnv (envValue e) (s.text₂ F G) (s.value F G e.get) := by
  cases s with
  | lit s => exact rewrites_of_not_mem atDollar_matchEnv hs
  | folder => exact hF
  | fileDirname => exact hG
  | env k =>
    refine rewrites_match ?_ (matchEnv_append hs.1 hs.2.1) fun b t => ?_
    · simp [Seg.text₂, Seg.text₁, Seg.text, envRef]
    · show (e.get (envName (envRef k))).getD [] = (e.get k).getD []
      rw [envName_envRef]

/-- The first two passes put the paths in their places. -/
theorem expandVars_eq {W : Workspace} {e : Env} {segs : List Seg} (hs : ∀ s ∈ segs, s.Valid)
    (hF : hasPattern (folder W e) = false) (hG : hasPattern (fileDirname W e) = false)
    (hF₂ : Rewrites (matchLit dirRef) (substitute (fileDirname W e)) (folder W e) (folder W e)) :
    expandVars W e (segs.flatMap Seg.text) =
      replaceAll matchEnv (envValue e)
        (segs.flatMap (Seg.text₂ (folder W e) (fileDirname W e))) := by
  have h₁ := (Rewrites.flatMap fun s h => first_pass hF (hs s h)).replaceAll_eq
  have h₂ := (Rewrites.flatMap fun s h => second_pass hG hF₂ (hs s h)).replaceAll_eq
  rw [expandVars, h₁, h₂]

/-- **The passes give the value of a template** if the paths have no replacement pattern and the
later passes copy them. -/
theorem expandVars_flatMap {W : Workspace} {e : Env} {segs : List Seg} (hs : ∀ s ∈ segs, s.Valid)
    (hF : hasPattern (folder W e) = false) (hG : hasPattern (fileDirname W e) = false)
    (hF₂ : Rewrites (matchLit dirRef) (substitute (fileDirname W e)) (folder W e) (folder W e))
    (hF₃ : Rewrites matchEnv (envValue e) (folder W e) (folder W e))
    (hG₃ : Rewrites matchEnv (envValue e) (fileDirname W e) (fileDirname W e)) :
    expandVars W e (segs.flatMap Seg.text) =
      segs.flatMap (Seg.value (folder W e) (fileDirname W e) e.get) := by
  rw [expandVars_eq hs hF hG hF₂]
  exact (Rewrites.flatMap fun s h => third_pass hF₃ hG₃ (hs s h)).replaceAll_eq

/-! ### Values of the environment -/

/-- Other names are found as before. -/
theorem Env.get_set_of_ne {e : Env} {j k : Text} (h : j ≠ k) (v : Option Text) :
    (e.set k v).get j = e.get j := by
  unfold Env.get Env.set
  dsimp only
  rw [Function.update_of_ne h]

/-- The folder depends on no variable, except on `HOME` if no workspace is open. -/
theorem folder_set {W : Workspace} {e : Env} {k : Text} (v : Option Text)
    (h : W.folders ≠ none ∨ k ≠ "HOME".toList) : folder W (e.set k v) = folder W e := by
  unfold folder
  rcases h with h | h
  · obtain ⟨F, hF⟩ := Option.ne_none_iff_exists'.mp h
    rw [hF, Option.some_or, Option.some_or]
  · rw [Env.get_set_of_ne (Ne.symm h)]

/-- What a piece stands for, when a variable has another value. -/
theorem value_set {F G k : Text} {e : Env} (v : Option Text) (s : Seg) :
    s.value F G (e.set k v).get =
      if s = .env k then ((e.set k v).get k).getD [] else s.value F G e.get := by
  cases s with
  | env j =>
    by_cases hj : j = k
    · rw [hj, if_pos rfl, Seg.value]
    · rw [if_neg (by simpa using hj), Seg.value, Seg.value, Env.get_set_of_ne hj]
  | _ => rw [if_neg (by simp)]; rfl

/-- A variable that is set is what is found. -/
theorem Env.get_of_vars {e : Env} {k v : Text} (h : e.vars k = some v) : e.get k = some v := by
  rw [Env.get, h, Option.some_or]

/-- A name that is not set is looked up in what is inherited. -/
theorem Env.get_of_none {e : Env} {k : Text} (h : e.vars k = none) :
    e.get k = if k ∈ protoMembers then some (e.inherited k) else none := by
  simp only [Env.get, h, Option.none_or, List.contains_iff_mem]

/-- The pieces whose names are set, or are not inherited. -/
def Seg.Own (e : Env) (s : Seg) : Prop :=
  ∀ k, s = .env k → e.vars k = none → k ∉ protoMembers

/-- **What is inserted for a piece** is its value, and something else if its name is inherited. -/
theorem value_get (F G : Text) (e : Env) (s : Seg) :
    (s.value F G e.vars).length ≤ (s.value F G e.get).length ∧
      (s.value F G e.get = s.value F G e.vars ↔ s.Own e) := by
  cases s with
  | env k =>
    simp only [Seg.value, Seg.Own, Seg.env.injEq, forall_eq']
    cases hv : e.vars k with
    | some v => simp [Env.get_of_vars hv]
    | none =>
      rw [Env.get_of_none hv]
      by_cases hk : k ∈ protoMembers
      · simp [hk, e.inherited_ne k hk]
      · simp [hk]
  | _ => exact ⟨le_rfl, iff_of_true rfl fun k hk => by simp at hk⟩

/-- Texts that are no longer than others, piece by piece, and as long altogether. -/
theorem eq_of_flatMap_eq {α : Type} {f g : α → Text} (hle : ∀ s, (f s).length ≤ (g s).length) :
    ∀ {l : List α}, l.flatMap g = l.flatMap f → ∀ s ∈ l, g s = f s
  | [], _, _, hs => by simp at hs
  | a :: l, h, s, hs => by
    rw [List.flatMap_cons, List.flatMap_cons] at h
    have hrest : (l.flatMap f).length ≤ (l.flatMap g).length := by
      rw [List.length_flatMap, List.length_flatMap]
      exact List.sum_le_sum fun s _ => hle s
    have hlen := congrArg List.length h
    rw [List.length_append, List.length_append] at hlen
    have ha := hle a
    obtain ⟨h1, h2⟩ := List.append_inj h (by omega)
    rcases List.mem_cons.mp hs with rfl | hs
    · exact h1
    · exact eq_of_flatMap_eq hle h2 s hs

/-- **The environment is inserted as it is**: the template expands to its literals and values, a name that
is not set standing for the empty text; and another value of one variable changes the result at the
references to it and nowhere else. -/
structure Inserted (W : Workspace) (e : Env) (segs : List Seg) : Prop where
  values : expandVars W e (segs.flatMap Seg.text) =
    segs.flatMap (Seg.value (folder W e) (fileDirname W e) e.vars)
  change : ∀ k v, W.folders ≠ none ∨ k ≠ "HOME".toList →
    expandVars W (e.set k v) (segs.flatMap Seg.text) =
      segs.flatMap fun s => if s = .env k then ((e.set k v).get k).getD [] else
        s.value (folder W e) (fileDirname W e) e.vars

/-- **When the environment is inserted as it is**, if there is no `$` in the two paths: exactly if no
name that is referred to and not set is inherited. -/
theorem inserted_iff {W : Workspace} {e : Env} {segs : List Seg} (hs : ∀ s ∈ segs, s.Valid)
    (hF : '$' ∉ folder W e) (hG : '$' ∉ fileDirname W e) :
    Inserted W e segs ↔ ∀ k, .env k ∈ segs → e.vars k = none → k ∉ protoMembers := by
  have hv : ∀ e' : Env, folder W e' = folder W e →
      expandVars W e' (segs.flatMap Seg.text) =
        segs.flatMap (Seg.value (folder W e) (fileDirname W e) e'.get) := by
    intro e' hf
    have hg : fileDirname W e' = fileDirname W e := by unfold fileDirname; rw [hf]
    rw [← hf] at hF
    rw [← hg] at hG
    rw [← hf, ← hg]
    exact expandVars_flatMap hs (hasPattern_of_not_mem hF) (hasPattern_of_not_mem hG)
      (rewrites_of_not_mem atDollar_dirRef hF) (rewrites_of_not_mem atDollar_matchEnv hF)
      (rewrites_of_not_mem atDollar_matchEnv hG)
  have hown : (∀ s ∈ segs, s.Own e) ↔ ∀ k, .env k ∈ segs → e.vars k = none → k ∉ protoMembers :=
    ⟨fun h k hk => h _ hk k rfl, fun h s hm k hk => h k (hk ▸ hm)⟩
  rw [← hown]
  constructor
  · intro h s hm
    have he := eq_of_flatMap_eq (fun s => (value_get _ _ e s).1) ((hv e rfl).symm.trans h.values)
    exact (value_get _ _ e s).2.mp (he s hm)
  · intro h
    have heq : ∀ s ∈ segs, s.value (folder W e) (fileDirname W e) e.get =
        s.value (folder W e) (fileDirname W e) e.vars := fun s hm => (value_get _ _ e s).2.mpr (h s hm)
    refine ⟨(hv e rfl).trans (List.flatMap_congr heq), fun k v hk => ?_⟩
    rw [hv _ (folder_set v hk)]
    refine List.flatMap_congr fun s hm => ?_
    rw [value_set]
    split_ifs
    · rfl
    · exact heq s hm

/-- The text of an inherited member: that of a function of the engine, or of an object. -/
def nativeText (k : Text) : Text :=
  if k = "__proto__".toList then "[object Object]".toList
  else "function ".toList ++ (if k = "constructor".toList then [] else k) ++
    "() \x7b [native code] \x7d".toList

/-- The environment of a process with the given variables. -/
def processEnv (vars : Text → Option Text) : Env where
  vars := vars
  inherited := nativeText
  inherited_ne k _ := by
    unfold nativeText
    split_ifs <;> simp

/-- A variable whose value looks like a pattern and like references. -/
def trickyEnv : Env := processEnv fun k =>
  if k = ['X'] then some "$&$\x7bworkspaceFolder\x7d$\x7benv:X\x7d".toList else none

theorem inserted_iff_tricky :
    let W : Workspace := ⟨some "/w".toList, some "/w/src/a.c".toList, ['/']⟩
    let segs : List Seg := [.lit "\x7b".toList, .folder, .env ['X'], .fileDirname, .env ['Y']]
    (∀ s ∈ segs, s.Valid) ∧ '$' ∉ folder W trickyEnv ∧ '$' ∉ fileDirname W trickyEnv ∧
      Inserted W trickyEnv segs ∧ expandVars W trickyEnv (segs.flatMap Seg.text) =
        "\x7b/w$&$\x7bworkspaceFolder\x7d$\x7benv:X\x7d/w/src".toList := by
  intro W segs
  have hs : ∀ s ∈ segs, s.Valid := by
    simp only [segs, List.forall_mem_cons, Seg.Valid, List.not_mem_nil, false_imp_iff,
      implies_true, and_true, true_and]
    decide
  have hF : '$' ∉ folder W trickyEnv := by decide
  have hG : '$' ∉ fileDirname W trickyEnv := by decide
  have hi : Inserted W trickyEnv segs := (inserted_iff hs hF hG).mpr fun k hk _ => by
    simp only [segs, List.mem_cons, reduceCtorEq, Seg.env.injEq, List.not_mem_nil, or_false,
      false_or] at hk
    rcases hk with rfl | rfl
    · decide
    · decide
  refine ⟨hs, hF, hG, hi, hi.values.trans ?_⟩
  decide

/-- A name that is not set, and that every object has, is no empty text. -/
theorem not_inserted_toString :
    let W : Workspace := ⟨some "/w".toList, none, ['/']⟩
    let e : Env := processEnv fun _ => none
    expandVars W e "$\x7benv:toString\x7d".toList = "function toString() \x7b [native code] \x7d".toList ∧
      ¬ Inserted W e [.env "toString".toList] := by
  intro W e
  have hx : expandVars W e "$\x7benv:toString\x7d".toList =
      "function toString() \x7b [native code] \x7d".toList := by decide
  refine ⟨hx, fun h => ?_⟩
  have hv := h.values
  rw [show [Seg.env "toString".toList].flatMap Seg.text = "$\x7benv:toString\x7d".toList by decide,
    hx] at hv
  exact absurd hv (by decide)

end Lightbox.Extension.Expand
