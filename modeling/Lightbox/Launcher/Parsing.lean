import Lightbox.Launcher.Options
import Mathlib.Data.List.Perm.Basic

/-! # Parsing the options

The option loop as the script has it: `for i in "$@"` takes the arguments once, and every branch
also shifts the positional parameters, which the loop does not read again. For arguments of the form
`-name=value` or `--name=value` it looks at each of them once and gives every option the value of
the last argument that names it; so the order of arguments of different names and the number of
dashes do not matter, and settings that are written out as arguments are read back
(`parse_spec`). -/

namespace Lightbox.Launcher.Parsing

open Lightbox.Shell.Lex (Text)
open Lightbox.Launcher.Options

/-! ### The loop -/

/-- The variables of the options, the positional parameters, and the arguments the loop has looked
at. -/
structure Loop where
  settings : Settings
  params : List Text
  seen : List Text

/-- The body of the loop; `none` for an argument that is not recognised. -/
def iteration (l : Loop) (i : Text) : Option Loop :=
  (branch i).map fun o => ⟨l.settings.set o (afterEq i), l.params.tail, l.seen ++ [i]⟩

/-- `for i in …`: the list is expanded before the first iteration. -/
def forLoop (l : Loop) : List Text → Option Loop
  | [] => some l
  | i :: is => (iteration l i).bind fun l' => forLoop l' is

/-- **The option loop** of a shell whose options have the values `s`. -/
def parse (s : Settings) (args : List Text) : Option Loop := forLoop ⟨s, args, []⟩ args

/-- Shifting the parameters changes nothing: the loop sets what `optionLoop` sets, looks at every
argument in turn, and leaves the parameters that were not shifted. -/
theorem forLoop_eq : ∀ (is : List Text) (l : Loop), forLoop l is =
    (optionLoop l.settings is).map fun s => ⟨s, l.params.drop is.length, l.seen ++ is⟩
  | [], l => by simp [forLoop, optionLoop]
  | i :: is, l => by
    rw [forLoop, iteration, optionLoop]
    cases branch i with
    | none => rfl
    | some o =>
      rw [Option.map_some, Option.bind_some, forLoop_eq is, Option.bind_some]
      simp

theorem parse_eq (s : Settings) (args : List Text) :
    parse s args = (optionLoop s args).map fun s' => ⟨s', [], args⟩ := by
  rw [parse, forLoop_eq]
  simp

/-! ### Arguments -/

/-- An argument `-name=value` or `--name=value`. -/
structure Arg where
  dashes : Bool
  opt : Opt
  value : Text
  deriving DecidableEq

def Arg.text (a : Arg) : Text :=
  if a.dashes then '-' :: '-' :: (a.opt.name ++ '=' :: a.value)
  else '-' :: (a.opt.name ++ '=' :: a.value)

/-- A text up to the first equals sign is the only one that a pattern with it begins with. -/
theorem prefix_eq_iff (v : Text) : ∀ {p q : Text}, '=' ∉ p → '=' ∉ q →
    ((p ++ ['=']) <+: (q ++ '=' :: v) ↔ p = q)
  | [], [], _, _ => by simp
  | [], d :: q, _, hq => by
    have hd : '=' ≠ d := fun e => hq (e ▸ List.mem_cons_self ..)
    simp [hd]
  | c :: p, [], hp, _ => by
    have hc : c ≠ '=' := fun e => hp (by simp [e])
    simp [hc]
  | c :: p, d :: q, hp, hq => by
    have ih := prefix_eq_iff v (p := p) (q := q) (fun h => hp (by simp [h])) fun h => hq (by simp [h])
    rw [List.cons_append, List.cons_append, List.cons_prefix_cons, ih, List.cons.injEq]

theorem mem_all (o : Opt) : o ∈ Opt.all := by cases o <;> decide

/-- The names of the options are told apart; none holds an equals sign or begins with a dash. -/
theorem names_all : ∀ o ∈ Opt.all, '=' ∉ o.name ∧ o.name.head? ≠ some '-' ∧
    ∀ o' ∈ Opt.all, o.name = o'.name → o = o' := by
  decide

theorem eq_not_mem_name (o : Opt) : '=' ∉ o.name := (names_all o (mem_all o)).1

theorem name_injective {o o' : Opt} (h : o.name = o'.name) : o = o' :=
  (names_all o (mem_all o)).2.2 o' (mem_all o') h

theorem name_ne_dash (o : Opt) (t : Text) : o.name ≠ '-' :: t := by
  intro h
  have hd := (names_all o (mem_all o)).2.1
  rw [h] at hd
  exact hd rfl

/-- What the patterns are matched with, up to the value. -/
def Arg.head (a : Arg) : Text := if a.dashes then '-' :: '-' :: a.opt.name else '-' :: a.opt.name

theorem Arg.text_eq (a : Arg) : a.text = a.head ++ '=' :: a.value := by
  unfold Arg.text Arg.head
  split_ifs <;> rfl

theorem eq_not_mem_head (a : Arg) : '=' ∉ a.head := by
  have hn := eq_not_mem_name a.opt
  unfold Arg.head
  split_ifs <;> simp [hn]

/-- **The patterns of the `case` tell the options apart.** -/
theorem pattern_text (o : Opt) (a : Arg) : o.pattern a.text = true ↔ o = a.opt := by
  have hn := eq_not_mem_name o
  have h1 : ('-' :: (o.name ++ ['='])).isPrefixOf a.text = true ↔ '-' :: o.name = a.head := by
    rw [List.isPrefixOf_iff_prefix, Arg.text_eq, ← List.cons_append]
    exact prefix_eq_iff _ (by simp [hn]) (eq_not_mem_head a)
  have h2 : ('-' :: '-' :: (o.name ++ ['='])).isPrefixOf a.text = true ↔
      '-' :: '-' :: o.name = a.head := by
    rw [List.isPrefixOf_iff_prefix, Arg.text_eq, ← List.cons_append, ← List.cons_append]
    exact prefix_eq_iff _ (by simp [hn]) (eq_not_mem_head a)
  rw [Opt.pattern, Bool.or_eq_true, h1, h2, Arg.head]
  cases a.dashes
  · have hd : '-' :: o.name ≠ a.opt.name := (name_ne_dash a.opt o.name).symm
    simp only [Bool.false_eq_true, if_false, List.cons.injEq, true_and, hd, or_false]
    exact ⟨name_injective, congrArg _⟩
  · have hd : o.name ≠ '-' :: a.opt.name := name_ne_dash o a.opt.name
    simp only [if_true, List.cons.injEq, true_and, hd, false_or]
    exact ⟨name_injective, congrArg _⟩

theorem branch_text (a : Arg) : branch a.text = some a.opt := by
  have hp : (fun o : Opt => o.pattern a.text) = fun o => decide (o = a.opt) := by
    funext o
    rw [Bool.eq_iff_iff, pattern_text, decide_eq_true_eq]
  rw [branch, hp]
  cases a.opt <;> rfl

/-- The shortest prefix ends at the first equals sign, which no name holds. -/
theorem afterEq_text (a : Arg) : afterEq a.text = a.value := by
  have hp : ∀ c ∈ a.head, (c != '=') = true := by
    intro c hc
    rw [bne_iff_ne]
    rintro rfl
    exact eq_not_mem_head a hc
  rw [Arg.text_eq, afterEq, if_pos (by simp), List.dropWhile_append_of_pos hp]
  rfl

/-- The value of the last argument that names the option. -/
def lastOf (o : Opt) (as : List Arg) : Option Text :=
  ((as.filter fun a => a.opt = o).getLast?).map (·.value)

theorem lastOf_cons (o : Opt) (a : Arg) (as : List Arg) :
    lastOf o (a :: as) = (lastOf o as).or (if a.opt = o then some a.value else none) := by
  unfold lastOf
  by_cases h : a.opt = o
  · rw [List.filter_cons_of_pos (by simpa using h), if_pos h]
    cases hl : (as.filter fun a => a.opt = o).getLast? with
    | none => simp [List.getLast?_cons, hl]
    | some b => simp [List.getLast?_cons, hl]
  · rw [List.filter_cons_of_neg (by simpa using h), if_neg h]
    simp

theorem lastValue_text (o : Opt) : ∀ as : List Arg, lastValue o (as.map Arg.text) = lastOf o as
  | [] => rfl
  | a :: as => by
    rw [List.map_cons, lastValue, lastValue_text o as, branch_text, afterEq_text, lastOf_cons]
    simp

/-- **The loop accepts such arguments and gives every option its last value.** -/
theorem parse_text (s : Settings) (as : List Arg) : ∃ s',
    parse s (as.map Arg.text) = some ⟨s', [], as.map Arg.text⟩ ∧
      ∀ o, s'.get o = (lastOf o as).getD (s.get o) := by
  have hacc : (optionLoop s (as.map Arg.text)).isSome := by
    rw [optionLoop_isSome]
    intro i hi
    obtain ⟨a, -, rfl⟩ := List.mem_map.mp hi
    rw [branch_text]
    rfl
  obtain ⟨s', hs⟩ := Option.isSome_iff_exists.mp hacc
  refine ⟨s', by rw [parse_eq, hs]; rfl, fun o => ?_⟩
  rw [get_optionLoop o _ hs, lastValue_text]

/-- Lists with the same last value for every option give the same settings. -/
theorem parse_congr {s t : Settings} {as bs : List Arg}
    (h : ∀ o, (lastOf o as).getD (s.get o) = (lastOf o bs).getD (t.get o)) :
    (parse s (as.map Arg.text)).map (·.settings) = (parse t (bs.map Arg.text)).map (·.settings) := by
  obtain ⟨s', hs, hget⟩ := parse_text s as
  obtain ⟨t', ht, hget'⟩ := parse_text t bs
  have he : s' = t' := Settings.ext_get fun o => by rw [hget, hget', h]
  rw [hs, ht, he]
  rfl

/-! ### What the loop does -/

/-- **What is expected of the option loop** on a list of arguments, in a shell whose options have the
values `s`. -/
structure Lossless (s : Settings) (as : List Arg) : Prop where
  /-- It accepts the list and looks at every argument once. -/
  accepts : ∃ s', parse s (as.map Arg.text) = some ⟨s', [], as.map Arg.text⟩ ∧
    ∀ o, s'.get o = (lastOf o as).getD (s.get o)
  /-- Arguments of different names may change places. -/
  reorder : ∀ bs : List Arg, bs.Perm as → (∀ o, bs.filter (·.opt = o) = as.filter (·.opt = o)) →
    (parse s (bs.map Arg.text)).map (·.settings) = (parse s (as.map Arg.text)).map (·.settings)
  /-- An argument may begin with one dash or with two. -/
  dashes : ∀ bs : List Arg, bs.map (fun b => (b.opt, b.value)) = as.map (fun a => (a.opt, a.value)) →
    (parse s (bs.map Arg.text)).map (·.settings) = (parse s (as.map Arg.text)).map (·.settings)
  /-- All settings written out in any order are read back. -/
  readBack : ∀ (r : Settings) (os : List Opt), os.Perm Opt.all →
    (parse s (os.map fun o => Arg.text ⟨true, o, r.get o⟩)).map (·.settings) = some r

theorem lastOf_dashes (o : Opt) : ∀ {as bs : List Arg},
    bs.map (fun b => (b.opt, b.value)) = as.map (fun a => (a.opt, a.value)) →
      lastOf o bs = lastOf o as
  | [], [], _ => rfl
  | [], b :: bs, h => by simp at h
  | a :: as, [], h => by simp at h
  | a :: as, b :: bs, h => by
    simp only [List.map_cons, List.cons.injEq, Prod.mk.injEq] at h
    rw [lastOf_cons, lastOf_cons, lastOf_dashes o h.2, h.1.1, h.1.2]

/-- An option that is written out has its value. -/
theorem lastOf_render (r : Settings) (o : Opt) : ∀ {os : List Opt}, o ∈ os →
    lastOf o (os.map fun o => ⟨true, o, r.get o⟩) = some (r.get o)
  | o' :: os, h => by
    rw [List.map_cons, lastOf_cons]
    by_cases hm : o ∈ os
    · rw [lastOf_render r o hm]
      rfl
    · obtain rfl : o = o' := (List.mem_cons.mp h).resolve_right hm
      have hn : lastOf o (os.map fun o => ⟨true, o, r.get o⟩) = none := by
        have hf : (os.map fun o => (⟨true, o, r.get o⟩ : Arg)).filter (fun a => a.opt = o) = [] := by
          rw [List.filter_eq_nil_iff]
          intro a ha
          obtain ⟨o', ho', rfl⟩ := List.mem_map.mp ha
          have hne : o' ≠ o := fun e => hm (e ▸ ho')
          simpa using hne
        rw [lastOf, hf]
        rfl
      rw [hn]
      simp

/-- **Option parsing is independent of the order and lossless.** -/
theorem parse_spec (s : Settings) (as : List Arg) : Lossless s as where
  accepts := parse_text s as
  reorder bs _ h := parse_congr fun o => by rw [lastOf, h o, lastOf]
  dashes bs h := parse_congr fun o => by rw [lastOf_dashes o h]
  readBack r os h := by
    obtain ⟨s', hs, hget⟩ := parse_text s (os.map fun o => ⟨true, o, r.get o⟩)
    have he : s' = r := Settings.ext_get fun o => by
      rw [hget, lastOf_render r o (h.mem_iff.mpr (mem_all o))]
      rfl
    rw [List.map_map] at hs
    rw [← he]
    have := congrArg (Option.map (·.settings)) hs
    simpa [he, Function.comp_def] using this

end Lightbox.Launcher.Parsing
