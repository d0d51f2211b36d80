import Lightbox.Launcher.Phases

/-! # The launcher inside tmux

In tmux mode the launcher types itself into two panes: its arguments are joined by blanks, the first
`tmux` in them is replaced, `--terminal=cli-qemu` or `--terminal=cli-gdb` is added, and the shell of
the pane reads the line again (`typedKeys_launch`). If every argument is a word that stands for
itself, the pane reads the same arguments, the one that holds the first `tmux` changed
(`typed_relayLine`). So its settings are those of the outer run exactly if that argument is
`--terminal` or is overridden by a later one, and each of `ROOTFS`, `DTB` and `QEMU_DIR`, which have
no default, is given by an argument or is the same in the shell of the pane, a new one, as in that of
the outer run (`relayed_iff`). -/

namespace Lightbox.Launcher.Relay

open Lightbox.Shell.Lex hiding Mode
open Lightbox.Shell.Read Lightbox.Shell.Subst
open Lightbox.Shell.Control (Mode runBlocks)
open Lightbox.Launcher.Options Lightbox.Launcher.Script Lightbox.Launcher.Phases

/-- The terminals of the two panes. -/
def panes : List Text := ["cli-qemu".toList, "cli-gdb".toList]

/-- The keys that are typed into the panes, in order. -/
def typedKeys (as : List Action) : List Text :=
  as.filterMap fun
    | .tmux (.sendKeys _ keys) => some keys
    | _ => none

/-- Messages are not typed. -/
theorem typedKeys_external (as : List Action) : typedKeys (external as) = typedKeys as := by
  unfold typedKeys external
  rw [List.filterMap_filter]
  congr 1
  funext a
  cases a <;> rfl

/-- The settings in a pane with the terminal `cli`. -/
def inPane (s : Settings) (cli : Text) : Settings := { s with terminal := cli }

/-- The lines that are typed into the pane with the terminal `cli`: one changes the directory, the other
starts the launcher. -/
def paneLines (dir : Text) (args : List Text) (cli : Text) : List Text :=
  [cdLine dir, relayLine cli (joinWords args)]

theorem terminal_tmux {H : Host} {v : Vars} (h : v.opts.terminal = "tmux".toList) :
    terminal H v = ⟨{ v with dir := H.pwd }, tmuxActions H.pwd v.params, .ret⟩ := by
  unfold terminal
  rw [h]
  rfl

/-- What a run does after the commands of tmux mode: executed, it goes on to its debugger and its clean-up,
from the variables `w`. -/
def afterTmux (m : Mode) (H : Host) (w : Vars) : List Action :=
  if m = .sourced then [] else external ((debugger H w).acts ++ (cleanup w).acts)

/-- After the commands of tmux mode, the only command of tmux is the clean-up. -/
theorem eq_of_mem_afterTmux {m : Mode} {H : Host} {w : Vars} {t : Tmux}
    (h : .tmux t ∈ afterTmux m H w) : t = .killSession lightbox := by
  unfold afterTmux at h
  split_ifs at h
  · simp at h
  · rcases List.mem_append.mp (List.mem_of_mem_filter h) with h | h
    · unfold debugger at h
      split_ifs at h <;> simp [dddActions] at h
    · simpa [cleanup] using h

/-- **What a run in tmux mode does**: sourced, if it is ready; executed, in any case. -/
theorem launch_tmux {m : Mode} {H : Host} {args : List Text} {v : Vars} (ha : Accepted args)
    (hr : m = .sourced → Ready H args) (ht : givenTerminal H args = "tmux".toList) :
    ∃ w, external (launch m H args v).acts = tmuxActions H.pwd (joinWords args) ++ afterTmux m H w := by
  obtain ⟨s, hs⟩ := Option.isSome_iff_exists.mp ((given_isSome H args v).mpr ha)
  have hd := derived_spec H (start args s v)
  have hp : (derived H (start args s v)).params = joinWords args := hd.params
  have hw : (derived H (start args s v)).opts.terminal = "tmux".toList := by
    rw [hd.opts, ← ht, ← given_terminal hs]
    rfl
  have hacts : external (launch m H args v).acts =
      external (runBlocks m (visible H) (derived H (start args s v))).acts := by
    cases m with
    | sourced => exact (launch_of_ready hs (hr rfl)).2.1
    | executed => exact launch_executed hs
  rw [hacts, acts_visible, ← hp]
  generalize derived H (start args s v) = w at hw
  rw [terminal_tmux hw]
  refine ⟨{ w with dir := H.pwd }, ?_⟩
  cases m with
  | sourced => rfl
  | executed => exact List.filter_append ..

/-- **What the launcher types** in tmux mode: in each pane the line that changes the directory, and
the line that starts the launcher. -/
theorem typedKeys_launch {m : Mode} {H : Host} {args : List Text} {v : Vars} (ha : Accepted args)
    (hr : m = .sourced → Ready H args) (ht : givenTerminal H args = "tmux".toList) :
    typedKeys (launch m H args v).acts = panes.flatMap (paneLines H.pwd args) := by
  obtain ⟨w, hw⟩ := launch_tmux (v := v) ha hr ht
  have hafter : typedKeys (afterTmux m H w) = [] := by
    refine List.filterMap_eq_nil_iff.mpr fun a h => ?_
    cases a with
    | tmux t =>
      rw [eq_of_mem_afterTmux h]
    | _ => rfl
  rw [← typedKeys_external, hw, typedKeys, List.filterMap_append]
  unfold typedKeys at hafter
  rw [hafter]
  rfl

/-- The settings of the launcher in a pane whose shell has the variables `w`, if the shell reads the lines
as a change of the directory and a run of the launcher there. `hostAt` is the machine as seen from a
working directory. -/
def paneSettings (hostAt : Text → Host) (other : Text → Option (List Text)) (w : Vars)
    (keys : List Text) : Option Settings :=
  match keys.map (typed other) with
  | [some [cd, d], some (source :: script :: ws)] =>
    if cd = "cd".toList ∧ source = "source".toList ∧ script = "./start-kernel.sh".toList then
      given (hostAt d) ws w
    else none
  | _ => none

/-- **The panes have the settings of the outer run**, whatever an interactive shell makes of lines that are
more than words: `v` are the variables of the shell in which the outer run starts, `w` those of the
shells in the panes. -/
def Relayed (hostAt : Text → Host) (dir : Text) (args : List Text) (v w : Vars) : Prop :=
  ∃ s, given (hostAt dir) args v = some s ∧ ∀ other, ∀ cli ∈ panes,
    paneSettings hostAt other w (paneLines dir args cli) = some (inPane s cli)

/-- The text `tmux` occurs in the argument. -/
def hasTmux (i : Text) : Bool := occurs "tmux".toList i

/-- The first argument with `tmux` in it, if there is one, gives the terminal, or names an option
that a later argument names again. -/
def Harmless : List Text → Prop
  | [] => True
  | i :: is => if hasTmux i then branch i = some .terminal ∨ ∃ j ∈ is, branch j = branch i
    else Harmless is

/-- The options without a default: a run that does not name them uses what its shell has. -/
def undefaulted : List Opt := [.rootfs, .dtb, .qemuDir]

/-- What the arguments do not give is the same in both shells. -/
def SameShell (args : List Text) (v w : Vars) : Prop :=
  ∀ o ∈ undefaulted, Names o args ∨ v.opts.get o = w.opts.get o

instance (args : List Text) (v w : Vars) : Decidable (SameShell args v w) :=
  inferInstanceAs (Decidable (∀ o ∈ undefaulted, _))

/-! ### The arguments in a pane -/

/-- The arguments with the first `tmux` replaced. -/
def relayArgs (cli : Text) : List Text → List Text
  | [] => []
  | i :: is => if hasTmux i then replaceTmux cli i :: is else i :: relayArgs cli is

theorem relayArgs_eq_nil {cli : Text} : ∀ {is : List Text}, relayArgs cli is = [] ↔ is = []
  | [] => by simp [relayArgs]
  | i :: is => by
    rw [relayArgs]
    split_ifs <;> simp

/-- **Replacing in the joined arguments** replaces in one of them. -/
theorem replaceTmux_joinWords (cli : Text) : ∀ is : List Text,
    replaceTmux cli (joinWords is) = joinWords (relayArgs cli is)
  | [] => rfl
  | [i] => by
    by_cases h : hasTmux i = true
    · rw [relayArgs, if_pos h]
      rfl
    · rw [relayArgs, if_neg h]
      have hn : occurs "tmux".toList i = false := by simpa [hasTmux] using h
      exact replaceFirst_of_not_occurs hn
  | i :: j :: is => by
    have hb : ' ' ∉ "tmux".toList := by decide
    have hj : joinWords (i :: j :: is) = i ++ ' ' :: joinWords (j :: is) := rfl
    rw [hj]
    by_cases h : hasTmux i = true
    · have hr : joinWords (replaceTmux cli i :: j :: is) =
          replaceTmux cli i ++ ' ' :: joinWords (j :: is) := rfl
      rw [relayArgs, if_pos h, hr]
      exact replaceFirst_append_of_occurs hb _ h
    · have hn : occurs "tmux".toList i = false := by simpa [hasTmux] using h
      have hne : relayArgs cli (j :: is) ≠ [] := by simp [relayArgs_eq_nil]
      rw [relayArgs, if_neg h, joinWords_cons hne, ← replaceTmux_joinWords cli (j :: is)]
      exact replaceFirst_append hb (by decide) _ hn

/-! ### An argument with `tmux` in it -/

theorem branch_short (o : Opt) (x : Text) : branch ('-' :: (o.name ++ '=' :: x)) = some o := by
  cases o <;> rfl

theorem branch_long (o : Opt) (x : Text) : branch ('-' :: '-' :: (o.name ++ '=' :: x)) = some o := by
  cases o <;> rfl

theorem afterEq_append {p : Text} (hp : '=' ∉ p) (x : Text) : afterEq (p ++ '=' :: x) = x := by
  have hall : ∀ c ∈ p, (c != '=') = true := fun c hc => by
    simp only [bne_iff_ne, ne_eq]
    rintro rfl
    exact hp hc
  rw [afterEq, if_pos (by simp), List.dropWhile_append_of_pos hall]
  simp

/-- What an option is named by holds neither an equals sign nor `tmux`. -/
theorem name_spec (o : Opt) : ('=' ∉ '-' :: o.name ∧ hasTmux ('-' :: o.name) = false) ∧
    ('=' ∉ '-' :: '-' :: o.name ∧ hasTmux ('-' :: '-' :: o.name) = false) := by
  cases o <;> decide

/-- An accepted argument is an option and a value, and both stay apart when `tmux` is replaced. -/
theorem exists_value {i : Text} {o : Opt} (h : branch i = some o) : ∃ p x, i = p ++ '=' :: x ∧
    '=' ∉ p ∧ hasTmux p = false ∧ p.head? = some '-' ∧ ∀ y, branch (p ++ '=' :: y) = some o := by
  obtain ⟨⟨h1, h2⟩, h3, h4⟩ := name_spec o
  obtain ⟨x, rfl | rfl⟩ := of_branch h
  · exact ⟨'-' :: o.name, x, rfl, h1, h2, rfl, branch_short o⟩
  · exact ⟨'-' :: '-' :: o.name, x, rfl, h3, h4, rfl, branch_long o⟩

/-- **Replacing `tmux` in an argument** changes its value and nothing else. -/
theorem branch_replaceTmux {i : Text} {o : Opt} (h : branch i = some o) (cli : Text) :
    branch (replaceTmux cli i) = some o ∧
      afterEq (replaceTmux cli i) = replaceTmux cli (afterEq i) ∧
      hasTmux (afterEq i) = hasTmux i := by
  obtain ⟨p, x, rfl, hp, ht, -, hb⟩ := exists_value h
  have he : '=' ∉ "tmux".toList := by decide
  have hr : replaceTmux cli (p ++ '=' :: x) = p ++ '=' :: replaceTmux cli x :=
    replaceFirst_append he (by decide) x ht
  have ho : hasTmux (p ++ '=' :: x) = hasTmux x := by
    unfold hasTmux at ht ⊢
    rw [occurs_append he (by decide) x p, ht, Bool.false_or]
  rw [hr, afterEq_append hp, afterEq_append hp, ho]
  exact ⟨hb _, rfl, rfl⟩

/-! ### Settings in a pane -/

theorem branch_relayArgs (cli : Text) : ∀ {is : List Text}, Accepted is →
    (relayArgs cli is).map branch = is.map branch
  | [], _ => rfl
  | i :: is, h => by
    have his : Accepted is := fun j hj => h j (by simp [hj])
    rw [relayArgs]
    split_ifs
    · obtain ⟨o, ho⟩ := Option.isSome_iff_exists.mp (h i (by simp))
      rw [List.map_cons, List.map_cons, (branch_replaceTmux ho cli).1, ho]
    · rw [List.map_cons, List.map_cons, branch_relayArgs cli his]

/-- Which options are given a value depends on the branches only. -/
theorem lastValue_isSome_congr {o : Opt} : ∀ {is js : List Text}, is.map branch = js.map branch →
    (lastValue o is).isSome = (lastValue o js).isSome
  | [], [], _ => rfl
  | [], _ :: _, h => by simp at h
  | _ :: _, [], h => by simp at h
  | i :: is, j :: js, h => by
    obtain ⟨hb, h⟩ := List.cons.inj h
    have ih := lastValue_isSome_congr (o := o) h
    rw [lastValue, lastValue, hb, Option.isSome_or, Option.isSome_or, ih]
    split_ifs <;> rfl

theorem eq_of_or_eq {a b c : Option Text} (hs : a.isSome = b.isSome) (h : a.or c = b.or c) :
    a = b := by
  cases a with
  | none => exact (Option.not_isSome_iff_eq_none.mp (by simp [← hs])).symm
  | some x =>
    obtain ⟨y, rfl⟩ := Option.isSome_iff_exists.mp hs.symm
    exact h

theorem eq_of_getD_eq {a b : Option Text} {x y : Text} (hs : a.isSome = b.isSome)
    (h : a.getD x = b.getD y) : a = b := by
  cases a with
  | none => exact (Option.not_isSome_iff_eq_none.mp (by simp [← hs])).symm
  | some z =>
    obtain ⟨w, rfl⟩ := Option.isSome_iff_exists.mp hs.symm
    exact congrArg some h

/-- **The values given in a pane are those given outside**, the terminal apart, exactly if the
replacement is harmless. -/
theorem lastValue_relayArgs {cli : Text} (hc : cli.length ≠ 4) : ∀ {is : List Text}, Accepted is →
    ((∀ o, o ≠ .terminal → lastValue o (relayArgs cli is) = lastValue o is) ↔ Harmless is)
  | [], _ => by simp [relayArgs, Harmless]
  | i :: is, h => by
    have his : Accepted is := fun j hj => h j (by simp [hj])
    obtain ⟨o, ho⟩ := Option.isSome_iff_exists.mp (h i (by simp))
    rw [Harmless, relayArgs]
    split_ifs with ht
    · obtain ⟨hb, ha, hv⟩ := branch_replaceTmux ho cli
      constructor
      · intro hall
        by_contra hn
        rw [not_or, not_exists] at hn
        have hterm : o ≠ .terminal := fun e => hn.1 (by rw [ho, e])
        have hnone : lastValue o is = none :=
          lastValue_eq_none.mpr fun ⟨j, hj, hbj⟩ => hn.2 j ⟨hj, by rw [hbj, ho]⟩
        have := hall o hterm
        rw [lastValue, lastValue, hnone, hb, ho, if_pos rfl, if_pos rfl, ha, Option.none_or,
          Option.none_or, Option.some.injEq] at this
        -- the replacement is longer than what it replaces
        exact replaceFirst_ne (by rw [← ht, ← hv]; rfl) (by simpa using hc.symm) this
      · intro hsafe o' ho'
        rw [lastValue, lastValue, hb, ho]
        by_cases he : o = o'
        · subst he
          rcases hsafe with hsafe | ⟨j, hj, hbj⟩
          · exact absurd (by rw [ho] at hsafe; exact Option.some.inj hsafe) ho'
          · obtain ⟨x, hx⟩ := Option.isSome_iff_exists.mp
              ((lastValue_isSome o is).mpr ⟨j, hj, hbj.trans ho⟩)
            rw [hx, Option.some_or, Option.some_or]
        · simp [he]
    · rw [← lastValue_relayArgs hc his]
      constructor
      · intro hall o' ho'
        have hs := lastValue_isSome_congr (o := o') (branch_relayArgs cli his)
        exact eq_of_or_eq hs (hall o' ho')
      · intro hall o' ho'
        rw [lastValue, lastValue, hall o' ho']

/-! ### Reading the lines again -/

/-- The characters that pathname and brace expansion look for. -/
def isExpansionChar (c : Char) : Bool := ['{', ',', '}', '.', '*', '?', '[', ']'].contains c

/-- Expansion depends on these characters only. -/
theorem sublist_of_filter {p t u : Text} (hp : p.all isExpansionChar = true)
    (h : t.filter isExpansionChar = u.filter isExpansionChar) (hs : p.Sublist t) : p.Sublist u := by
  have hf := hs.filter isExpansionChar
  rw [List.filter_eq_self.mpr (List.all_eq_true.mp hp), h] at hf
  exact hf.trans List.filter_sublist

/-- A word that begins with a dash is no assignment. -/
theorem assigns_dash (t : Text) : assigns (marked .bare ('-' :: t)) = false := by
  have hd : isNameChar '-' = false := by decide
  simp [assigns, marked, hd]

/-- **Replacing `tmux` leaves an argument a word that stands for itself.** -/
theorem verbatim_replaceTmux {cli i : Text} {o : Opt} (hcli : cli ∈ panes) (hb : branch i = some o)
    (h : Verbatim i) : Verbatim (replaceTmux cli i) := by
  obtain ⟨p, x, rfl, -, ht, hd, -⟩ := exists_value hb
  obtain ⟨q, rfl⟩ : ∃ q, p = '-' :: q := List.head?_eq_some_iff.mp hd
  have hr : replaceTmux cli ('-' :: q ++ '=' :: x) = '-' :: (q ++ '=' :: replaceTmux cli x) :=
    replaceFirst_append (by decide) (by decide) x ht
  have hch : ∀ cli ∈ panes, cli.all inWordChar = true := by decide
  have hnx : ∀ cli ∈ panes, cli.filter isExpansionChar = [] := by decide
  have hf : (replaceTmux cli ('-' :: q ++ '=' :: x)).filter isExpansionChar =
      ('-' :: q ++ '=' :: x).filter isExpansionChar :=
    filter_replaceFirst (by decide) (hnx cli hcli) _
  have hsub : ∀ p : Text, p.all isExpansionChar = true →
      p.Sublist (replaceTmux cli ('-' :: q ++ '=' :: x)) → p.Sublist ('-' :: q ++ '=' :: x) :=
    fun p hp => sublist_of_filter hp hf
  have hmem : ∀ c, isExpansionChar c = true → c ∈ replaceTmux cli ('-' :: q ++ '=' :: x) →
      c ∈ '-' :: q ++ '=' :: x := fun c hc hm =>
    List.singleton_sublist.mp (hsub [c] (by simpa using hc) (List.singleton_sublist.mpr hm))
  obtain ⟨h1, h2, -⟩ := h.inert
  unfold Braces at h1
  unfold Globs at h2
  rw [bares_marked_bare] at h1 h2
  refine ⟨by rw [hr]; simp, by rw [hr]; simp, fun c hc => ?_, ?_, ?_, ?_⟩
  · rcases mem_of_mem_replaceFirst hc with hc | hc
    · exact h.chars c hc
    · exact List.all_eq_true.mp (hch cli hcli) c hc
  · unfold Braces
    rw [bares_marked_bare]
    exact fun hbr => h1 (hbr.imp (hsub _ (by decide)) (hsub _ (by decide)))
  · unfold Globs
    rw [bares_marked_bare]
    exact fun hg => h2 (hg.imp (hmem _ (by decide))
      (Or.imp (hmem _ (by decide)) (hsub _ (by decide))))
  · rw [hr]
    rintro (ht | ⟨ha, -⟩)
    · simp at ht
    · rw [assigns_dash] at ha
      simp at ha

theorem verbatim_relayArgs {cli : Text} (hcli : cli ∈ panes) : ∀ {is : List Text}, Accepted is →
    (∀ i ∈ is, Verbatim i) → ∀ i ∈ relayArgs cli is, Verbatim i
  | [], _, _, i, hi => by simp [relayArgs] at hi
  | j :: is, h, hv, i, hi => by
    have his : Accepted is := fun j hj => h j (by simp [hj])
    have hvs : ∀ i ∈ is, Verbatim i := fun i hi => hv i (by simp [hi])
    obtain ⟨o, ho⟩ := Option.isSome_iff_exists.mp (h j (by simp))
    rw [relayArgs] at hi
    split_ifs at hi
    · rcases List.mem_cons.mp hi with rfl | hi
      · exact verbatim_replaceTmux hcli ho (hv j (by simp))
      · exact hvs i hi
    · rcases List.mem_cons.mp hi with rfl | hi
      · exact hv i (by simp)
      · exact verbatim_relayArgs hcli his hvs i hi

/-- The argument that is added in a pane. -/
def terminalArg (cli : Text) : Text := "--terminal=".toList ++ cli

theorem terminalArg_spec {cli : Text} (h : cli ∈ panes) : Verbatim (terminalArg cli) ∧
    branch (terminalArg cli) = some .terminal ∧ afterEq (terminalArg cli) = cli := by
  revert cli
  decide

theorem sourceText_eq : "source ./start-kernel.sh ".toList =
    joinWords ["source".toList, "./start-kernel.sh".toList] ++ [' '] := by decide

/-- The words of the line that starts the launcher. -/
theorem relayLine_eq (cli : Text) (args : List Text) : relayLine cli (joinWords args) =
    joinWords ["source".toList, "./start-kernel.sh".toList] ++
      ' ' :: (joinWords (relayArgs cli args) ++ ' ' :: joinWords [terminalArg cli]) := by
  have h2 : " --terminal=".toList = ' ' :: "--terminal=".toList := rfl
  have h3 : joinWords [terminalArg cli] = "--terminal=".toList ++ cli := rfl
  unfold relayLine
  rw [h3, replaceTmux_joinWords, sourceText_eq, h2]
  simp only [List.append_assoc, List.cons_append, List.nil_append]

/-- **A pane reads the arguments again**, the first `tmux` in them replaced. -/
theorem typed_relayLine {cli : Text} {args : List Text} (hcli : cli ∈ panes) (ha : Accepted args)
    (hv : ∀ i ∈ args, Verbatim i) (other : Text → Option (List Text)) :
    typed other (relayLine cli (joinWords args)) = some ("source".toList ::
      "./start-kernel.sh".toList :: (relayArgs cli args ++ [terminalArg cli])) := by
  have hr := verbatim_relayArgs hcli ha hv
  have hx : ∀ t ∈ ["source".toList, "./start-kernel.sh".toList], Verbatim t := by decide
  have hz : ∀ t ∈ [terminalArg cli], Verbatim t := by
    simpa using (terminalArg_spec hcli).1
  have hline := relayLine_eq cli args
  refine typed_forall_iff.mpr ⟨?_, ?_⟩ other
  · have hblank : edits ' ' = false := by decide
    rw [hline]
    simp only [List.any_append, List.any_cons, joinWords_not_edits hx, joinWords_not_edits hr,
      joinWords_not_edits hz, hblank, Bool.or_false]
  · refine readCommand_of_wordTokens (by rw [hline]; exact lex_joinWords hx hr hz) ?_ (by decide)
    intro y hy
    simp only [List.mem_cons, List.mem_append, List.not_mem_nil, or_false] at hy
    rcases hy with rfl | rfl | hy | rfl
    · exact hx _ (by simp)
    · exact hx _ (by simp)
    · exact hr y hy
    · exact (terminalArg_spec hcli).1

/-- A pane changes to the directory of the outer run. -/
theorem typed_cdLine {dir : Text} (h : Verbatim dir) (other : Text → Option (List Text)) :
    typed other (cdLine dir) = some ["cd".toList, dir] := by
  have hx : ∀ t ∈ ["cd".toList, dir], Verbatim t := by
    intro t ht
    rcases List.mem_cons.mp ht with rfl | ht
    · decide
    · obtain rfl : t = dir := by simpa using ht
      exact h
  have hline : cdLine dir = joinWords ["cd".toList, dir] := rfl
  refine typed_forall_iff.mpr ⟨?_, ?_⟩ other
  · rw [hline]
    exact joinWords_not_edits hx
  · refine readCommand_of_wordTokens ?_ hx (by decide)
    rw [hline]
    exact finish_joinWords (by decide) [] (Verbatim.forall₂ hx)

/-! ### The panes and the outer run -/

theorem lastValue_concat {o : Opt} {i : Text} : ∀ is : List Text, lastValue o (is ++ [i]) =
    (if branch i = some o then some (afterEq i) else none).or (lastValue o is)
  | [] => by simp [lastValue]
  | j :: is => by
    rw [List.cons_append, lastValue, lastValue_concat is, lastValue, Option.or_assoc]

/-- The shell from which a run starts is seen in the options without a default only. -/
theorem get_defaultSettings (H : Host) (s : Settings) (o : Opt) : (defaultSettings H s).get o =
    if o ∈ undefaulted then s.get o else (defaultSettings H {}).get o := by
  cases o <;> rfl

theorem getD_default {H : Host} {args : List Text} {v w : Vars} (h : SameShell args v w) (o : Opt) :
    (lastValue o args).getD ((defaultSettings H v.opts).get o) =
      (lastValue o args).getD ((defaultSettings H w.opts).get o) := by
  cases hl : lastValue o args with
  | some x => rfl
  | none =>
    rw [Option.getD_none, Option.getD_none, get_defaultSettings, get_defaultSettings H w.opts]
    split_ifs with ho
    · exact (h o ho).resolve_left (lastValue_eq_none.mp hl)
    · rfl

/-- **The same arguments give the same settings** in both shells. -/
theorem given_of_sameShell {H : Host} {args : List Text} {v w : Vars} {s : Settings}
    (h : SameShell args v w) (hs : given H args v = some s) : given H args w = some s := by
  have ha : Accepted args := (given_isSome H args v).mp (by rw [hs]; rfl)
  obtain ⟨t, ht⟩ := Option.isSome_iff_exists.mp ((given_isSome H args w).mpr ha)
  rw [ht]
  refine congrArg some (Settings.ext_get fun o => ?_)
  rw [get_optionLoop o args ht, get_optionLoop o args hs, getD_default h]

theorem get_inPane (s : Settings) (cli : Text) (o : Opt) :
    (inPane s cli).get o = if o = .terminal then cli else s.get o := by
  cases o <;> rfl

section Pane
variable {H : Host} {cli : Text} {args : List Text} {v w : Vars} {s : Settings} (hcli : cli ∈ panes)
include hcli

/-- The settings of a pane. -/
theorem given_relayArgs (ha : Accepted args) : ∃ s',
    given H (relayArgs cli args ++ [terminalArg cli]) w = some s' ∧
      (∀ o, o ≠ .terminal → s'.get o =
        (lastValue o (relayArgs cli args)).getD ((defaultSettings H w.opts).get o)) ∧
      s'.get .terminal = cli := by
  obtain ⟨-, hb, he⟩ := terminalArg_spec hcli
  have hacc : Accepted (relayArgs cli args ++ [terminalArg cli]) := by
    intro i hi
    rcases List.mem_append.mp hi with hi | hi
    · have hm := List.mem_map_of_mem (f := branch) hi
      rw [branch_relayArgs cli ha] at hm
      obtain ⟨j, hj, hbj⟩ := List.mem_map.mp hm
      rw [← hbj]
      exact ha j hj
    · obtain rfl : i = terminalArg cli := by simpa using hi
      rw [hb]
      rfl
  obtain ⟨s', hs'⟩ := Option.isSome_iff_exists.mp ((given_isSome H _ w).mpr hacc)
  refine ⟨s', hs', fun o ho => ?_, ?_⟩
  · rw [get_optionLoop o _ hs', lastValue_concat, hb, if_neg (by simpa using Ne.symm ho),
      Option.none_or]
  · rw [get_optionLoop .terminal _ hs', lastValue_concat, hb, if_pos rfl, he]
    rfl

/-- **The settings in a pane** are those of the outer run, with the terminal of the pane, exactly if the
replacement is harmless and what the arguments do not give is the same in both shells. -/
theorem given_pane_iff (hs : given H args v = some s) :
    given H (relayArgs cli args ++ [terminalArg cli]) w = some (inPane s cli) ↔
      Harmless args ∧ SameShell args v w := by
  have hlen : ∀ cli ∈ panes, cli.length ≠ 4 := by decide
  have ha : Accepted args := (given_isSome H args v).mp (by rw [hs]; rfl)
  obtain ⟨s', hs', hget, hterm⟩ := given_relayArgs (H := H) (w := w) hcli ha
  have hnamed : ∀ o, (lastValue o (relayArgs cli args)).isSome = (lastValue o args).isSome :=
    fun o => lastValue_isSome_congr (branch_relayArgs cli ha)
  rw [hs', Option.some.injEq]
  constructor
  · rintro rfl
    have heq : ∀ o, o ≠ .terminal →
        (lastValue o args).getD ((defaultSettings H v.opts).get o) =
          (lastValue o (relayArgs cli args)).getD ((defaultSettings H w.opts).get o) := fun o ho => by
      rw [← hget o ho, get_inPane, if_neg ho, get_optionLoop o args hs]
    have hvalue : ∀ o, o ≠ .terminal → lastValue o (relayArgs cli args) = lastValue o args :=
      fun o ho => eq_of_getD_eq (hnamed o) (heq o ho).symm
    refine ⟨(lastValue_relayArgs (hlen cli hcli) ha).mp hvalue, fun o ho => ?_⟩
    by_cases hn : Names o args
    · exact Or.inl hn
    · refine Or.inr ?_
      have hterm : o ≠ .terminal := by
        rintro rfl
        simp [undefaulted] at ho
      have he := heq o hterm
      rw [hvalue o hterm, lastValue_eq_none.mpr hn, Option.getD_none, Option.getD_none,
        get_defaultSettings, get_defaultSettings H w.opts, if_pos ho, if_pos ho] at he
      exact he
  · rintro ⟨hh, hsame⟩
    refine Settings.ext_get fun o => ?_
    rw [get_inPane]
    split_ifs with ho
    · rw [ho, hterm]
    · rw [hget o ho, (lastValue_relayArgs (hlen cli hcli) ha).mpr hh o ho, ← getD_default hsame,
        get_optionLoop o args hs]

/-- **What a pane reads**: the arguments again, in the directory of the outer run. -/
theorem paneSettings_paneLines {hostAt : Text → Host} {dir : Text} (ha : Accepted args)
    (hv : ∀ i ∈ args, Verbatim i) (hd : Verbatim dir) (other : Text → Option (List Text)) :
    paneSettings hostAt other w (paneLines dir args cli) =
      given (hostAt dir) (relayArgs cli args ++ [terminalArg cli]) w := by
  unfold paneSettings paneLines
  rw [List.map_cons, List.map_cons, List.map_nil, typed_cdLine hd, typed_relayLine hcli ha hv]
  exact if_pos ⟨rfl, rfl, rfl⟩

end Pane

/-- **tmux preserves the settings** of a run whose arguments and directory stand for themselves
exactly if the first `tmux` in its arguments is harmless, and what the arguments do not give is the same in
the shells of the panes. -/
theorem relayed_iff (m : Mode) (hostAt : Text → Host) (dir : Text) (args : List Text) (v w : Vars)
    (ha : Accepted args) (hv : ∀ i ∈ args, Verbatim i) (hd : Verbatim dir) :
    ((m = .sourced → Ready (hostAt dir) args) →
      givenTerminal (hostAt dir) args = "tmux".toList → (hostAt dir).pwd = dir →
        typedKeys (launch m (hostAt dir) args v).acts = panes.flatMap (paneLines dir args)) ∧
    (Relayed hostAt dir args v w ↔ Harmless args ∧ SameShell args v w) := by
  refine ⟨fun hr ht hpwd => ?_, ?_⟩
  · rw [typedKeys_launch ha hr ht, hpwd]
  · obtain ⟨s, hs⟩ := Option.isSome_iff_exists.mp ((given_isSome (hostAt dir) args v).mpr ha)
    constructor
    · rintro ⟨t, ht, hall⟩
      have hcli : "cli-qemu".toList ∈ panes := by decide
      have h := hall (fun _ => none) _ hcli
      rw [paneSettings_paneLines hcli ha hv hd] at h
      exact (given_pane_iff hcli ht).mp h
    · intro h
      refine ⟨s, hs, fun other cli hcli => ?_⟩
      rw [paneSettings_paneLines hcli ha hv hd]
      exact (given_pane_iff hcli hs).mpr h

/-- A machine with tmux. -/
def tmuxHost : Host := { sampleHost with hasTmux := true }

/-- A shell in which an earlier run left its image, and a run that names another. -/
theorem relayed_iff_linux :
    typedKeys (launch .executed tmuxHost ["--kernel=/src/linux".toList, "--rootfs=new.qcow2".toList,
        "--terminal=tmux".toList] { opts := { rootfs := "old.qcow2".toList } }).acts =
      panes.flatMap (paneLines "/work".toList ["--kernel=/src/linux".toList,
        "--rootfs=new.qcow2".toList, "--terminal=tmux".toList]) ∧
    Relayed (fun _ => tmuxHost) "/work".toList ["--kernel=/src/linux".toList,
      "--rootfs=new.qcow2".toList, "--terminal=tmux".toList]
      { opts := { rootfs := "old.qcow2".toList } } {} := by
  obtain ⟨hkeys, hrelayed⟩ := relayed_iff .executed (fun _ => tmuxHost) "/work".toList
    ["--kernel=/src/linux".toList, "--rootfs=new.qcow2".toList, "--terminal=tmux".toList]
    { opts := { rootfs := "old.qcow2".toList } } {} (by decide) (by decide) (by decide)
  refine ⟨hkeys (by simp) (by decide) rfl, hrelayed.mpr ⟨?_, by decide⟩⟩
  rw [Harmless, if_neg (by decide), Harmless, if_neg (by decide), Harmless, if_pos (by decide)]
  exact Or.inl (by decide)

/-- A value with a blank is split in the panes, and its second word is not accepted. -/
theorem not_relayed_blank :
    Accepted ["--kernel=k".toList, "--append=quiet splash".toList] ∧
      givenTerminal tmuxHost ["--kernel=k".toList, "--append=quiet splash".toList] = "tmux".toList ∧
      ¬ Relayed (fun _ => tmuxHost) "/work".toList
        ["--kernel=k".toList, "--append=quiet splash".toList] {} {} := by
  refine ⟨by decide, by decide, ?_⟩
  rintro ⟨s, -, hall⟩
  have h := hall (fun _ => none) "cli-qemu".toList (by decide)
  have hcd : typed (fun _ => none) (cdLine "/work".toList) = some ["cd".toList, "/work".toList] := by
    decide +kernel
  have hline : typed (fun _ => none) (relayLine "cli-qemu".toList
      (joinWords ["--kernel=k".toList, "--append=quiet splash".toList])) =
      some ["source".toList, "./start-kernel.sh".toList, "--kernel=k".toList,
        "--append=quiet".toList, "splash".toList, "--terminal=cli-qemu".toList] := by decide +kernel
  have hn : given tmuxHost ["--kernel=k".toList, "--append=quiet".toList, "splash".toList,
      "--terminal=cli-qemu".toList] {} = none := by decide
  unfold paneSettings paneLines at h
  rw [List.map_cons, List.map_cons, List.map_nil, hcd, hline] at h
  dsimp only at h
  rw [if_pos ⟨rfl, rfl, rfl⟩, hn] at h
  simp at h

end Lightbox.Launcher.Relay
