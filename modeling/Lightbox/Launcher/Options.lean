import Lightbox.Shell.Lex

/-! # The options of the launcher

The option loop of `start-kernel.sh` matches each argument against ten patterns
`-name=*|--name=*` in order and assigns the text after the first `=` to the variable of the option;
the first argument that matches none is an error. A list of arguments is accepted if none is an
error (`optionLoop`). -/

namespace Lightbox.Launcher.Options

open Lightbox.Shell.Lex (Text)

/-- The options, in the order of the `case` patterns. -/
inductive Opt
  | kernel | initrd | rootfs | dtb | with | append | share | terminal | qemuDir | qemuExtra
  deriving DecidableEq, Repr

/-- The name in the pattern. -/
def Opt.name : Opt → Text
  | .kernel => "kernel".toList
  | .initrd => "initrd".toList
  | .rootfs => "rootfs".toList
  | .dtb => "dtb".toList
  | .with => "with".toList
  | .append => "append".toList
  | .share => "share".toList
  | .terminal => "terminal".toList
  | .qemuDir => "qemu-dir".toList
  | .qemuExtra => "qemu-extra".toList

def Opt.all : List Opt :=
  [.kernel, .initrd, .rootfs, .dtb, .with, .append, .share, .terminal, .qemuDir, .qemuExtra]

/-- The pattern `-name=*|--name=*`. -/
def Opt.pattern (o : Opt) (i : Text) : Bool :=
  ('-' :: (o.name ++ ['='])).isPrefixOf i || ('-' :: '-' :: (o.name ++ ['='])).isPrefixOf i

/-- The branch of the `case` an argument takes; `none` for the last one, `*`. -/
def branch (i : Text) : Option Opt := Opt.all.find? (·.pattern i)

/-- `${i#*=}`: what remains after the shortest prefix that ends in `=`. -/
def afterEq (i : Text) : Text := if '=' ∈ i then (i.dropWhile (· != '=')).tail else i

/-- The variables the options set. -/
structure Settings where
  kernel : Text := []
  initrd : Text := []
  rootfs : Text := []
  dtb : Text := []
  debugger : Text := []
  cmdline : Text := []
  shareFolder : Text := []
  terminal : Text := []
  qemuDir : Text := []
  qemuExtraParam : Text := []
  deriving DecidableEq, Repr

/-- The assignment in the branch of an option. -/
def Settings.set (s : Settings) (o : Opt) (v : Text) : Settings :=
  match o with
  | .kernel => { s with kernel := v }
  | .initrd => { s with initrd := v }
  | .rootfs => { s with rootfs := v }
  | .dtb => { s with dtb := v }
  | .with => { s with debugger := v }
  | .append => { s with cmdline := v }
  | .share => { s with shareFolder := v }
  | .terminal => { s with terminal := v }
  | .qemuDir => { s with qemuDir := v }
  | .qemuExtra => { s with qemuExtraParam := v }

/-- The variable of an option. -/
def Settings.get (s : Settings) : Opt → Text
  | .kernel => s.kernel
  | .initrd => s.initrd
  | .rootfs => s.rootfs
  | .dtb => s.dtb
  | .with => s.debugger
  | .append => s.cmdline
  | .share => s.shareFolder
  | .terminal => s.terminal
  | .qemuDir => s.qemuDir
  | .qemuExtra => s.qemuExtraParam

/-- The settings after the loop, if every argument is accepted. -/
def optionLoop (s : Settings) : List Text → Option Settings
  | [] => some s
  | i :: is => (branch i).bind fun o => optionLoop (s.set o (afterEq i)) is

/-! ### Settings -/

theorem Settings.get_set (s : Settings) (o o' : Opt) (v : Text) :
    (s.set o v).get o' = if o' = o then v else s.get o' := by
  cases o <;> cases o' <;> rfl

theorem Settings.ext_get {s s' : Settings} (h : ∀ o, s.get o = s'.get o) : s = s' := by
  obtain ⟨_, _, _, _, _, _, _, _, _, _⟩ := s
  obtain ⟨_, _, _, _, _, _, _, _, _, _⟩ := s'
  simp only [Settings.mk.injEq]
  exact ⟨h .kernel, h .initrd, h .rootfs, h .dtb, h .with, h .append, h .share, h .terminal,
    h .qemuDir, h .qemuExtra⟩

/-! ### The loop -/

/-- The value given to an option by the last argument that names it. -/
def lastValue (o : Opt) : List Text → Option Text
  | [] => none
  | i :: is => (lastValue o is).or (if branch i = some o then some (afterEq i) else none)

/-- The option is among the arguments. -/
def Names (o : Opt) (args : List Text) : Prop := ∃ i ∈ args, branch i = some o

instance (o : Opt) (args : List Text) : Decidable (Names o args) :=
  inferInstanceAs (Decidable (∃ i ∈ args, _))

/-- An option is given a value exactly if it is named. -/
theorem lastValue_isSome (o : Opt) : ∀ args : List Text, (lastValue o args).isSome ↔ Names o args
  | [] => by simp [lastValue, Names]
  | i :: is => by
    have ih := lastValue_isSome o is
    by_cases hb : branch i = some o
    · have hn : Names o (i :: is) := ⟨i, by simp, hb⟩
      simp [lastValue, hb, hn]
    · have hn : Names o (i :: is) ↔ Names o is := by simp [Names, hb]
      rw [hn, ← ih]
      simp [lastValue, hb]

theorem lastValue_eq_none {o : Opt} {args : List Text} : lastValue o args = none ↔ ¬ Names o args := by
  rw [← Option.not_isSome_iff_eq_none, lastValue_isSome]

/-- **The last argument that names an option wins.** -/
theorem get_optionLoop (o : Opt) : ∀ (is : List Text) {s s' : Settings},
    optionLoop s is = some s' → s'.get o = (lastValue o is).getD (s.get o)
  | [], s, s', h => by
    obtain rfl : s = s' := by simpa [optionLoop] using h
    rfl
  | i :: is, s, s', h => by
    obtain ⟨o', hb, h⟩ := Option.bind_eq_some_iff.mp h
    rw [get_optionLoop o is h, Settings.get_set, lastValue, hb]
    cases hl : lastValue o is with
    | some v => rfl
    | none =>
      by_cases ho : o = o'
      · simp [ho]
      · simp [ho, Ne.symm ho]

/-- The arguments are accepted whatever the settings are. -/
theorem optionLoop_isSome (is : List Text) : ∀ s : Settings,
    (optionLoop s is).isSome ↔ ∀ i ∈ is, (branch i).isSome := by
  induction is with
  | nil => intro s; simp [optionLoop]
  | cons i is ih =>
    intro s
    cases hb : branch i with
    | none => simp [optionLoop, hb]
    | some o => simp [optionLoop, hb, ih]

/-- An accepted argument begins with a dash and holds an equals sign. -/
theorem of_branch {i : Text} {o : Opt} (h : branch i = some o) :
    ∃ v, i = '-' :: (o.name ++ '=' :: v) ∨ i = '-' :: '-' :: (o.name ++ '=' :: v) := by
  have hp : o.pattern i = true := by simpa using List.find?_some h
  rcases Bool.or_eq_true_iff.mp hp with hp | hp
  · obtain ⟨v, hv⟩ := List.isPrefixOf_iff_prefix.mp hp
    exact ⟨v, Or.inl (by rw [← hv]; simp)⟩
  · obtain ⟨v, hv⟩ := List.isPrefixOf_iff_prefix.mp hp
    exact ⟨v, Or.inr (by rw [← hv]; simp)⟩

end Lightbox.Launcher.Options
