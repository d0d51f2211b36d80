import Mathlib.Data.List.Basic
import Mathlib.Tactic.Common

/-! # Reading a command line, character by character

The shell reads a command line one character at a time. What a character does depends on where the
reader stands (`Mode`): between words, inside a word, inside quotes, after a backslash, after a `$`
whose meaning the next character decides, or inside a comment. The characters of a word are kept
together with the way they are protected (`QChar`), since only unprotected ones are expanded later.

Two readers share this machine (`Rules`): the shell (`bash`), for which operators, comments, `$` and
backquotes are special, and the plain word splitter of a program that takes a command as one string
(`argv`), which knows blanks, quotes and backslashes only.

Reading is a fold (`run`), so the text `s ++ t` is read by reading `t` from where `s` ends
(`run_append`). The text of a substitution (`$x`, `$(…)`, `` `…` ``) is not read: the reader stops
there, for the result depends on the variables and commands of the moment. -/

namespace Lightbox.Shell.Lex

/-- The text of a command line, of a word, of a variable. -/
abbrev Text := List Char

/-- How a character of a word is protected. -/
inductive Mark
  | bare | escaped | single | double
  deriving DecidableEq, Repr

/-- A character of a word, with its protection. -/
structure QChar where
  c : Char
  m : Mark
  deriving DecidableEq, Repr

/-- The words, operators and comments of a command line. -/
inductive Token
  | word (w : List QChar)
  | op (c : Char)
  | comment
  deriving DecidableEq, Repr

/-- Where the reader stands. `esc w` follows a backslash outside quotes, `w` telling whether a word
had begun; `dollar q` follows a `$`, `q` telling whether inside double quotes. -/
inductive Mode
  | gap | bare | single | double
  | esc (w : Bool)
  | escDouble
  | dollar (q : Bool)
  | comment
  | stopped
  deriving DecidableEq, Repr

/-- The state of the reader: the tokens read, the characters of the word being read. -/
structure State where
  done : List Token
  cur : List QChar
  mode : Mode
  deriving DecidableEq, Repr

/-- What is special to a reader, besides quotes and backslashes. -/
structure Rules where
  isBlank : Char → Bool
  isOp : Char → Bool
  comments : Bool
  substs : Bool

/-- The characters that delimit operators. -/
def opChars : List Char := ['|', '&', ';', '(', ')', '<', '>', '\n']

/-- The shell. -/
def bash : Rules where
  isBlank c := c == ' ' || c == '\t'
  isOp c := opChars.contains c
  comments := true
  substs := true

/-- The splitter of a command string into words: quoting only. -/
def argv : Rules where
  isBlank c := c == ' ' || c == '\t' || c == '\n'
  isOp _ := false
  comments := false
  substs := false

/-- A letter, a digit or an underscore. -/
def isNameChar (c : Char) : Bool := c.isAlphanum || c == '_'

/-- After a `$`, the character `c` begins a substitution (or, outside quotes, a `$'…'` or `$"…"`). -/
def startsSubst (q : Bool) (c : Char) : Bool :=
  isNameChar c || ['{', '(', '[', '@', '*', '#', '?', '-', '$', '!'].contains c ||
    (!q && (c == '\'' || c == '"'))

/-- The characters a backslash escapes inside double quotes; a newline is dropped with it. -/
def escapable : List Char := ['$', '\x60', '"', '\\']

/-- Add a character to the word being read. -/
def State.push (s : State) (c : Char) (m : Mark) : State := { s with cur := s.cur ++ [⟨c, m⟩] }

/-- End the word being read. -/
def State.cut (s : State) : State := ⟨s.done ++ [.word s.cur], [], .gap⟩

/-- A character of a word outside quotes that is neither a blank, an operator nor a backslash. -/
def wordChar (R : Rules) (s : State) (c : Char) : State :=
  if c = '\'' then { s with mode := .single }
  else if c = '"' then { s with mode := .double }
  else if R.substs && c == '$' then { s with mode := .dollar false }
  else if R.substs && c == '\x60' then { s with mode := .stopped }
  else { s.push c .bare with mode := .bare }

/-- A character between words. -/
def gapChar (R : Rules) (s : State) (c : Char) : State :=
  if R.isBlank c then s
  else if R.isOp c then { s with done := s.done ++ [.op c] }
  else if R.comments && c == '#' then { s with done := s.done ++ [.comment], mode := .comment }
  else if c = '\\' then { s with mode := .esc false }
  else wordChar R s c

/-- A character after the beginning of a word, outside quotes. -/
def bareChar (R : Rules) (s : State) (c : Char) : State :=
  if R.isBlank c then s.cut
  else if R.isOp c then { s.cut with done := s.cut.done ++ [.op c] }
  else if c = '\\' then { s with mode := .esc true }
  else wordChar R s c

/-- A character inside double quotes. -/
def doubleChar (R : Rules) (s : State) (c : Char) : State :=
  if c = '"' then { s with mode := .bare }
  else if c = '\\' then { s with mode := .escDouble }
  else if R.substs && c == '$' then { s with mode := .dollar true }
  else if R.substs && c == '\x60' then { s with mode := .stopped }
  else { s.push c .double with mode := .double }

/-- Read one character. -/
def step (R : Rules) (s : State) (c : Char) : State :=
  match s.mode with
  | .gap => gapChar R s c
  | .bare => bareChar R s c
  | .single => if c = '\'' then { s with mode := .bare } else s.push c .single
  | .double => doubleChar R s c
  | .esc w =>
    -- a backslash and a newline join two lines
    if c = '\n' then { s with mode := if w then .bare else .gap }
    else { s.push c .escaped with mode := .bare }
  | .escDouble =>
    if c = '\n' then { s with mode := .double }
    else if escapable.contains c then { s.push c .double with mode := .double }
    else { (s.push '\\' .double).push c .double with mode := .double }
  | .dollar false =>
    if startsSubst false c then { s with mode := .stopped }
    else bareChar R { s.push '$' .bare with mode := .bare } c
  | .dollar true =>
    if startsSubst true c then { s with mode := .stopped }
    else doubleChar R { s.push '$' .double with mode := .double } c
  | .comment => if c = '\n' then { s with done := s.done ++ [.op c], mode := .gap } else s
  | .stopped => s

/-- Read a text. -/
def run (R : Rules) (s : State) (t : Text) : State := t.foldl (step R) s

/-- The state before the first character. -/
def init : State := ⟨[], [], .gap⟩

/-- The tokens at the end of the text; none inside open quotes, after a last backslash or where the
reader stopped. -/
def finish (s : State) : Option (List Token) :=
  match s.mode with
  | .gap | .comment => some s.done
  | .bare => some (s.done ++ [.word s.cur])
  | .dollar false => some (s.done ++ [.word (s.cur ++ [⟨'$', .bare⟩])])
  | _ => none

/-- **The tokens of a text**, if it holds no substitution and leaves no quote open. -/
def lex (R : Rules) (t : Text) : Option (List Token) := finish (run R init t)

/-- The characters of a word without their protection. -/
def text (w : List QChar) : Text := w.map (·.c)

/-- A word all of whose characters are protected alike. -/
def marked (m : Mark) (t : Text) : List QChar := t.map fun c => ⟨c, m⟩

@[simp] theorem text_marked (m : Mark) (t : Text) : text (marked m t) = t := by
  simp [text, marked, Function.comp_def]

@[simp] theorem text_append (v w : List QChar) : text (v ++ w) = text v ++ text w := by
  simp [text]

@[simp] theorem marked_append (m : Mark) (s t : Text) :
    marked m (s ++ t) = marked m s ++ marked m t := by simp [marked]

@[simp] theorem marked_cons (m : Mark) (c : Char) (t : Text) :
    marked m (c :: t) = ⟨c, m⟩ :: marked m t := rfl

@[simp] theorem marked_nil (m : Mark) : marked m [] = [] := rfl

/-! ### Reading is a fold -/

@[simp] theorem run_nil (R : Rules) (s : State) : run R s [] = s := rfl

@[simp] theorem run_cons (R : Rules) (s : State) (c : Char) (t : Text) :
    run R s (c :: t) = run R (step R s c) t := rfl

theorem run_append (R : Rules) (s : State) (t u : Text) :
    run R s (t ++ u) = run R (run R s t) u := List.foldl_append

/-! ### Single quotes -/

/-- Inside single quotes every character but the quote stands for itself. -/
theorem run_single (R : Rules) : ∀ (t : Text) (d : List Token) (w : List QChar), '\'' ∉ t →
    run R ⟨d, w, .single⟩ t = ⟨d, w ++ marked .single t, .single⟩
  | [], d, w, _ => by simp
  | c :: t, d, w, h => by
    have hc : c ≠ '\'' := fun hc => h (by simp [hc])
    have ht : '\'' ∉ t := fun ht => h (by simp [ht])
    have hs : step R ⟨d, w, .single⟩ c = ⟨d, w ++ [⟨c, .single⟩], .single⟩ := by
      simp [step, hc, State.push]
    rw [run_cons, hs, run_single R t d _ ht]
    simp

theorem step_single_close (R : Rules) (d : List Token) (w : List QChar) :
    step R ⟨d, w, .single⟩ '\'' = ⟨d, w, .bare⟩ := by simp [step]

/-! ### Characters that stand for themselves -/

/-- A character with no meaning to the shell at any place of a word: no blank, operator, quote,
backslash, expansion or comment character. -/
def plainChar (c : Char) : Bool :=
  !([' ', '\t', '\'', '"', '\\', '$', '\x60', '#', '~', '*', '?', '[', ']', '{', '}', '!'].contains c ||
    opChars.contains c)

/-- Rules under which a character in a word is not special. -/
structure Rules.Ordinary (R : Rules) (c : Char) : Prop where
  blank : R.isBlank c = false
  op : R.isOp c = false
  single : c ≠ '\''
  double : c ≠ '"'
  backslash : c ≠ '\\'
  dollar : (R.substs && c == '$') = false
  backquote : (R.substs && c == '\x60') = false

/-- An ordinary character joins the word, or begins one if it does not begin a comment. -/
theorem step_ordinary {R : Rules} {c : Char} (h : R.Ordinary c) (d : List Token) (w : List QChar)
    {m : Mode} (hm : m = .bare ∨ (m = .gap ∧ c ≠ '#')) :
    step R ⟨d, w, m⟩ c = ⟨d, w ++ [⟨c, .bare⟩], .bare⟩ := by
  have hw : wordChar R ⟨d, w, m⟩ c = ⟨d, w ++ [⟨c, .bare⟩], .bare⟩ := by
    simp [wordChar, h.single, h.double, h.dollar, h.backquote, State.push]
  rcases hm with rfl | ⟨rfl, hc⟩
  · simp only [step, bareChar, h.blank, h.op, h.backslash, hw]; simp
  · simp only [step, gapChar, h.blank, h.op, h.backslash, hw]; simp [hc]

/-- Ordinary characters form one word. -/
theorem run_ordinary {R : Rules} : ∀ (t : Text) (d : List Token) (w : List QChar),
    (∀ c ∈ t, R.Ordinary c) → run R ⟨d, w, .bare⟩ t = ⟨d, w ++ marked .bare t, .bare⟩
  | [], d, w, _ => by simp
  | c :: t, d, w, h => by
    rw [run_cons, step_ordinary (h c (by simp)) d w (Or.inl rfl),
      run_ordinary t d _ fun c' hc' => h c' (by simp [hc'])]
    simp

/-- Ordinary characters begin a word. -/
theorem run_ordinary_gap {R : Rules} {t : Text} (d : List Token) (h : ∀ c ∈ t, R.Ordinary c)
    (ht : t ≠ []) (hh : t.head? ≠ some '#') : run R ⟨d, [], .gap⟩ t = ⟨d, marked .bare t, .bare⟩ := by
  obtain ⟨c, t, rfl⟩ := List.exists_cons_of_ne_nil ht
  rw [run_cons, step_ordinary (h c (by simp)) d [] (Or.inr ⟨rfl, by simpa using hh⟩),
    run_ordinary t d _ fun c' hc' => h c' (by simp [hc'])]
  simp

theorem not_mem_of_plainChar {c : Char} (h : plainChar c = true) :
    c ∉ [' ', '\t', '\'', '"', '\\', '$', '\x60', '#', '~', '*', '?', '[', ']', '{', '}', '!'] ∧
      c ∉ opChars := by
  simpa only [plainChar, Bool.not_eq_true', Bool.or_eq_false_iff, List.contains_eq_mem,
    decide_eq_false_iff_not] using h

/-- A plain character is ordinary to the shell. -/
theorem ordinary_of_plainChar {c : Char} (h : plainChar c = true) : bash.Ordinary c := by
  obtain ⟨h1, h2⟩ := not_mem_of_plainChar h
  simp only [List.mem_cons, List.not_mem_nil, or_false, not_or] at h1
  constructor <;> simp_all [bash]

/-! ### The end of a word -/

/-- What holds in every state the reader comes to: no word is begun between words, and a comment is
among the tokens while it is read. -/
structure State.Tidy (s : State) : Prop where
  gap : s.mode = .gap → s.cur = []
  esc : s.mode = .esc false → s.cur = []
  comment : s.mode = .comment → s.cur = [] ∧ .comment ∈ s.done

theorem tidy_init : init.Tidy := ⟨fun _ => rfl, fun _ => rfl, fun h => by simp [init] at h⟩

theorem tidy_cut (s : State) : s.cut.Tidy := ⟨fun _ => rfl, fun _ => rfl, fun h => by simp [State.cut] at h⟩

/-- A state in a word is tidy. -/
theorem tidy_of_mode {s : State} (h1 : s.mode ≠ .gap) (h2 : s.mode ≠ .esc false)
    (h3 : s.mode ≠ .comment) : s.Tidy :=
  ⟨fun h => absurd h h1, fun h => absurd h h2, fun h => absurd h h3⟩

theorem tidy_wordChar (R : Rules) (s : State) (c : Char) : (wordChar R s c).Tidy := by
  unfold wordChar
  split_ifs <;> exact tidy_of_mode (by simp) (by simp) (by simp)

theorem tidy_bareChar (R : Rules) (s : State) (c : Char) : (bareChar R s c).Tidy := by
  unfold bareChar
  split_ifs
  · exact tidy_cut s
  · exact ⟨fun _ => rfl, fun _ => rfl, fun h => by simp [State.cut] at h⟩
  · exact tidy_of_mode (by simp) (by simp) (by simp)
  · exact tidy_wordChar R s c

theorem tidy_doubleChar (R : Rules) (s : State) (c : Char) : (doubleChar R s c).Tidy := by
  unfold doubleChar
  split_ifs <;> exact tidy_of_mode (by simp) (by simp) (by simp)

theorem tidy_step (R : Rules) {s : State} (h : s.Tidy) (c : Char) : (step R s c).Tidy := by
  obtain ⟨d, w, m⟩ := s
  cases m with
  | gap =>
    have hw : w = [] := h.gap rfl
    simp only [step, gapChar]
    split_ifs
    · exact h
    · exact ⟨fun _ => hw, fun _ => hw, fun h => by simp at h⟩
    · exact ⟨fun h => by simp at h, fun h => by simp at h, fun _ => ⟨hw, by simp⟩⟩
    · exact ⟨fun h => by simp at h, fun _ => hw, fun h => by simp at h⟩
    · exact tidy_wordChar R _ c
  | bare => exact tidy_bareChar R _ c
  | single =>
    simp only [step]
    split_ifs <;> exact tidy_of_mode (by simp [State.push]) (by simp [State.push]) (by simp [State.push])
  | double => exact tidy_doubleChar R _ c
  | esc b =>
    by_cases hc : c = '\n'
    · cases b with
      | false =>
        have hw : w = [] := h.esc rfl
        simp only [step, if_pos hc]
        exact ⟨fun _ => hw, fun _ => hw, fun h => by simp at h⟩
      | true =>
        simp only [step, if_pos hc]
        exact tidy_of_mode (by simp) (by simp) (by simp)
    · simp only [step, if_neg hc]
      exact tidy_of_mode (by simp) (by simp) (by simp)
  | escDouble =>
    simp only [step]
    split_ifs <;> exact tidy_of_mode (by simp) (by simp) (by simp)
  | dollar q =>
    cases q with
    | false =>
      simp only [step]
      split_ifs
      · exact tidy_of_mode (by simp) (by simp) (by simp)
      · exact tidy_bareChar R _ c
    | true =>
      simp only [step]
      split_ifs
      · exact tidy_of_mode (by simp) (by simp) (by simp)
      · exact tidy_doubleChar R _ c
  | comment =>
    obtain ⟨hw, -⟩ := h.comment rfl
    simp only [step]
    split_ifs
    · exact ⟨fun _ => hw, fun _ => hw, fun h => by simp at h⟩
    · exact h
  | stopped => exact h

theorem tidy_run (R : Rules) : ∀ (t : Text) {s : State}, s.Tidy → (run R s t).Tidy
  | [], _, h => h
  | c :: t, _, h => tidy_run R t (tidy_step R h c)

theorem step_blank {R : Rules} {s : State} {ws : List (List QChar)} (hb : R.isBlank ' ' = true)
    (ht : s.Tidy) (h : finish s = some (ws.map .word)) :
    step R s ' ' = ⟨ws.map .word, [], .gap⟩ := by
  obtain ⟨d, w, m⟩ := s
  cases m with
  | gap =>
    obtain rfl : w = [] := ht.gap rfl
    obtain rfl : d = ws.map .word := by simpa [finish] using h
    simp [step, gapChar, hb]
  | bare =>
    have hd : d ++ [.word w] = ws.map .word := by simpa [finish] using h
    simp [step, bareChar, hb, State.cut, hd]
  | dollar q =>
    cases q with
    | false =>
      have hd : d ++ [.word (w ++ [⟨'$', .bare⟩])] = ws.map .word := by simpa [finish] using h
      have hs : startsSubst false ' ' = false := by decide
      simp [step, hs, bareChar, hb, State.cut, State.push, hd]
    | true => simp [finish] at h
  | comment =>
    -- a comment would be among the tokens
    obtain ⟨-, hc⟩ := ht.comment rfl
    obtain rfl : d = ws.map .word := by simpa [finish] using h
    simp at hc
  | single => simp [finish] at h
  | double => simp [finish] at h
  | esc b => simp [finish] at h
  | escDouble => simp [finish] at h
  | stopped => simp [finish] at h

/-- **A blank ends the last word** of a text that consists of words. -/
theorem run_blank {R : Rules} {s : State} {t : Text} {ws : List (List QChar)}
    (hb : R.isBlank ' ' = true) (hs : s.Tidy) (h : finish (run R s t) = some (ws.map .word))
    (u : Text) : run R s (t ++ ' ' :: u) = run R ⟨ws.map .word, [], .gap⟩ u := by
  rw [run_append, run_cons, step_blank hb (tidy_run R t hs) h]

/-! ### A word only grows -/

/-- The reader is in a word, or has stopped. -/
def Mode.InWord : Mode → Prop
  | .bare | .single | .double | .escDouble | .dollar _ | .stopped => True
  | .esc w => w = true
  | .gap | .comment => False

/-- The word goes on. -/
def Grows (s s' : State) : Prop := s'.mode.InWord ∧ s'.done = s.done ∧ s.cur <+: s'.cur

/-- The word, or a longer one, is among the tokens. -/
def Ends (s s' : State) : Prop := ∃ w, s.cur <+: w ∧ s.done ++ [.word w] <+: s'.done

theorem grows_wordChar (R : Rules) (s : State) (c : Char) : Grows s (wordChar R s c) := by
  unfold wordChar
  split_ifs
  · exact ⟨trivial, rfl, List.prefix_refl _⟩
  · exact ⟨trivial, rfl, List.prefix_refl _⟩
  · exact ⟨trivial, rfl, List.prefix_refl _⟩
  · exact ⟨trivial, rfl, List.prefix_refl _⟩
  · exact ⟨trivial, rfl, List.prefix_append _ _⟩

theorem grows_doubleChar (R : Rules) (s : State) (c : Char) : Grows s (doubleChar R s c) := by
  unfold doubleChar
  split_ifs
  · exact ⟨trivial, rfl, List.prefix_refl _⟩
  · exact ⟨trivial, rfl, List.prefix_refl _⟩
  · exact ⟨trivial, rfl, List.prefix_refl _⟩
  · exact ⟨trivial, rfl, List.prefix_refl _⟩
  · exact ⟨trivial, rfl, List.prefix_append _ _⟩

theorem grows_bareChar (R : Rules) (s : State) (c : Char) :
    Grows s (bareChar R s c) ∨ Ends s (bareChar R s c) := by
  unfold bareChar
  split_ifs
  · exact Or.inr ⟨s.cur, List.prefix_refl _, List.prefix_refl _⟩
  · exact Or.inr ⟨s.cur, List.prefix_refl _, List.prefix_append _ _⟩
  · exact Or.inl ⟨rfl, rfl, List.prefix_refl _⟩
  · exact Or.inl (grows_wordChar R s c)

/-- **In a word, a character goes on with it or ends it.** -/
theorem step_inWord (R : Rules) {s : State} (hm : s.mode.InWord) (c : Char) :
    Grows s (step R s c) ∨ Ends s (step R s c) := by
  obtain ⟨d, w, m⟩ := s
  cases m with
  | gap => exact absurd hm id
  | comment => exact absurd hm id
  | bare => exact grows_bareChar R _ c
  | single =>
    simp only [step]
    split_ifs
    · exact Or.inl ⟨trivial, rfl, List.prefix_refl _⟩
    · exact Or.inl ⟨trivial, rfl, List.prefix_append _ _⟩
  | double => exact Or.inl (grows_doubleChar R _ c)
  | esc b =>
    obtain rfl : b = true := hm
    simp only [step]
    split_ifs
    · exact Or.inl ⟨trivial, rfl, List.prefix_refl _⟩
    · exact Or.inl ⟨trivial, rfl, List.prefix_append _ _⟩
  | escDouble =>
    simp only [step]
    split_ifs
    · exact Or.inl ⟨trivial, rfl, List.prefix_refl _⟩
    · exact Or.inl ⟨trivial, rfl, List.prefix_append _ _⟩
    · exact Or.inl ⟨trivial, rfl, (List.prefix_append _ _).trans (List.prefix_append _ _)⟩
  | dollar q =>
    cases q with
    | false =>
      simp only [step]
      split_ifs
      · exact Or.inl ⟨trivial, rfl, List.prefix_refl _⟩
      · rcases grows_bareChar R ⟨d, w ++ [⟨'$', .bare⟩], .bare⟩ c with ⟨h1, h2, h3⟩ | ⟨v, h1, h2⟩
        · exact Or.inl ⟨h1, h2, (List.prefix_append _ _).trans h3⟩
        · exact Or.inr ⟨v, (List.prefix_append _ _).trans h1, h2⟩
    | true =>
      simp only [step]
      split_ifs
      · exact Or.inl ⟨trivial, rfl, List.prefix_refl _⟩
      · obtain ⟨h1, h2, h3⟩ := grows_doubleChar R ⟨d, w ++ [⟨'$', .double⟩], .double⟩ c
        exact Or.inl ⟨h1, h2, (List.prefix_append _ _).trans h3⟩
  | stopped => exact Or.inl ⟨hm, rfl, List.prefix_refl _⟩

/-- The tokens that were read stay. -/
theorem done_step (R : Rules) (s : State) (c : Char) : s.done <+: (step R s c).done := by
  by_cases hm : s.mode.InWord
  · rcases step_inWord R hm c with ⟨-, h, -⟩ | ⟨w, -, h⟩
    · exact h.symm ▸ List.prefix_refl _
    · exact (List.prefix_append _ _).trans h
  obtain ⟨d, w, m⟩ := s
  cases m with
  | gap =>
    simp only [step, gapChar]
    split_ifs
    · exact List.prefix_refl _
    · exact List.prefix_append _ _
    · exact List.prefix_append _ _
    · exact List.prefix_refl _
    · exact (grows_wordChar R _ c).2.1.symm ▸ List.prefix_refl _
  | comment =>
    simp only [step]
    split_ifs
    · exact List.prefix_append _ _
    · exact List.prefix_refl _
  | esc b =>
    simp only [step]
    split_ifs <;> exact List.prefix_refl _
  | bare => exact absurd trivial hm
  | single => exact absurd trivial hm
  | double => exact absurd trivial hm
  | escDouble => exact absurd trivial hm
  | dollar q => exact absurd trivial hm
  | stopped => exact absurd trivial hm

theorem done_run (R : Rules) : ∀ (t : Text) (s : State), s.done <+: (run R s t).done
  | [], _ => List.prefix_refl _
  | c :: t, s => (done_step R s c).trans (done_run R t (step R s c))

theorem done_finish {s : State} {ts : List Token} (h : finish s = some ts) : s.done <+: ts := by
  obtain ⟨d, w, m⟩ := s
  unfold finish at h
  split at h
  · obtain rfl := Option.some.inj h
    exact List.prefix_refl _
  · obtain rfl := Option.some.inj h
    exact List.prefix_refl _
  · obtain rfl := Option.some.inj h
    exact List.prefix_append _ _
  · obtain rfl := Option.some.inj h
    exact List.prefix_append _ _
  · simp at h

/-- **The word being read is a beginning of the next word** among the tokens. -/
theorem word_extends (R : Rules) : ∀ (t : Text) {s : State} {ts : List Token}, s.mode.InWord →
    finish (run R s t) = some ts → ∃ w us, ts = s.done ++ .word w :: us ∧ s.cur <+: w
  | [], ⟨d, w, m⟩, ts, hm, h => by
    cases m with
    | gap => exact absurd hm (by simp [Mode.InWord])
    | comment => exact absurd hm (by simp [Mode.InWord])
    | bare => exact ⟨w, [], by simpa [finish] using h.symm, List.prefix_refl _⟩
    | dollar q =>
      cases q with
      | false => exact ⟨_, [], by simpa [finish] using h.symm, List.prefix_append _ _⟩
      | true => simp [finish] at h
    | single => simp [finish] at h
    | double => simp [finish] at h
    | esc b => simp [finish] at h
    | escDouble => simp [finish] at h
    | stopped => simp [finish] at h
  | c :: t, s, ts, hm, h => by
    rcases step_inWord R hm c with ⟨hm', hd, hc⟩ | ⟨w, hw, hcut⟩
    · obtain ⟨w, us, hts, hw⟩ := word_extends R t hm' h
      exact ⟨w, us, by rw [hts, hd], hc.trans hw⟩
    · obtain ⟨us, hus⟩ := hcut.trans ((done_run R t _).trans (done_finish h))
      exact ⟨w, us, by rw [← hus]; simp, hw⟩

end Lightbox.Shell.Lex
