import Lightbox.Shell.Lex
import Mathlib.Algebra.GroupWithZero.Nat

/-! # Quoting costs characters

Every quote, and every backslash that escapes, is a character of the text that is in no word. So the
words of a text are together no longer than the text, and shorter as soon as a single quote occurs
in it outside single quotes (`held_lt_of_quote`). Inside double quotes the same holds for a double quote
and for a backslash that escapes (`held_lt_of_not_keeps`). The bounds are two potentials of the reader's state
that grow by at most one with each character: `held`, the characters read that may still go into
words, and `owed`, which counts an open quote as well. -/

namespace Lightbox.Shell.Size

open Lightbox.Shell.Lex

/-- The characters in a token. -/
def tokenSize : Token → ℕ
  | .word w => w.length
  | _ => 0

/-- The characters in the words of a text. -/
def size (ts : List Token) : ℕ := (ts.map tokenSize).sum

@[simp] theorem size_nil : size [] = 0 := rfl

@[simp] theorem size_cons (t : Token) (ts : List Token) : size (t :: ts) = tokenSize t + size ts := by
  simp [size]

@[simp] theorem size_append (ts us : List Token) : size (ts ++ us) = size ts + size us := by
  simp [size]

/-- The characters read whose place is decided by the next one. -/
def pending : Mode → ℕ
  | .dollar _ | .escDouble => 1
  | _ => 0

/-- The mode was entered by a character that is in no word. -/
def opened : Mode → ℕ
  | .single | .double | .esc _ | .escDouble | .dollar true => 1
  | _ => 0

/-- The characters that are in words or may still come into one. -/
def held (s : State) : ℕ := size s.done + s.cur.length + pending s.mode

/-- As `held`, counting the character that opened the mode. -/
def owed (s : State) : ℕ := held s + opened s.mode

/-! ### One character -/

variable (R : Rules)

theorem held_le_owed (s : State) : held s ≤ owed s := Nat.le_add_right _ _

theorem owed_wordChar (s : State) (c : Char) : owed (wordChar R s c) ≤ held s + 1 := by
  unfold wordChar
  split_ifs <;> simp [owed, held, pending, opened, State.push] <;> omega

theorem owed_gapChar (s : State) (c : Char) (h : s.mode = .gap) :
    owed (gapChar R s c) ≤ held s + 1 := by
  unfold gapChar
  split_ifs
  · simp [owed, held, h, opened]
  · simp [owed, held, h, opened, pending, tokenSize]
  · simp [owed, held, opened, pending, tokenSize]; omega
  · simp [owed, held, h, opened, pending]
  · exact owed_wordChar R s c

theorem owed_bareChar (s : State) (c : Char) (h : s.mode = .bare) :
    owed (bareChar R s c) ≤ held s + 1 := by
  unfold bareChar
  split_ifs
  · simp [owed, held, h, opened, pending, State.cut, tokenSize]
  · simp [owed, held, h, opened, pending, State.cut, tokenSize]
  · simp [owed, held, h, opened, pending]
  · exact owed_wordChar R s c

theorem owed_doubleChar (s : State) (c : Char) (h : s.mode = .double) :
    held (doubleChar R s c) ≤ held s + 1 ∧ owed (doubleChar R s c) ≤ held s + 2 := by
  unfold doubleChar
  split_ifs <;> simp [owed, held, h, opened, pending, State.push]
  omega

/-- A character adds at most one to both potentials. -/
theorem step_le (s : State) (c : Char) :
    held (step R s c) ≤ held s + 1 ∧ owed (step R s c) ≤ owed s + 1 := by
  obtain ⟨d, w, m⟩ := s
  have ho := held_le_owed (step R ⟨d, w, m⟩ c)
  cases m with
  | gap =>
    have h : owed (step R ⟨d, w, .gap⟩ c) ≤ _ := owed_gapChar R ⟨d, w, .gap⟩ c rfl
    have hs := held_le_owed ⟨d, w, .gap⟩
    omega
  | bare =>
    have h : owed (step R ⟨d, w, .bare⟩ c) ≤ _ := owed_bareChar R ⟨d, w, .bare⟩ c rfl
    have hs := held_le_owed ⟨d, w, .bare⟩
    omega
  | single =>
    simp only [step]
    split_ifs <;> simp [owed, held, opened, pending, State.push] <;> omega
  | double =>
    obtain ⟨h1, h2⟩ := owed_doubleChar R ⟨d, w, .double⟩ c rfl
    exact ⟨h1, h2⟩
  | esc b =>
    simp only [step]
    cases b <;> split_ifs <;> simp [owed, held, opened, pending, State.push] <;> omega
  | escDouble =>
    simp only [step]
    split_ifs <;> simp [owed, held, opened, pending, State.push] <;> omega
  | dollar q =>
    cases q with
    | false =>
      simp only [step, State.push] at ho ⊢
      split_ifs at ho ⊢
      · simp [owed, held, opened, pending]; omega
      · have h := owed_bareChar R ⟨d, w ++ [⟨'$', .bare⟩], .bare⟩ c rfl
        have hh : held ⟨d, w ++ [⟨'$', .bare⟩], .bare⟩ = held ⟨d, w, .dollar false⟩ := by
          simp [held, pending]; omega
        have hd : owed ⟨d, w, .dollar false⟩ = held ⟨d, w, .dollar false⟩ := rfl
        omega
    | true =>
      simp only [step, State.push] at ho ⊢
      split_ifs at ho ⊢
      · simp [owed, held, opened, pending]; omega
      · obtain ⟨h1, h2⟩ := owed_doubleChar R ⟨d, w ++ [⟨'$', .double⟩], .double⟩ c rfl
        have hh : held ⟨d, w ++ [⟨'$', .double⟩], .double⟩ = held ⟨d, w, .dollar true⟩ := by
          simp [held, pending]; omega
        have hd : owed ⟨d, w, .dollar true⟩ = held ⟨d, w, .dollar true⟩ + 1 := rfl
        omega
  | comment =>
    simp only [step]
    split_ifs <;> simp [owed, held, opened, pending, tokenSize]
  | stopped => simp [step, owed, held, opened, pending]

/-- A single quote adds no character, or stands after one that added none. -/
theorem held_step_quote (s : State) : held (step R s '\'') ≤ owed s := by
  obtain ⟨d, w, m⟩ := s
  cases m with
  | gap =>
    simp only [step, gapChar, wordChar]
    split_ifs <;> simp_all [owed, held, opened, pending, tokenSize]
  | bare =>
    simp only [step, bareChar, wordChar]
    split_ifs <;> simp_all [owed, held, opened, pending, tokenSize, State.cut]
  | single => simp [step, owed, held, opened, pending]
  | double => simp [step, doubleChar, owed, held, opened, pending, State.push]; omega
  | esc b => simp [step, owed, held, opened, pending, State.push]; omega
  | escDouble => simp [step, escapable, owed, held, opened, pending, State.push]; omega
  | dollar q =>
    cases q with
    | false => simp [step, startsSubst, owed, held, opened, pending]
    | true =>
      have hq : startsSubst true '\'' = false := by decide
      simp [step, hq, doubleChar, owed, held, opened, pending, State.push]; omega
  | comment => simp [step, owed, held, opened, pending]
  | stopped => simp [step, owed, held, opened, pending]

/-! ### A text -/

theorem run_le : ∀ (t : Text) (s : State),
    held (run R s t) ≤ held s + t.length ∧ owed (run R s t) ≤ owed s + t.length
  | [], s => by simp
  | c :: t, s => by
    obtain ⟨h1, h2⟩ := step_le R s c
    obtain ⟨h3, h4⟩ := run_le t (step R s c)
    simp only [run_cons, List.length_cons]
    omega

/-- The words are together no longer than what is held. -/
theorem size_finish {s : State} {ts : List Token} (h : finish s = some ts) : size ts ≤ held s := by
  obtain ⟨d, w, m⟩ := s
  cases m with
  | dollar q => cases q <;> simp [finish] at h; subst h; simp [held, pending, tokenSize]; omega
  | bare => simp [finish] at h; subst h; simp [held, tokenSize]
  | gap => simp [finish] at h; subst h; simp [held]; omega
  | comment => simp [finish] at h; subst h; simp [held]; omega
  | single => simp [finish] at h
  | double => simp [finish] at h
  | esc b => simp [finish] at h
  | escDouble => simp [finish] at h
  | stopped => simp [finish] at h

/-- **A single quote costs a character.** -/
theorem held_lt_of_quote {t : Text} (s : State) (hq : '\'' ∈ t) :
    held (run R s t) < owed s + t.length := by
  obtain ⟨u, v, rfl⟩ := List.append_of_mem hq
  rw [run_append, run_cons]
  have h1 := (run_le R u s).2
  have h2 := held_step_quote R (run R s u)
  have h3 := (run_le R v (step R (run R s u) '\'')).1
  simp only [List.length_append, List.length_cons]
  omega

/-- From inside single quotes: the closing quote is in no word, and neither are two more characters
if another quote follows it. -/
theorem size_of_single {d : List Token} {w : List QChar} {u v : Text} {ts : List Token}
    (hu : '\'' ∉ u) (h : finish (run R ⟨d, w, .single⟩ (u ++ '\'' :: v)) = some ts) :
    size ts ≤ size d + w.length + u.length + v.length ∧
      ('\'' ∈ v → size ts < size d + w.length + u.length + v.length) := by
  rw [run_append, run_single R u d w hu, run_cons, step_single_close] at h
  have hs := size_finish h
  have hb : held ⟨d, w ++ marked .single u, .bare⟩ = size d + w.length + u.length := by
    simp [held, pending, marked]; omega
  have hob : owed ⟨d, w ++ marked .single u, .bare⟩ = size d + w.length + u.length := hb
  refine ⟨?_, fun hv => ?_⟩
  · have := (run_le R v ⟨d, w ++ marked .single u, .bare⟩).1
    omega
  · have := held_lt_of_quote R ⟨d, w ++ marked .single u, .bare⟩ hv
    omega

/-- No text that ends inside single quotes is complete. -/
theorem quote_mem_of_single {d : List Token} {w : List QChar} {t : Text} {ts : List Token}
    (h : finish (run R ⟨d, w, .single⟩ t) = some ts) : '\'' ∈ t := by
  by_contra hq
  rw [run_single R t d w hq] at h
  simp [finish] at h

/-- A double quote right after a single one ends a text only if it closes double quotes; it adds no
character then. -/
theorem size_of_quote_double {s : State} {ts : List Token}
    (h : finish (step argv (step argv s '\'') '"') = some ts) :
    size ts ≤ held (step argv s '\'') := by
  have hl := size_finish h
  obtain ⟨d, w, m⟩ := s
  cases m with
  | gap => simp [step, gapChar, wordChar, argv, finish, State.push] at h
  | bare => simp [step, bareChar, wordChar, argv, finish, State.push] at h
  | single => simp [step, bareChar, wordChar, argv, finish] at h
  | double => simpa [step, doubleChar, argv, held, pending, State.push] using hl
  | esc b => simp [step, bareChar, wordChar, argv, finish] at h
  | escDouble => simpa [step, doubleChar, argv, held, pending, State.push, escapable] using hl
  | dollar q =>
    have hq : startsSubst true '\'' = false := by decide
    cases q with
    | false => simp [step, startsSubst, finish] at h
    | true => simpa [step, hq, doubleChar, argv, held, pending, State.push] using hl
  | comment => simpa [step] using hl
  | stopped => simp [step, finish] at h

/-! ### Inside double quotes, without substitutions -/

/-- The text stands for itself inside double quotes: it holds no double quote, and no backslash
directly before a dollar sign, a backquote, a backslash or a newline. -/
def keeps : Text → Bool
  | [] => true
  | [c] => c != '"'
  | c :: c' :: t =>
    c != '"' && !(c == '\\' && (c' == '\n' || escapable.contains c')) && keeps (c' :: t)

variable {R}

theorem step_double {c : Char} (hR : R.substs = false) (d : List Token) (w : List QChar)
    (h1 : c ≠ '"') (h2 : c ≠ '\\') :
    step R ⟨d, w, .double⟩ c = ⟨d, w ++ [⟨c, .double⟩], .double⟩ := by
  simp [step, doubleChar, h1, h2, hR, State.push]

/-- A backslash before any other character stands for itself. -/
theorem run_backslash {c : Char} (hR : R.substs = false) (d : List Token) (w : List QChar)
    (t : Text) (h1 : c ≠ '\n') (h2 : c ∉ escapable) :
    run R ⟨d, w, .double⟩ ('\\' :: c :: t) = run R ⟨d, w ++ [⟨'\\', .double⟩], .double⟩ (c :: t) := by
  have h3 : c ≠ '"' := fun h => h2 (by simp [h, escapable])
  have h4 : c ≠ '\\' := fun h => h2 (by simp [h, escapable])
  have he : step R ⟨d, w, .double⟩ '\\' = ⟨d, w, .escDouble⟩ := by simp [step, doubleChar]
  have hc : step R ⟨d, w, .escDouble⟩ c = ⟨d, w ++ [⟨'\\', .double⟩] ++ [⟨c, .double⟩], .double⟩ := by
    simp [step, h1, h2, State.push]
  rw [run_cons, run_cons, run_cons, he, hc, step_double hR _ _ h3 h4]

/-- **A text that keeps** is read as it stands. -/
theorem run_keeps (hR : R.substs = false) : ∀ (t : Text) (d : List Token) (w : List QChar),
    keeps t = true → t.getLast? ≠ some '\\' →
      run R ⟨d, w, .double⟩ t = ⟨d, w ++ marked .double t, .double⟩
  | [], d, w, _, _ => by simp
  | [c], d, w, hk, hl => by
    have h1 : c ≠ '"' := by simpa [keeps] using hk
    have h2 : c ≠ '\\' := by simpa using hl
    simp [step_double hR d w h1 h2]
  | c :: c' :: t, d, w, hk, hl => by
    simp only [keeps, Bool.and_eq_true, bne_iff_ne, ne_eq, Bool.not_eq_true'] at hk
    obtain ⟨⟨h1, h2⟩, h3⟩ := hk
    have hl' : (c' :: t).getLast? ≠ some '\\' := by simpa [List.getLast?_cons_cons] using hl
    have ih := run_keeps hR (c' :: t) d (w ++ [⟨c, .double⟩]) h3 hl'
    by_cases hb : c = '\\'
    · subst hb
      have hc : c' ≠ '\n' ∧ c' ∉ escapable := by simpa using h2
      rw [run_backslash hR d w t hc.1 hc.2, ih]
      simp
    · rw [run_cons, step_double hR d w h1 hb, ih]
      simp

/-- **A text that does not keep** loses a character. -/
theorem held_lt_of_not_keeps (hR : R.substs = false) :
    ∀ (t : Text) (d : List Token) (w : List QChar), keeps t = false →
      held (run R ⟨d, w, .double⟩ t) < size d + w.length + t.length
  | [], d, w, h => by simp [keeps] at h
  | [c], d, w, h => by
    have hc : c = '"' := by simpa [keeps] using h
    subst hc
    simp [step, doubleChar, held, pending]
  | c :: c' :: t, d, w, h => by
    by_cases h1 : c = '"'
    · subst h1
      have hs : step R ⟨d, w, .double⟩ '"' = ⟨d, w, .bare⟩ := by simp [step, doubleChar]
      have hr := (run_le R (c' :: t) ⟨d, w, .bare⟩).1
      rw [run_cons, hs]
      simp only [held, pending, List.length_cons] at hr ⊢
      omega
    by_cases hb : c = '\\'
    · subst hb
      by_cases he : c' = '\n' ∨ c' ∈ escapable
      · -- the backslash is dropped
        have hs : held (run R ⟨d, w, .double⟩ ['\\', c']) ≤ size d + w.length + 1 := by
          have h0 : step R ⟨d, w, .double⟩ '\\' = ⟨d, w, .escDouble⟩ := by simp [step, doubleChar]
          rw [run_cons, h0, run_cons, run_nil]
          by_cases hn : c' = '\n'
          · simp [step, hn, held, pending]
          · simp [step, hn, he.resolve_left hn, held, pending, State.push]; omega
        have hr := (run_le R t (run R ⟨d, w, .double⟩ ['\\', c'])).1
        have hsplit : run R ⟨d, w, .double⟩ ('\\' :: c' :: t) =
            run R (run R ⟨d, w, .double⟩ ['\\', c']) t := rfl
        rw [hsplit]
        simp only [List.length_cons]
        omega
      · have hc : c' ≠ '\n' ∧ c' ∉ escapable := by simpa using he
        have hk : keeps (c' :: t) = false := by simpa [keeps, hc.1, hc.2] using h
        have ih := held_lt_of_not_keeps hR (c' :: t) d (w ++ [⟨'\\', .double⟩]) hk
        rw [run_backslash hR d w t hc.1 hc.2]
        simp only [List.length_append, List.length_cons, List.length_nil] at ih ⊢
        omega
    · have hk : keeps (c' :: t) = false := by simpa [keeps, h1, hb] using h
      have ih := held_lt_of_not_keeps hR (c' :: t) d (w ++ [⟨c, .double⟩]) hk
      rw [run_cons, step_double hR d w h1 hb]
      simp only [List.length_append, List.length_cons, List.length_nil] at ih ⊢
      omega

end Lightbox.Shell.Size
