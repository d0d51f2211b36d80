import Lightbox.Shell.Lex
import Mathlib.Data.List.Forall2

/-! # From tokens to a simple command

A text is a simple command of literal words (`readCommand`) if all its tokens are words, no word can
be changed by brace, tilde or pathname expansion (`Inert`), and its first word is neither an
assignment nor a reserved word. What the shell makes of any other text depends on its variables, its
files and the commands it runs, and is a parameter (`shell`); so a text is read the same in every
environment exactly if it is literal (`shell_forall_iff`).

`Reads R t w` says that the text `t`, met between two words, is read as the single word `w`. Texts
that are read so can be joined by blanks (`finish_joinWords`). -/

namespace Lightbox.Shell.Read

open Lightbox.Shell.Lex

/-! ### Expansions of a word -/

/-- The unprotected characters of a word. -/
def bares (w : List QChar) : Text := text (w.filter fun q => q.m = .bare)

/-- Brace expansion is possible. -/
def Braces (w : List QChar) : Prop :=
  ['{', ',', '}'].Sublist (bares w) ∨ ['{', '.', '.', '}'].Sublist (bares w)

/-- The word is a pathname pattern. -/
def Globs (w : List QChar) : Prop :=
  '*' ∈ bares w ∨ '?' ∈ bares w ∨ ['[', ']'].Sublist (bares w)

/-- The word has the form of an assignment: an unprotected name before `=` or `+=`. -/
def assigns (w : List QChar) : Bool :=
  let isName (q : QChar) := q.m = .bare && isNameChar q.c
  let named := (w.takeWhile isName).head?.any fun q => !q.c.isDigit
  match w.dropWhile isName with
  | ⟨'=', .bare⟩ :: _ => named
  | ⟨'+', .bare⟩ :: ⟨'=', .bare⟩ :: _ => named
  | _ => false

/-- Tilde expansion is possible: at the beginning of a word, or in the value of an assignment. -/
def Tilde (w : List QChar) : Prop :=
  w.head? = some ⟨'~', .bare⟩ ∨ (assigns w = true ∧ '~' ∈ bares w)

/-- No expansion changes the word. -/
def Inert (w : List QChar) : Prop := ¬ Braces w ∧ ¬ Globs w ∧ ¬ Tilde w

instance (w : List QChar) : Decidable (Braces w) := inferInstanceAs (Decidable (_ ∨ _))
instance (w : List QChar) : Decidable (Globs w) := inferInstanceAs (Decidable (_ ∨ _ ∨ _))
instance (w : List QChar) : Decidable (Tilde w) := inferInstanceAs (Decidable (_ ∨ (_ ∧ _)))
instance (w : List QChar) : Decidable (Inert w) := inferInstanceAs (Decidable (_ ∧ _ ∧ _))

/-! ### Simple commands -/

/-- The words the shell grammar reserves at the beginning of a command. -/
def reservedWords : List Text :=
  ["!", "\x7b", "\x7d", "[[", "]]", "case", "coproc", "do", "done", "elif", "else", "esac", "fi", "for",
    "function", "if", "in", "select", "then", "time", "until", "while"].map String.toList

/-- The word is reserved: a quoted one never is. -/
def isReserved (w : List QChar) : Bool :=
  w.all (fun q => q.m = .bare) && reservedWords.contains (text w)

/-- The texts of the tokens, if all are words that no expansion changes. -/
def literals : List Token → Option (List Text)
  | [] => some []
  | .word w :: ts => if Inert w then (literals ts).map (text w :: ·) else none
  | _ :: _ => none

/-- The first token is not the name of a command. -/
def noCommand : List Token → Bool
  | .word w :: _ => assigns w || isReserved w
  | _ => false

/-- **The words of a simple command**, if they are literal. -/
def readCommand (t : Text) : Option (List Text) :=
  (lex bash t).bind fun ts => if noCommand ts then none else literals ts

/-- What the shell makes of a text, `other` being what it makes of those that are not literal. -/
def shell (other : Text → Option (List Text)) (t : Text) : Option (List Text) :=
  (readCommand t).or (other t)

/-- **Only literal texts are read alike in every environment.** -/
theorem shell_forall_iff {t : Text} {ws : List Text} :
    (∀ other, shell other t = some ws) ↔ readCommand t = some ws := by
  constructor
  · intro h
    simpa [shell] using h fun _ => none
  · intro h other
    simp [shell, h]

/-- A text of words is a command if its first word is the name of one. -/
theorem readCommand_of_lex {t : Text} {w : List QChar} {ts : List Token}
    (h : lex bash t = some (.word w :: ts)) : readCommand t =
      if assigns w || isReserved w then none
      else if Inert w then (literals ts).map (text w :: ·) else none := by
  rw [readCommand, h]
  rfl

/-! ### Protected and plain words are inert -/

theorem mem_bares {w : List QChar} {c : Char} : c ∈ bares w ↔ ⟨c, .bare⟩ ∈ w := by
  simp only [bares, text, List.mem_map, List.mem_filter, decide_eq_true_eq]
  constructor
  · rintro ⟨⟨c', m⟩, ⟨h, rfl⟩, rfl⟩
    exact h
  · intro h
    exact ⟨⟨c, .bare⟩, ⟨h, rfl⟩, rfl⟩

/-- A word without unprotected expansion characters is inert. -/
theorem inert_of_bares {w : List QChar} (h : ∀ c ∈ bares w, c ∉ ['{', '*', '?', '[', '~']) :
    Inert w := by
  have hn : ∀ c ∈ ['{', '*', '?', '[', '~'], c ∉ bares w := fun c hc hb => h c hb hc
  refine ⟨?_, ?_, ?_⟩
  · rintro (hs | hs)
    · exact hn '{' (by simp) (hs.subset (by simp))
    · exact hn '{' (by simp) (hs.subset (by simp))
  · rintro (hs | hs | hs)
    · exact hn '*' (by simp) hs
    · exact hn '?' (by simp) hs
    · exact hn '[' (by simp) (hs.subset (by simp))
  · rintro (hs | ⟨-, hs⟩)
    · exact hn '~' (by simp) (mem_bares.mpr (List.mem_of_mem_head? hs))
    · exact hn '~' (by simp) hs

theorem bares_marked_bare (t : Text) : bares (marked .bare t) = t := by
  have h : (marked .bare t).filter (fun q => q.m = .bare) = marked .bare t := by
    rw [List.filter_eq_self]
    simp [marked]
  rw [bares, h, text_marked]

theorem inert_of_plain {t : Text} (h : ∀ c ∈ t, plainChar c = true) : Inert (marked .bare t) := by
  refine inert_of_bares fun c hc => ?_
  rw [bares_marked_bare] at hc
  have := (not_mem_of_plainChar (h c hc)).1
  simp only [List.mem_cons, List.not_mem_nil, or_false, not_or] at this ⊢
  tauto

/-- An assignment has an equals sign. -/
theorem mem_of_assigns {t : Text} (h : assigns (marked .bare t) = true) : '=' ∈ t := by
  have hsub : ∀ q ∈ (marked .bare t).dropWhile (fun q => decide (q.m = .bare) && isNameChar q.c),
      q.c ∈ t := by
    intro q hq
    have := (List.dropWhile_suffix _).subset hq
    rw [marked] at this
    obtain ⟨c, hc, rfl⟩ := List.mem_map.mp this
    exact hc
  unfold assigns at h
  dsimp only at h
  split at h
  · next heq => exact hsub ⟨'=', .bare⟩ (by rw [heq]; exact List.mem_cons_self)
  · next heq => exact hsub ⟨'=', .bare⟩ (by rw [heq]; simp)
  · exact absurd h (by decide)

/-! ### Joining words -/

/-- The words joined by single blanks. -/
def joinWords : List Text → Text
  | [] => []
  | [w] => w
  | w :: v :: ws => w ++ ' ' :: joinWords (v :: ws)

theorem joinWords_cons {w : Text} : ∀ {ws : List Text}, ws ≠ [] →
    joinWords (w :: ws) = w ++ ' ' :: joinWords ws
  | [], h => absurd rfl h
  | _ :: _, _ => rfl

theorem mem_joinWords {c : Char} : ∀ {ws : List Text}, c ∈ joinWords ws → c = ' ' ∨ ∃ w ∈ ws, c ∈ w
  | [], h => by simp [joinWords] at h
  | [w], h => Or.inr ⟨w, by simp, h⟩
  | w :: u :: ws, h => by
    rw [joinWords_cons (by simp), List.mem_append, List.mem_cons] at h
    rcases h with h | h | h
    · exact Or.inr ⟨w, by simp, h⟩
    · exact Or.inl h
    · obtain h | ⟨x, hx, hc⟩ := mem_joinWords h
      · exact Or.inl h
      · exact Or.inr ⟨x, List.mem_cons_of_mem w hx, hc⟩

/-- Between two words, the text `t` is read as the word `w`. -/
def Reads (R : Rules) (t : Text) (w : List QChar) : Prop :=
  ∀ d, run R ⟨d, [], .gap⟩ t = ⟨d, w, .bare⟩

theorem reads_of_plain {t : Text} (h : ∀ c ∈ t, plainChar c = true) (ht : t ≠ []) :
    Reads bash t (marked .bare t) := fun d =>
  run_ordinary_gap d (fun c hc => ordinary_of_plainChar (h c hc)) ht fun hh =>
    absurd (h '#' (List.mem_of_mem_head? hh)) (by decide)

/-- Texts that are read as single words are read one by one. -/
theorem finish_joinWords {R : Rules} (hb : R.isBlank ' ' = true) :
    ∀ {ts : List Text} {ws : List (List QChar)} (d : List Token), List.Forall₂ (Reads R) ts ws →
      finish (run R ⟨d, [], .gap⟩ (joinWords ts)) = some (d ++ ws.map .word)
  | [], _, d, h => by
    cases h
    simp [joinWords, finish]
  | [t], _, d, h => by
    obtain ⟨w, ws, hw, hws, rfl⟩ := List.forall₂_cons_left_iff.mp h
    cases hws
    simp [joinWords, hw d, finish]
  | t :: u :: ts, _, d, h => by
    obtain ⟨w, ws, hw, hws, rfl⟩ := List.forall₂_cons_left_iff.mp h
    have hs : step R ⟨d, w, .bare⟩ ' ' = ⟨d ++ [.word w], [], .gap⟩ := by
      simp [step, bareChar, hb, State.cut]
    rw [joinWords, run_append, hw d, run_cons, hs, finish_joinWords hb _ hws]
    simp

/-- Inert words are literal. -/
theorem literals_append_words (ts : List Token) : ∀ ws : List (List QChar), (∀ w ∈ ws, Inert w) →
    literals (ws.map .word ++ ts) = (literals ts).map (ws.map text ++ ·)
  | [], _ => by cases h : literals ts <;> simp [h]
  | w :: ws, h => by
    have ih := literals_append_words ts ws fun v hv => h v (by simp [hv])
    simp only [List.map_cons, List.cons_append, literals, if_pos (h w (by simp)), ih,
      Option.map_map]
    rfl

theorem literals_words {ws : List (List QChar)} (h : ∀ w ∈ ws, Inert w) :
    literals (ws.map .word) = some (ws.map text) := by
  simpa [literals] using literals_append_words [] ws h

/-! ### Words that stand for themselves -/

/-- A control character: typed, it is a command to the line editor and no part of the line. -/
def isControl (c : Char) : Bool := c.toNat < 0x20 || (0x7f ≤ c.toNat && c.toNat ≤ 0x9f)

/-- A character that stands for itself inside a word that is typed, pathname and brace expansion apart. -/
def inWordChar (c : Char) : Bool :=
  !([' ', '\'', '"', '\\', '$', '\x60', '!'].contains c || opChars.contains c || isControl c)

/-- **The text is a word that stands for itself**, also where it is typed and history is expanded. -/
structure Verbatim (t : Text) : Prop where
  nonempty : t ≠ []
  head : t.head? ≠ some '#'
  chars : ∀ c ∈ t, inWordChar c = true
  inert : Inert (marked .bare t)

instance (t : Text) : Decidable (Verbatim t) :=
  decidable_of_iff (t ≠ [] ∧ t.head? ≠ some '#' ∧ t.all inWordChar = true ∧
      Inert (marked .bare t))
    ⟨fun h => ⟨h.1, h.2.1, List.all_eq_true.mp h.2.2.1, h.2.2.2⟩,
      fun h => ⟨h.1, h.2, List.all_eq_true.mpr h.3, h.4⟩⟩

theorem ordinary_of_inWordChar {c : Char} (h : inWordChar c = true) : bash.Ordinary c := by
  have ht : c ≠ '\t' := by
    rintro rfl
    exact absurd h (by decide)
  simp only [inWordChar, Bool.not_eq_true', Bool.or_eq_false_iff, List.contains_eq_mem,
    decide_eq_false_iff_not, List.mem_cons, List.not_mem_nil, or_false, not_or] at h
  constructor <;> simp_all [bash]

theorem Verbatim.reads {t : Text} (h : Verbatim t) : Reads bash t (marked .bare t) := fun d =>
  run_ordinary_gap d (fun c hc => ordinary_of_inWordChar (h.chars c hc)) h.nonempty h.head

theorem Verbatim.forall₂ : ∀ {ts : List Text}, (∀ t ∈ ts, Verbatim t) →
    List.Forall₂ (Reads bash) ts (ts.map (marked .bare))
  | [], _ => .nil
  | t :: ts, h => .cons (h t (by simp)).reads (Verbatim.forall₂ fun u hu => h u (by simp [hu]))

/-- The words `ts`, as tokens. -/
def wordTokens (ts : List Text) : List Token := (ts.map (marked .bare)).map .word

/-- **Three groups of words, joined by blanks**, are read one after the other. The second one may be
empty. -/
theorem lex_joinWords {xs ys zs : List Text} (hx : ∀ t ∈ xs, Verbatim t)
    (hy : ∀ t ∈ ys, Verbatim t) (hz : ∀ t ∈ zs, Verbatim t) :
    lex bash (joinWords xs ++ ' ' :: (joinWords ys ++ ' ' :: joinWords zs)) =
      some (wordTokens (xs ++ ys ++ zs)) := by
  have hb : bash.isBlank ' ' = true := by decide
  have h1 : finish (run bash init (joinWords xs)) = some (wordTokens xs) :=
    finish_joinWords hb [] (Verbatim.forall₂ hx)
  have h2 : finish (run bash ⟨wordTokens xs, [], .gap⟩ (joinWords ys)) =
      some (wordTokens (xs ++ ys)) := by
    rw [finish_joinWords hb _ (Verbatim.forall₂ hy)]
    simp [wordTokens]
  have ht : State.Tidy ⟨wordTokens xs, [], .gap⟩ :=
    ⟨fun _ => rfl, fun _ => rfl, fun h => by simp at h⟩
  rw [lex, run_blank hb tidy_init h1]
  show finish (run bash ⟨wordTokens xs, [], .gap⟩ _) = _
  rw [run_blank hb ht h2, finish_joinWords hb _ (Verbatim.forall₂ hz)]
  simp [wordTokens]

/-- Words that stand for themselves are a command if the first one can be its name. -/
theorem readCommand_of_wordTokens {t x : Text} {xs : List Text}
    (h : lex bash t = some (wordTokens (x :: xs))) (hv : ∀ y ∈ x :: xs, Verbatim y)
    (hn : (assigns (marked .bare x) || isReserved (marked .bare x)) = false) :
    readCommand t = some (x :: xs) := by
  have hi : ∀ w ∈ (x :: xs).map (marked .bare), Inert w := by
    intro w hw
    obtain ⟨y, hy, rfl⟩ := List.mem_map.mp hw
    exact (hv y hy).inert
  have hc : noCommand (wordTokens (x :: xs)) = false := hn
  rw [readCommand, h, Option.bind_some, hc, if_neg (by simp), wordTokens, literals_words hi]
  simp [Function.comp_def]

/-! ### Typed lines -/

/-- The character edits the line, or recalls an earlier one. -/
def edits (c : Char) : Bool := c == '!' || isControl c

/-- What an interactive shell makes of a line that is typed: it is edited, and history is expanded,
before it is read. -/
def typed (other : Text → Option (List Text)) (t : Text) : Option (List Text) :=
  if t.any edits then other t else shell other t

theorem typed_forall_iff {t : Text} {ws : List Text} :
    (∀ other, typed other t = some ws) ↔ t.any edits = false ∧ readCommand t = some ws := by
  cases h : t.any edits with
  | true =>
    constructor
    · intro ht
      simpa [typed, h] using ht fun _ => none
    · exact fun ht => absurd ht.1 (by decide)
  | false => simp [typed, h, shell_forall_iff]

/-- No character of a word that stands for itself edits the line. -/
theorem not_edits {c : Char} (h : inWordChar c = true) : edits c = false := by
  have hb : c ≠ '!' := by
    rintro rfl
    exact absurd h (by decide)
  have hc : isControl c = false := by
    simp only [inWordChar, Bool.not_eq_true', Bool.or_eq_false_iff] at h
    exact h.2
  rw [edits, hc, Bool.or_false, beq_eq_false_iff_ne]
  exact hb

/-- Words that stand for themselves are typed without editing the line. -/
theorem joinWords_not_edits {ws : List Text} (h : ∀ w ∈ ws, Verbatim w) :
    (joinWords ws).any edits = false := by
  rw [List.any_eq_false]
  intro c hc
  rcases mem_joinWords hc with rfl | ⟨w, hw, hm⟩
  · decide
  · rw [not_edits ((h w hw).chars c hm)]
    decide

/-! ### Words between blanks -/

/-- The words of a text without special characters, `cur` being the beginning of the first one. -/
def fieldsFrom (cur : Text) : Text → List Text
  | [] => if cur = [] then [] else [cur]
  | c :: t => if c = ' ' then (if cur = [] then [] else [cur]) ++ fieldsFrom [] t
    else fieldsFrom (cur ++ [c]) t

/-- **The words of a text** without special characters: what stands between blanks. -/
def fields (t : Text) : List Text := fieldsFrom [] t

theorem fieldsFrom_append : ∀ {t : Text} (cur u : Text), ' ' ∉ t →
    fieldsFrom cur (t ++ u) = fieldsFrom (cur ++ t) u
  | [], cur, u, _ => by simp
  | c :: t, cur, u, h => by
    have hc : c ≠ ' ' := fun hc => h (by simp [hc])
    have ht : ' ' ∉ t := fun ht => h (by simp [ht])
    rw [List.cons_append, fieldsFrom, if_neg hc, fieldsFrom_append _ u ht]
    simp

theorem fieldsFrom_append_blank : ∀ (t cur u : Text),
    fieldsFrom cur (t ++ ' ' :: u) = fieldsFrom cur t ++ fields u
  | [], cur, u => by simp [fieldsFrom, fields]
  | c :: t, cur, u => by
    by_cases hc : c = ' '
    · rw [List.cons_append, fieldsFrom, fieldsFrom, if_pos hc, if_pos hc,
        fieldsFrom_append_blank t [] u, List.append_assoc]
    · rw [List.cons_append, fieldsFrom, fieldsFrom, if_neg hc, if_neg hc,
        fieldsFrom_append_blank t _ u]

/-- A blank separates the words. -/
theorem fields_append_blank (t u : Text) : fields (t ++ ' ' :: u) = fields t ++ fields u :=
  fieldsFrom_append_blank t [] u

theorem fields_of_not_mem {t : Text} (h : ' ' ∉ t) (ht : t ≠ []) : fields t = [t] := by
  have := fieldsFrom_append [] [] h
  simpa [fields, fieldsFrom, ht] using this

theorem of_mem_fieldsFrom {p : Char → Prop} : ∀ {t cur w : Text}, (∀ c ∈ cur, p c) →
    (∀ c ∈ t, p c ∨ c = ' ') → w ∈ fieldsFrom cur t → w ≠ [] ∧ ∀ c ∈ w, p c
  | [], cur, w, hcur, _, hw => by
    unfold fieldsFrom at hw
    split_ifs at hw with h
    · simp at hw
    · obtain rfl : w = cur := by simpa using hw
      exact ⟨h, hcur⟩
  | a :: t, cur, w, hcur, ht, hw => by
    have ht' : ∀ c ∈ t, p c ∨ c = ' ' := fun c hc => ht c (by simp [hc])
    by_cases ha : a = ' '
    · rw [fieldsFrom, if_pos ha, List.mem_append] at hw
      rcases hw with hw | hw
      · split_ifs at hw with h
        · simp at hw
        · obtain rfl : w = cur := by simpa using hw
          exact ⟨h, hcur⟩
      · exact of_mem_fieldsFrom (by simp) ht' hw
    · rw [fieldsFrom, if_neg ha] at hw
      refine of_mem_fieldsFrom (fun c hc => ?_) ht' hw
      rcases List.mem_append.mp hc with hc | hc
      · exact hcur c hc
      · obtain rfl : c = a := by simpa using hc
        exact (ht c (by simp)).resolve_right ha

/-- The text holds plain characters and blanks only. -/
def Simple (t : Text) : Prop := ∀ c ∈ t, plainChar c = true ∨ c = ' '

instance (t : Text) : Decidable (Simple t) := List.decidableBAll _ t

theorem of_mem_fields {t w : Text} (h : Simple t) (hw : w ∈ fields t) :
    w ≠ [] ∧ ∀ c ∈ w, plainChar c = true :=
  of_mem_fieldsFrom (by simp) h hw

theorem finish_fieldsFrom {R : Rules} (hb : R.isBlank ' ' = true) : ∀ {t : Text} (cur : Text)
    (d : List Token), (∀ c ∈ t, (R.Ordinary c ∧ c ≠ '#') ∨ c = ' ') →
      finish (run R ⟨d, marked .bare cur, if cur = [] then .gap else .bare⟩ t) =
        some (d ++ (fieldsFrom cur t).map fun w => .word (marked .bare w))
  | [], cur, d, _ => by
    by_cases h : cur = []
    · simp [h, fieldsFrom, finish]
    · simp [h, fieldsFrom, finish]
  | c :: t, cur, d, ht => by
    have ht' : ∀ c ∈ t, (R.Ordinary c ∧ c ≠ '#') ∨ c = ' ' := fun c hc => ht c (by simp [hc])
    by_cases hc : c = ' '
    · subst hc
      have ih := fun d => finish_fieldsFrom hb [] d ht'
      by_cases h : cur = []
      · have hs : step R ⟨d, marked .bare cur, .gap⟩ ' ' = ⟨d, marked .bare [], .gap⟩ := by
          simp [step, gapChar, hb, h]
        rw [if_pos h, run_cons, hs]
        simpa [h, fieldsFrom] using ih d
      · have hs : step R ⟨d, marked .bare cur, .bare⟩ ' ' =
            ⟨d ++ [.word (marked .bare cur)], marked .bare [], .gap⟩ := by
          simp [step, bareChar, hb, State.cut]
        have ih' := ih (d ++ [.word (marked .bare cur)])
        rw [if_pos rfl] at ih'
        rw [if_neg h, run_cons, hs, ih', fieldsFrom, if_pos rfl, if_neg h]
        simp
    · obtain ⟨ho, hh⟩ := (ht c (by simp)).resolve_right hc
      have hm : (if cur = [] then Mode.gap else Mode.bare) = .bare ∨
          ((if cur = [] then Mode.gap else Mode.bare) = .gap ∧ c ≠ '#') := by
        split_ifs
        · exact Or.inr ⟨rfl, hh⟩
        · exact Or.inl rfl
      have ih := finish_fieldsFrom hb (cur ++ [c]) d ht'
      rw [run_cons, step_ordinary ho d _ hm, fieldsFrom, if_neg hc]
      simpa using ih

/-- **A simple text is read as its words.** -/
theorem lex_fields {t : Text} (h : Simple t) :
    lex bash t = some ((fields t).map fun w => .word (marked .bare w)) := by
  have hf := finish_fieldsFrom (R := bash) (t := t) (by decide) [] [] fun c hc =>
    (h c hc).imp_left fun hp => ⟨ordinary_of_plainChar hp, fun he => absurd hp (by rw [he]; decide)⟩
  simpa [lex, init, fields] using hf

end Lightbox.Shell.Read
