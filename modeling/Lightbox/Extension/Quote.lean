import Lightbox.Shell.Read

/-! # Quoting arguments

`quoteArg` leaves an argument as it is if it holds none of the characters of its class, and puts it
in single quotes otherwise, each single quote inside becoming `'\''`. The class covers everything
the shell gives a meaning to inside a word, so the shell reads every quoted argument as one inert
word with the argument's characters (`reads_quoteArg`), and a list of them as the list. -/

namespace Lightbox.Extension.Quote

open Lightbox.Shell.Lex Lightbox.Shell.Read

/-- The characters `\s` matches. -/
def isSpace (c : Char) : Bool :=
  [0x9, 0xa, 0xb, 0xc, 0xd, 0x20, 0xa0, 0x1680, 0x2028, 0x2029, 0x202f, 0x205f, 0x3000,
    0xfeff].contains c.toNat || (0x2000 ≤ c.toNat && c.toNat ≤ 0x200a)

/-- The other characters of the class. -/
def quoteClass : List Char :=
  ['"', '\'', '$', '\x60', '\\', '!', '*', '?', '(', ')', '{', '}', '[', ']', '<', '>', '|', '&',
    ';', '#', '~']

/-- The character makes quotes necessary. -/
def special (c : Char) : Bool := isSpace c || quoteClass.contains c

/-- What `replace(/'/g, …)` puts for a character. -/
def escapeQuote (c : Char) : Text := if c = '\'' then ['\'', '\\', '\'', '\''] else [c]

def quoteArg (arg : Text) : Text :=
  if arg.isEmpty || arg.any special then '\'' :: (arg.flatMap escapeQuote ++ ['\'']) else arg

/-- The arguments of a command line, as `runButton` joins them. -/
def quotedArgs (args : List Text) : Text := joinWords (args.map quoteArg)

/-! ### One argument -/

/-- The word the shell reads from a quoted argument. -/
def quotedWord (arg : Text) : List QChar :=
  if arg.isEmpty || arg.any special then
    arg.map fun c => if c = '\'' then ⟨c, .escaped⟩ else ⟨c, .single⟩
  else marked .bare arg

theorem text_quotedWord (arg : Text) : text (quotedWord arg) = arg := by
  unfold quotedWord
  split_ifs
  · rw [text, List.map_map]
    refine List.map_id'' (fun c => ?_) arg
    by_cases h : c = '\'' <;> simp [h]
  · exact text_marked _ _

/-- A character outside the class is plain to the shell. -/
theorem plainChar_of_not_special {c : Char} (h : special c = false) : plainChar c = true := by
  have hs : isSpace c = false ∧ c ∉ quoteClass := by simpa [special] using h
  obtain ⟨h1, h2⟩ := hs
  have hsp : c ≠ ' ' ∧ c ≠ '\t' ∧ c ≠ '\n' := by
    refine ⟨?_, ?_, ?_⟩ <;> rintro rfl <;> simp [isSpace] at h1
  simp only [quoteClass, List.mem_cons, List.not_mem_nil, or_false, not_or] at h2
  simp [plainChar, opChars, hsp, h2]

theorem inert_quotedWord (arg : Text) : Inert (quotedWord arg) := by
  unfold quotedWord
  split_ifs with h
  · -- nothing is left unprotected
    refine inert_of_bares fun c hc => ?_
    rw [mem_bares, List.mem_map] at hc
    obtain ⟨c', -, he⟩ := hc
    split_ifs at he <;> simp at he
  · simp only [Bool.or_eq_true, not_or, Bool.not_eq_true, List.any_eq_false] at h
    exact inert_of_plain fun c hc => plainChar_of_not_special (by simpa using h.2 c hc)

/-- Inside single quotes, the escaped characters are read as the characters. -/
theorem run_escapeQuote (d : List Token) : ∀ (arg : Text) (w : List QChar),
    run bash ⟨d, w, .single⟩ (arg.flatMap escapeQuote) =
      ⟨d, w ++ arg.map (fun c => if c = '\'' then ⟨c, .escaped⟩ else ⟨c, .single⟩), .single⟩
  | [], w => by simp
  | c :: arg, w => by
    rw [List.flatMap_cons, run_append]
    by_cases hc : c = '\''
    · have hq : run bash ⟨d, w, .single⟩ (escapeQuote c) = ⟨d, w ++ [⟨c, .escaped⟩], .single⟩ := by
        subst hc
        -- the quote closes, the backslash escapes the next one, the last one opens again
        simp [escapeQuote, step, bareChar, wordChar, bash, opChars, State.push]
      rw [hq, run_escapeQuote d arg]
      simp [hc]
    · have hq : run bash ⟨d, w, .single⟩ (escapeQuote c) = ⟨d, w ++ [⟨c, .single⟩], .single⟩ := by
        simp [escapeQuote, hc, step, State.push]
      rw [hq, run_escapeQuote d arg]
      simp [hc]

/-- **The shell reads a quoted argument as one word.** -/
theorem reads_quoteArg (arg : Text) : Reads bash (quoteArg arg) (quotedWord arg) := by
  intro d
  unfold quoteArg quotedWord
  split_ifs with h
  · have ho : step bash ⟨d, [], .gap⟩ '\'' = ⟨d, [], .single⟩ := by
      simp [step, gapChar, wordChar, bash, opChars]
    rw [run_cons, ho, run_append, run_escapeQuote, run_cons, run_nil, step_single_close,
      List.nil_append]
  · simp only [Bool.or_eq_true, not_or, Bool.not_eq_true, List.any_eq_false,
      List.isEmpty_eq_false_iff] at h
    exact reads_of_plain (fun c hc => plainChar_of_not_special (by simpa using h.2 c hc)) h.1 d

/-! ### A list of arguments -/

theorem forall₂_quoteArg : ∀ args : List Text,
    List.Forall₂ (Reads bash) (args.map quoteArg) (args.map quotedWord)
  | [] => .nil
  | a :: args => .cons (reads_quoteArg a) (forall₂_quoteArg args)

/-- After a command word and a blank, the quoted arguments are read one by one. -/
theorem lex_quotedArgs {cmd : Text} {cw : List QChar} (hcmd : lex bash cmd = some [.word cw])
    (args : List Text) : lex bash (cmd ++ ' ' :: quotedArgs args) =
      some (.word cw :: (args.map quotedWord).map .word) := by
  have hb : bash.isBlank ' ' = true := rfl
  have hc : lex bash cmd = some ([cw].map .word) := hcmd
  rw [lex, run_blank hb tidy_init hc, quotedArgs, finish_joinWords hb _ (forall₂_quoteArg args)]
  rfl

/-- **Quoting is undone by the shell**: behind any command word, the quoted arguments are read as
words and nothing else, with the characters of the arguments, and no expansion changes them. -/
theorem quotedArgs_read_back {cmd : Text} {cw : List QChar}
    (hcmd : lex bash cmd = some [.word cw]) (args : List Text) :
    ∃ ws : List (List QChar),
      lex bash (cmd ++ ' ' :: quotedArgs args) = some (.word cw :: ws.map .word) ∧
      ws.map text = args ∧ (∀ w ∈ ws, Inert w) ∧
      ∀ other name, readCommand cmd = some [name] →
        shell other (cmd ++ ' ' :: quotedArgs args) = some (name :: args) := by
  have hl := lex_quotedArgs hcmd args
  have ht : (args.map quotedWord).map text = args := by
    rw [List.map_map]
    exact List.map_id'' text_quotedWord args
  have hi : ∀ w ∈ args.map quotedWord, Inert w := by
    intro w hw
    obtain ⟨a, -, rfl⟩ := List.mem_map.mp hw
    exact inert_quotedWord a
  refine ⟨args.map quotedWord, hl, ht, hi, fun other name hn => ?_⟩
  -- the command word is the same alone and before the arguments
  have hr : readCommand (cmd ++ ' ' :: quotedArgs args) = some (name :: args) := by
    rw [readCommand_of_lex hcmd] at hn
    rw [readCommand_of_lex hl, literals_words hi, ht]
    split_ifs at hn ⊢ with ha hw
    have hname : text cw = name := by simpa [literals] using hn
    simp [hname]
  simp [shell, hr]

theorem quotedArgs_read_back_echo :
    lex bash "echo".toList = some [.word (marked .bare "echo".toList)] ∧
      ∃ ws : List (List QChar),
        lex bash ("echo".toList ++ ' ' :: quotedArgs ["it's".toList, [], "a b$".toList]) =
          some (.word (marked .bare "echo".toList) :: ws.map .word) ∧
        ws.map text = ["it's".toList, [], "a b$".toList] ∧ (∀ w ∈ ws, Inert w) ∧
        ∀ other name, readCommand "echo".toList = some [name] →
          shell other ("echo".toList ++ ' ' :: quotedArgs ["it's".toList, [], "a b$".toList]) =
            some (name :: ["it's".toList, [], "a b$".toList]) :=
  ⟨by decide, quotedArgs_read_back (by decide) _⟩

end Lightbox.Extension.Quote
