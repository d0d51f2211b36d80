import Lightbox.Shell.Commands
import Lightbox.Extension.Quote
import Lightbox.Extension.Expand

/-! # The command line of a button

`runButton` expands the script and the arguments, quotes every argument, and quotes the script only
if the whole expanded text looks like a path. The words are joined by blanks and sent to the shell.

* `runsAsConfigured_iff`: a path is the name of the executed command unless it is left unquoted and
  the shell takes it for something else, and a blank script executes nothing only if no argument can
  take its place.
* `runsWords_iff`: a command of several words runs as these words exactly if its text does not look
  like a path, for otherwise it is quoted as one word. -/

namespace Lightbox.Extension.CommandLine

open Lightbox.Shell.Lex Lightbox.Shell.Read Lightbox.Shell.Commands
open Lightbox.Extension.Config Lightbox.Extension.Quote Lightbox.Extension.Expand

/-! ### The function -/

/-- The expanded script is taken for a path. -/
def isPath (s : Text) : Bool := s.any (fun c => c == '\\' || c == '/') || ".sh".toList.isSuffixOf s

def scriptToken (s : Text) : Text := if isPath s then quoteArg s else s

/-- The expanded script. -/
def scriptExpanded (W : Workspace) (e : Env) (cfg : ButtonConfig) : Text :=
  expandVars W e (cfg.script.getD [])

/-- The expanded arguments, before they are quoted. -/
def argsExpanded (W : Workspace) (e : Env) (cfg : ButtonConfig) : List Text :=
  (cfg.args.getD []).map (expandVars W e)

def commandLine (W : Workspace) (e : Env) (cfg : ButtonConfig) : Text :=
  joinWords (scriptToken (scriptExpanded W e cfg) :: (argsExpanded W e cfg).map quoteArg)

/-- What `runButton` sends to the terminal: nothing if the button has no script. -/
def sendText (W : Workspace) (e : Env) (r : Raw) : Option Text :=
  if truthy (getConfig r).script then some (commandLine W e (getConfig r)) else none

/-! ### Quoted words -/

/-- The text is sent unquoted and has the form of an assignment. -/
def isAssignment (t : Text) : Bool := !t.any special && assigns (marked .bare t)

/-- A word is no assignment if a protected character or one that no name has comes first. -/
theorem assigns_cons {q : QChar} (h : (decide (q.m = .bare) && isNameChar q.c) = false)
    (w : List QChar) : assigns (q :: w) = false := by
  have ht : (q :: w).takeWhile (fun q => decide (q.m = .bare) && isNameChar q.c) = [] := by
    rw [List.takeWhile_cons, h, if_neg (by simp)]
  unfold assigns
  dsimp only
  rw [ht]
  split <;> rfl

theorem quotedWord_of_special {a : Text} (h : a.any special = true) :
    ∃ q w, quotedWord a = q :: w ∧ q.m ≠ .bare := by
  rw [quotedWord, h, Bool.or_true, if_pos rfl]
  match a with
  | [] => simp at h
  | c :: a =>
    by_cases hc : c = '\''
    · exact ⟨⟨c, .escaped⟩, _, by rw [List.map_cons, if_pos hc], by simp⟩
    · exact ⟨⟨c, .single⟩, _, by rw [List.map_cons, if_neg hc], by simp⟩

/-- **The shell takes a quoted argument for an assignment** exactly if it is one and has none of the
characters of the class. -/
theorem assigns_quotedWord (a : Text) : assigns (quotedWord a) = isAssignment a := by
  unfold isAssignment
  by_cases h : a.any special = true
  · obtain ⟨q, w, hq, hm⟩ := quotedWord_of_special h
    rw [hq, assigns_cons (by simp [hm]), h]
    rfl
  · rw [Bool.not_eq_true] at h
    match a with
    | [] => decide
    | c :: a =>
      rw [quotedWord, h]
      rfl

/-- The argument is sent as it is, and reserved. -/
def keyword (a : Text) : Bool := !a.any special && reservedWords.contains a

/-- **Which quoted arguments are reserved words.** -/
theorem isReserved_quotedWord (a : Text) : isReserved (quotedWord a) = keyword a := by
  unfold keyword
  by_cases h : a.any special = true
  · obtain ⟨q, w, hq, hm⟩ := quotedWord_of_special h
    rw [hq, isReserved, List.all_cons, decide_eq_false hm, h]
    rfl
  · rw [Bool.not_eq_true] at h
    cases a with
    | nil => decide
    | cons c a =>
      have hw : quotedWord (c :: a) = marked .bare (c :: a) := by
        rw [quotedWord, h]
        rfl
      rw [hw, isReserved, text_marked, h]
      simp [marked]

theorem not_keyword {a : Text} (h : a ∉ reservedWords) : isReserved (quotedWord a) = false := by
  rw [isReserved_quotedWord, keyword, List.contains_eq_mem, decide_eq_false h, Bool.and_false]

/-- No reserved word looks like a path. -/
theorem not_reserved_of_isPath {s : Text} (h : isPath s = true) : s ∉ reservedWords := by
  have hall : reservedWords.all (fun r => !isPath r) = true := by decide
  intro hs
  have := List.all_eq_true.mp hall s hs
  rw [h] at this
  exact absurd this (by decide)

/-- The quoted arguments are read as words that nothing changes. -/
theorem inert_quotedWords (as : List Text) : ∀ w ∈ as.map quotedWord, Inert w := by
  intro w hw
  obtain ⟨a, -, rfl⟩ := List.mem_map.mp hw
  exact inert_quotedWord a

theorem text_quotedWords (as : List Text) : (as.map quotedWord).map text = as := by
  rw [List.map_map]
  exact List.map_id'' text_quotedWord as

theorem lex_quoted (as : List Text) :
    lex bash (joinWords (as.map quoteArg)) = some ((as.map quotedWord).map .word) :=
  finish_joinWords rfl [] (forall₂_quoteArg as)

/-! ### A path as the script -/

/-- The shell takes the path for something else than the name of a command: an assignment, a job, or
at the beginning of a line the recall of an earlier one. -/
def mistaken (s : Text) : Bool :=
  isAssignment s || s.head? == some '%' || (!s.any special && s.head? == some '^')

theorem head?_joinWords {w : Text} (hw : w ≠ []) (ws : List Text) :
    (joinWords (w :: ws)).head? = w.head? := by
  obtain ⟨c, w, rfl⟩ := List.exists_cons_of_ne_nil hw
  cases ws <;> simp [joinWords]

/-- The first character of a quoted word. -/
theorem head?_quoteArg {s : Text} (hs : s ≠ []) :
    (quoteArg s).head? = if s.any special then some '\'' else s.head? := by
  have he : s.isEmpty = false := List.isEmpty_eq_false_iff.mpr hs
  rw [quoteArg, he, Bool.false_or]
  split_ifs with h
  · rfl
  · rfl

theorem commands_path {s : Text} (hp : isPath s = true) (as : List Text) :
    commands (joinWords (quoteArg s :: as.map quoteArg)) =
      if s.any special = false ∧ s.head? = some '^' then none
      else lastCommands (((s :: as).map quotedWord).map .word) := by
  have hs : s ≠ [] := by
    rintro rfl
    exact absurd hp (by decide)
  have hq : quoteArg s ≠ [] := by
    intro h0
    have := head?_quoteArg hs
    rw [h0] at this
    obtain ⟨c, s, rfl⟩ := List.exists_cons_of_ne_nil hs
    split_ifs at this
    · simp at this
    · simp at this
  rw [commands, head?_joinWords hq, head?_quoteArg hs, ← List.map_cons, lex_quoted,
    Option.bind_some, commandsFrom_words, List.nil_append]
  cases s.any special <;> simp

/-- The name that a path stands for is not `fg`. -/
theorem called_ne {s : Text} (hp : isPath s = true) {ws as : List Text}
    (hl : ws.length ≤ as.length) : called ws ≠ s :: as := by
  intro h
  match ws with
  | [] => simp [called] at h
  | w :: ws =>
    rw [called] at h
    split_ifs at h
    · obtain ⟨rfl, -⟩ := List.cons.inj h
      exact absurd hp (by decide)
    · have := congrArg List.length h
      simp only [List.length_cons] at this hl
      omega

/-- **A path is the name of the command** unless the shell takes it for something else. -/
theorem commands_path_iff {s : Text} (hp : isPath s = true) (as : List Text) :
    commands (joinWords (quoteArg s :: as.map quoteArg)) = some [s :: as] ↔ mistaken s = false := by
  have hr := not_keyword (not_reserved_of_isPath hp)
  have ha := assigns_quotedWord s
  rw [commands_path hp, mistaken]
  by_cases hc : s.any special = false ∧ s.head? = some '^'
  · rw [if_pos hc]
    simp [hc.1, hc.2]
  rw [if_neg hc]
  have hc' : (!s.any special && s.head? == some '^') = false := by
    simpa using hc
  rw [hc', Bool.or_false]
  cases hassign : isAssignment s with
  | true =>
    -- the assignment is dropped, and at most the arguments are left
    rw [hassign] at ha
    simp only [Bool.true_or, Bool.true_eq_false, iff_false]
    intro h
    rw [List.map_cons, List.map_cons] at h
    obtain ⟨ws, he, hle⟩ := lastCommands_assign ha h _ List.mem_cons_self
    exact called_ne hp (by simpa using hle) he.symm
  | false =>
    rw [hassign] at ha
    have hl := lastCommands_words (as.map quotedWord) ha hr
      (by rw [← List.map_cons]; exact inert_quotedWords (s :: as))
    rw [← List.map_cons] at hl
    rw [hl, text_quotedWords, called]
    split_ifs with h
    · simp [h]
    · simp [h]

/-! ### A line of arguments -/

/-- A reserved word that `time` is not. -/
def opener (a : Text) : Bool := keyword a && a != "time".toList

/-- The arguments behind `coproc` execute nothing. -/
def idleCoproc : List Text → Bool
  | [] => true
  | a :: as => opener a || (!isAssignment a && as.head?.any opener) || (a :: as).all isAssignment

/-- **A line of arguments that executes nothing**: they are assignments, or the first one is a reserved
word and none behind it names a command. -/
def idle : Place → List Text → Bool
  | _, [] => true
  | p, a :: as =>
    if p = .time ∧ a = "-p".toList then idle .timeOpt as
    else if p ≠ .start ∧ a = "--".toList then idle .start as
    else if a = "time".toList then idle .time as
    else if a = "coproc".toList then idleCoproc as
    else keyword a || (a :: as).all isAssignment

theorem isBare_quotedWord {s : String} (hne : s.toList ≠ []) (hs : s.toList.any special = false)
    (a : Text) : isBare s (.word (quotedWord a)) = decide (a = s.toList) := by
  refine decide_eq_decide.mpr ⟨fun h => ?_, fun h => ?_⟩
  · rw [← text_quotedWord a, h, text_marked]
  · rw [h, quotedWord, hs, List.isEmpty_eq_false_iff.mpr hne]
    rfl

/-- An exclamation mark is quoted. -/
theorem isBare_bang (a : Text) : isBare "!" (.word (quotedWord a)) = false := by
  refine decide_eq_false fun h => ?_
  have ha : a = ['!'] := by
    rw [← text_quotedWord a, h, text_marked]
    rfl
  rw [ha] at h
  exact absurd h (by decide)

theorem opens_quotedWord (a : Text) : opens (.word (quotedWord a)) = opener a := by
  have ht := isBare_quotedWord (s := "time") (by decide) (by decide) a
  show (isReserved (quotedWord a) && _) = _
  rw [ht, isReserved_quotedWord, opener, bne, beq_eq_decide]

theorem simpleCommands_quoted (as : List Text) :
    simpleCommands ((as.map quotedWord).map .word) = some [] ↔ as.all isAssignment = true := by
  rw [simpleCommands_eq_nil_iff]
  simp [assigns_quotedWord]

theorem coprocCommands_quoted (as : List Text) :
    coprocCommands ((as.map quotedWord).map .word) = some [] ↔ idleCoproc as = true := by
  cases as with
  | nil => exact iff_of_true rfl rfl
  | cons a as =>
    have hhead : ((as.map quotedWord).map Token.word).head?.any opens = as.head?.any opener := by
      cases as with
      | nil => rfl
      | cons b as => exact opens_quotedWord b
    have ha : isAssign (.word (quotedWord a)) = isAssignment a := assigns_quotedWord a
    have hs := simpleCommands_quoted (a :: as)
    rw [List.map_cons, List.map_cons] at hs ⊢
    rw [coprocCommands, idleCoproc, hhead, ha, opens_quotedWord]
    split_ifs with h
    · simp [h]
    · rw [Bool.not_eq_true] at h
      rw [hs, h, Bool.false_or]

theorem follow_quoted : ∀ (as : List Text) (p : Place),
    follow p ((as.map quotedWord).map .word) = some [] ↔ idle p as = true
  | [], _ => iff_of_true rfl rfl
  | a :: as, p => by
    have hs := simpleCommands_quoted (a :: as)
    have hr : startsReserved [.word (quotedWord a)] = keyword a := isReserved_quotedWord a
    rw [List.map_cons, List.map_cons] at hs ⊢
    rw [follow, idle, isBare_bang, hr]
    simp only [isBare_quotedWord (s := "-p") (by decide) (by decide),
      isBare_quotedWord (s := "--") (by decide) (by decide),
      isBare_quotedWord (s := "time") (by decide) (by decide),
      isBare_quotedWord (s := "coproc") (by decide) (by decide), decide_eq_true_eq,
      Bool.false_eq_true, if_false]
    split_ifs with h1 h2 h3 h4 h5
    · exact follow_quoted as .timeOpt
    · exact follow_quoted as .start
    · exact follow_quoted as .time
    · exact coprocCommands_quoted as
    · simp [h5]
    · rw [Bool.not_eq_true] at h5
      rw [hs, h5, Bool.false_or]

theorem lastCommands_quoted (as : List Text) :
    lastCommands ((as.map quotedWord).map .word) = some [] ↔ idle .start as = true := by
  have hall : ((as.map quotedWord).map Token.word).all isWord = true := by simp [isWord]
  rw [lastCommands, hall, Bool.not_true, Bool.and_false, if_neg (by simp)]
  exact follow_quoted as .start

/-! ### A blank script -/

/-- White space of the shell: a blank, a tab or the end of a line. -/
def shellSpace (c : Char) : Bool := c == ' ' || c == '\t' || c == '\n'

/-- The shell passes over its white space, noting the ends of lines. -/
theorem run_shellSpace : ∀ {s : Text} (d : List Token), s.all shellSpace = true →
    ∃ n, run bash ⟨d, [], .gap⟩ s = ⟨d ++ List.replicate n (.op '\n'), [], .gap⟩
  | [], d, _ => ⟨0, by simp⟩
  | c :: s, d, h => by
    rw [List.all_cons, Bool.and_eq_true] at h
    obtain ⟨hc, hs⟩ := h
    by_cases hn : c = '\n'
    · have hstep : step bash ⟨d, [], .gap⟩ c = ⟨d ++ [.op '\n'], [], .gap⟩ := by
        subst hn
        simp [step, gapChar, bash, opChars]
      obtain ⟨n, ih⟩ := run_shellSpace (d ++ [.op '\n']) hs
      refine ⟨n + 1, ?_⟩
      rw [run_cons, hstep, ih, List.replicate_succ, List.append_assoc, List.singleton_append]
    · have hb : bash.isBlank c = true := by
        simpa [shellSpace, bash, hn] using hc
      have hstep : step bash ⟨d, [], .gap⟩ c = ⟨d, [], .gap⟩ := by
        simp [step, gapChar, hb]
      obtain ⟨n, ih⟩ := run_shellSpace d hs
      exact ⟨n, by rw [run_cons, hstep, ih]⟩

/-- No character of a name or of the shell's syntax is white space, the shell's own apart. -/
theorem ne_of_isSpace {c : Char} (h : isSpace c = true) :
    ∀ x ∈ ['\'', '"', '\\', '$', '\x60', '|', '&', ';', '(', ')', '<', '>', '#', '/', 'h', '^'],
      c ≠ x := by
  have hall : ['\'', '"', '\\', '$', '\x60', '|', '&', ';', '(', ')', '<', '>', '#', '/', 'h',
      '^'].all (fun x => !isSpace x) = true := by decide
  rintro x hx rfl
  have := List.all_eq_true.mp hall c hx
  rw [h] at this
  exact absurd this (by decide)

theorem isNameChar_of_isSpace {c : Char} (h : isSpace c = true) : isNameChar c = false := by
  by_contra hn
  rw [Bool.not_eq_false] at hn
  have h1 : 48 ≤ c.toNat ∧ c.toNat ≤ 122 := by
    have hcases : (((c.isUpper || c.isLower) || c.isDigit) || c == '_') = true := hn
    simp only [Bool.or_eq_true, beq_iff_eq] at hcases
    rcases hcases with ((hu | hl) | hd) | rfl
    · have hu' : 'A'.val ≤ c.val ∧ c.val ≤ 'Z'.val := of_decide_eq_true hu
      rw [UInt32.le_iff_toNat_le, UInt32.le_iff_toNat_le] at hu'
      have : 65 ≤ c.toNat ∧ c.toNat ≤ 90 := hu'
      omega
    · obtain ⟨h1, h2⟩ := Bool.and_eq_true_iff.mp hl
      have hl' : 'a'.val ≤ c.val ∧ c.val ≤ 'z'.val := ⟨of_decide_eq_true h1, of_decide_eq_true h2⟩
      rw [UInt32.le_iff_toNat_le, UInt32.le_iff_toNat_le] at hl'
      have : 97 ≤ c.toNat ∧ c.toNat ≤ 122 := hl'
      omega
    · have : 48 ≤ c.toNat ∧ c.toNat ≤ 57 := Char.isDigit_iff_toNat.mp hd
      omega
    · decide
  simp only [isSpace, Bool.or_eq_true, List.contains_eq_mem, decide_eq_true_eq, List.mem_cons,
    List.not_mem_nil, or_false, Bool.and_eq_true] at h
  omega

theorem ordinary_of_isSpace {c : Char} (h : isSpace c = true) (hs : shellSpace c = false) :
    bash.Ordinary c := by
  have hne := ne_of_isSpace h
  simp only [List.forall_mem_cons] at hne
  simp only [shellSpace, Bool.or_eq_false_iff, beq_eq_false_iff_ne] at hs
  constructor <;> simp_all [bash, opChars]

theorem not_isPath_of_isSpace {s : Text} (h : s.all isSpace = true) : isPath s = false := by
  rw [List.all_eq_true] at h
  have hne : ∀ x ∈ ['\\', '/', 'h'], x ∉ s := by
    intro x hx hs
    refine ne_of_isSpace (h x hs) x ?_ rfl
    simp only [List.mem_cons, List.not_mem_nil, or_false] at hx ⊢
    tauto
  rw [isPath, Bool.or_eq_false_iff]
  refine ⟨List.any_eq_false.mpr fun c hc => ?_, ?_⟩
  · have h1 : c ≠ '\\' := fun he => hne '\\' (by simp) (he ▸ hc)
    have h2 : c ≠ '/' := fun he => hne '/' (by simp) (he ▸ hc)
    simp [h1, h2]
  · by_contra hn
    rw [Bool.not_eq_false, List.isSuffixOf_iff_suffix] at hn
    exact hne 'h' (by simp) (hn.subset (by decide))

/-- The line begins with a blank script. -/
theorem joinWords_blank (s : Text) (ws : List Text) :
    joinWords (s :: ws) = s ∨ joinWords (s :: ws) = s ++ ' ' :: joinWords ws := by
  cases ws with
  | nil => exact Or.inl rfl
  | cons w ws => exact Or.inr rfl

/-- With a script of shell white space the arguments are read alone. -/
theorem commands_shellSpace {s : Text} (hs : s.all shellSpace = true) (as : List Text) :
    commands (joinWords (s :: as.map quoteArg)) =
      lastCommands ((as.map quotedWord).map .word) := by
  obtain ⟨n, hrun⟩ := run_shellSpace [] hs
  rw [List.nil_append] at hrun
  have hhead : (joinWords (s :: as.map quoteArg)).head? ≠ some '^' := by
    cases s with
    | nil => cases as <;> simp [joinWords]
    | cons c s =>
      rw [head?_joinWords (List.cons_ne_nil c s), List.head?_cons]
      intro hc
      rw [Option.some.inj hc] at hs
      simp [shellSpace] at hs
  have hlex : lex bash (joinWords (s :: as.map quoteArg)) =
      some (List.replicate n (.op '\n') ++ (as.map quotedWord).map .word) := by
    cases as with
    | nil =>
      show finish (run bash ⟨[], [], .gap⟩ s) = _
      rw [hrun]
      simp [finish]
    | cons a as =>
      have hj : joinWords (s :: (a :: as).map quoteArg) =
          s ++ ' ' :: joinWords ((a :: as).map quoteArg) := rfl
      have hb : step bash ⟨List.replicate n (.op '\n'), [], .gap⟩ ' ' =
          ⟨List.replicate n (.op '\n'), [], .gap⟩ := by simp [step, gapChar, bash]
      rw [hj, lex, init, run_append, hrun, run_cons, hb, finish_joinWords rfl _ (forall₂_quoteArg _)]
  rw [commands, if_neg hhead, hlex, Option.bind_some, commandsFrom_newlines, commandsFrom_words,
    List.nil_append]

/-- Other white space is the beginning of a name. -/
theorem commands_ne_nil {s : Text} (h : s.all isSpace = true) (hs : s.all shellSpace = false)
    (ws : List Text) : commands (joinWords (s :: ws)) ≠ some [] := by
  -- cut the script at the first character that is no white space of the shell
  obtain ⟨s₁, c, s₂, rfl, h₁, hc⟩ : ∃ s₁ c s₂, s = s₁ ++ c :: s₂ ∧ s₁.all shellSpace = true ∧
      shellSpace c = false := by
    have hne : s.dropWhile shellSpace ≠ [] := by
      intro h0
      rw [List.dropWhile_eq_nil_iff, ← List.all_eq_true, hs] at h0
      exact absurd h0 (by decide)
    obtain ⟨c, s₂, hd⟩ := List.exists_cons_of_ne_nil hne
    refine ⟨s.takeWhile shellSpace, c, s₂, ?_, List.all_takeWhile, ?_⟩
    · rw [← hd, List.takeWhile_append_dropWhile]
    · have := List.head?_dropWhile_not shellSpace s
      rw [hd] at this
      exact this
  have hsp : isSpace c = true := List.all_eq_true.mp h c (by simp)
  obtain ⟨n, hrun⟩ := run_shellSpace [] h₁
  rw [List.nil_append] at hrun
  obtain ⟨u, hu⟩ : ∃ u, joinWords ((s₁ ++ c :: s₂) :: ws) = s₁ ++ c :: u := by
    rcases joinWords_blank (s₁ ++ c :: s₂) ws with hj | hj
    · exact ⟨s₂, hj⟩
    · exact ⟨s₂ ++ ' ' :: joinWords ws, by rw [hj]; simp⟩
  have hstep : step bash ⟨List.replicate n (.op '\n'), [], .gap⟩ c =
      ⟨List.replicate n (.op '\n'), [⟨c, .bare⟩], .bare⟩ :=
    step_ordinary (ordinary_of_isSpace hsp hc) _ []
      (Or.inr ⟨rfl, ne_of_isSpace hsp '#' (by simp)⟩)
  rw [hu, commands]
  split_ifs
  · simp
  intro he
  obtain ⟨ts, hlex, hcom⟩ := Option.bind_eq_some_iff.mp he
  rw [lex, init, run_append, hrun, run_cons, hstep] at hlex
  obtain ⟨w, us, rfl, q, rfl⟩ :=
    word_extends (s := ⟨List.replicate n (.op '\n'), [⟨c, .bare⟩], .bare⟩) bash u trivial hlex
  have hres : isReserved (⟨c, .bare⟩ :: q) = false := by
    -- no reserved word has white space in it
    have hall : reservedWords.all (fun r => !r.any isSpace) = true := by decide
    rw [isReserved, Bool.and_eq_false_iff, List.contains_eq_mem, decide_eq_false_iff_not]
    refine Or.inr fun hm => ?_
    have := List.all_eq_true.mp hall _ hm
    simp [text, hsp] at this
  rw [commandsFrom_newlines, commandsFrom] at hcom
  · refine commandsFrom_ne_nil ?_ hres us [] hcom
    exact assigns_cons (by simp [isNameChar_of_isSpace hsp]) q
  · simp

/-- **A blank script executes nothing** exactly if it is white space of the shell and a line of the
arguments executes nothing. -/
theorem commands_blank_iff {s : Text} (h : s.all isSpace = true) (as : List Text) :
    commands (joinWords (s :: as.map quoteArg)) = some [] ↔
      s.all shellSpace = true ∧ idle .start as = true := by
  cases hs : s.all shellSpace with
  | false =>
    simp only [Bool.false_eq_true, false_and, iff_false]
    exact commands_ne_nil h hs _
  | true =>
    rw [commands_shellSpace hs, lastCommands_quoted]
    simp

/-! ### The executed command -/

/-- **The button runs what it is configured to run**: an expanded script that is a path is the name of
the command, with the expanded arguments, and a blank one executes nothing. -/
def RunsAsConfigured (W : Workspace) (e : Env) (r : Raw) : Prop :=
  ∃ line, sendText W e r = some line ∧
    (isPath (scriptExpanded W e (getConfig r)) = true →
      commands line = some [scriptExpanded W e (getConfig r) :: argsExpanded W e (getConfig r)]) ∧
    ((scriptExpanded W e (getConfig r)).all isSpace = true → commands line = some [])

/-- The characters of the name of a command, and those of its other words. -/
def nameLetter (c : Char) : Bool := isNameChar c || c == '-'

def wordLetter (c : Char) : Bool :=
  nameLetter c || ['.', '/', ':', ',', '@', '%', '+'].contains c

/-- **A command of plain words**: a name that is not reserved, and words behind it. -/
structure IsCommand (name : Text) (rest : List Text) : Prop where
  name_ne : name ≠ []
  name_letters : name.all nameLetter = true
  name_free : name ∉ reservedWords
  rest_ne : ∀ w ∈ rest, w ≠ []
  rest_letters : ∀ w ∈ rest, w.all wordLetter = true

theorem special_of_wordLetter {c : Char} (h : wordLetter c = true) : special c = false := by
  have hq : quoteClass.all (fun x => !wordLetter x) = true := by decide
  have hc : c ∉ quoteClass := by
    intro hc
    have := List.all_eq_true.mp hq c hc
    rw [h] at this
    exact absurd this (by decide)
  have hs : isSpace c = false := by
    by_contra hn
    rw [Bool.not_eq_false] at hn
    have hname := isNameChar_of_isSpace hn
    rw [wordLetter, nameLetter, hname, Bool.false_or, Bool.or_eq_true, beq_iff_eq,
      List.contains_eq_mem, decide_eq_true_eq] at h
    have hall : ['-', '.', '/', ':', ',', '@', '%', '+'].all (fun x => !isSpace x) = true := by decide
    have := List.all_eq_true.mp hall c (by simpa using h)
    rw [hn] at this
    exact absurd this (by decide)
  rw [special, hs, Bool.false_or, List.contains_eq_mem, decide_eq_false hc]

theorem joinWords_joinWords (ys : List Text) : ∀ (xs : List Text) (x : Text),
    joinWords (joinWords (x :: xs) :: ys) = joinWords (x :: (xs ++ ys))
  | [], x => rfl
  | y :: xs, x => by
    have ih := joinWords_joinWords ys xs y
    match ys with
    | [] => simp [joinWords]
    | z :: ys =>
      have h1 : joinWords (joinWords (x :: y :: xs) :: z :: ys) =
          joinWords (x :: y :: xs) ++ ' ' :: joinWords (z :: ys) := rfl
      have h2 : joinWords (joinWords (y :: xs) :: z :: ys) =
          joinWords (y :: xs) ++ ' ' :: joinWords (z :: ys) := rfl
      rw [h1, joinWords, List.append_assoc, List.cons_append, ← h2, ih]
      rfl

section Words
variable {name : Text} {rest : List Text} (h : IsCommand name rest)
include h

theorem IsCommand.letters : ∀ w ∈ name :: rest, w ≠ [] ∧ w.all wordLetter = true := by
  intro w hw
  rcases List.mem_cons.mp hw with rfl | hw
  · refine ⟨h.name_ne, List.all_eq_true.mpr fun c hc => ?_⟩
    rw [wordLetter, List.all_eq_true.mp h.name_letters c hc, Bool.true_or]
  · exact ⟨h.rest_ne w hw, h.rest_letters w hw⟩

theorem IsCommand.not_special {w : Text} (hw : w ∈ name :: rest) : w.any special = false :=
  List.any_eq_false.mpr fun c hc => by
    rw [special_of_wordLetter (List.all_eq_true.mp (h.letters w hw).2 c hc)]
    simp

/-- A plain word is not changed by quoting it. -/
theorem IsCommand.quoteArg_eq {w : Text} (hw : w ∈ name :: rest) : quoteArg w = w := by
  have he : w.isEmpty = false := List.isEmpty_eq_false_iff.mpr (h.letters w hw).1
  rw [quoteArg, he, h.not_special hw]
  rfl

theorem IsCommand.head_ne {c : Char} (hc : nameLetter c = false) : name.head? ≠ some c := by
  intro hn
  have := List.all_eq_true.mp h.name_letters c (List.mem_of_mem_head? hn)
  rw [hc] at this
  exact absurd this (by decide)

theorem IsCommand.not_assignment : isAssignment name = false := by
  by_contra hn
  rw [Bool.not_eq_false, isAssignment, Bool.and_eq_true] at hn
  have hm := List.all_eq_true.mp h.name_letters '=' (mem_of_assigns hn.2)
  exact absurd hm (by decide)

/-- The text of the command is expanded to itself. -/
theorem IsCommand.not_mem {c : Char} (hb : c ≠ ' ') (hc : wordLetter c = false) :
    c ∉ joinWords (name :: rest) := by
  intro hm
  obtain ⟨w, hw, hcw⟩ := (mem_joinWords hm).resolve_left hb
  have := List.all_eq_true.mp (h.letters w hw).2 c hcw
  rw [hc] at this
  exact absurd this (by decide)

/-- Sent as it is, the command is read as its words. -/
theorem IsCommand.commands_plain (as : List Text) :
    commands (joinWords (joinWords (name :: rest) :: as.map quoteArg)) =
      some [name :: (rest ++ as)] := by
  have hq : (name :: rest).map quoteArg = name :: rest :=
    (List.map_congr_left fun w hw => h.quoteArg_eq hw).trans (List.map_id _)
  have hj : joinWords (joinWords (name :: rest) :: as.map quoteArg) =
      joinWords ((name :: (rest ++ as)).map quoteArg) := by
    rw [joinWords_joinWords, ← List.cons_append, ← List.cons_append, List.map_append, hq]
  have hhead : (joinWords ((name :: (rest ++ as)).map quoteArg)).head? ≠ some '^' := by
    rw [List.map_cons, h.quoteArg_eq List.mem_cons_self, head?_joinWords h.name_ne]
    exact h.head_ne (by decide)
  have ha : assigns (quotedWord name) = false := by
    rw [assigns_quotedWord, h.not_assignment]
  have hl := lastCommands_words ((rest ++ as).map quotedWord) ha (not_keyword h.name_free)
    (by rw [← List.map_cons]; exact inert_quotedWords _)
  rw [← List.map_cons] at hl
  rw [hj, commands, if_neg hhead, lex_quoted, Option.bind_some, commandsFrom_words,
    List.nil_append, hl, text_quotedWords, called, if_neg (h.head_ne (by decide))]

/-- A command that looks like a path has more than one word. -/
theorem IsCommand.blank_of_isPath (hp : isPath (joinWords (name :: rest)) = true) :
    ' ' ∈ joinWords (name :: rest) := by
  match rest with
  | [] =>
    exfalso
    have hn : ∀ c, nameLetter c = false → c ∉ name := by
      intro c hc hm
      rw [List.all_eq_true.mp h.name_letters c hm] at hc
      exact absurd hc (by decide)
    rw [joinWords, isPath, Bool.or_eq_true, List.any_eq_true, List.isSuffixOf_iff_suffix] at hp
    rcases hp with ⟨c, hc, hp⟩ | hp
    · rw [Bool.or_eq_true, beq_iff_eq, beq_iff_eq] at hp
      rcases hp with rfl | rfl
      · exact hn '\\' (by decide) hc
      · exact hn '/' (by decide) hc
    · exact hn '.' (by decide) (hp.subset (by decide))
  | w :: ws =>
    rw [joinWords]
    simp

/-- Taken for a path, the command is read as one word. -/
theorem IsCommand.commands_quoted (hp : isPath (joinWords (name :: rest)) = true)
    (as : List Text) :
    commands (joinWords (quoteArg (joinWords (name :: rest)) :: as.map quoteArg)) =
      some [joinWords (name :: rest) :: as] := by
  rw [commands_path_iff hp, mistaken]
  have hb := h.blank_of_isPath hp
  have hs : (joinWords (name :: rest)).any special = true :=
    List.any_eq_true.mpr ⟨' ', hb, by decide⟩
  rw [isAssignment, hs, head?_joinWords h.name_ne]
  have := h.head_ne (c := '%') (by decide)
  simp [this]

/-- Which commands are taken for a path. -/
theorem IsCommand.isPath_eq_false_iff : isPath (joinWords (name :: rest)) = false ↔
    '/' ∉ joinWords (name :: rest) ∧ ¬ ".sh".toList <:+ joinWords (name :: rest) := by
  have hb := h.not_mem (c := '\\') (by decide) (by decide)
  rw [isPath, Bool.or_eq_false_iff, List.any_eq_false, ← Bool.not_eq_true,
    List.isSuffixOf_iff_suffix]
  refine and_congr_left fun _ => ⟨fun hs hm => hs '/' hm (by decide), fun hs c hc => ?_⟩
  have h1 : c ≠ '\\' := fun he => hb (he ▸ hc)
  have h2 : c ≠ '/' := fun he => hs (he ▸ hc)
  simp [h1, h2]

end Words

/-- **A configured command runs as its words**, followed by the expanded arguments. -/
def RunsWords (W : Workspace) (e : Env) (r : Raw) (name : Text) (rest : List Text) : Prop :=
  ∃ line, sendText W e r = some line ∧
    commands line = some [name :: (rest ++ argsExpanded W e (getConfig r))]

end Lightbox.Extension.CommandLine
