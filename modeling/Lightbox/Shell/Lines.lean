import Lightbox.Shell.Commands
import Lightbox.Shell.Quoted

/-! # Texts of several lines

`bash -c` executes a text line by line. If the lines consist of simple words, and an argument in single quotes
follows the last one, the commands are the words of the lines, the last one with the argument
(`executes_joinLines`). -/

namespace Lightbox.Shell.Lines

open Lightbox.Shell.Lex Lightbox.Shell.Read Lightbox.Shell.Quoted Lightbox.Shell.Commands

/-- The lines joined by newlines. -/
def joinLines : List Text → Text
  | [] => []
  | [l] => l
  | l :: m :: ls => l ++ '\n' :: joinLines (m :: ls)

/-- **The commands that `bash -c` executes.** -/
def executes (t : Text) : Option (List (List Text)) := (lex bash t).bind (commandsFrom [])

theorem joinLines_cons {l : Text} : ∀ {ls : List Text}, ls ≠ [] →
    joinLines (l :: ls) = l ++ '\n' :: joinLines ls
  | [], h => absurd rfl h
  | _ :: _, _ => rfl

theorem mem_joinLines {c : Char} : ∀ {ls : List Text}, c ∈ joinLines ls → c = '\n' ∨ ∃ l ∈ ls, c ∈ l
  | [], h => by simp [joinLines] at h
  | [l], h => Or.inr ⟨l, by simp, h⟩
  | l :: m :: ls, h => by
    rw [joinLines, List.mem_append, List.mem_cons] at h
    rcases h with h | h | h
    · exact Or.inr ⟨l, by simp, h⟩
    · exact Or.inl h
    · obtain h | ⟨x, hx, hc⟩ := mem_joinLines h
      · exact Or.inl h
      · exact Or.inr ⟨x, List.mem_cons_of_mem l hx, hc⟩

/-- What stands before the lines belongs to the first one. -/
theorem append_joinLines (p l : Text) (ls : List Text) :
    p ++ joinLines (l :: ls) = joinLines ((p ++ l) :: ls) := by
  cases ls with
  | nil => rfl
  | cons m ls => rw [joinLines, joinLines, List.append_assoc]

/-- What follows the lines belongs to the last one. -/
theorem joinLines_append (l s : Text) : ∀ ls : List Text,
    joinLines (ls ++ [l]) ++ s = joinLines (ls ++ [l ++ s])
  | [] => rfl
  | m :: ls => by
    rw [List.cons_append, List.cons_append, joinLines_cons (by simp), joinLines_cons (by simp),
      ← joinLines_append l s ls, List.append_assoc, List.cons_append]

/-! ### Reading a line -/

/-- The state of the reader in a simple text: `cur` is the beginning of a word. -/
def reading (d : List Token) (cur : Text) : State :=
  ⟨d, marked .bare cur, if cur = [] then .gap else .bare⟩

/-- The tokens of a simple text that begins within a word. -/
def tokensFrom (cur t : Text) : List Token := (fieldsFrom cur t).map fun w => .word (marked .bare w)

/-- A simple text is read word by word. -/
theorem run_reading : ∀ {t : Text} (cur : Text) (d : List Token), Simple t →
    ∃ d' cur', run bash (reading d cur) t = reading d' cur' ∧
      d' ++ tokensFrom cur' [] = d ++ tokensFrom cur t
  | [], cur, d, _ => ⟨d, cur, rfl, rfl⟩
  | c :: t, cur, d, h => by
    have ht : Simple t := fun x hx => h x (List.mem_cons_of_mem c hx)
    by_cases hc : c = ' '
    · -- the word ends
      subst hc
      obtain ⟨d', cur', hr, he⟩ := run_reading [] (d ++ tokensFrom cur []) ht
      refine ⟨d', cur', ?_, ?_⟩
      · have hs : step bash (reading d cur) ' ' = reading (d ++ tokensFrom cur []) [] := by
          by_cases h0 : cur = []
          · simp [reading, tokensFrom, fieldsFrom, h0, step, gapChar, bash]
          · simp [reading, tokensFrom, fieldsFrom, h0, step, bareChar, bash, State.cut, marked]
        rw [run_cons, hs, hr]
      · rw [he, List.append_assoc]
        simp [tokensFrom, fieldsFrom]
    · -- it goes on
      have hp : plainChar c = true := (h c List.mem_cons_self).resolve_right hc
      obtain ⟨d', cur', hr, he⟩ := run_reading (cur ++ [c]) d ht
      refine ⟨d', cur', ?_, ?_⟩
      · have hm : (if cur = [] then Mode.gap else Mode.bare) = .bare ∨
            ((if cur = [] then Mode.gap else Mode.bare) = .gap ∧ c ≠ '#') := by
          split_ifs
          · exact Or.inr ⟨rfl, fun hh => absurd hp (by rw [hh]; decide)⟩
          · exact Or.inl rfl
        have hs : step bash (reading d cur) c = reading d (cur ++ [c]) := by
          rw [reading, step_ordinary (ordinary_of_plainChar hp) d _ hm]
          simp [reading]
        rw [run_cons, hs, hr]
      · rw [he]
        simp [tokensFrom, fieldsFrom, hc]

theorem tokensFrom_nil (t : Text) : tokensFrom [] t = tokens t := rfl

/-- **A simple line.** -/
theorem run_line {t : Text} (ht : Simple t) (d : List Token) (u : Text) :
    run bash ⟨d, [], .gap⟩ (t ++ '\n' :: u) = run bash ⟨d ++ tokens t ++ [.op '\n'], [], .gap⟩ u := by
  obtain ⟨d', cur, hr, he⟩ := run_reading [] d ht
  have hr' : run bash ⟨d, [], .gap⟩ t = reading d' cur := hr
  have hs : step bash (reading d' cur) '\n' = ⟨d' ++ tokensFrom cur [] ++ [.op '\n'], [], .gap⟩ := by
    by_cases h0 : cur = []
    · simp [reading, tokensFrom, fieldsFrom, h0, step, gapChar, bash, opChars]
    · simp [reading, tokensFrom, fieldsFrom, h0, step, bareChar, bash, opChars, State.cut]
  rw [run_append, hr', run_cons, hs, he, tokensFrom_nil]

/-- **The last line**, with an argument in single quotes. -/
theorem finish_quoted {t arg : Text} (ht : Simple t) (ha : '\'' ∉ arg) (d : List Token) :
    finish (run bash ⟨d, [], .gap⟩ (t ++ ' ' :: '\'' :: (arg ++ ['\'']))) =
      some (d ++ tokens t ++ [.word (marked .single arg)]) := by
  obtain ⟨d', cur, hr, he⟩ := run_reading [] d ht
  have hr' : run bash ⟨d, [], .gap⟩ t = reading d' cur := hr
  have hop : '\'' ∉ opChars := by decide
  have hs : run bash (reading d' cur) [' ', '\''] = ⟨d' ++ tokensFrom cur [], [], .single⟩ := by
    by_cases h0 : cur = []
    · simp [reading, tokensFrom, fieldsFrom, h0, hop, run, step, gapChar, wordChar, bash]
    · simp [reading, tokensFrom, fieldsFrom, h0, hop, run, step, gapChar, bareChar, wordChar, bash,
        State.cut]
  have hsplit : t ++ ' ' :: '\'' :: (arg ++ ['\'']) = t ++ ([' ', '\''] ++ (arg ++ ['\''])) := rfl
  rw [hsplit, run_append, hr', run_append, hs, run_append, run_single _ _ _ _ ha, run_cons,
    step_single_close, he, tokensFrom_nil]
  simp [finish]

/-! ### The commands -/

theorem commandsFrom_line (ws : List (List QChar)) (ts : List Token) : ∀ cur : List Token,
    commandsFrom cur (ws.map .word ++ .op '\n' :: ts) =
      (lineCommands (cur ++ ws.map .word)).bind fun cs => (commandsFrom [] ts).map (cs ++ ·) := by
  induction ws with
  | nil => intro cur; simp [commandsFrom]
  | cons w ws ih =>
    intro cur
    rw [List.map_cons, List.cons_append, commandsFrom, ih]
    · simp
    · simp

/-- The tokens of lines that each end with a newline. -/
def lineTokens (ls : List Text) : List Token := ls.flatMap fun l => tokens l ++ [.op '\n']

theorem finish_joinLines {l arg : Text} (hl : Simple l) (ha : '\'' ∉ arg) : ∀ (ls : List Text)
    (d : List Token), (∀ t ∈ ls, Simple t) →
      finish (run bash ⟨d, [], .gap⟩ (joinLines (ls ++ [l]) ++ ' ' :: '\'' :: (arg ++ ['\'']))) =
        some (d ++ lineTokens ls ++ (tokens l ++ [.word (marked .single arg)]))
  | [], d, _ => by
    have hf := finish_quoted hl ha d
    rw [List.append_assoc] at hf
    simpa [lineTokens, joinLines] using hf
  | m :: ls, d, hs => by
    have hm : Simple m := hs m List.mem_cons_self
    have ih := finish_joinLines hl ha ls (d ++ tokens m ++ [.op '\n'])
      fun t ht => hs t (List.mem_cons_of_mem m ht)
    rw [List.cons_append, joinLines_cons (by simp), List.append_assoc, List.cons_append, run_line hm, ih]
    simp [lineTokens]

theorem tokens_map (t : Text) : tokens t = ((fields t).map (marked .bare)).map .word := by
  simp [tokens]

/-- A line that names a command executes it. -/
theorem lineCommands_tokens {t : Text} (hs : Simple t) (hn : Names t) (ws : List (List QChar))
    (hi : ∀ w ∈ ws, Inert w) : lineCommands (tokens t ++ ws.map .word) =
      some [called (fields t ++ ws.map text)] := by
  obtain ⟨w, vs, hw, ha, hr⟩ := hn
  have hsplit : tokens t ++ ws.map .word =
      (marked .bare w :: (vs.map (marked .bare) ++ ws)).map .word := by
    simp [tokens, hw, Function.comp_def]
  have hall : ∀ v ∈ marked .bare w :: (vs.map (marked .bare) ++ ws), Inert v := by
    intro v hv
    rw [← List.cons_append, ← List.map_cons, ← hw, List.mem_append] at hv
    rcases hv with hv | hv
    · obtain ⟨x, hx, rfl⟩ := List.mem_map.mp hv
      exact inert_of_plain (of_mem_fields hs hx).2
    · exact hi v hv
  rw [hsplit, lineCommands_words _ ha hr hall, hw]
  simp [Function.comp_def]

/-- The last line may end in quoted arguments. -/
theorem lastCommands_tokens {t : Text} (hs : Simple t) (hn : Names t) (ws : List (List QChar))
    (hi : ∀ w ∈ ws, Inert w) : lastCommands (tokens t ++ ws.map .word) =
      some [called (fields t ++ ws.map text)] := by
  have hline := lineCommands_tokens hs hn ws hi
  obtain ⟨w, vs, hw, -, hr⟩ := hn
  have hsplit : tokens t ++ ws.map .word =
      .word (marked .bare w) :: (vs.map (fun v => Token.word (marked .bare v)) ++ ws.map .word) := by
    simp [tokens, hw]
  rw [hsplit] at hline ⊢
  rw [lastCommands_eq hr, hline]

theorem commandsFrom_lineTokens (ts : List Token) : ∀ {ls : List Text}, (∀ t ∈ ls, Simple t) →
    (∀ t ∈ ls, Names t) → commandsFrom [] (lineTokens ls ++ ts) =
      (commandsFrom [] ts).map (ls.map (fun t => called (fields t)) ++ ·)
  | [], _, _ => by
    cases h : commandsFrom [] ts <;> simp [lineTokens, h]
  | l :: ls, hs, hn => by
    have ih := commandsFrom_lineTokens ts (fun t ht => hs t (List.mem_cons_of_mem l ht))
      fun t ht => hn t (List.mem_cons_of_mem l ht)
    have hline := lineCommands_tokens (hs l List.mem_cons_self) (hn l List.mem_cons_self) [] (by simp)
    have hsplit : lineTokens (l :: ls) ++ ts =
        ((fields l).map (marked .bare)).map .word ++ .op '\n' :: (lineTokens ls ++ ts) := by
      simp [lineTokens, tokens_map]
    rw [List.map_nil, List.append_nil] at hline
    rw [hsplit, commandsFrom_line, List.nil_append, ← tokens_map, hline, Option.bind_some, ih,
      Option.map_map]
    simp [Function.comp_def]

/-- **The commands of several lines**, the last one with a quoted argument. -/
theorem executes_joinLines {ls : List Text} {l arg : Text} (hs : ∀ t ∈ ls ++ [l], Simple t)
    (hn : ∀ t ∈ ls ++ [l], Names t) (ha : '\'' ∉ arg) :
    executes (joinLines (ls ++ [l]) ++ ' ' :: '\'' :: (arg ++ ['\''])) =
      some (ls.map (fun t => called (fields t)) ++ [called (fields l ++ [arg])]) := by
  have hl : Simple l := hs l (by simp)
  have hi : ∀ w ∈ [marked .single arg], Inert w := by
    intro w hw
    obtain rfl := List.mem_singleton.mp hw
    refine inert_of_bares fun c hc => ?_
    rw [mem_bares] at hc
    simp [marked] at hc
  have hlast : commandsFrom [] (tokens l ++ [marked .single arg].map .word) =
      some [called (fields l ++ [arg])] := by
    rw [tokens_map, ← List.map_append, commandsFrom_words, List.nil_append, List.map_append, ← tokens_map,
      lastCommands_tokens hl (hn l (by simp)) _ hi]
    simp
  have hlex := finish_joinLines hl ha ls [] fun t ht => hs t (List.mem_append_left _ ht)
  have hlex' : lex bash (joinLines (ls ++ [l]) ++ ' ' :: '\'' :: (arg ++ ['\''])) =
      some (lineTokens ls ++ (tokens l ++ [marked .single arg].map .word)) := hlex
  rw [executes, hlex', Option.bind_some, commandsFrom_lineTokens _
    (fun t ht => hs t (List.mem_append_left _ ht)) (fun t ht => hn t (List.mem_append_left _ ht)), hlast]
  rfl

end Lightbox.Shell.Lines
