import Lightbox.Shell.Read
import Mathlib.Data.List.TakeWhile

/-! # The commands a text makes the shell execute

A text is executed line by line. In a line the leading words that have the form of an assignment are
assignments, and the first word after them is the name of a command; a line of assignments alone
executes nothing. A name that begins with `%` names a job, which `fg` resumes. A line whose words an
expansion may change is not followed (`none`), nor is a text that begins with `^`, by which an
interactive shell recalls an earlier line.

A line that begins with a reserved word is followed if it is the last one, and of words only. Behind
`time`, `!` and `coproc` a command may come; any other reserved word begins a compound command, or is
an error. Words alone do not complete a compound command that executes something, for a command in it
takes all words behind it as its arguments: so nothing is executed. -/

namespace Lightbox.Shell.Commands

open Lightbox.Shell.Lex Lightbox.Shell.Read

/-- The token has the form of an assignment. -/
def isAssign : Token → Bool
  | .word w => assigns w
  | _ => false

/-- The line begins with a reserved word. -/
def startsReserved : List Token → Bool
  | .word w :: _ => isReserved w
  | _ => false

/-- The command that a list of words calls. -/
def called : List Text → List Text
  | [] => []
  | w :: ws => if w.head? = some '%' then "fg".toList :: w :: ws else w :: ws

/-- The command of a line in which no word is reserved, if there is one. -/
def simpleCommands (ts : List Token) : Option (List (List Text)) :=
  if ts.dropWhile isAssign = [] then some []
  else (literals (ts.dropWhile isAssign)).map fun ws => [called ws]

/-- The commands of a line: at most one. -/
def lineCommands (ts : List Token) : Option (List (List Text)) :=
  if startsReserved ts then none else simpleCommands ts

/-- The token is the unprotected word `s`. -/
def isBare (s : String) : Token → Bool
  | .word w => w = marked .bare s.toList
  | _ => false

def isWord : Token → Bool
  | .word _ => true
  | _ => false

/-- The token is reserved where `time` is not. -/
def opens (t : Token) : Bool := startsReserved [t] && !isBare "time" t

/-- The commands behind `coproc`. A name may come first if a compound command follows it. -/
def coprocCommands : List Token → Option (List (List Text))
  | [] => some []
  | t :: ts =>
    if opens t || (!isAssign t && ts.head?.any opens) then some [] else simpleCommands (t :: ts)

/-- Where a word is read: behind `time`, behind `time -p`, or elsewhere at the beginning of a command. -/
inductive Place
  | start | time | timeOpt
  deriving DecidableEq

/-- The commands of a line of words. -/
def follow : Place → List Token → Option (List (List Text))
  | _, [] => some []
  | p, t :: ts =>
    if p = .time ∧ isBare "-p" t = true then follow .timeOpt ts
    else if p ≠ .start ∧ isBare "--" t = true then follow .start ts
    else if isBare "time" t then follow .time ts
    else if isBare "!" t then follow .start ts
    else if isBare "coproc" t then coprocCommands ts
    else if startsReserved [t] then some []
    else simpleCommands (t :: ts)

/-- The commands of the last line. -/
def lastCommands (ts : List Token) : Option (List (List Text)) :=
  if startsReserved ts && !ts.all isWord then none else follow .start ts

/-- The commands of the lines of a text, `cur` being the beginning of the first one. -/
def commandsFrom (cur : List Token) : List Token → Option (List (List Text))
  | [] => lastCommands cur
  | .op '\n' :: ts => (lineCommands cur).bind fun cs => (commandsFrom [] ts).map (cs ++ ·)
  | t :: ts => commandsFrom (cur ++ [t]) ts

/-- **The commands that a text makes the shell execute**, with their arguments. -/
def commands (t : Text) : Option (List (List Text)) :=
  if t.head? = some '^' then none else (lex bash t).bind (commandsFrom [])

theorem commandsFrom_words (ws : List (List QChar)) : ∀ cur : List Token,
    commandsFrom cur (ws.map .word) = lastCommands (cur ++ ws.map .word) := by
  induction ws with
  | nil => intro cur; simp [commandsFrom]
  | cons w ws ih =>
    intro cur
    rw [List.map_cons, commandsFrom, ih]
    · simp
    · simp

/-- Empty lines execute nothing. -/
theorem commandsFrom_newlines (ts : List Token) : ∀ n : ℕ,
    commandsFrom [] (List.replicate n (.op '\n') ++ ts) = commandsFrom [] ts
  | 0 => by simp
  | n + 1 => by
    have h0 : lineCommands [] = some [] := rfl
    rw [List.replicate_succ, List.cons_append, commandsFrom, h0, Option.bind_some,
      commandsFrom_newlines ts n]
    simp

theorem dropWhile_isAssign {w : List QChar} (h : assigns w = false) (ts : List Token) :
    (Token.word w :: ts).dropWhile isAssign = .word w :: ts := by
  rw [List.dropWhile_cons, if_neg (by simp [isAssign, h])]

theorem reserved_of_isBare {s : String} {t : Token} (hs : s.toList ∈ reservedWords)
    (h : isBare s t = true) : startsReserved [t] = true := by
  cases t with
  | word w =>
    obtain rfl : w = marked .bare s.toList := by simpa [isBare] using h
    have hb : (marked .bare s.toList).all (fun q => decide (q.m = .bare)) = true := by simp [marked]
    show isReserved (marked .bare s.toList) = true
    rw [isReserved, hb, text_marked, List.contains_eq_mem, decide_eq_true hs]
    rfl
  | _ => simp [isBare] at h

/-- **Without a reserved word at its beginning** the last line is like any other. -/
theorem lastCommands_eq {w : List QChar} (h : isReserved w = false) (ts : List Token) :
    lastCommands (.word w :: ts) = lineCommands (.word w :: ts) := by
  have hs : startsReserved (.word w :: ts) = false := h
  have ht : startsReserved [.word w] = false := h
  have hne : ∀ s : String, s.toList ∈ reservedWords → isBare s (.word w) = false := fun s hs => by
    by_contra hb
    rw [reserved_of_isBare hs (by simpa using hb)] at ht
    exact absurd ht (by decide)
  rw [lastCommands, lineCommands, hs, Bool.false_and, if_neg (by simp), if_neg (by simp), follow,
    if_neg (by simp), if_neg (by simp), hne "time" (by decide), hne "!" (by decide),
    hne "coproc" (by decide), ht]
  rfl

/-- A line of literal words executes the first one, if that can be the name of a command. -/
theorem lineCommands_words {w : List QChar} (ws : List (List QChar)) (ha : assigns w = false)
    (hr : isReserved w = false) (hi : ∀ v ∈ w :: ws, Inert v) :
    lineCommands ((w :: ws).map .word) = some [called ((w :: ws).map text)] := by
  have hs : startsReserved ((w :: ws).map .word) = false := hr
  have hd := dropWhile_isAssign ha (ws.map .word)
  rw [← List.map_cons] at hd
  rw [lineCommands, hs, if_neg (by simp), simpleCommands, hd, if_neg (by simp), literals_words hi,
    Option.map_some]

/-- So it does as the last line. -/
theorem lastCommands_words {w : List QChar} (ws : List (List QChar)) (ha : assigns w = false)
    (hr : isReserved w = false) (hi : ∀ v ∈ w :: ws, Inert v) :
    lastCommands ((w :: ws).map .word) = some [called ((w :: ws).map text)] :=
  (lastCommands_eq hr _).trans (lineCommands_words ws ha hr hi)

/-- A line that does not begin with an assignment executes something, or cannot be followed. -/
theorem lineCommands_ne_nil {w : List QChar} (ha : assigns w = false) (ts : List Token) :
    lineCommands (.word w :: ts) ≠ some [] := by
  rw [lineCommands, simpleCommands]
  split_ifs with hr hd
  · simp
  · rw [dropWhile_isAssign ha] at hd
    simp at hd
  · cases literals ((Token.word w :: ts).dropWhile isAssign) <;> simp

/-- So does a text that begins with such a line, if it does not begin with a reserved word. -/
theorem commandsFrom_ne_nil {w : List QChar} (ha : assigns w = false) (hr : isReserved w = false) :
    ∀ (ts cur : List Token), commandsFrom (.word w :: cur) ts ≠ some []
  | [], cur => by
    rw [commandsFrom, lastCommands_eq hr]
    exact lineCommands_ne_nil ha cur
  | t :: ts, cur => by
    by_cases ht : t = .op '\n'
    · subst ht
      rw [commandsFrom]
      intro h
      obtain ⟨cs, hc, h⟩ := Option.bind_eq_some_iff.mp h
      obtain ⟨cs', -, h⟩ := Option.map_eq_some_iff.mp h
      obtain ⟨rfl, -⟩ := List.append_eq_nil_iff.mp h
      exact lineCommands_ne_nil ha cur hc
    · rw [commandsFrom]
      · exact commandsFrom_ne_nil ha hr ts (cur ++ [t])
      · exact ht

theorem length_of_literals : ∀ {ts : List Token} {ws : List Text}, literals ts = some ws →
    ws.length = ts.length
  | [], ws, h => by
    obtain rfl : [] = ws := by simpa [literals] using h
    rfl
  | .word w :: ts, ws, h => by
    rw [literals] at h
    split_ifs at h
    obtain ⟨vs, hv, rfl⟩ := Option.map_eq_some_iff.mp h
    rw [List.length_cons, List.length_cons, length_of_literals hv]
  | .op c :: ts, ws, h => by simp [literals] at h
  | .comment :: ts, ws, h => by simp [literals] at h

/-- A reserved word is no assignment. -/
theorem not_assigns_of_isReserved {w : List QChar} (h : isReserved w = true) :
    assigns w = false := by
  rw [isReserved, Bool.and_eq_true, List.contains_eq_mem, decide_eq_true_eq] at h
  obtain ⟨hb, hr⟩ := h
  have hw : w = marked .bare (text w) := by
    rw [marked, text, List.map_map]
    refine (List.map_id _).symm.trans (List.map_congr_left fun q hq => ?_)
    have hm : q.m = .bare := by simpa using List.all_eq_true.mp hb q hq
    show q = ⟨q.c, .bare⟩
    rw [← hm]
  have hall : reservedWords.all (fun r => !assigns (marked .bare r)) = true := by decide
  rw [hw]
  simpa using List.all_eq_true.mp hall _ hr

theorem not_isReserved_of_assigns {w : List QChar} (h : assigns w = true) : isReserved w = false := by
  by_contra hr
  rw [not_assigns_of_isReserved (by simpa using hr)] at h
  exact absurd h (by decide)

/-- Behind an assignment, at most the words that follow it are executed. -/
theorem lastCommands_assign {w : List QChar} (ha : assigns w = true) {ts : List Token}
    {cs : List (List Text)} (h : lastCommands (.word w :: ts) = some cs) :
    ∀ c ∈ cs, ∃ ws : List Text, c = called ws ∧ ws.length ≤ ts.length := by
  have hd : (Token.word w :: ts).dropWhile isAssign = ts.dropWhile isAssign := by
    rw [List.dropWhile_cons, if_pos (by simpa [isAssign] using ha)]
  rw [lastCommands_eq (not_isReserved_of_assigns ha), lineCommands, simpleCommands, hd] at h
  split_ifs at h with hr h0
  · obtain rfl := Option.some.inj h
    simp
  · obtain ⟨ws, hl, rfl⟩ := Option.map_eq_some_iff.mp h
    intro c hc
    refine ⟨ws, by simpa using hc, ?_⟩
    rw [length_of_literals hl]
    exact List.length_dropWhile_le isAssign ts

/-- **Words of which none is reserved execute nothing** exactly if all of them are assignments. -/
theorem simpleCommands_eq_nil_iff {ws : List (List QChar)} :
    simpleCommands (ws.map .word) = some [] ↔ ∀ w ∈ ws, assigns w = true := by
  rw [simpleCommands]
  constructor
  · intro h w hw
    split_ifs at h with hd
    · exact List.dropWhile_eq_nil_iff.mp hd (.word w) (List.mem_map_of_mem hw)
    · cases hl : literals ((ws.map Token.word).dropWhile isAssign) <;> simp [hl] at h
  · intro h
    have hd : (ws.map Token.word).dropWhile isAssign = [] := by
      rw [List.dropWhile_eq_nil_iff]
      intro t ht
      obtain ⟨w, hw, rfl⟩ := List.mem_map.mp ht
      exact h w hw
    rw [if_pos hd]

end Lightbox.Shell.Commands
