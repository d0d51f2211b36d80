import Lightbox.Shell.Read
import Lightbox.Shell.Size

/-! # A quoted argument at the end of a command

A command of simple words, followed by one argument in single quotes, is read as those words and the
argument if the argument holds no single quote (`readCommand_quoted`). Conversely the text between
the quotes is never shorter than the argument that is read (`length_of_readCommand`), so an argument
with a single quote is not read as it stands.

If the whole command is put in double quotes for a splitter that only knows quoting, it arrives as
it stands if it keeps (`argv_keeps`), and shorter otherwise (`argv_not_keeps`). -/

namespace Lightbox.Shell.Quoted

open Lightbox.Shell.Lex Lightbox.Shell.Read Lightbox.Shell.Size

/-- The words of a simple text, as tokens. -/
def tokens (t : Text) : List Token := (fields t).map fun w => .word (marked .bare w)

/-- The first word of the text is the name of a command. -/
def Names (t : Text) : Prop := ∃ w ws, fields t = w :: ws ∧
  assigns (marked .bare w) = false ∧ isReserved (marked .bare w) = false

/-! ### Inside single quotes -/

/-- A simple text and an opening quote. -/
theorem run_open {t : Text} (ht : Simple t) (u : Text) :
    run bash init (t ++ ' ' :: '\'' :: u) = run bash ⟨tokens t, [], .single⟩ u := by
  have hl : lex bash t = some (((fields t).map (marked .bare)).map .word) := by
    rw [lex_fields ht, List.map_map]
    rfl
  rw [run_blank (by decide) tidy_init hl, List.map_map, run_cons]
  rfl

/-- **The argument is read as it stands** if it holds no single quote. -/
theorem readCommand_quoted {t arg : Text} (ht : Simple t) (hn : Names t) (ha : '\'' ∉ arg) :
    readCommand (t ++ ' ' :: '\'' :: (arg ++ ['\''])) = some (fields t ++ [arg]) := by
  obtain ⟨w, ws, hw, hassign, hres⟩ := hn
  have hl : lex bash (t ++ ' ' :: '\'' :: (arg ++ ['\''])) =
      some (((fields t).map (marked .bare) ++ [marked .single arg]).map .word) := by
    rw [lex, run_open ht, run_append, run_single _ _ _ _ ha, run_cons, step_single_close]
    simp [finish, tokens]
  have hi : ∀ x ∈ (fields t).map (marked .bare) ++ [marked .single arg], Inert x := by
    intro x hx
    rcases List.mem_append.mp hx with hx | hx
    · obtain ⟨y, hy, rfl⟩ := List.mem_map.mp hx
      exact inert_of_plain (of_mem_fields ht hy).2
    · obtain rfl : x = marked .single arg := by simpa using hx
      refine inert_of_bares fun c hc => ?_
      rw [mem_bares] at hc
      simp [marked] at hc
  have hc : noCommand (((fields t).map (marked .bare) ++ [marked .single arg]).map .word) = false := by
    rw [hw]
    simp [noCommand, hassign, hres]
  rw [readCommand, hl, Option.bind_some, hc, if_neg (by simp), literals_words hi]
  simp [Function.comp_def]

/-- The characters of literal words. -/
theorem size_of_literals : ∀ {ts : List Token} {ws : List Text}, literals ts = some ws →
    size ts = (ws.map List.length).sum
  | [], ws, h => by
    obtain rfl : ws = [] := by simpa [literals] using h.symm
    rfl
  | .word w :: ts, ws, h => by
    rw [literals] at h
    split_ifs at h
    obtain ⟨vs, hv, rfl⟩ := Option.map_eq_some_iff.mp h
    have ih := size_of_literals hv
    simp [tokenSize, text, ih]
  | .op _ :: _, _, h => by simp [literals] at h
  | .comment :: _, _, h => by simp [literals] at h

theorem size_tokens (t : Text) : size (tokens t) = ((fields t).map List.length).sum := by
  simp [size, tokens, tokenSize, marked, Function.comp_def]

/-- The text at a first quote. -/
theorem split_first {c : Char} : ∀ {u : Text}, c ∈ u → ∃ a b, u = a ++ c :: b ∧ c ∉ a
  | [], h => by simp at h
  | x :: u, h => by
    by_cases hx : c = x
    · exact ⟨[], u, by simp [hx], by simp⟩
    · obtain ⟨a, b, hu, ha⟩ := split_first ((List.mem_cons.mp h).resolve_left hx)
      exact ⟨x :: a, b, by simp [hu], by simp [hx, ha]⟩

/-- **The text after an opening quote is longer than the argument that is read**, by more than one
if it holds two quotes. -/
theorem length_of_readCommand {t u arg : Text} (ht : Simple t)
    (h : readCommand (t ++ ' ' :: '\'' :: u) = some (fields t ++ [arg])) :
    arg.length + 1 ≤ u.length ∧ (2 ≤ u.count '\'' → arg.length + 1 < u.length) := by
  obtain ⟨ts, hts, hlit⟩ := Option.bind_eq_some_iff.mp h
  split_ifs at hlit
  rw [lex, run_open ht] at hts
  obtain ⟨a, b, rfl, ha⟩ := split_first (quote_mem_of_single bash hts)
  obtain ⟨h1, h2⟩ := size_of_single bash ha hts
  have hs := size_of_literals hlit
  rw [size_tokens] at h1 h2
  simp only [List.map_append, List.sum_append, List.map_cons, List.map_nil, List.sum_cons,
    List.sum_nil] at hs
  simp only [List.length_nil] at h1 h2
  rw [List.length_append, List.length_cons]
  refine ⟨by omega, fun hc => ?_⟩
  have hb : '\'' ∈ b := by
    rw [List.count_append, List.count_eq_zero_of_not_mem ha, List.count_cons_self] at hc
    exact List.count_pos_iff.mp (by omega)
  have h2 := h2 hb
  omega

/-- Only an argument without a single quote is read as it stands. -/
theorem quote_not_mem_of_readCommand {t arg : Text} (ht : Simple t)
    (h : readCommand (t ++ ' ' :: '\'' :: (arg ++ ['\''])) = some (fields t ++ [arg])) :
    '\'' ∉ arg := by
  intro hq
  have hlt := (length_of_readCommand ht h).2
  have hc : 0 < arg.count '\'' := List.count_pos_iff.mpr hq
  rw [List.count_append, List.count_singleton_self, List.length_append, List.length_singleton] at hlt
  have := hlt (by omega)
  omega

/-! ### Inside double quotes -/

/-- A text with neither a double quote nor a backslash keeps. -/
theorem keeps_of_not_mem : ∀ {t : Text}, '"' ∉ t → '\\' ∉ t → keeps t = true
  | [], _, _ => rfl
  | [c], h, _ => by
    have hc : c ≠ '"' := fun hc => h (by simp [hc])
    simpa [keeps] using hc
  | c :: c' :: t, h, hb => by
    have hc : c ≠ '"' := fun hc => h (by simp [hc])
    have hc' : c ≠ '\\' := fun hc => hb (by simp [hc])
    have ih := keeps_of_not_mem (t := c' :: t) (fun hm => h (List.mem_cons_of_mem _ hm))
      (fun hm => hb (List.mem_cons_of_mem _ hm))
    simp [keeps, hc, hc', ih]

/-- Two texts that keep do so together, if a backslash at the end of the first does not escape what
follows it. -/
theorem keeps_append : ∀ {t u : Text}, keeps t = true → keeps u = true →
    (t.getLast? = some '\\' → ∀ c ∈ u.head?, c ≠ '\n' ∧ c ∉ escapable) → keeps (t ++ u) = true
  | [], u, _, hu, _ => hu
  | [c], [], hc, _, _ => hc
  | [c], c' :: u, hc, hu, hh => by
    have hc : c ≠ '"' := by simpa [keeps] using hc
    by_cases hb : c = '\\'
    · obtain ⟨h1, h2⟩ := hh (by simp [hb]) c' (by simp)
      simp [keeps, hc, h1, h2, hu]
    · simp [keeps, hc, hb, hu]
  | c :: c' :: t, u, ht, hu, hh => by
    simp only [keeps, Bool.and_eq_true] at ht
    rw [List.getLast?_cons_cons] at hh
    have ih := keeps_append (t := c' :: t) ht.2 hu hh
    simp only [List.cons_append, keeps, Bool.and_eq_true] at ih ⊢
    exact ⟨ht.1, ih⟩

/-- A beginning of a text that keeps does too. -/
theorem keeps_of_append : ∀ {t u : Text}, keeps (t ++ u) = true → keeps t = true
  | [], _, _ => rfl
  | [c], [], h => h
  | [c], c' :: u, h => by
    simp only [List.cons_append, List.nil_append, keeps, Bool.and_eq_true] at h
    simpa [keeps] using h.1.1
  | c :: c' :: t, u, h => by
    simp only [List.cons_append, keeps, Bool.and_eq_true] at h ⊢
    exact ⟨h.1, keeps_of_append (t := c' :: t) h.2⟩

/-- **A text that keeps arrives as it stands.** -/
theorem argv_keeps {d : List Token} {t : Text} (hk : keeps t = true)
    (hl : t.getLast? ≠ some '\\') :
    finish (run argv ⟨d, [], .double⟩ (t ++ ['"'])) = some (d ++ [.word (marked .double t)]) := by
  have hs : step argv ⟨d, marked .double t, .double⟩ '"' = ⟨d, marked .double t, .bare⟩ := by
    simp [step, doubleChar]
  rw [run_append, run_keeps rfl t d [] hk hl, List.nil_append, run_cons, hs]
  rfl

/-- **A text that does not keep arrives shorter**: after the part `p` that keeps, less than `u` and a
quote is left of it. -/
theorem argv_not_keeps {d ts : List Token} {p u : Text} (hp : keeps p = true)
    (hl : p.getLast? ≠ some '\\') (hu : keeps (u ++ ['\'']) = false)
    (h : finish (run argv ⟨d, [], .double⟩ (p ++ (u ++ ['\'', '"']))) = some ts) :
    ∃ w us r, ts = d ++ .word w :: us ∧ text w = p ++ r ∧ r.length < u.length + 1 := by
  rw [run_append, run_keeps rfl p d [] hp hl, List.nil_append] at h
  obtain ⟨w, us, hts, hw⟩ := word_extends argv _ (s := ⟨d, marked .double p, .double⟩) trivial h
  obtain ⟨x, hx⟩ := hw
  refine ⟨w, us, text x, hts, by rw [← hx]; simp, ?_⟩
  rw [run_append] at h
  have hsize := size_of_quote_double (s := run argv ⟨d, marked .double p, .double⟩ u) h
  have hlt := held_lt_of_not_keeps (R := argv) rfl (u ++ ['\'']) d (marked .double p) hu
  rw [run_append] at hlt
  have hlen : w.length = p.length + x.length := by
    rw [← hx]
    simp [marked]
  have hts' : size ts = size d + w.length + size us := by
    rw [hts]
    simp [tokenSize]
    omega
  have hstep : run argv (run argv ⟨d, marked .double p, .double⟩ u) ['\''] =
      step argv (run argv ⟨d, marked .double p, .double⟩ u) '\'' := rfl
  rw [hstep] at hlt
  simp only [List.length_append, List.length_singleton, text, List.length_map, marked] at hlt ⊢
  simp only [marked] at hsize
  omega

end Lightbox.Shell.Quoted
