import Mathlib.Data.List.Basic
import Mathlib.Tactic.Common

/-! # Replacing all matches in a text

`scan` goes through a text from left to right. Where the expression matches, the match is replaced
and skipped; elsewhere the character is copied. A replacement sees the text before the match, the
match and the text after it, all of the original text, as `String.prototype.replace` has it.

* `Rewrites m f u v`: wherever the scan reaches `u`, it puts `v` and goes on behind `u`. Texts put
  together from such pieces are rewritten piece by piece (`Rewrites.flatMap`).
* `substitute`: a replacement given as a string, with its patterns `$$`, `$&`, `` $` `` and `$'`; a
  string without them stands for itself (`substitute_eq`). -/

namespace Lightbox.Js.Replace

section Scan
variable {α : Type*}

/-- **Replacing all matches.** `m` gives the length of the match at the beginning of a text. The
number of characters still to be skipped comes first, then the text already passed. -/
def scan (m : List α → Option ℕ) (f : List α → List α → List α → List α) :
    ℕ → List α → List α → List α
  | _, _, [] => []
  | skip + 1, b, c :: t => scan m f skip (b ++ [c]) t
  | 0, b, c :: t =>
    match m (c :: t) with
    | some n => f b ((c :: t).take n) ((c :: t).drop n) ++ scan m f (n - 1) (b ++ [c]) t
    | none => c :: scan m f 0 (b ++ [c]) t

def replaceAll (m : List α → Option ℕ) (f : List α → List α → List α → List α) (t : List α) :
    List α := scan m f 0 [] t

/-- A fixed text as an expression. -/
def matchLit [BEq α] (p : List α) (t : List α) : Option ℕ :=
  if p.isPrefixOf t then some p.length else none

variable {m : List α → Option ℕ} {f : List α → List α → List α → List α}

theorem scan_skip (t : List α) : ∀ (u b : List α),
    scan m f u.length b (u ++ t) = scan m f 0 (b ++ u) t
  | [], b => by simp
  | c :: u, b => by
    rw [List.length_cons, List.cons_append, scan, scan_skip t u]
    simp

theorem scan_match {u t : List α} (b : List α) (hu : u ≠ []) (h : m (u ++ t) = some u.length) :
    scan m f 0 b (u ++ t) = f b u t ++ scan m f 0 (b ++ u) t := by
  obtain ⟨c, u, rfl⟩ := List.exists_cons_of_ne_nil hu
  have ht : ((c :: u) ++ t).take (c :: u).length = c :: u := List.take_left
  have hd : ((c :: u) ++ t).drop (c :: u).length = t := List.drop_left
  rw [List.cons_append] at h ht hd ⊢
  rw [scan, h]
  dsimp only
  rw [ht, hd, List.length_cons, Nat.add_sub_cancel, scan_skip]
  simp

theorem scan_none {c : α} {t : List α} (b : List α) (h : m (c :: t) = none) :
    scan m f 0 b (c :: t) = c :: scan m f 0 (b ++ [c]) t := by
  rw [scan, h]

/-- Wherever the scan reaches `u`, it puts `v` and goes on behind `u`. -/
def Rewrites (m : List α → Option ℕ) (f : List α → List α → List α → List α) (u v : List α) :
    Prop := ∀ b t, scan m f 0 b (u ++ t) = v ++ scan m f 0 (b ++ u) t

theorem Rewrites.append {u v u' v' : List α} (h : Rewrites m f u v) (h' : Rewrites m f u' v') :
    Rewrites m f (u ++ u') (v ++ v') := by
  intro b t
  rw [List.append_assoc, h, h', List.append_assoc, List.append_assoc]

theorem rewrites_nil : Rewrites m f [] [] := by
  intro b t
  simp

/-- **A text is rewritten piece by piece.** -/
theorem Rewrites.flatMap {σ : Type*} {g g' : σ → List α} : ∀ {l : List σ},
    (∀ s ∈ l, Rewrites m f (g s) (g' s)) → Rewrites m f (l.flatMap g) (l.flatMap g')
  | [], _ => rewrites_nil
  | s :: l, h => by
    rw [List.flatMap_cons, List.flatMap_cons]
    exact (h s List.mem_cons_self).append
      (Rewrites.flatMap fun s' hs' => h s' (List.mem_cons_of_mem _ hs'))

theorem Rewrites.replaceAll_eq {u v : List α} (h : Rewrites m f u v) : replaceAll m f u = v := by
  have := h [] []
  rw [List.append_nil] at this
  rw [replaceAll, this]
  simp [scan]

/-- A match is replaced, if the replacement does not depend on its place. -/
theorem rewrites_match {u v : List α} (hu : u ≠ []) (hm : ∀ t, m (u ++ t) = some u.length)
    (hf : ∀ b t, f b u t = v) : Rewrites m f u v := by
  intro b t
  rw [scan_match b hu (hm t), hf]

/-- A text in which no match begins is copied. -/
theorem rewrites_copy : ∀ {u : List α}, (∀ r t, r ≠ [] → r <:+ u → m (r ++ t) = none) →
    Rewrites m f u u
  | [], _ => rewrites_nil
  | c :: u, h => by
    intro b t
    have hc := h (c :: u) t (List.cons_ne_nil c u) (List.suffix_refl _)
    have hu : Rewrites m f u u := rewrites_copy fun r t' hr hs =>
      h r t' hr (hs.trans (List.suffix_cons c u))
    rw [List.cons_append] at hc ⊢
    rw [scan_none b hc, hu, List.cons_append]
    simp

/-! ### What a scan changes

The expressions never match the empty text (`Proper`), and a match lies inside the text. -/

/-- A match is non-empty and lies inside the text. -/
def Proper (m : List α → Option ℕ) : Prop := ∀ t n, m t = some n → 0 < n ∧ n ≤ t.length

/-- A scan either is at the end, copies a character, or replaces a match. -/
theorem scan_cases (hm : Proper m) (t : List α) :
    t = [] ∨ (∃ c t', t = c :: t' ∧ m t = none) ∨
      ∃ u t', t = u ++ t' ∧ u ≠ [] ∧ m (u ++ t') = some u.length := by
  match t with
  | [] => exact Or.inl rfl
  | c :: t' =>
    right
    rcases hc : m (c :: t') with _ | n
    · exact Or.inl ⟨c, t', rfl, rfl⟩
    · obtain ⟨hpos, hle⟩ := hm _ _ hc
      have hlen : ((c :: t').take n).length = n := by rw [List.length_take]; omega
      refine Or.inr ⟨(c :: t').take n, (c :: t').drop n, (List.take_append_drop n _).symm, ?_, ?_⟩
      · intro h0
        rw [h0, List.length_nil] at hlen
        omega
      · rw [List.take_append_drop, hc, hlen]

/-- **Induction along a scan.** -/
theorem scan_induction (hm : Proper m) {P : List α → List α → Prop} (nil : ∀ b, P b [])
    (copy : ∀ b c t, m (c :: t) = none → P (b ++ [c]) t → P b (c :: t))
    (hit : ∀ b u t, u ≠ [] → m (u ++ t) = some u.length → P (b ++ u) t → P b (u ++ t)) :
    ∀ b t, P b t := by
  intro b t
  generalize hn : t.length = n
  induction n using Nat.strongRecOn generalizing b t with
  | ind n ih =>
    rcases scan_cases hm t with rfl | ⟨c, t', rfl, hc⟩ | ⟨u, t', rfl, hu, hc⟩
    · exact nil b
    · rw [List.length_cons] at hn
      exact copy b c t' hc (ih t'.length (by omega) _ _ rfl)
    · have hpos : 0 < u.length := List.length_pos_iff.mpr hu
      rw [List.length_append] at hn
      exact hit b u t' hu hc (ih t'.length (by omega) _ _ rfl)

/-- Replacing every match by itself changes nothing. -/
theorem scan_eq_self (hm : Proper m) (hf : ∀ b u t, m (u ++ t) = some u.length → f b u t = u) :
    ∀ b t, scan m f 0 b t = t := by
  refine scan_induction hm (fun b => by rw [scan]) (fun b c t hc ih => ?_)
    fun b u t hu hc ih => ?_
  · rw [scan_none b hc, ih]
  · rw [scan_match b hu hc, ih, hf b u t hc]

/-- A text with a match is scanned up to the first one. -/
theorem scan_first (hm : Proper m) {t r : List α} (hr : r <:+ t) (hmr : m r ≠ none) :
    ∀ b, ∃ v u w, t = v ++ (u ++ w) ∧ u ≠ [] ∧ m (u ++ w) = some u.length ∧
      scan m f 0 b t = v ++ (f (b ++ v) u w ++ scan m f 0 (b ++ v ++ u) w) := by
  intro b
  induction t generalizing b with
  | nil =>
    rw [List.suffix_nil.mp hr] at hmr
    obtain ⟨n, hn⟩ := Option.ne_none_iff_exists'.mp hmr
    have := hm _ _ hn
    simp only [List.length_nil] at this
    omega
  | cons c t ih =>
    rcases scan_cases hm (c :: t) with h | ⟨c', t', he, hc⟩ | ⟨u, w, he, hu, hc⟩
    · cases h
    · obtain ⟨rfl, rfl⟩ := List.cons.inj he
      have hr' : r <:+ t := by
        rcases List.suffix_cons_iff.mp hr with rfl | h
        · exact absurd hc hmr
        · exact h
      obtain ⟨v, u, w, rfl, hu, hmu, hs⟩ := ih hr' (b ++ [c])
      refine ⟨c :: v, u, w, rfl, hu, hmu, ?_⟩
      rw [scan_none b hc, hs]
      simp
    · refine ⟨[], u, w, he, hu, hc, ?_⟩
      rw [he, scan_match b hu hc]
      simp

/-- Replacements that are no longer than the matches give a text that is no longer. -/
theorem length_scan_le (hm : Proper m)
    (hf : ∀ b u t, m (u ++ t) = some u.length → (f b u t).length ≤ u.length) :
    ∀ b t, (scan m f 0 b t).length ≤ t.length := by
  refine scan_induction hm (fun b => by simp [scan]) (fun b c t hc ih => ?_)
    fun b u t hu hc ih => ?_
  · rw [scan_none b hc, List.length_cons, List.length_cons]
    omega
  · have := hf b u t hc
    rw [scan_match b hu hc, List.length_append, List.length_append]
    omega

theorem le_length_scan (hm : Proper m)
    (hf : ∀ b u t, m (u ++ t) = some u.length → u.length ≤ (f b u t).length) :
    ∀ b t, t.length ≤ (scan m f 0 b t).length := by
  refine scan_induction hm (fun b => by simp [scan]) (fun b c t hc ih => ?_)
    fun b u t hu hc ih => ?_
  · rw [scan_none b hc, List.length_cons, List.length_cons]
    omega
  · have := hf b u t hc
    rw [scan_match b hu hc, List.length_append, List.length_append]
    omega

/-- A character outside the matches is not lost. -/
theorem count_le_count_scan [BEq α] [LawfulBEq α] (hm : Proper m) {a : α}
    (hf : ∀ u t, m (u ++ t) = some u.length → a ∉ u) :
    ∀ b t, t.count a ≤ (scan m f 0 b t).count a := by
  refine scan_induction hm (fun b => by simp [scan]) (fun b c t hc ih => ?_)
    fun b u t hu hc ih => ?_
  · rw [scan_none b hc, List.count_cons, List.count_cons]
    omega
  · have h0 := List.count_eq_zero_of_not_mem (hf u t hc)
    rw [scan_match b hu hc, List.count_append, List.count_append]
    omega

/-! ### A fixed text as the expression -/

section Lit
variable [BEq α] [LawfulBEq α] {p : List α}

theorem matchLit_append (t : List α) : matchLit p (p ++ t) = some p.length := by
  rw [matchLit, if_pos (List.isPrefixOf_iff_prefix.mpr (List.prefix_append p t))]

theorem matchLit_eq_none {t : List α} : matchLit p t = none ↔ ¬ p <+: t := by
  rw [matchLit]
  split_ifs with h
  · simp [List.isPrefixOf_iff_prefix.mp h]
  · simpa [List.isPrefixOf_iff_prefix] using h

/-- The match of a fixed text is that text. -/
theorem eq_of_matchLit {u t : List α} (h : matchLit p (u ++ t) = some u.length) : u = p := by
  rw [matchLit] at h
  split_ifs at h with hp
  have hl : p.length = u.length := by simpa using h
  exact ((List.prefix_of_prefix_length_le (List.isPrefixOf_iff_prefix.mp hp)
    (List.prefix_append u t) (Nat.le_of_eq hl)).eq_of_length hl).symm

theorem proper_matchLit (hp : p ≠ []) : Proper (matchLit p) := by
  intro t n h
  rw [matchLit] at h
  split_ifs at h with hpt
  have hl : p.length = n := by simpa using h
  rw [← hl]
  exact ⟨List.length_pos_iff.mpr hp, (List.isPrefixOf_iff_prefix.mp hpt).length_le⟩

omit [BEq α] [LawfulBEq α] in
/-- Two texts with one continuation in common: one is a prefix of the other. -/
theorem prefix_or_of_append {r t : List α} (h : p <+: r ++ t) : p <+: r ∨ r <+: p := by
  rcases Nat.le_total p.length r.length with hl | hl
  · exact Or.inl (List.prefix_of_prefix_length_le h (List.prefix_append r t) hl)
  · exact Or.inr (List.prefix_of_prefix_length_le (List.prefix_append r t) h hl)

end Lit
end Scan

/-! ### Replacement strings -/

/-- What a replacement string puts for a match: `$$` stands for `$`, `$&` for the match, `` $` `` for
the text before it and `$'` for the text after it. The expressions here have no groups, so `$1` and
the like stand for themselves. -/
def substitute (r b u t : List Char) : List Char :=
  match r with
  | '$' :: '$' :: r => '$' :: substitute r b u t
  | '$' :: '&' :: r => u ++ substitute r b u t
  | '$' :: '\x60' :: r => b ++ substitute r b u t
  | '$' :: '\'' :: r => t ++ substitute r b u t
  | c :: r => c :: substitute r b u t
  | [] => []

/-- The characters that make a pattern after a `$`. -/
def patternChars : List Char := ['$', '&', '\x60', '\'']

/-- The text has a replacement pattern in it. -/
def hasPattern : List Char → Bool
  | c :: d :: r => (c == '$' && patternChars.contains d) || hasPattern (d :: r)
  | _ => false

theorem hasPattern_cons_of_false {c : Char} {r : List Char} (h : hasPattern (c :: r) = false) :
    hasPattern r = false := by
  cases r with
  | nil => rfl
  | cons d r =>
    rw [hasPattern, Bool.or_eq_false_iff] at h
    exact h.2

/-- A replacement string without patterns stands for itself. -/
theorem substitute_eq {r b u t : List Char} (h : hasPattern r = false) :
    substitute r b u t = r := by
  fun_induction substitute r b u t with
  | case1 r ih => simp [hasPattern, patternChars] at h
  | case2 r ih => simp [hasPattern, patternChars] at h
  | case3 r ih => simp [hasPattern, patternChars] at h
  | case4 r ih => simp [hasPattern, patternChars] at h
  | case5 c r h1 h2 h3 h4 ih =>
    rw [ih (hasPattern_cons_of_false h)]
  | case6 => rfl

/-! ### Doubled dollar signs

A replacement string that gives itself back has no pattern. For `$&`, `` $` `` and `$'` this shows in
the number of some character of the texts they insert; for `$$`, which inserts nothing, it shows in
the number of doubled dollar signs (`pairs`). -/

/-- The number of `$` that follow a `$`; `p` tells whether a `$` comes before the text. -/
def pairs : Bool → List Char → ℕ
  | _, [] => 0
  | p, c :: t => (if p && c == '$' then 1 else 0) + pairs (c == '$') t

theorem pairs_dollar (p : Bool) (t : List Char) :
    pairs p ('$' :: t) = p.toNat + pairs true t := by
  cases p <;> simp [pairs]

theorem pairs_cons {c : Char} (hc : c ≠ '$') (p : Bool) (t : List Char) :
    pairs p (c :: t) = pairs false t := by
  have h : (c == '$') = false := beq_eq_false_iff_ne.mpr hc
  rw [pairs, h, Bool.and_false, if_neg Bool.false_ne_true, Nat.zero_add]

theorem pairs_le (p : Bool) (t : List Char) : pairs p t ≤ p.toNat + pairs false t := by
  cases t with
  | nil => simp [pairs]
  | cons c t =>
    by_cases hc : c = '$'
    · rw [hc, pairs_dollar, pairs_dollar, Bool.toNat_false]
      omega
    · rw [pairs_cons hc, pairs_cons hc]
      omega

theorem pairs_append_of_not_mem {u : List Char} (hu : u ≠ []) (h : '$' ∉ u) (p : Bool)
    (t : List Char) : pairs p (u ++ t) = pairs false t := by
  induction u generalizing p with
  | nil => exact absurd rfl hu
  | cons c u ih =>
    have hc : c ≠ '$' := fun he => h (he ▸ List.mem_cons_self)
    rw [List.cons_append, pairs_cons hc]
    by_cases hu' : u = []
    · rw [hu', List.nil_append]
    · exact ih hu' (fun hm => h (List.mem_cons_of_mem _ hm)) false

theorem pairs_concat {c : Char} (hc : c ≠ '$') : ∀ (p : Bool) (t : List Char),
    pairs p (t ++ [c]) = pairs p t
  | p, [] => by simp [pairs, hc]
  | p, d :: t => by
    rw [List.cons_append, pairs, pairs, pairs_concat hc]

/-- A text without patterns that does not end in `$` makes no pair with what follows. -/
theorem pairs_append_le (t : List Char) : ∀ {r : List Char}, hasPattern r = false →
    ¬ ['$'] <:+ r → ∀ p, pairs p (r ++ t) ≤ p.toNat + pairs false t
  | [], _, _, p => pairs_le p t
  | c :: r, h, hd, p => by
    have ih := pairs_append_le t (hasPattern_cons_of_false h)
      fun hs => hd (hs.trans (List.suffix_cons c r))
    rw [List.cons_append]
    by_cases hc : c = '$'
    · subst hc
      -- the next character is there and is no `$`
      obtain ⟨d, r, rfl⟩ : ∃ d r', r = d :: r' := by
        refine List.exists_cons_of_ne_nil ?_
        rintro rfl
        exact hd (List.suffix_refl _)
      have hdd : d ≠ '$' := by
        rintro rfl
        simp [hasPattern, patternChars] at h
      have h0 := ih false
      rw [List.cons_append, pairs_cons hdd, Bool.toNat_false] at h0
      rw [pairs_dollar, List.cons_append, pairs_cons hdd]
      omega
    · have h0 := ih false
      rw [Bool.toNat_false] at h0
      rw [pairs_cons hc]
      omega

/-- **The patterns show** in the number of a character `a` of the inserted texts, or in the number of
doubled dollar signs. -/
theorem count_substitute {a : Char} {b u t : List Char} (ha : a ∉ patternChars) (hb : a ∈ b)
    (hu : a ∈ u) (ht : a ∈ t) (r : List Char) :
    r.count a ≤ (substitute r b u t).count a ∧
      ((substitute r b u t).count a = r.count a → ∀ p, pairs p (substitute r b u t) ≤ pairs p r ∧
        (hasPattern r = true → pairs p (substitute r b u t) < pairs p r)) := by
  have hne : ∀ c ∈ patternChars, c ≠ a := fun c hc he => ha (he ▸ hc)
  have skip : ∀ c ∈ patternChars, ∀ l : List Char, (c :: l).count a = l.count a := by
    intro c hc l
    rw [List.count_cons_of_ne (hne c hc)]
  have h1 := skip '$' (by simp [patternChars])
  fun_induction substitute r b u t with
  | case1 r ih =>
    obtain ⟨hle, hp⟩ := ih
    rw [h1, h1, h1]
    refine ⟨hle, fun he p => ?_⟩
    have := (hp he true).1
    rw [pairs_dollar, pairs_dollar, pairs_dollar, Bool.toNat_true]
    exact ⟨by omega, fun _ => by omega⟩
  | case2 r ih =>
    have := List.count_pos_iff.mpr hu
    rw [h1, skip '&' (by simp [patternChars]), List.count_append]
    exact ⟨by omega, fun he => by omega⟩
  | case3 r ih =>
    have := List.count_pos_iff.mpr hb
    rw [h1, skip '\x60' (by simp [patternChars]), List.count_append]
    exact ⟨by omega, fun he => by omega⟩
  | case4 r ih =>
    have := List.count_pos_iff.mpr ht
    rw [h1, skip '\'' (by simp [patternChars]), List.count_append]
    exact ⟨by omega, fun he => by omega⟩
  | case5 c r g1 g2 g3 g4 ih =>
    obtain ⟨hle, hp⟩ := ih
    rw [List.count_cons, List.count_cons]
    refine ⟨by omega, fun he p => ?_⟩
    have hq := hp (by omega) (c == '$')
    -- no pattern begins here, so one that exists lies behind
    have hr : hasPattern (c :: r) = true → hasPattern r = true := by
      intro hpat
      cases r with
      | nil => exact hpat
      | cons d r =>
        rw [hasPattern, Bool.or_eq_true, Bool.and_eq_true, beq_iff_eq] at hpat
        rcases hpat with ⟨rfl, hd⟩ | hpat
        · simp only [patternChars, List.contains_eq_mem, List.mem_cons, List.not_mem_nil, or_false,
            decide_eq_true_eq] at hd
          rcases hd with rfl | rfl | rfl | rfl
          · exact (g1 _ rfl rfl).elim
          · exact (g2 _ rfl rfl).elim
          · exact (g3 _ rfl rfl).elim
          · exact (g4 _ rfl rfl).elim
        · exact hpat
    rw [pairs, pairs]
    exact ⟨by omega, fun hpat => by have := hq.2 (hr hpat); omega⟩
  | case6 => exact ⟨Nat.le_refl _, fun _ _ => ⟨Nat.le_refl _, fun h => by simp [hasPattern] at h⟩⟩

end Lightbox.Js.Replace
