import Mathlib.Data.List.Basic
import Mathlib.Tactic.Common

/-! # Replacing the first occurrence of a pattern

`replaceFirst p r t` is `${t/p/r}` for a literal pattern `p`. An occurrence never goes across an
element that is not in the pattern, so in `a ++ x :: u` the first one is in `a` if there is one in
`a` (`replaceFirst_append_of_occurs`) and in `u` otherwise (`replaceFirst_append`). -/

namespace Lightbox.Shell.Subst

variable {α : Type} [BEq α] [LawfulBEq α]

/-- The pattern occurs in the list. -/
def occurs (p : List α) : List α → Bool
  | [] => false
  | c :: t => p.isPrefixOf (c :: t) || occurs p t

/-- **Replace the first occurrence** of the pattern `p` by `r`. -/
def replaceFirst (p r : List α) : List α → List α
  | [] => []
  | c :: t =>
    if p.isPrefixOf (c :: t) then r ++ (c :: t).drop p.length else c :: replaceFirst p r t

variable {p r : List α} {x : α}

omit [LawfulBEq α] in
theorem replaceFirst_of_not_occurs : ∀ {a : List α}, occurs p a = false → replaceFirst p r a = a
  | [], _ => rfl
  | c :: t, h => by
    obtain ⟨h1, h2⟩ := Bool.or_eq_false_iff.mp h
    rw [replaceFirst, if_neg (by simp [h1]), replaceFirst_of_not_occurs h2]

/-- A pattern without `x` begins before an `x` exactly if it ends there. -/
theorem isPrefixOf_append_cons : ∀ {p a : List α} (u : List α), x ∉ p →
    p.isPrefixOf (a ++ x :: u) = p.isPrefixOf a
  | [], a, u, _ => by cases a <;> rfl
  | y :: p, [], u, h => by
    have hy : y ≠ x := fun hy => h (by simp [hy])
    simp [List.isPrefixOf, hy]
  | y :: p, c :: a, u, h => by
    have hp : x ∉ p := fun hp => h (by simp [hp])
    rw [List.cons_append, List.isPrefixOf, List.isPrefixOf, isPrefixOf_append_cons u hp]

theorem occurs_append (hx : x ∉ p) (hp : p ≠ []) (u : List α) : ∀ a : List α,
    occurs p (a ++ x :: u) = (occurs p a || occurs p u)
  | [] => by
    have h := isPrefixOf_append_cons (a := []) u hx
    have hn : p.isPrefixOf ([] : List α) = false := by
      obtain ⟨y, q, rfl⟩ := List.exists_cons_of_ne_nil hp
      rfl
    rw [List.nil_append] at h
    show (p.isPrefixOf (x :: u) || occurs p u) = (false || occurs p u)
    rw [h, hn]
  | c :: a => by
    have h := isPrefixOf_append_cons (a := c :: a) u hx
    rw [List.cons_append] at h
    rw [List.cons_append, occurs, occurs, h, occurs_append hx hp u a, Bool.or_assoc]

/-- The first occurrence is before the `x`. -/
theorem replaceFirst_append_of_occurs (hx : x ∉ p) (u : List α) : ∀ {a : List α},
    occurs p a = true → replaceFirst p r (a ++ x :: u) = replaceFirst p r a ++ x :: u
  | [], h => by simp [occurs] at h
  | c :: a, h => by
    have hpre := isPrefixOf_append_cons (a := c :: a) u hx
    rw [List.cons_append] at hpre
    rw [List.cons_append, replaceFirst, replaceFirst, hpre]
    by_cases hc : p.isPrefixOf (c :: a) = true
    · have hl : p.length ≤ (c :: a).length := (List.isPrefixOf_iff_prefix.mp hc).length_le
      rw [if_pos hc, if_pos hc, ← List.cons_append, List.drop_append_of_le_length hl,
        List.append_assoc]
    · have ha : occurs p a = true := (Bool.or_eq_true_iff.mp h).resolve_left hc
      rw [if_neg hc, if_neg hc, replaceFirst_append_of_occurs hx u ha, List.cons_append]

/-- The first occurrence is after the `x`. -/
theorem replaceFirst_append (hx : x ∉ p) (hp : p ≠ []) (u : List α) : ∀ {a : List α},
    occurs p a = false → replaceFirst p r (a ++ x :: u) = a ++ x :: replaceFirst p r u
  | [], _ => by
    have h := isPrefixOf_append_cons (a := []) u hx
    have hn : p.isPrefixOf ([] : List α) = false := by
      obtain ⟨y, q, rfl⟩ := List.exists_cons_of_ne_nil hp
      rfl
    rw [List.nil_append] at h
    rw [List.nil_append, replaceFirst, h, hn, if_neg (by simp), List.nil_append]
  | c :: a, h => by
    obtain ⟨h1, h2⟩ := Bool.or_eq_false_iff.mp h
    have hpre := isPrefixOf_append_cons (a := c :: a) u hx
    rw [List.cons_append, h1] at hpre
    rw [List.cons_append, replaceFirst, hpre, if_neg (by simp), replaceFirst_append hx hp u h2,
      List.cons_append]

theorem length_replaceFirst : ∀ {a : List α}, occurs p a = true →
    (replaceFirst p r a).length + p.length = a.length + r.length
  | [], h => by simp [occurs] at h
  | c :: a, h => by
    rw [replaceFirst]
    by_cases hc : p.isPrefixOf (c :: a) = true
    · have hl : p.length ≤ (c :: a).length := (List.isPrefixOf_iff_prefix.mp hc).length_le
      rw [if_pos hc, List.length_append, List.length_drop]
      omega
    · have ih := length_replaceFirst ((Bool.or_eq_true_iff.mp h).resolve_left hc)
      rw [if_neg hc, List.length_cons, List.length_cons]
      omega

/-- A replacement of another length changes the list. -/
theorem replaceFirst_ne {a : List α} (h : occurs p a = true) (hl : p.length ≠ r.length) :
    replaceFirst p r a ≠ a := by
  intro he
  have := length_replaceFirst (r := r) h
  rw [he] at this
  omega

/-- Elements that are neither in the pattern nor in the replacement stay. -/
theorem filter_replaceFirst {f : α → Bool} (hp : p.filter f = []) (hr : r.filter f = []) :
    ∀ a : List α, (replaceFirst p r a).filter f = a.filter f
  | [] => rfl
  | c :: a => by
    rw [replaceFirst]
    by_cases hc : p.isPrefixOf (c :: a) = true
    · have hs : c :: a = p ++ (c :: a).drop p.length :=
        (List.prefix_iff_eq_append.mp (List.isPrefixOf_iff_prefix.mp hc)).symm
      rw [if_pos hc, List.filter_append, hr, List.nil_append]
      conv_rhs => rw [hs, List.filter_append, hp, List.nil_append]
    · rw [if_neg hc, List.filter_cons, List.filter_cons, filter_replaceFirst hp hr a]

omit [LawfulBEq α] in
theorem mem_of_mem_replaceFirst {y : α} : ∀ {a : List α}, y ∈ replaceFirst p r a → y ∈ a ∨ y ∈ r
  | [], h => Or.inl h
  | c :: a, h => by
    rw [replaceFirst] at h
    split_ifs at h
    · rcases List.mem_append.mp h with h | h
      · exact Or.inr h
      · exact Or.inl (List.mem_of_mem_drop h)
    · rcases List.mem_cons.mp h with rfl | h
      · exact Or.inl (by simp)
      · exact (mem_of_mem_replaceFirst h).imp_left (List.mem_cons_of_mem c)

end Lightbox.Shell.Subst
