import Lightbox.Files.Archive

/-! # What a change at a path leaves alone

A file tree seen as a map from paths to items, and what `Forest.alter` does to this map. The directory of
the path must be there (`hasDir`), else nothing changes (`alter_eq_self`). A change at `p` does not touch
the items at paths that do not lead to `p` or below it (`itemAt_alter_other`). A *flat* change, one that
keeps a directory and makes a leaf of all else, is an update of the map at `p` (`itemAt_alter`), and it
keeps the directories (`hasDir_alter`). -/

namespace Lightbox.Files.Change

open Lightbox.Files.Directory Lightbox.Files.Archive

variable {N A C : Type}

/-! ### Flat changes -/

/-- A change that keeps a directory, and makes a leaf of a leaf or of nothing. -/
structure Flat (h : Option (Node N A C) → Node N A C) : Prop where
  dir : ∀ a g, h (some (.dir a g)) = .dir a g
  leaf : ∀ a c, ∃ a' c', h (some (.leaf a c)) = .leaf a' c'
  none : ∃ a' c', h none = .leaf a' c'

/-- What a change makes of the item at a path. -/
def onItem (h : Option (Node N A C) → Node N A C) (p : List N) (o : Option (Item N A C)) : Item N A C :=
  item p (h (o.map Item.node))

theorem Flat.item_eq {h : Option (Node N A C) → Node N A C} (hh : Flat h) (p : List N)
    (o : Option (Node N A C)) : item p (h o) = onItem h p (o.map (item p)) := by
  rw [onItem, Option.map_map]
  rcases o with _ | ⟨a, c⟩ | ⟨a, g⟩
  · rfl
  · rfl
  · show item p (h (some (.dir a g))) = item p (h (some (.dir a .nil)))
    rw [hh.dir, hh.dir]
    rfl

/-! ### One change -/

variable [DecidableEq N]

/-- There is a directory in which the path names an entry. -/
def hasDir : List N → Forest N A C → Bool
  | [], _ => false
  | [_], _ => true
  | x :: y :: p, f =>
    match f.find x with
    | some (.dir _ g) => hasDir (y :: p) g
    | _ => false

theorem insert_find {x : N} {n : Node N A C} : ∀ {f : Forest N A C}, f.find x = some n → f.insert x n = f
  | .nil, h => by simp [Forest.find] at h
  | .cons y m f, h => by
    rw [Forest.find] at h
    rw [Forest.insert]
    split_ifs at h ⊢ with hx
    · rw [hx, Option.some.inj h]
    · rw [insert_find h]

/-- Without the directory nothing changes. -/
theorem alter_eq_self {h : Option (Node N A C) → Node N A C} : ∀ {p : List N} {f : Forest N A C},
    hasDir p f = false → f.alter h p = f
  | [], _, _ => rfl
  | [_], _, hd => by simp [hasDir] at hd
  | x :: y :: p, f, hd => by
    rw [hasDir] at hd
    rw [Forest.alter]
    rcases hx : f.find x with _ | ⟨a, c⟩ | ⟨a, g⟩
    · rfl
    · rfl
    · rw [hx] at hd
      show f.insert x (.dir a (g.alter h (y :: p))) = f
      rw [alter_eq_self hd, insert_find hx]

/-- **What is at other paths stays there.** -/
theorem itemAt_alter_other {h : Option (Node N A C) → Node N A C} : ∀ {p q : List N} {f : Forest N A C},
    ¬ p <+: q → itemAt (f.alter h p) q = itemAt f q
  | [], q, _, hpq => absurd List.nil_prefix hpq
  | _ :: _, [], _, _ => rfl
  | [x], z :: q, f, hpq => by
    have hzx : z ≠ x := fun he => hpq (by rw [he]; exact ⟨q, rfl⟩)
    rw [Forest.alter, itemAt, itemAt, Forest.get, Forest.get, find_insert, if_neg hzx]
  | x :: y :: p, z :: q, f, hpq => by
    rw [Forest.alter]
    rcases hx : f.find x with _ | ⟨a, c⟩ | ⟨a, g⟩
    · rfl
    · rfl
    · show itemAt (f.insert x (.dir a (g.alter h (y :: p)))) (z :: q) = _
      rw [itemAt, itemAt, Forest.get, Forest.get, find_insert]
      by_cases hzx : z = x
      · have hrest : ¬ y :: p <+: q := fun hp => hpq (List.cons_prefix_cons.mpr ⟨hzx.symm, hp⟩)
        rw [if_pos hzx, hzx, hx]
        cases q with
        | nil => rfl
        | cons w q =>
          -- the item below the directory, and the same item one directory further down
          have hbelow : ∀ k : Forest N A C, ((Node.dir a k).get (w :: q)).map (item (x :: w :: q)) =
              (itemAt k (w :: q)).map (Item.below x) := fun k => by
            rw [itemAt, Option.map_map]
            exact congrArg (Option.map · _) (funext fun n => (item_below x (w :: q) n).symm)
          rw [Option.bind_some, Option.bind_some, hbelow, hbelow, itemAt_alter_other hrest]
      · rw [if_neg hzx]

/-- **What is made at the path.** -/
theorem get_alter {h : Option (Node N A C) → Node N A C} : ∀ {p : List N} {f : Forest N A C},
    hasDir p f = true → (f.alter h p).get p = some (h (f.get p))
  | [], _, hd => by simp [hasDir] at hd
  | [x], f, _ => by
    rw [Forest.alter, Forest.get, Forest.get, find_insert, if_pos rfl]
    cases f.find x <;> rfl
  | x :: y :: p, f, hd => by
    rw [hasDir] at hd
    rcases hx : f.find x with _ | ⟨a, c⟩ | ⟨a, g⟩
    · simp [hx] at hd
    · simp [hx] at hd
    · rw [hx] at hd
      have hg : (g.alter h (y :: p)).get (y :: p) = some (h (g.get (y :: p))) := get_alter hd
      rw [Forest.alter, hx, Forest.get, Forest.get, find_insert, if_pos rfl, hx]
      exact hg

/-! ### Paths that go on -/

theorem Node.get_append (q : List N) : ∀ (p : List N) (n : Node N A C),
    n.get (p ++ q) = (n.get p).bind (Node.get q)
  | [], n => by
    rw [Node.get]
    rfl
  | _ :: _, .leaf _ _ => by
    rw [Node.get]
    rfl
  | x :: p, .dir _ f => by
    rw [List.cons_append, Node.get, Node.get, Option.bind_assoc]
    exact congrArg _ (funext (Node.get_append q p))

theorem get_append (q : List N) {p : List N} (f : Forest N A C) (hp : p ≠ []) :
    f.get (p ++ q) = (f.get p).bind (Node.get q) := by
  obtain ⟨x, p, rfl⟩ := List.exists_cons_of_ne_nil hp
  rw [List.cons_append, Forest.get, Forest.get, Option.bind_assoc]
  exact congrArg _ (funext (Node.get_append q p))

theorem hasDir_concat (x : N) : ∀ {p : List N} {f : Forest N A C}, p ≠ [] →
    (hasDir (p ++ [x]) f = true ↔ ∃ a g, f.get p = some (.dir a g))
  | [], _, hp => absurd rfl hp
  | [y], f, _ => by
    show hasDir [y, x] f = true ↔ _
    rw [hasDir, Forest.get]
    rcases f.find y with _ | ⟨a, c⟩ | ⟨a, g⟩
    · simp
    · simp [Node.get]
    · simp [Node.get, hasDir]
  | y :: z :: p, f, _ => by
    show hasDir (y :: z :: (p ++ [x])) f = true ↔ _
    rw [hasDir, Forest.get]
    rcases f.find y with _ | ⟨a, c⟩ | ⟨a, g⟩
    · simp
    · simp [Node.get]
    · exact hasDir_concat x (p := z :: p) (by simp)

theorem exists_dir_iff {f : Forest N A C} {p : List N} :
    (∃ a g, f.get p = some (.dir a g)) ↔ ∃ i, itemAt f p = some i ∧ i.content = none := by
  rw [itemAt]
  rcases f.get p with _ | ⟨a, c⟩ | ⟨a, g⟩
  · simp
  · simp [item]
  · simp [item]

/-- A path keeps its directory if what is there stays a directory. -/
theorem hasDir_congr {f g : Forest N A C} {p : List N} (h : ∀ i, itemAt f p.dropLast = some i →
    i.content = none → ∃ j, itemAt g p.dropLast = some j ∧ j.content = none) (hp : hasDir p f = true) :
    hasDir p g = true := by
  rcases List.eq_nil_or_concat p with rfl | ⟨q, x, rfl⟩
  · simp [hasDir] at hp
  · rcases eq_or_ne q [] with rfl | hq
    · rfl
    · rw [List.concat_eq_append] at hp h ⊢
      rw [List.dropLast_concat] at h
      obtain ⟨i, hi, hdir⟩ := exists_dir_iff.mp ((hasDir_concat x hq).mp hp)
      exact (hasDir_concat x hq).mpr (exists_dir_iff.mpr (h i hi hdir))

/-! ### The map from paths to items -/

section Flat
variable {h : Option (Node N A C) → Node N A C} (hh : Flat h)
include hh

/-- **A flat change is an update of the map from paths to items.** -/
theorem itemAt_alter {p : List N} {f : Forest N A C} (hp : hasDir p f = true) (q : List N) :
    itemAt (f.alter h p) q = if q = p then some (onItem h p (itemAt f p)) else itemAt f q := by
  by_cases hpq : p <+: q
  · obtain ⟨r, rfl⟩ := hpq
    have hne : p ≠ [] := fun he => by simp [he, hasDir] at hp
    rcases eq_or_ne r [] with rfl | hr
    · rw [List.append_nil, if_pos rfl, itemAt, get_alter hp, itemAt, ← hh.item_eq]
      rfl
    · rw [if_neg (by simpa using hr), itemAt, itemAt, get_append r _ hne, get_append r _ hne, get_alter hp]
      obtain ⟨y, r, rfl⟩ := List.exists_cons_of_ne_nil hr
      -- a leaf has nothing below it
      rcases f.get p with _ | ⟨a, c⟩ | ⟨a, g⟩
      · obtain ⟨a', c', he⟩ := hh.none
        rw [Option.bind_some, he]
        rfl
      · obtain ⟨a', c', he⟩ := hh.leaf a c
        rw [Option.bind_some, he]
        rfl
      · rw [Option.bind_some, hh.dir]
        rfl
  · have hne : q ≠ p := by
      rintro rfl
      exact hpq (List.prefix_refl q)
    rw [if_neg hne, itemAt_alter_other hpq]

theorem hasDir_alter {p q : List N} {f : Forest N A C} (hq : hasDir q f = true) :
    hasDir q (f.alter h p) = true := by
  rcases hp : hasDir p f with _ | _
  · rwa [alter_eq_self hp]
  · refine hasDir_congr (fun i hi hdir => ?_) hq
    rw [itemAt_alter hh hp]
    by_cases hr : q.dropLast = p
    · obtain ⟨a, g, hg⟩ := exists_dir_iff.mpr ⟨i, hi, hdir⟩
      have hi' : itemAt f p = some (item p (.dir a g)) := by rw [itemAt, ← hr, hg]; rfl
      refine ⟨_, if_pos hr, ?_⟩
      rw [hi', ← Option.map_some, ← hh.item_eq, hh.dir]
      rfl
    · exact ⟨i, by rw [if_neg hr, hi], hdir⟩

end Flat

/-! ### Attributes -/

/-- The item with the attribute that `Forest.map` gives it. -/
def mapItem (l : A → C → A) (d : A → A) (i : Item N A C) : Item N A C :=
  { i with attr := match i.content with
      | some c => l i.attr c
      | none => d i.attr }

theorem itemAt_map (l : A → C → A) (d : A → A) (f : Forest N A C) (p : List N) :
    itemAt (f.map l d) p = (itemAt f p).map (mapItem l d) := by
  rw [itemAt, itemAt, Forest.get_map, Option.map_map, Option.map_map]
  exact congrArg (Option.map · _) (funext fun n => by cases n <;> rfl)

end Lightbox.Files.Change
