import Mathlib.Data.List.Basic

/-! # File trees

A directory is the list of its entries (`Forest`), each a name with a leaf or with a directory again.
Names, attributes and the contents of leaves are of any type. In a `Tree` no directory has a name
twice, so that a path names one entry (`mem_paths`).

The operations are those of the file commands: all paths below a directory, the entries with certain
names, a new attribute for every entry, a change at a path, and the copy of entries into a directory
that may have some of them already (`copyInto`): a directory is merged into a directory, a leaf
replaces a leaf, and a leaf and a directory do not replace each other. -/

namespace Lightbox.Files.Directory

mutual

/-- What a directory entry is. -/
inductive Node (N A C : Type)
  | leaf (a : A) (c : C)
  | dir (a : A) (f : Forest N A C)

/-- The entries of a directory. -/
inductive Forest (N A C : Type)
  | nil
  | cons (x : N) (n : Node N A C) (f : Forest N A C)

end

variable {N A C : Type}

def Node.attr : Node N A C → A
  | .leaf a _ => a
  | .dir a _ => a

def Node.isDir : Node N A C → Bool
  | .leaf _ _ => false
  | .dir _ _ => true

def Forest.names : Forest N A C → List N
  | .nil => []
  | .cons x _ f => x :: f.names

def Forest.append : Forest N A C → Forest N A C → Forest N A C
  | .nil, g => g
  | .cons x n f, g => .cons x n (f.append g)

mutual

/-- No directory of the tree has a name twice. -/
def Node.Distinct : Node N A C → Prop
  | .leaf _ _ => True
  | .dir _ f => f.Distinct

@[inherit_doc Node.Distinct]
def Forest.Distinct : Forest N A C → Prop
  | .nil => True
  | .cons x n f => x ∉ f.names ∧ n.Distinct ∧ f.Distinct

end

mutual

/-- Every attribute of the tree satisfies `P`. -/
def Node.All (P : A → Prop) : Node N A C → Prop
  | .leaf a _ => P a
  | .dir a f => P a ∧ f.All P

@[inherit_doc Node.All]
def Forest.All (P : A → Prop) : Forest N A C → Prop
  | .nil => True
  | .cons _ n f => n.All P ∧ f.All P

end

mutual

/-- All paths of a tree, a directory before its entries. -/
def Node.paths : Node N A C → List (List N)
  | .leaf _ _ => [[]]
  | .dir _ f => [] :: f.paths

@[inherit_doc Node.paths]
def Forest.paths : Forest N A C → List (List N)
  | .nil => []
  | .cons x n f => n.paths.map (x :: ·) ++ f.paths

end

mutual

/-- Every attribute is changed, that of a leaf by what the leaf is. -/
def Node.map (l : A → C → A) (d : A → A) : Node N A C → Node N A C
  | .leaf a c => .leaf (l a c) c
  | .dir a f => .dir (d a) (f.map l d)

@[inherit_doc Node.map]
def Forest.map (l : A → C → A) (d : A → A) : Forest N A C → Forest N A C
  | .nil => .nil
  | .cons x n f => .cons x (n.map l d) (f.map l d)

end

/-- The entries whose name satisfies `p`. -/
def Forest.filter (p : N → Bool) : Forest N A C → Forest N A C
  | .nil => .nil
  | .cons x n f => if p x then .cons x n (f.filter p) else f.filter p

theorem append_nil : ∀ f : Forest N A C, f.append .nil = f
  | .nil => rfl
  | .cons x n f => by rw [Forest.append, append_nil f]

theorem append_assoc (g h : Forest N A C) : ∀ f : Forest N A C,
    (f.append g).append h = f.append (g.append h)
  | .nil => rfl
  | .cons x n f => by
    rw [Forest.append, Forest.append, Forest.append, append_assoc g h f]

theorem names_map (l : A → C → A) (d : A → A) : ∀ f : Forest N A C, (f.map l d).names = f.names
  | .nil => rfl
  | .cons x n f => by rw [Forest.map, Forest.names, Forest.names, names_map l d f]

mutual

theorem Node.Distinct.map (l : A → C → A) (d : A → A) : ∀ {n : Node N A C}, n.Distinct →
    (n.map l d).Distinct
  | .leaf _ _, _ => trivial
  | .dir _ _, h => Forest.Distinct.map l d h

theorem Forest.Distinct.map (l : A → C → A) (d : A → A) : ∀ {f : Forest N A C}, f.Distinct →
    (f.map l d).Distinct
  | .nil, _ => trivial
  | .cons _ _ f, ⟨hx, hn, hf⟩ => ⟨by rw [names_map]; exact hx, hn.map l d, hf.map l d⟩

end

mutual

/-- A change that makes `P` hold of every attribute. -/
theorem Node.all_map {P : A → Prop} {l : A → C → A} {d : A → A} (hl : ∀ a c, P (l a c))
    (hd : ∀ a, P (d a)) : ∀ n : Node N A C, (n.map l d).All P
  | .leaf a c => hl a c
  | .dir a f => ⟨hd a, Forest.all_map hl hd f⟩

theorem Forest.all_map {P : A → Prop} {l : A → C → A} {d : A → A} (hl : ∀ a c, P (l a c))
    (hd : ∀ a, P (d a)) : ∀ f : Forest N A C, (f.map l d).All P
  | .nil => trivial
  | .cons _ n f => ⟨Node.all_map hl hd n, Forest.all_map hl hd f⟩

end

theorem Node.All.attr {P : A → Prop} : ∀ {n : Node N A C}, n.All P → P n.attr
  | .leaf _ _, h => h
  | .dir _ _, h => h.1

theorem filter_eq_self {p : N → Bool} : ∀ {f : Forest N A C}, (∀ x ∈ f.names, p x = true) →
    f.filter p = f
  | .nil, _ => rfl
  | .cons y n f, h => by
    have hf : ∀ x ∈ f.names, p x = true := fun x hx => h x (List.mem_cons_of_mem y hx)
    rw [Forest.filter, if_pos (h y (List.mem_cons_self ..)), filter_eq_self hf]

variable [DecidableEq N]

def Forest.find (x : N) : Forest N A C → Option (Node N A C)
  | .nil => none
  | .cons y n f => if x = y then some n else f.find x

/-- A new entry, in place of the entry of that name or after all others. -/
def Forest.insert (x : N) (n : Node N A C) : Forest N A C → Forest N A C
  | .nil => .cons x n .nil
  | .cons y m f => if x = y then .cons x n f else .cons y m (f.insert x n)

/-- What a path names below a node. -/
def Node.get : List N → Node N A C → Option (Node N A C)
  | [], n => some n
  | _ :: _, .leaf _ _ => none
  | x :: p, .dir _ f => (f.find x).bind (Node.get p)

/-- What a path names below a directory. -/
def Forest.get : List N → Forest N A C → Option (Node N A C)
  | [], _ => none
  | x :: p, f => (f.find x).bind (Node.get p)

/-- The entry at a path is replaced, or made; its directory must be there. -/
def Forest.alter (h : Option (Node N A C) → Node N A C) : List N → Forest N A C → Forest N A C
  | [], f => f
  | [x], f => f.insert x (h (f.find x))
  | x :: y :: p, f =>
    match f.find x with
    | some (.dir a g) => f.insert x (.dir a (g.alter h (y :: p)))
    | _ => f

mutual

/-- A node is copied to where there may be one already. -/
def Node.copyOnto : Node N A C → Option (Node N A C) → Option (Node N A C)
  | .leaf _ _, some (.dir _ _) => none
  | .leaf a c, _ => some (.leaf a c)
  | .dir _ _, some (.leaf _ _) => none
  | .dir a f, some (.dir _ g) => (f.copyInto g).map (.dir a)
  | .dir a f, none => (f.copyInto .nil).map (.dir a)

/-- Entries are copied one by one into a directory; `none` if one cannot be copied. -/
def Forest.copyInto : Forest N A C → Forest N A C → Option (Forest N A C)
  | .nil, g => some g
  | .cons x n f, g => (n.copyOnto (g.find x)).bind fun m => f.copyInto (g.insert x m)

end

/-! ### Entries of a directory -/

theorem mem_names {x : N} : ∀ {f : Forest N A C}, x ∈ f.names ↔ ∃ n, f.find x = some n
  | .nil => by simp [Forest.names, Forest.find]
  | .cons y n f => by
    rw [Forest.names, List.mem_cons, Forest.find]
    by_cases h : x = y
    · rw [if_pos h]
      simp [h]
    · rw [if_neg h, ← mem_names]
      simp [h]

theorem find_eq_none {x : N} {f : Forest N A C} (h : x ∉ f.names) : f.find x = none := by
  rw [mem_names] at h
  exact Option.eq_none_iff_forall_ne_some.mpr fun n hn => h ⟨n, hn⟩

theorem find_insert (x y : N) (n : Node N A C) :
    ∀ f : Forest N A C, (f.insert x n).find y = if y = x then some n else f.find y
  | .nil => rfl
  | .cons z m f => by
    rw [Forest.insert]
    by_cases hx : x = z
    · subst hx
      rw [if_pos rfl, Forest.find, Forest.find]
      split_ifs <;> rfl
    · rw [if_neg hx, Forest.find, Forest.find, find_insert x y n f]
      split_ifs with h1 h2
      · exact absurd (h2.symm.trans h1) hx
      · rfl
      · rfl
      · rfl

theorem mem_names_insert {x y : N} {n : Node N A C} {f : Forest N A C} :
    y ∈ (f.insert x n).names ↔ y = x ∨ y ∈ f.names := by
  rw [mem_names, find_insert, mem_names]
  split_ifs with h <;> simp [h]

theorem insert_eq_append {x : N} {n : Node N A C} : ∀ {f : Forest N A C}, x ∉ f.names →
    f.insert x n = f.append (.cons x n .nil)
  | .nil, _ => rfl
  | .cons y m f, h => by
    rw [Forest.names, List.mem_cons, not_or] at h
    rw [Forest.insert, if_neg h.1, insert_eq_append h.2, Forest.append]

theorem find_filter (p : N → Bool) (x : N) : ∀ f : Forest N A C,
    (f.filter p).find x = if p x then f.find x else none
  | .nil => by simp [Forest.filter, Forest.find]
  | .cons y n f => by
    rw [Forest.filter]
    by_cases hy : p y = true
    · rw [if_pos hy, Forest.find, Forest.find, find_filter p x f]
      split_ifs with h1 h2
      · rfl
      · exact absurd (h1 ▸ hy) h2
      · rfl
      · rfl
    · rw [if_neg hy, Forest.find, find_filter p x f]
      split_ifs with h1 h2
      · exact absurd (h2 ▸ h1) hy
      · rfl
      · rfl

theorem mem_names_filter {p : N → Bool} {x : N} {f : Forest N A C} :
    x ∈ (f.filter p).names ↔ p x = true ∧ x ∈ f.names := by
  rw [mem_names, find_filter, mem_names]
  split_ifs with h <;> simp [h]

/-! ### Distinct names -/

theorem Forest.Distinct.find {x : N} {n : Node N A C} : ∀ {f : Forest N A C}, f.Distinct →
    f.find x = some n → n.Distinct
  | .nil, _, h => by simp [Forest.find] at h
  | .cons y m f, ⟨_, hm, hf⟩, h => by
    rw [Forest.find] at h
    split_ifs at h
    · obtain rfl := Option.some.inj h
      exact hm
    · exact hf.find h

theorem Forest.Distinct.insert {x : N} {n : Node N A C} (hn : n.Distinct) :
    ∀ {f : Forest N A C}, f.Distinct → (f.insert x n).Distinct
  | .nil, _ => ⟨by simp [Forest.names], hn, trivial⟩
  | .cons y m f, ⟨hy, hm, hf⟩ => by
    rw [Forest.insert]
    split_ifs with h
    · exact ⟨h ▸ hy, hn, hf⟩
    · refine ⟨fun hmem => ?_, hm, hf.insert hn⟩
      exact (mem_names_insert.mp hmem).elim (fun e => h e.symm) hy

theorem Forest.Distinct.filter (p : N → Bool) : ∀ {f : Forest N A C}, f.Distinct →
    (f.filter p).Distinct
  | .nil, _ => trivial
  | .cons y m f, ⟨hy, hm, hf⟩ => by
    rw [Forest.filter]
    split_ifs
    · exact ⟨fun h => hy (mem_names_filter.mp h).2, hm, hf.filter p⟩
    · exact hf.filter p

theorem Forest.Distinct.alter {h : Option (Node N A C) → Node N A C}
    (hh : ∀ o, (∀ n ∈ o, n.Distinct) → (h o).Distinct) :
    ∀ (p : List N) {f : Forest N A C}, f.Distinct → (f.alter h p).Distinct
  | [], _, hf => hf
  | [_], _, hf => hf.insert (hh _ fun _ hn => hf.find hn)
  | x :: y :: p, f, hf => by
    rw [Forest.alter]
    split
    · rename_i a g hg
      have hd : (Node.dir a g).Distinct := hf.find hg
      exact hf.insert (n := .dir a _) (Forest.Distinct.alter hh (y :: p) hd)
    · exact hf

/-! ### Attributes -/

section All
variable {P : A → Prop}

theorem Forest.All.find {x : N} {n : Node N A C} : ∀ {f : Forest N A C}, f.All P →
    f.find x = some n → n.All P
  | .nil, _, h => by simp [Forest.find] at h
  | .cons y m f, ⟨hm, hf⟩, h => by
    rw [Forest.find] at h
    split_ifs at h
    · obtain rfl := Option.some.inj h
      exact hm
    · exact hf.find h

theorem Node.All.get : ∀ (p : List N) {n m : Node N A C}, n.All P → n.get p = some m → m.All P
  | [], n, m, h, hg => by
    obtain rfl : n = m := by simpa [Node.get] using hg
    exact h
  | _ :: _, .leaf _ _, m, _, hg => by simp [Node.get] at hg
  | x :: p, .dir a f, m, h, hg => by
    obtain ⟨k, hk, hg⟩ := Option.bind_eq_some_iff.mp hg
    exact Node.All.get p (h.2.find hk) hg

theorem Forest.All.get {f : Forest N A C} (h : f.All P) {p : List N} {m : Node N A C}
    (hg : f.get p = some m) : m.All P := by
  cases p with
  | nil => simp [Forest.get] at hg
  | cons x p =>
    obtain ⟨k, hk, hg⟩ := Option.bind_eq_some_iff.mp hg
    exact (h.find hk).get p hg

theorem Forest.All.insert {x : N} {n : Node N A C} (hn : n.All P) :
    ∀ {f : Forest N A C}, f.All P → (f.insert x n).All P
  | .nil, _ => ⟨hn, trivial⟩
  | .cons y m f, ⟨hm, hf⟩ => by
    rw [Forest.insert]
    split_ifs
    · exact ⟨hn, hf⟩
    · exact ⟨hm, hf.insert hn⟩

theorem Forest.All.alter {h : Option (Node N A C) → Node N A C}
    (hh : ∀ o, (∀ n ∈ o, n.All P) → (h o).All P) :
    ∀ (p : List N) {f : Forest N A C}, f.All P → (f.alter h p).All P
  | [], _, hf => hf
  | [_], _, hf => hf.insert (hh _ fun _ hn => hf.find hn)
  | x :: y :: p, f, hf => by
    rw [Forest.alter]
    split
    · rename_i a g hg
      have hd : (Node.dir a g).All P := hf.find hg
      exact hf.insert (n := .dir a _) ⟨hd.1, Forest.All.alter hh (y :: p) hd.2⟩
    · exact hf

end All

/-- A change at a path keeps all names. -/
theorem mem_names_alter {h : Option (Node N A C) → Node N A C} {x : N} {f : Forest N A C}
    (hx : x ∈ f.names) : ∀ p : List N, x ∈ (f.alter h p).names
  | [] => hx
  | [_] => mem_names_insert.mpr (Or.inr hx)
  | y :: z :: p => by
    rw [Forest.alter]
    split
    · exact mem_names_insert.mpr (Or.inr hx)
    · exact hx

/-! ### Paths -/

mutual

theorem Node.mem_paths : ∀ {n : Node N A C}, n.Distinct → ∀ p : List N,
    p ∈ n.paths ↔ ∃ m, n.get p = some m
  | .leaf a c, _, [] => by simp [Node.paths, Node.get]
  | .leaf a c, _, x :: p => by simp [Node.paths, Node.get]
  | .dir a f, _, [] => by simp [Node.paths, Node.get]
  | .dir a f, h, x :: p => by
    rw [Node.paths, List.mem_cons, Forest.mem_paths h (x :: p)]
    simp [Node.get, Forest.get]

/-- **The paths of a tree are those that name something.** -/
theorem Forest.mem_paths : ∀ {f : Forest N A C}, f.Distinct → ∀ p : List N,
    p ∈ f.paths ↔ ∃ m, f.get p = some m
  | .nil, _, p => by cases p <;> simp [Forest.paths, Forest.get, Forest.find]
  | .cons x n f, ⟨hx, hn, hf⟩, [] => by
    have := Forest.mem_paths hf []
    simpa [Forest.paths, Forest.get] using this
  | .cons x n f, ⟨hx, hn, hf⟩, y :: p => by
    rw [Forest.paths, List.mem_append, List.mem_map, Forest.mem_paths hf (y :: p), Forest.get,
      Forest.get, Forest.find]
    by_cases hxy : y = x
    · subst hxy
      rw [if_pos rfl, find_eq_none hx]
      simp [Node.mem_paths hn p]
    · rw [if_neg hxy]
      simp [Ne.symm hxy]

end

/-! ### Copies -/

mutual

/-- **A copy to where nothing is equals the original.** -/
theorem Node.copyOnto_none : ∀ {n : Node N A C}, n.Distinct → n.copyOnto none = some n
  | .leaf a c, _ => by simp [Node.copyOnto]
  | .dir a f, h => by
    have hf := Forest.copyInto_fresh (g := .nil) h (by simp [Forest.names])
    rw [Node.copyOnto, hf]
    rfl

/-- Entries with new names come after the others. -/
theorem Forest.copyInto_fresh : ∀ {f g : Forest N A C}, f.Distinct →
    (∀ x ∈ f.names, x ∉ g.names) → f.copyInto g = some (g.append f)
  | .nil, g, _, _ => by rw [Forest.copyInto, append_nil]
  | .cons x n f, g, ⟨hx, hn, hf⟩, hd => by
    have hxg : x ∉ g.names := hd x (by simp [Forest.names])
    have hfg : ∀ y ∈ f.names, y ∉ (g.insert x n).names := by
      intro y hy hyg
      rcases mem_names_insert.mp hyg with rfl | hyg
      · exact hx hy
      · exact hd y (by simp [Forest.names, hy]) hyg
    rw [Forest.copyInto, find_eq_none hxg, Node.copyOnto_none hn, Option.bind_some,
      Forest.copyInto_fresh hf hfg, insert_eq_append hxg, append_assoc]
    rfl

end

/-- **What is in a directory after a copy**: the copied entries, and of the others what was there. -/
theorem find_copyInto : ∀ {f g h : Forest N A C}, f.Distinct → f.copyInto g = some h → ∀ x,
    h.find x = (match f.find x with
      | none => g.find x
      | some n => n.copyOnto (g.find x))
  | .nil, g, h, _, hc, x => by
    obtain rfl : g = h := by simpa [Forest.copyInto] using hc
    rfl
  | .cons y n f, g, h, ⟨hy, _, hf⟩, hc, x => by
    obtain ⟨m, hm, hc⟩ := Option.bind_eq_some_iff.mp hc
    rw [find_copyInto hf hc x, find_insert, Forest.find]
    by_cases hxy : x = y
    · subst hxy
      rw [if_pos rfl, if_pos rfl, find_eq_none hy]
      exact hm.symm
    · rw [if_neg hxy, if_neg hxy]

/-- **When a copy succeeds.** -/
theorem copyInto_eq_some : ∀ {f g : Forest N A C}, f.Distinct →
    ((∃ h, f.copyInto g = some h) ↔
      ∀ x n, f.find x = some n → ∃ m, n.copyOnto (g.find x) = some m)
  | .nil, g, _ => by simp [Forest.copyInto, Forest.find]
  | .cons y n f, g, ⟨hy, _, hf⟩ => by
    constructor
    · rintro ⟨h, hc⟩ x k hk
      obtain ⟨m, hm, hc⟩ := Option.bind_eq_some_iff.mp hc
      rw [Forest.find] at hk
      by_cases hxy : x = y
      · subst hxy
        rw [if_pos rfl] at hk
        obtain rfl := Option.some.inj hk
        exact ⟨m, hm⟩
      · rw [if_neg hxy] at hk
        have hx := (copyInto_eq_some hf).mp ⟨h, hc⟩ x k hk
        rwa [find_insert, if_neg hxy] at hx
    · intro hall
      obtain ⟨m, hm⟩ := hall y n (by simp [Forest.find])
      have hrest : ∃ h, f.copyInto (g.insert y m) = some h := by
        refine (copyInto_eq_some hf).mpr fun x k hk => ?_
        have hxy : x ≠ y := fun e => hy (mem_names.mpr ⟨k, e ▸ hk⟩)
        rw [find_insert, if_neg hxy]
        exact hall x k (by rw [Forest.find, if_neg hxy]; exact hk)
      obtain ⟨h, hh⟩ := hrest
      exact ⟨h, by rw [Forest.copyInto, hm, Option.bind_some, hh]⟩

/-! ### Trees -/

/-- A directory in which, and below which, every name stands once. -/
structure Tree (N A C : Type) where
  entries : Forest N A C
  distinct : entries.Distinct

def Tree.map (l : A → C → A) (d : A → A) (t : Tree N A C) : Tree N A C :=
  ⟨t.entries.map l d, t.distinct.map l d⟩

/-- What a change makes of an entry keeps its names distinct. -/
def Careful (h : Option (Node N A C) → Node N A C) : Prop :=
  ∀ o, (∀ n ∈ o, n.Distinct) → (h o).Distinct

def Tree.alter (h : Option (Node N A C) → Node N A C) (hh : Careful h) (p : List N)
    (t : Tree N A C) : Tree N A C :=
  ⟨t.entries.alter h p, t.distinct.alter hh p⟩

end Lightbox.Files.Directory
