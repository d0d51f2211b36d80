import Lightbox.Files.Directory

/-! # Archives of file trees

An archive is a list of items, each a path with what is there: a leaf, or a directory without its
entries. Unpacking makes the items one after the other; the directory of an item must have been made
before, and nothing may be made twice (`unpack`). The items of a tree in the order of its paths unpack
to the tree (`unpack_items`). -/

namespace Lightbox.Files.Archive

open Lightbox.Files.Directory

/-- What there is at a path; the content of a directory is `none`. -/
structure Item (N A C : Type) where
  path : List N
  attr : A
  content : Option C
  deriving DecidableEq

variable {N A C : Type}

def item (p : List N) : Node N A C → Item N A C
  | .leaf a c => ⟨p, a, some c⟩
  | .dir a _ => ⟨p, a, none⟩

def Item.node (i : Item N A C) : Node N A C :=
  match i.content with
  | some c => .leaf i.attr c
  | none => .dir i.attr .nil

/-- The item, one directory further down. -/
def Item.below (x : N) (i : Item N A C) : Item N A C := { i with path := x :: i.path }

mutual

/-- The items of a tree, in the order of its paths. -/
def Node.items : Node N A C → List (Item N A C)
  | .leaf a c => [⟨[], a, some c⟩]
  | .dir a f => ⟨[], a, none⟩ :: Forest.items f

@[inherit_doc Node.items]
def Forest.items : Forest N A C → List (Item N A C)
  | .nil => []
  | .cons x n f => (Node.items n).map (Item.below x) ++ Forest.items f

end

theorem path_ne_nil : ∀ {f : Forest N A C}, ∀ i ∈ Forest.items f, i.path ≠ []
  | .nil, i, hi => by simp [Forest.items] at hi
  | .cons x n f, i, hi => by
    rw [Forest.items, List.mem_append, List.mem_map] at hi
    rcases hi with ⟨j, -, rfl⟩ | hi
    · simp [Item.below]
    · exact path_ne_nil i hi

theorem item_below (x : N) (p : List N) (n : Node N A C) : (item p n).below x = item (x :: p) n := by
  cases n <;> rfl

mutual

theorem Node.paths_map (l : A → C → A) (d : A → A) : ∀ n : Node N A C, (n.map l d).paths = n.paths
  | .leaf a c => rfl
  | .dir a f => by rw [Node.map, Node.paths, Node.paths, Forest.paths_map l d f]

theorem Forest.paths_map (l : A → C → A) (d : A → A) : ∀ f : Forest N A C,
    (f.map l d).paths = f.paths
  | .nil => rfl
  | .cons x n f => by
    rw [Forest.map, Forest.paths, Forest.paths, Node.paths_map l d n, Forest.paths_map l d f]

end

section Unpack
variable [DecidableEq N]

/-- A new entry at a path; its directory must be there, and the entry must not. -/
def place (n : Node N A C) : List N → Forest N A C → Option (Forest N A C)
  | [], _ => none
  | [x], f => if (f.find x).isNone then some (f.insert x n) else none
  | x :: y :: p, f =>
    match f.find x with
    | some (.dir a g) => (place n (y :: p) g).map fun g' => f.insert x (.dir a g')
    | _ => none

/-- **Unpack an archive** into a directory. -/
def unpack : List (Item N A C) → Forest N A C → Option (Forest N A C)
  | [], f => some f
  | i :: is, f => (place i.node i.path f).bind (unpack is)

theorem unpack_append (js : List (Item N A C)) : ∀ (is : List (Item N A C)) (f : Forest N A C),
    unpack (is ++ js) f = (unpack is f).bind (unpack js)
  | [], _ => rfl
  | i :: is, f => by
    rw [List.cons_append, unpack, unpack]
    cases place i.node i.path f with
    | none => rfl
    | some g => exact unpack_append js is g

/-! ### The last entry of a directory -/

/-- A directory with the entry `x` behind others. -/
def endsIn (g : Forest N A C) (x : N) (n : Node N A C) : Forest N A C := g.append (.cons x n .nil)

theorem find_endsIn {x : N} {n : Node N A C} : ∀ {g : Forest N A C}, x ∉ g.names →
    (endsIn g x n).find x = some n
  | .nil, _ => by rw [endsIn, Forest.append, Forest.find, if_pos rfl]
  | .cons y m g, h => by
    rw [Forest.names, List.mem_cons, not_or] at h
    rw [endsIn, Forest.append, Forest.find, if_neg h.1]
    exact find_endsIn h.2

theorem insert_endsIn {x : N} {n n' : Node N A C} : ∀ {g : Forest N A C}, x ∉ g.names →
    (endsIn g x n).insert x n' = endsIn g x n'
  | .nil, _ => by rw [endsIn, Forest.append, Forest.insert, if_pos rfl]; rfl
  | .cons y m g, h => by
    rw [Forest.names, List.mem_cons, not_or] at h
    rw [endsIn, Forest.append, Forest.insert, if_neg h.1]
    show Forest.cons y m ((endsIn g x n).insert x n') = _
    rw [insert_endsIn h.2]
    rfl

theorem place_new {g : Forest N A C} {x : N} (hx : x ∉ g.names) (n : Node N A C) :
    place n [x] g = some (endsIn g x n) := by
  rw [place, find_eq_none hx, Option.isNone_none, if_pos rfl, insert_eq_append hx]
  rfl

/-- Items below the last entry are made in it. -/
theorem unpack_below {g : Forest N A C} {x : N} {a : A} (hx : x ∉ g.names) :
    ∀ {is : List (Item N A C)} {f : Forest N A C}, (∀ i ∈ is, i.path ≠ []) →
      unpack (is.map (Item.below x)) (endsIn g x (.dir a f)) =
        (unpack is f).map fun f' => endsIn g x (.dir a f')
  | [], _, _ => rfl
  | i :: is, f, h => by
    obtain ⟨y, p, hp⟩ := List.exists_cons_of_ne_nil (h i List.mem_cons_self)
    have his : ∀ j ∈ is, j.path ≠ [] := fun j hj => h j (List.mem_cons_of_mem i hj)
    have hplace : place (i.below x).node (i.below x).path (endsIn g x (.dir a f)) =
        (place i.node i.path f).map fun f' => endsIn g x (.dir a f') := by
      show place i.node (x :: i.path) _ = _
      rw [hp, place, find_endsIn hx]
      dsimp only
      congr 1
      funext f'
      exact insert_endsIn hx
    rw [List.map_cons, unpack, unpack, hplace]
    cases place i.node i.path f with
    | none => rfl
    | some f' => exact unpack_below hx his

/-! ### Unpacking a tree -/

mutual

theorem Node.unpack_items {x : N} {g : Forest N A C} (hx : x ∉ g.names) : ∀ {n : Node N A C},
    n.Distinct → unpack ((Node.items n).map (Item.below x)) g = some (endsIn g x n)
  | .leaf a c, _ => by
    show (place (.leaf a c) [x] g).bind (unpack []) = _
    rw [place_new hx]
    rfl
  | .dir a f, h => by
    have hf : unpack (Forest.items f) .nil = some f :=
      Forest.unpack_items h fun _ _ hmem => by simp [Forest.names] at hmem
    show (place (.dir a .nil) [x] g).bind (unpack ((Forest.items f).map (Item.below x))) = _
    rw [place_new hx, Option.bind_some, unpack_below hx path_ne_nil, hf]
    rfl

/-- **The items of a directory unpack to its entries**, behind others with other names. -/
theorem Forest.unpack_items : ∀ {f g : Forest N A C}, f.Distinct → (∀ x ∈ f.names, x ∉ g.names) →
    unpack (Forest.items f) g = some (g.append f)
  | .nil, g, _, _ => by rw [append_nil]; rfl
  | .cons x n f, g, ⟨hx, hn, hf⟩, hd => by
    have hxg : x ∉ g.names := hd x List.mem_cons_self
    have hfg : ∀ y ∈ f.names, y ∉ (endsIn g x n).names := by
      intro y hy hyg
      rw [endsIn, ← insert_eq_append hxg] at hyg
      rcases mem_names_insert.mp hyg with rfl | hyg
      · exact hx hy
      · exact hd y (List.mem_cons_of_mem x hy) hyg
    rw [Forest.items, unpack_append, Node.unpack_items hxg hn, Option.bind_some,
      Forest.unpack_items hf hfg, endsIn, append_assoc]
    rfl

end

/-- **An archive of all items of a tree unpacks to the tree.** -/
theorem unpack_items (t : Tree N A C) : unpack (Forest.items t.entries) .nil = some t.entries :=
  Forest.unpack_items t.distinct fun _ _ hmem => by simp [Forest.names] at hmem

/-! ### The items at the paths of a tree -/

/-- What is found at a path, as an item. -/
def itemAt (f : Forest N A C) (p : List N) : Option (Item N A C) := (f.get p).map (item p)

mutual

theorem Node.items_eq : ∀ {n : Node N A C}, n.Distinct →
    n.paths.filterMap (fun p => (n.get p).map (item p)) = Node.items n
  | .leaf a c, _ => rfl
  | .dir a f, h => by
    have hf := Forest.items_eq h
    rw [Node.paths, List.filterMap_cons]
    show item [] (.dir a f) :: _ = _ :: _
    rw [← hf]
    congr 1
    refine List.filterMap_congr fun p hp => ?_
    cases p with
    | nil =>
      obtain ⟨m, hm⟩ := (Forest.mem_paths h []).mp hp
      simp [Forest.get] at hm
    | cons x p => rfl

/-- **Every path of the tree with what is there** gives all its items. -/
theorem Forest.items_eq : ∀ {f : Forest N A C}, f.Distinct →
    f.paths.filterMap (itemAt f) = Forest.items f
  | .nil, _ => rfl
  | .cons x n f, ⟨hx, hn, hf⟩ => by
    rw [Forest.paths, List.filterMap_append, Forest.items, ← Node.items_eq hn, ← Forest.items_eq hf]
    congr 1
    · rw [List.filterMap_map, List.map_filterMap]
      refine List.filterMap_congr fun p _ => ?_
      show ((Forest.cons x n f).get (x :: p)).map _ = _
      rw [Forest.get, Forest.find, if_pos rfl, Option.bind_some]
      cases n.get p with
      | none => rfl
      | some m => exact congrArg some (item_below x p m).symm
    · refine List.filterMap_congr fun p hp => ?_
      obtain ⟨m, hm⟩ := (Forest.mem_paths hf p).mp hp
      cases p with
      | nil => rfl
      | cons y p =>
        have hyx : y ≠ x := by
          rintro rfl
          rw [Forest.get, find_eq_none hx] at hm
          simp at hm
        unfold itemAt
        rw [Forest.get, Forest.get, Forest.find, if_neg hyx]

end

/-! ### Changed attributes -/

theorem find_map (l : A → C → A) (d : A → A) (x : N) : ∀ f : Forest N A C,
    (f.map l d).find x = (f.find x).map (Node.map l d)
  | .nil => rfl
  | .cons y n f => by
    rw [Forest.map, Forest.find, Forest.find, find_map l d x f]
    split_ifs <;> rfl

theorem Node.get_map (l : A → C → A) (d : A → A) : ∀ (p : List N) (n : Node N A C),
    (n.map l d).get p = (n.get p).map (Node.map l d)
  | [], _ => by rw [Node.get, Node.get]; rfl
  | _ :: _, .leaf _ _ => rfl
  | x :: p, .dir a f => by
    rw [Node.map, Node.get, Node.get, find_map]
    cases f.find x with
    | none => rfl
    | some n => exact Node.get_map l d p n

theorem Forest.get_map (l : A → C → A) (d : A → A) (p : List N) (f : Forest N A C) :
    (f.map l d).get p = (f.get p).map (Node.map l d) := by
  cases p with
  | nil => rfl
  | cons x p =>
    rw [Forest.get, Forest.get, find_map]
    cases f.find x with
    | none => rfl
    | some n => exact Node.get_map l d p n

end Unpack

end Lightbox.Files.Archive
