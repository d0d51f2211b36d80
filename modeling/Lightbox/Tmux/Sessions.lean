import Mathlib.Data.List.Nodup
import Mathlib.Tactic.Common

/-! # Sessions of a terminal multiplexer

A server holds sessions with different names, the last used one first. What a client does to a
session is kept in its log. The target of a command is resolved against the names of the moment: an
exact name first, then the only name it is a prefix of, then a pattern; with a leading `=` an exact
name alone (`resolve`).

* `Kept n S S'`: every session not called `n` is in `S'` as it was in `S`. A list of commands that all
  name `n` keeps the others if not exactly one other name begins with `n` (`kept_run`).
* `Lost x S`: the session `x` is gone or has been changed; it stays so (`Longer.run`). -/

namespace Lightbox.Tmux.Sessions

abbrev Name := List Char

/-- What happens to a session. -/
inductive Event
  | keys (text : List Char)
  | split | layout | attached
  deriving DecidableEq

structure Session where
  name : Name
  log : List Event
  deriving DecidableEq

structure Server where
  sessions : List Session
  nodup : (sessions.map Session.name).Nodup

def Server.names (S : Server) : List Name := S.sessions.map Session.name

/-! ### Targets -/

/-- The matching of names against patterns: a pattern without special characters matches itself. -/
structure Fnmatch where
  run : Name → Name → Bool
  literal : ∀ p n, (∀ c ∈ ['*', '?', '[', '\\'], c ∉ p) → run p n = true → n = p

/-- The only element of a list. -/
def only {α : Type} : List α → Option α
  | [a] => some a
  | _ => none

/-- The names that begin with `t`. -/
def beginning (t : Name) (names : List Name) : List Name := names.filter fun n => t.isPrefixOf n

/-- The other names that begin with `t`. -/
def others (t : Name) (names : List Name) : List Name :=
  names.filter fun n => n ≠ t && t.isPrefixOf n

/-- **The session a target stands for.** -/
def resolve (g : Fnmatch) (names : List Name) (t : Name) : Option Name :=
  if t.head? = some '=' then (if t.tail ∈ names then some t.tail else none)
  else if t ∈ names then some t
  else if beginning t names = [] then only (names.filter (g.run t))
  else only (beginning t names)

/-- The target is the name `n`, with or without a leading `=`. -/
def IsTarget (n t : Name) : Prop := t = n ∨ t = '=' :: n

/-- A target without special characters. -/
structure Literal (t : Name) : Prop where
  head : t.head? ≠ some '='
  chars : ∀ c ∈ ['*', '?', '[', '\\'], c ∉ t

theorem literal_of_all {t : Name} (hh : t.head? ≠ some '=')
    (hc : ['*', '?', '[', '\\'].all (fun c => !t.contains c) = true) : Literal t := by
  refine ⟨hh, fun c hm ht => ?_⟩
  have := List.all_eq_true.mp hc c hm
  rw [List.contains_iff_mem.mpr ht] at this
  exact absurd this (by decide)

theorem only_eq_some {α : Type} {l : List α} {a : α} : only l = some a ↔ l = [a] := by
  match l with
  | [] => simp [only]
  | [b] => simp [only]
  | b :: c :: l => simp [only]

section Resolve
variable {g : Fnmatch} {names : List Name} {t : Name}

theorem resolve_of_mem (ht : Literal t) (h : t ∈ names) : resolve g names t = some t := by
  rw [resolve, if_neg ht.head, if_pos h]

/-- Without an exact name, a literal target stands for the only name it is a prefix of. -/
theorem resolve_of_not_mem (ht : Literal t) (h : t ∉ names) :
    resolve g names t = only (others t names) := by
  have ho : beginning t names = others t names := by
    refine List.filter_congr fun n hn => ?_
    have : n ≠ t := fun he => h (he ▸ hn)
    simp [this]
  rw [resolve, if_neg ht.head, if_neg h, ← ho]
  split_ifs with hb
  · have hf : names.filter (g.run t) = [] := by
      rw [List.filter_eq_nil_iff]
      intro n hn hm
      exact h (g.literal t n ht.chars hm ▸ hn)
    rw [hf, hb]
  · rfl

/-- **A target stands for nothing** if it is no name, and not the beginning of exactly one. -/
theorem resolve_eq_none (ht : Literal t) :
    resolve g names t = none ↔ t ∉ names ∧ (others t names).length ≠ 1 := by
  by_cases hm : t ∈ names
  · rw [resolve_of_mem ht hm]
    simp [hm]
  · rw [resolve_of_not_mem ht hm, Option.eq_none_iff_forall_ne_some]
    simp only [ne_eq, only_eq_some, hm, not_false_eq_true, true_and, List.length_eq_one_iff, not_exists]

/-- With a leading `=` only the name itself is meant. -/
theorem resolve_exact (n : Name) :
    resolve g names ('=' :: n) = if n ∈ names then some n else none := if_pos rfl

/-- A target that is not taken for another name. -/
theorem resolve_eq_self {n : Name} (hn : Literal n) (h : n ∈ names ∨ (others n names).length ≠ 1)
    (ht : IsTarget n t) {m : Name} (hr : resolve g names t = some m) : m = n := by
  rcases ht with rfl | rfl
  · by_cases hm : t ∈ names
    · rw [resolve_of_mem hn hm] at hr
      exact (Option.some.inj hr).symm
    · rw [resolve_of_not_mem hn hm, only_eq_some] at hr
      rw [hr] at h
      exact absurd rfl (h.resolve_left hm)
  · rw [resolve_exact] at hr
    split_ifs at hr
    exact (Option.some.inj hr).symm

end Resolve

theorem others_remove (t : Name) (names : List Name) :
    others t (names.filter (· ≠ t)) = others t names := by
  unfold others
  rw [List.filter_filter]
  refine List.filter_congr fun n _ => ?_
  by_cases h : n = t <;> simp [h]

theorem others_cons (t : Name) (names : List Name) : others t (t :: names) = others t names := by
  simp [others]

/-! ### Sessions -/

/-- The session `n` ends. -/
def Server.remove (S : Server) (n : Name) : Server where
  sessions := S.sessions.filter fun x => x.name ≠ n
  nodup := S.nodup.sublist ((List.filter_sublist).map _)

/-- A session with a new name. -/
def Server.add (S : Server) (n : Name) (h : n ∉ S.names) : Server where
  sessions := ⟨n, []⟩ :: S.sessions
  nodup := List.nodup_cons.mpr ⟨h, S.nodup⟩

/-- Something happens to the session `x`, if it is called `n`. -/
def Session.noteIf (n : Name) (e : Event) (x : Session) : Session :=
  if x.name = n then { x with log := x.log ++ [e] } else x

theorem name_noteIf (n : Name) (e : Event) (x : Session) : (x.noteIf n e).name = x.name := by
  unfold Session.noteIf
  split_ifs <;> rfl

theorem names_noteIf (n : Name) (e : Event) (l : List Session) :
    (l.map (Session.noteIf n e)).map Session.name = l.map Session.name := by
  rw [List.map_map]
  exact List.map_congr_left fun x _ => name_noteIf n e x

/-- Something happens to the session `n`. -/
def Server.note (S : Server) (n : Name) (e : Event) : Server where
  sessions := S.sessions.map (Session.noteIf n e)
  nodup := by rw [names_noteIf]; exact S.nodup

theorem names_remove (S : Server) (n : Name) : (S.remove n).names = S.names.filter (· ≠ n) := by
  rw [Server.names, Server.remove, Server.names, List.filter_map]
  rfl

theorem names_add (S : Server) (n : Name) (h : n ∉ S.names) : (S.add n h).names = n :: S.names := rfl

theorem names_note (S : Server) (n : Name) (e : Event) : (S.note n e).names = S.names :=
  names_noteIf n e S.sessions

/-! ### Commands -/

inductive Command
  | kill (t : Name)
  | new (n : Name)
  | keys (t : Name) (text : List Char)
  | split (t : Option Name)
  | layout (t : Name)
  | attach (t : Name)
  deriving DecidableEq

/-- The shell that issues the commands: the session it runs in, if it does, and whether a session that
it attaches to ends while it is attached. -/
structure Client where
  current : Option Name
  ends : Bool

/-- Something happens to the session that a target stands for. -/
def noteTarget (g : Fnmatch) (S : Server) (t : Name) (e : Event) : Server :=
  match resolve g S.names t with
  | some n => S.note n e
  | none => S

/-- Without a target, the current session is meant, and outside of all sessions the last used one. -/
def splitTarget (g : Fnmatch) (cl : Client) (S : Server) : Option Name → Option Name
  | some t => resolve g S.names t
  | none => cl.current.or (S.sessions.head?.map Session.name)

/-- **A command**, and whether the shell that issued it is still there. A client inside a session does
not attach. -/
def exec (g : Fnmatch) (cl : Client) (S : Server) : Command → Server × Bool
  | .kill t =>
    match resolve g S.names t with
    | some n => (S.remove n, decide (cl.current ≠ some n))
    | none => (S, true)
  | .new n => if h : n ∈ S.names then (S, true) else (S.add n h, true)
  | .keys t k => (noteTarget g S t (.keys k), true)
  | .split t =>
    match splitTarget g cl S t with
    | some n => (S.note n .split, true)
    | none => (S, true)
  | .layout t => (noteTarget g S t .layout, true)
  | .attach t =>
    if cl.current.isSome then (S, true)
    else match resolve g S.names t with
      | some n => (if cl.ends then (S.note n .attached).remove n else S.note n .attached, true)
      | none => (S, true)

/-- Only a command that ends the current session ends the shell. -/
theorem exec_stops {g : Fnmatch} {cl : Client} {S : Server} {c : Command}
    (h : (exec g cl S c).2 = false) :
    ∃ m, cl.current = some m ∧ (exec g cl S c).1 = S.remove m := by
  cases c with
  | kill t =>
    rw [exec] at h ⊢
    split at h
    · next m hm => exact ⟨m, by simpa using h, rfl⟩
    · simp at h
  | new m =>
    rw [exec] at h
    split_ifs at h
  | keys t k => simp [exec] at h
  | split t =>
    rw [exec] at h
    split at h <;> simp at h
  | layout t => simp [exec] at h
  | attach t =>
    rw [exec] at h
    split_ifs at h
    · split at h <;> simp at h
    · split at h <;> simp at h

/-- The session that a command is for. -/
def target (g : Fnmatch) (cl : Client) (S : Server) : Command → Option Name
  | .kill t => resolve g S.names t
  | .new n => some n
  | .keys t _ => resolve g S.names t
  | .split t => splitTarget g cl S t
  | .layout t => resolve g S.names t
  | .attach t => resolve g S.names t

/-- What the command `c` may do: nothing, or something to the session `n`. -/
inductive Touches (c : Command) (n : Name) (S : Server) : Server → Prop
  | none : Touches c n S S
  | note (e : Event) : Touches c n S (S.note n e)
  | remove : Touches c n S (S.remove n)
  | add (h : n ∉ S.names) : c = .new n → Touches c n S (S.add n h)
  | leave (e : Event) : Touches c n S ((S.note n e).remove n)

/-- **Only the session that a command is for is touched.** -/
theorem exec_touches (g : Fnmatch) (cl : Client) (S : Server) (c : Command) :
    (exec g cl S c).1 = S ∨ ∃ n, target g cl S c = some n ∧ Touches c n S (exec g cl S c).1 := by
  have hnote : ∀ t e, noteTarget g S t e = S ∨
      ∃ n, resolve g S.names t = some n ∧ Touches c n S (noteTarget g S t e) := by
    intro t e
    unfold noteTarget
    split
    · next n hn => exact Or.inr ⟨n, hn, .note e⟩
    · exact Or.inl rfl
  cases c with
  | kill t =>
    rw [exec, target]
    split
    · next n hn => exact Or.inr ⟨n, hn, .remove⟩
    · exact Or.inl rfl
  | new n =>
    rw [exec]
    split_ifs with hn
    · exact Or.inl rfl
    · exact Or.inr ⟨n, rfl, .add hn rfl⟩
  | keys t k => exact hnote t _
  | split t =>
    rw [exec, target]
    split
    · next n hn => exact Or.inr ⟨n, hn, .note _⟩
    · exact Or.inl rfl
  | layout t => exact hnote t _
  | attach t =>
    rw [exec, target]
    split_ifs
    · exact Or.inl rfl
    · split
      · next n hn => exact Or.inr ⟨n, hn, .leave _⟩
      · exact Or.inl rfl
    · split
      · next n hn => exact Or.inr ⟨n, hn, .note _⟩
      · exact Or.inl rfl

/-- Commands one after the other, until the shell is gone. -/
def run (g : Fnmatch) (cl : Client) : List Command → Server → Server
  | [], S => S
  | c :: cs, S => if (exec g cl S c).2 then run g cl cs (exec g cl S c).1 else (exec g cl S c).1

section Names
variable {g : Fnmatch} {cl : Client} {S : Server}

theorem names_exec_new {n : Name} (h : n ∉ S.names) :
    (exec g cl S (.new n)).1.names = n :: S.names := by
  rw [exec, dif_neg h]
  exact names_add S n h

theorem names_exec_keys (t : Name) (k : List Char) :
    (exec g cl S (.keys t k)).1.names = S.names := by
  show (noteTarget g S t _).names = S.names
  unfold noteTarget
  split
  · exact names_note S _ _
  · rfl

theorem names_exec_layout (t : Name) : (exec g cl S (.layout t)).1.names = S.names := by
  show (noteTarget g S t _).names = S.names
  unfold noteTarget
  split
  · exact names_note S _ _
  · rfl

theorem names_exec_split (t : Option Name) : (exec g cl S (.split t)).1.names = S.names := by
  rw [exec]
  split
  · exact names_note S _ _
  · rfl

/-- Of the names that were there, `n` is gone when its session has ended. -/
theorem names_exec_exact (n : Name) :
    (exec g cl S (.kill ('=' :: n))).1.names = S.names.filter (· ≠ n) := by
  rw [exec, resolve_exact]
  by_cases h : n ∈ S.names
  · rw [if_pos h]
    exact names_remove S n
  · rw [if_neg h]
    refine (List.filter_eq_self.mpr fun m hm => ?_).symm
    simpa using fun he : m = n => h (he ▸ hm)

end Names

theorem run_singleton (g : Fnmatch) (cl : Client) (c : Command) (S : Server) :
    run g cl [c] S = (exec g cl S c).1 := by
  rw [run]
  split_ifs <;> rfl

/-- A shell outside of all sessions issues all its commands. -/
theorem run_cons {g : Fnmatch} {cl : Client} (hcur : cl.current = none) (c : Command)
    (cs : List Command) (S : Server) : run g cl (c :: cs) S = run g cl cs (exec g cl S c).1 := by
  have halive : (exec g cl S c).2 = true := by
    by_contra hstop
    obtain ⟨m, hm, -⟩ := exec_stops (by simpa using hstop)
    rw [hcur] at hm
    exact absurd hm (by simp)
  rw [run, if_pos halive]

theorem run_append {g : Fnmatch} {cl : Client} (hcur : cl.current = none) (ds : List Command) :
    ∀ (cs : List Command) (S : Server), run g cl (cs ++ ds) S = run g cl ds (run g cl cs S)
  | [], _ => rfl
  | c :: cs, S => by
    rw [List.cons_append, run_cons hcur, run_cons hcur]
    exact run_append hcur ds cs _

/-- The session `n` ends for reasons of its own after `k` of the commands. -/
def ending (n : Name) (k : ℕ) (cs : List Command) : List Command :=
  cs.take k ++ .kill ('=' :: n) :: cs.drop k

theorem mem_ending {n : Name} {k : ℕ} {c : Command} {cs : List Command} :
    c ∈ ending n k cs ↔ c = .kill ('=' :: n) ∨ c ∈ cs := by
  have hcs : c ∈ cs ↔ c ∈ cs.take k ∨ c ∈ cs.drop k := by
    rw [← List.mem_append, List.take_append_drop]
  rw [ending, List.mem_append, List.mem_cons, hcs]
  tauto

/-- The session ends after the commands that come first. -/
theorem ending_append (n : Name) (k : ℕ) (as cs : List Command) :
    ending n (as.length + k) (as ++ cs) = as ++ ending n k cs := by
  rw [ending, List.take_length_add_append, List.drop_length_add_append, List.append_assoc]
  rfl

/-- A shell that kills nothing issues all its commands. -/
theorem alive_of_ne_kill (g : Fnmatch) (cl : Client) {S : Server} {c : Command}
    (hc : ∀ t, c ≠ .kill t) : (exec g cl S c).2 = true := by
  cases c with
  | kill t => exact absurd rfl (hc t)
  | new m =>
    rw [exec]
    split_ifs <;> rfl
  | keys t k => rfl
  | split t =>
    rw [exec]
    split <;> rfl
  | layout t => rfl
  | attach t =>
    rw [exec]
    split_ifs
    · rfl
    · split <;> rfl
    · split <;> rfl

theorem run_append_of_ne_kill {g : Fnmatch} {cl : Client} (ds : List Command) :
    ∀ (cs : List Command) (S : Server), (∀ c ∈ cs, ∀ t, c ≠ .kill t) →
      run g cl (cs ++ ds) S = run g cl ds (run g cl cs S)
  | [], _, _ => rfl
  | c :: cs, S, h => by
    have halive := alive_of_ne_kill g cl (S := S) (h c List.mem_cons_self)
    rw [List.cons_append, run, run, if_pos halive, if_pos halive]
    exact run_append_of_ne_kill ds cs _ fun d hd => h d (List.mem_cons_of_mem _ hd)

/-! ### Sessions that are left alone -/

/-- **The sessions not called `n` are left alone.** -/
def Kept (n : Name) (S S' : Server) : Prop := ∀ x ∈ S.sessions, x.name ≠ n → x ∈ S'.sessions

theorem Kept.refl (n : Name) (S : Server) : Kept n S S := fun _ hx _ => hx

theorem Kept.trans {n : Name} {S S' S'' : Server} (h : Kept n S S') (h' : Kept n S' S'') :
    Kept n S S'' := fun x hx hn => h' x (h x hx hn) hn

theorem kept_remove (n : Name) (S : Server) : Kept n S (S.remove n) := by
  intro x hx hn
  exact List.mem_filter.mpr ⟨hx, by simpa using hn⟩

theorem kept_add (n : Name) (S : Server) (h : n ∉ S.names) : Kept n S (S.add n h) :=
  fun _ hx _ => List.mem_cons_of_mem _ hx

theorem kept_note (n : Name) (S : Server) (e : Event) : Kept n S (S.note n e) := by
  intro x hx hn
  refine List.mem_map.mpr ⟨x, hx, ?_⟩
  rw [Session.noteIf, if_neg hn]

/-- The command names the session `n` and no other. -/
def Command.Own (n : Name) (c : Command) : Prop :=
  match c with
  | .kill t => IsTarget n t
  | .new t => t = n
  | .keys t _ => IsTarget n t
  | .split t => ∃ u, t = some u ∧ IsTarget n u
  | .layout t => IsTarget n t
  | .attach t => IsTarget n t

theorem Touches.kept {c : Command} {n : Name} {S S' : Server} (h : Touches c n S S') : Kept n S S' := by
  cases h with
  | none => exact Kept.refl n S
  | note e => exact kept_note n S e
  | remove => exact kept_remove n S
  | add h hc => exact kept_add n S h
  | leave e => exact (kept_note n S e).trans (kept_remove n _)

theorem Touches.others {c : Command} {n : Name} {S S' : Server} (h : Touches c n S S') :
    others n S'.names = others n S.names := by
  cases h with
  | none => rfl
  | note e => rw [names_note]
  | remove => rw [names_remove, others_remove]
  | add h hc => rw [names_add, others_cons]
  | leave e => rw [names_remove, others_remove, names_note]

section Run
variable (g : Fnmatch) (cl : Client) {n : Name} (hn : Literal n)
include hn

/-- A command for `n` is not taken to be for another session. -/
theorem target_eq_self {S : Server} (h : n ∈ S.names ∨ (others n S.names).length ≠ 1) {c : Command}
    (hc : c.Own n) {m : Name} (hm : target g cl S c = some m) : m = n := by
  cases c with
  | kill t => exact resolve_eq_self hn h hc hm
  | new t => exact (Option.some.inj hm).symm.trans hc
  | keys t k => exact resolve_eq_self hn h hc hm
  | split t =>
    obtain ⟨u, rfl, hu⟩ := hc
    exact resolve_eq_self hn h hu hm
  | layout t => exact resolve_eq_self hn h hc hm
  | attach t => exact resolve_eq_self hn h hc hm

/-- **A command for `n` touches the session `n` only**, if its target is not taken for another. -/
theorem touches_exec {S : Server} (h : n ∈ S.names ∨ (others n S.names).length ≠ 1) {c : Command}
    (hc : c.Own n) : Touches c n S (exec g cl S c).1 := by
  rcases exec_touches g cl S c with he | ⟨m, hm, ht⟩
  · rw [he]
    exact .none
  · rwa [target_eq_self g cl hn h hc hm] at ht

/-- **Commands for `n` leave the other sessions alone**, unless exactly one other name begins with
`n`; and they leave these names as they are. -/
theorem kept_run : ∀ {cs : List Command} {S : Server}, (∀ c ∈ cs, c.Own n) →
    (others n S.names).length ≠ 1 →
    Kept n S (run g cl cs S) ∧ others n (run g cl cs S).names = others n S.names
  | [], S, _, _ => ⟨Kept.refl n S, rfl⟩
  | c :: cs, S, hc, h => by
    have ht := touches_exec g cl hn (Or.inr h) (hc c List.mem_cons_self)
    rw [run]
    split_ifs
    · obtain ⟨hk, ho⟩ := kept_run (fun d hd => hc d (List.mem_cons_of_mem _ hd)) (ht.others ▸ h)
      exact ⟨ht.kept.trans hk, ho.trans ht.others⟩
    · exact ⟨ht.kept, ht.others⟩

/-- After `n` is killed there is no session `n`, if the target is not taken for another. -/
theorem names_exec_kill {S : Server} (h : n ∈ S.names ∨ (others n S.names).length ≠ 1) :
    (exec g cl S (.kill n)).1.names = S.names.filter (· ≠ n) := by
  rw [exec]
  split
  · next m hm =>
    rw [resolve_eq_self hn h (Or.inl rfl) hm]
    exact names_remove S n
  · next hm =>
    -- nothing is killed, so `n` was not there
    have hnot : n ∉ S.names := fun hmem => by simp [resolve_of_mem hn hmem] at hm
    refine (List.filter_eq_self.mpr fun m hm => ?_).symm
    simpa using fun he : m = n => hnot (he ▸ hm)

/-- A session that ends while the client is attached to it. -/
theorem names_exec_attach (hcur : cl.current = none) (hends : cl.ends = true) {S : Server}
    (h : n ∈ S.names) : (exec g cl S (.attach n)).1.names = S.names.filter (· ≠ n) := by
  rw [exec, hcur, hends, resolve_of_mem hn h]
  exact (names_remove _ n).trans (by rw [names_note])

/-- The only other name that begins with `n` is killed in its place. -/
theorem exec_kill_other {S : Server} (h : n ∉ S.names) {m : Name} (ho : others n S.names = [m]) :
    (exec g cl S (.kill n)).1 = S.remove m := by
  rw [exec, resolve_of_not_mem hn h, ho]
  rfl

end Run

/-! ### Sessions that are lost -/

/-- If there is a session with the name of `x`, at least `k` more things have happened to it. -/
def Longer (k : ℕ) (x : Session) (S : Server) : Prop :=
  ∀ y ∈ S.sessions, y.name = x.name → x.log.length + k ≤ y.log.length

/-- The session `x` is gone, or something has happened to it. -/
def Lost (x : Session) (S : Server) : Prop := Longer 1 x S

theorem Lost.not_mem {x : Session} {S : Server} (h : Lost x S) : x ∉ S.sessions :=
  fun hx => by have := h x hx rfl; omega

/-- A session that is lost is not left alone. -/
theorem Lost.not_kept {n : Name} {x : Session} {S S' : Server} (h : Lost x S') (hx : x ∈ S.sessions)
    (hn : x.name ≠ n) : ¬ Kept n S S' := fun hk => h.not_mem (hk x hx hn)

/-- The session of the only other name that begins with `n`. -/
theorem session_of_others {n m : Name} {S : Server} (h : others n S.names = [m]) :
    ∃ x ∈ S.sessions, x.name = m ∧ x.name ≠ n := by
  have hm : m ∈ others n S.names := by
    rw [h]
    exact List.mem_singleton_self m
  obtain ⟨hmem, hp⟩ := List.mem_filter.mp hm
  obtain ⟨x, hx, rfl⟩ := List.mem_map.mp hmem
  simp only [ne_eq, Bool.and_eq_true, decide_eq_true_eq] at hp
  exact ⟨x, hx, rfl, hp.1⟩

theorem longer_of_mem {x : Session} {S : Server} (hx : x ∈ S.sessions) : Longer 0 x S := by
  intro y hy he
  rw [List.inj_on_of_nodup_map S.nodup hy hx he]
  omega

section Longer
variable {k : ℕ} {x : Session} {S : Server}

theorem longer_remove_self : Longer k x (S.remove x.name) := by
  intro y hy he
  simp [Server.remove, he] at hy

theorem Longer.remove (h : Longer k x S) (m : Name) : Longer k x (S.remove m) :=
  fun y hy he => h y (List.mem_filter.mp hy).1 he

theorem Longer.note (h : Longer k x S) (m : Name) (e : Event) : Longer k x (S.note m e) := by
  intro y hy he
  obtain ⟨z, hz, rfl⟩ := List.mem_map.mp hy
  rw [name_noteIf] at he
  have := h z hz he
  unfold Session.noteIf
  split_ifs
  · rw [List.length_append]
    omega
  · exact this

theorem Longer.note_self (h : Longer k x S) (e : Event) : Longer (k + 1) x (S.note x.name e) := by
  intro y hy he
  obtain ⟨z, hz, rfl⟩ := List.mem_map.mp hy
  rw [name_noteIf] at he
  have := h z hz he
  rw [Session.noteIf, if_pos he, List.length_append, List.length_singleton]
  omega

theorem Longer.add (h : Longer k x S) {m : Name} (hm : m ≠ x.name) (hn : m ∉ S.names) :
    Longer k x (S.add m hn) := by
  intro y hy he
  rcases List.mem_cons.mp hy with rfl | hy
  · exact absurd he hm
  · exact h y hy he

/-- **What has happened to a session stays**, whatever command comes next. -/
theorem Longer.exec (h : Longer k x S) (g : Fnmatch) (cl : Client) {c : Command}
    (hc : c ≠ .new x.name) : Longer k x (exec g cl S c).1 := by
  rcases exec_touches g cl S c with he | ⟨m, -, ht⟩
  · rwa [he]
  · generalize (Sessions.exec g cl S c).1 = S' at ht
    cases ht with
    | none => exact h
    | note e => exact h.note m e
    | remove => exact h.remove m
    | add hm hnew => exact h.add (fun he => hc (he ▸ hnew)) hm
    | leave e => exact (h.note m e).remove m

variable {g : Fnmatch} {cl : Client}

theorem Longer.run : ∀ {cs : List Command} {S : Server}, Longer k x S →
    (∀ c ∈ cs, c ≠ .new x.name) → Longer k x (run g cl cs S)
  | [], _, h, _ => h
  | c :: cs, S, h, hc => by
    have h1 := h.exec g cl (hc c List.mem_cons_self)
    rw [Sessions.run]
    split_ifs
    · exact Longer.run h1 fun d hd => hc d (List.mem_cons_of_mem _ hd)
    · exact h1

/-- A window that is split without a target, by a shell in the session of `x`. -/
theorem lost_of_split (hx : cl.current = some x.name) : ∀ {cs : List Command} {S : Server},
    Longer 0 x S → (∀ c ∈ cs, c ≠ .new x.name) → .split none ∈ cs → Lost x (Sessions.run g cl cs S)
  | [], _, _, _, hs => by simp at hs
  | c :: cs, S, h, hc, hs => by
    have hcs : ∀ d ∈ cs, d ≠ .new x.name := fun d hd => hc d (List.mem_cons_of_mem _ hd)
    rw [Sessions.run]
    by_cases hsp : c = .split none
    · -- the current session is split
      have he : Sessions.exec g cl S c = (S.note x.name .split, true) := by
        rw [hsp, Sessions.exec, splitTarget, hx]
        rfl
      rw [he]
      exact Longer.run (h.note_self .split) hcs
    · have h1 := h.exec g cl (hc c List.mem_cons_self)
      split_ifs with halive
      · refine lost_of_split hx h1 hcs ?_
        rcases List.mem_cons.mp hs with hs | hs
        · exact absurd hs.symm hsp
        · exact hs
      · obtain ⟨m, hm, he⟩ := exec_stops (by simpa using halive)
        obtain rfl := Option.some.inj (hx.symm.trans hm)
        rw [he]
        exact longer_remove_self

/-- A window that is split without a target, by a shell outside of all sessions. -/
theorem lost_of_split_last (g : Fnmatch) (cl : Client) (hcur : cl.current = none)
    (hx : S.names.head? = some x.name) (h : Longer 0 x S) :
    Lost x (Sessions.exec g cl S (.split none)).1 := by
  have hlast : splitTarget g cl S none = some x.name := by
    rw [splitTarget, hcur, Option.none_or, ← List.head?_map]
    exact hx
  rw [Sessions.exec, hlast]
  exact h.note_self .split

section Other
variable {n : Name} (hcur : cl.current = none) (hn : Literal n)
include hcur hn

/-- There is no session `n`, and one other name begins with `n`: a command for `n` does something to the
session with that name, or, if its target is written with a leading `=`, nothing. -/
theorem lost_or_eq (hmem : n ∉ S.names) (ho : others n S.names = [x.name]) (h : Longer 0 x S)
    {c : Command} (hc : c.Own n) (hnew : ∀ m, c ≠ .new m) :
    Lost x (Sessions.exec g cl S c).1 ∨ (Sessions.exec g cl S c).1 = S ∧ c ≠ .kill n := by
  have hres : resolve g S.names n = some x.name := by
    rw [resolve_of_not_mem hn hmem, ho]
    rfl
  have hexact : resolve g S.names ('=' :: n) = none := by
    rw [resolve_exact, if_neg hmem]
  have hnote : ∀ t e, IsTarget n t → Lost x (noteTarget g S t e) ∨ noteTarget g S t e = S := by
    rintro t e (rfl | rfl)
    · refine Or.inl ?_
      rw [noteTarget, hres]
      exact h.note_self e
    · refine Or.inr ?_
      rw [noteTarget, hexact]
  cases c with
  | kill t =>
    rcases hc with rfl | rfl
    · rw [Sessions.exec, hres]
      exact Or.inl longer_remove_self
    · rw [Sessions.exec, hexact]
      exact Or.inr ⟨rfl, by simp⟩
  | new t => exact absurd rfl (hnew t)
  | keys t k => exact (hnote t _ hc).imp_right fun he => ⟨he, by simp⟩
  | split t =>
    obtain ⟨u, rfl, rfl | rfl⟩ := hc
    · rw [Sessions.exec, splitTarget, hres]
      exact Or.inl (h.note_self .split)
    · rw [Sessions.exec, splitTarget, hexact]
      exact Or.inr ⟨rfl, by simp⟩
  | layout t => exact (hnote t _ hc).imp_right fun he => ⟨he, by simp⟩
  | attach t =>
    rw [Sessions.exec, if_neg (by simp [hcur])]
    rcases hc with rfl | rfl
    · rw [hres]
      dsimp only
      have hlog : Lost x (S.note x.name .attached) := h.note_self .attached
      split_ifs
      · exact Or.inl (hlog.remove x.name)
      · exact Or.inl hlog
    · rw [hexact]
      exact Or.inr ⟨rfl, by simp⟩

/-- **The only other name that begins with `n`** loses its session to the commands for `n`, when there is no
session `n` any more and none is made. -/
theorem lost_run : ∀ {cs : List Command} {S : Server}, n ∉ S.names → others n S.names = [x.name] →
    Longer 0 x S → (∀ c ∈ cs, c.Own n ∧ ∀ m, c ≠ .new m) → .kill n ∈ cs →
      Lost x (Sessions.run g cl cs S)
  | [], _, _, _, _, _, hk => by simp at hk
  | c :: cs, S, hmem, ho, h, hcs, hk => by
    obtain ⟨hc, hnew⟩ := hcs c List.mem_cons_self
    rw [run_cons hcur]
    rcases lost_or_eq (g := g) hcur hn hmem ho h hc hnew with hlost | ⟨hsame, hck⟩
    · exact Longer.run hlost fun d hd => (hcs d (List.mem_cons_of_mem _ hd)).2 _
    · rw [hsame]
      refine lost_run hmem ho h (fun d hd => hcs d (List.mem_cons_of_mem _ hd)) ?_
      exact (List.mem_cons.mp hk).resolve_left fun he => hck he.symm

end Other

end Longer

/-- The end of the session `n`, which is named exactly, leaves the others alone. -/
theorem kept_exec_exact (g : Fnmatch) (cl : Client) (n : Name) (S : Server) :
    Kept n S (exec g cl S (.kill ('=' :: n))).1 := by
  rw [exec, resolve_exact]
  by_cases h : n ∈ S.names
  · rw [if_pos h]
    exact kept_remove n S
  · rw [if_neg h]
    exact Kept.refl n S

/-- **When killing `n` leaves all other sessions alone**, `n` ending by itself afterwards. -/
theorem kept_kill_iff {g : Fnmatch} {cl : Client} {S : Server} {n : Name} (hn : Literal n) :
    Kept n S (run g cl [.kill n, .kill ('=' :: n)] S) ↔
      n ∈ S.names ∨ (others n S.names).length ≠ 1 := by
  constructor
  · intro hk
    by_contra h
    push Not at h
    obtain ⟨m, hm⟩ := List.length_eq_one_iff.mp h.2
    obtain ⟨x, hx, rfl, hne⟩ := session_of_others hm
    refine Lost.not_kept (x := x) ?_ hx hne hk
    have hother : Lost x (exec g cl S (.kill n)).1 := by
      rw [exec_kill_other g cl hn h.1 hm]
      exact longer_remove_self
    rw [run]
    split_ifs
    · exact Longer.run hother (by simp)
    · exact hother
  · intro h
    have hkill := (touches_exec g cl hn h (c := .kill n) (Or.inl rfl)).kept
    rw [run]
    split_ifs
    · rw [run_singleton]
      exact hkill.trans (kept_exec_exact g cl n _)
    · exact hkill

end Lightbox.Tmux.Sessions
