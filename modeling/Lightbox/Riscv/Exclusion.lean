import Lightbox.Riscv.Programs
import Lightbox.Run.System
import Mathlib.Data.List.Forall2
import Mathlib.Logic.Function.Basic

/-! # One session for the RISC-V target

Any number of runs of `run.sh`, each performing its calls one by one, and the session `qemu-gdb` with the
shells in its panes, which read what is typed and run `run-qemu.sh` and `run-gdb.sh`. A run tests for the
session, and makes it later; between the two another run may have made it. Then `new-session` fails, and
`set -e` ends the run before it has typed anything.

So whatever is typed into a session was typed by the run that made it, each script is started at most
once, and there is never more than one QEMU, nor is a socket removed while there is one
(`exclusive_of_careful`), if a session is ended only by its own `run-gdb.sh`, or after it has been set up. -/

namespace Lightbox.Riscv.Exclusion

open Lightbox.Qmp.Protocol (Text)
open Lightbox.Shell.Errexit
open Lightbox.Riscv.Programs
open Lightbox.Run.System

/-- A pane: what was typed and has not been read by its shell, and the script that the shell runs. -/
structure Pane where
  typed : List Text
  script : Option (Prog Call)

/-- The session: the run that made it, its panes, and all that has been typed, with the run that typed
it. -/
structure Session where
  creator : ℕ
  panes : List Pane
  keys : List (ℕ × Text)

structure State where
  runs : ℕ → Option (Prog Call)
  session : Option Session

/-- No run, and no session. -/
def Init (s : State) : Prop := (∀ i, s.runs i = none) ∧ s.session = none

/-! ### Steps -/

/-- The keys go to the pane that was made last. -/
def typeInto (keys : Text) : List Pane → List Pane
  | [] => []
  | [P] => [{ P with typed := P.typed ++ [keys] }]
  | P :: Ps => P :: typeInto keys Ps

/-- What a call of the run `i` that returns `n` makes of the session; a call that fails leaves it as it
is. `none` if the call cannot return `n`. -/
def serve (i : ℕ) : Call → ℕ → Option Session → Option (Option Session)
  | .hasSession, 0, none => none
  | .newSession, 0, none => some (some ⟨i, [⟨[], none⟩], []⟩)
  | .newSession, 0, some _ => none
  | .sendKeys _, 0, none => none
  | .sendKeys t, 0, some S =>
    some (some { S with panes := typeInto t S.panes, keys := S.keys ++ [(i, t)] })
  | .splitWindow, 0, none => none
  | .splitWindow, 0, some S => some (some { S with panes := S.panes ++ [⟨[], none⟩] })
  | _, _, S => some S

/-- The script that a line starts. -/
def programOf (line : Text) : Option (Prog Call) :=
  if line = runQemuLine then some (script options runQemu)
  else if line = runGdbLine then some (script options runGdb)
  else none

/-- A script that has come to its end is left. -/
def ongoing : Prog Call → Option (Prog Call)
  | .done _ => none
  | p => some p

/-- A run is started; it performs its next call, which returns `n`. The shell of a pane reads a line; the
script of a pane performs its next call. The session is ended by other means. -/
inductive Act
  | start (i : ℕ)
  | call (i n : ℕ)
  | read (j : ℕ)
  | pane (j n : ℕ)
  | stop

def State.setPane (s : State) (S : Session) (j : ℕ) (P : Pane) : State :=
  { s with session := some { S with panes := S.panes.set j P } }

def step : StepFn State Act
  | s, .start i =>
    if (s.runs i).isNone then
      some { s with runs := Function.update s.runs i (some (script options runSh)) }
    else none
  | s, .call i n =>
    match s.runs i with
    | some (.call a k) => (serve i a n s.session).map fun S =>
        ⟨Function.update s.runs i (some (k n)), S⟩
    | _ => none
  | s, .read j =>
    match s.session with
    | some S =>
      match S.panes[j]? with
      | some ⟨line :: lines, none⟩ => some (s.setPane S j ⟨lines, programOf line⟩)
      | _ => none
    | none => none
  | s, .pane j n =>
    match s.session with
    | some S =>
      match S.panes[j]? with
      | some ⟨typed, some (.call a k)⟩ =>
        if a = .killSession ∧ n = 0 then some { s with session := none }
        else some (s.setPane S j ⟨typed, ongoing (k n)⟩)
      | _ => none
    | none => none
  | s, .stop => if s.session.isSome then some { s with session := none } else none

/-- The next call of a script. -/
def next : Prog Call → Option Call
  | .call a _ => some a
  | .done _ => none

/-- The run `i` is about to type into the session, or to split its window. -/
def SetsUp (s : State) (i : ℕ) : Prop :=
  ∃ p, s.runs i = some p ∧ ((∃ t, next p = some (.sendKeys t)) ∨ next p = some .splitWindow)

/-- The condition on a step: the session is not ended by other means while it is set up. -/
def Careful (s : State) : Act → Prop
  | .stop => ∀ S, s.session = some S → ¬ SetsUp s S.creator
  | _ => True

/-! ### Exclusion -/

/-- The pane `j` of the session is about to perform the call, or performs it. -/
def Session.At (S : Session) (j : ℕ) (a : Call) : Prop :=
  ∃ P p, S.panes[j]? = some P ∧ P.script = some p ∧ next p = some a

/-- **Exclusion**: a session is set up by the run that made it, with each script typed once; there is
at most one QEMU and one debugger, and no socket is removed while there is a QEMU. -/
structure Exclusive (s : State) : Prop where
  setsUp : ∀ i, SetsUp s i → ∃ S, s.session = some S ∧ S.creator = i
  keys : ∀ S, s.session = some S →
    S.keys <+: [(S.creator, runQemuLine), (S.creator, runGdbLine)]
  qemu : ∀ S, s.session = some S → ∀ i j args args', S.At i (.qemu args) → S.At j (.qemu args') → i = j
  socket : ∀ S, s.session = some S → ∀ i j args, S.At i .rmSocket → ¬ S.At j (.qemu args)
  gdb : ∀ S, s.session = some S → ∀ i j bin bin' args args', S.At i (.gdb bin args) →
    S.At j (.gdb bin' args') → i = j

/-! ### Panes -/

/-- A pane with the line that starts a script of calls with `ok`, or with what has become of it. -/
def Pane.Of (line : Text) (ok : Call → Bool) (P : Pane) : Prop :=
  (P.typed = [line] ∧ P.script = none) ∨
    (P.typed = [] ∧ ∀ p, P.script = some p → p.All (ok · = true))

/-- The calls of `run-qemu.sh`, and those of the other scripts. -/
def ofQemu : Call → Bool
  | .echo _ | .rmSocket | .qemu _ => .true
  | _ => .false

def ofGdb : Call → Bool
  | .rmSocket | .qemu _ => .false
  | _ => .true

theorem programOf_runQemu : ∀ p, programOf runQemuLine = some p → p.All (ofQemu · = true) := by
  rintro p hp
  obtain rfl : script options runQemu = p := Option.some.inj hp
  refine all_compile (fun a ha => ?_) fun _ => trivial
  have hall : (runQemu.calls.all ofQemu) = true := by decide
  exact List.all_eq_true.mp hall a ha

theorem programOf_runGdb : ∀ p, programOf runGdbLine = some p → p.All (ofGdb · = true) := by
  rintro p hp
  obtain rfl : script options runGdb = p := Option.some.inj hp
  refine all_compile (fun a ha => ?_) fun _ => trivial
  have hall : (runGdb.calls.all ofGdb) = true := by decide
  exact List.all_eq_true.mp hall a ha

/-- A call is made by the script of the pane. -/
theorem Pane.Of.next {line : Text} {ok : Call → Bool} {P : Pane} (h : P.Of line ok) {p : Prog Call}
    {a : Call} (hp : P.script = some p) (ha : next p = some a) : ok a = true := by
  rcases h with ⟨-, hn⟩ | ⟨-, hall⟩
  · rw [hn] at hp
    simp at hp
  · have hpa := hall p hp
    cases p with
    | done n => simp [Exclusion.next] at ha
    | call b k =>
      obtain rfl : b = a := Option.some.inj ha
      exact hpa.1

/-- The shell of the pane reads its line. -/
theorem Pane.Of.read {line line' : Text} {ok : Call → Bool} {lines : List Text}
    (h : Pane.Of line ok ⟨line' :: lines, none⟩)
    (hok : ∀ p, programOf line = some p → p.All (ok · = true)) :
    Pane.Of line ok ⟨lines, programOf line'⟩ := by
  rcases h with ⟨ht, -⟩ | ⟨ht, -⟩
  · obtain ⟨rfl, rfl⟩ := List.cons.inj ht
    exact Or.inr ⟨rfl, hok⟩
  · simp at ht

/-- The script of the pane performs a call. -/
theorem Pane.Of.call {line : Text} {ok : Call → Bool} {typed : List Text} {a : Call}
    {k : ℕ → Prog Call} (h : Pane.Of line ok ⟨typed, some (.call a k)⟩) (n : ℕ) :
    Pane.Of line ok ⟨typed, ongoing (k n)⟩ := by
  rcases h with ⟨-, hn⟩ | ⟨ht, hall⟩
  · simp at hn
  · refine Or.inr ⟨ht, fun p hp => ?_⟩
    have hk : (k n).All (ok · = true) := (hall _ rfl).2 n
    cases hkn : k n with
    | done m =>
      rw [hkn] at hp
      simp [ongoing] at hp
    | call b l =>
      rw [hkn] at hp hk
      obtain rfl := Option.some.inj hp
      exact hk

/-! ### The progress of a run -/

/-- The rest of `run.sh`, with `j` commands of `makeSession` done. -/
def stage (j : ℕ) : Prog Call := script options (.list (makeSession.drop j))

/-- The calls of a run that has nothing to set up. -/
def quiet : Call → Bool
  | .echo _ | .attach | .selectLayout => .true
  | _ => .false

/-- The run has not made a session, or is done with setting it up. -/
def Outside (p : Prog Call) : Prop :=
  p = script options runSh ∨ p = stage 0 ∨ p.All (quiet · = true)

theorem check_options (k : ℕ → Prog Call) (n : ℕ) :
    check options false k n = if n = 0 then k 0 else .done n := by
  unfold check Options.stops options
  by_cases hn : n = 0 <;> simp [hn]

/-- The session exists, and the run attaches to it. -/
theorem all_attach (k : ℕ → Prog Call) (line : Text) :
    (compile options false (.list [.call (.echo line), .exec .attach]) k).All (quiet · = true) := by
  refine ⟨rfl, fun n => ?_⟩
  rw [check_options]
  split_ifs
  · exact ⟨rfl, fun _ => trivial⟩
  · trivial

theorem stage_zero : stage 0 = .call .newSession (check options false fun _ => stage 1) := rfl

theorem all_stage : (stage 4).All (quiet · = true) := by
  refine all_compile (fun a ha => ?_) fun _ => trivial
  have hall : ((Cmd.list (makeSession.drop 4)).calls.all quiet) = true := by decide
  exact List.all_eq_true.mp hall a ha

/-- What a pane is for. -/
inductive Kind
  | fresh | qemu | gdb

def Kind.Holds : Kind → Pane → Prop
  | .fresh, P => P = ⟨[], none⟩
  | .qemu, P => P.Of runQemuLine ofQemu
  | .gdb, P => P.Of runGdbLine ofGdb

/-- The panes after `j` commands of `makeSession`. -/
def kinds : ℕ → List Kind
  | 1 => [.fresh]
  | 2 => [.qemu]
  | 3 => [.qemu, .fresh]
  | 4 => [.qemu, .gdb]
  | _ => []

/-- What a session looks like after `j` commands of `makeSession`. -/
structure Built (S : Session) (j : ℕ) : Prop where
  bounds : 1 ≤ j ∧ j ≤ 4
  keys : S.keys = [(S.creator, runQemuLine), (S.creator, runGdbLine)].take (j / 2)
  panes : List.Forall₂ Kind.Holds (kinds j) S.panes

/-- The run `i`, with the calls `p` to come, sets the session up. -/
def Builds (session : Option Session) (i : ℕ) (p : Prog Call) : Prop :=
  ∃ j S, j ≤ 3 ∧ p = stage j ∧ session = some S ∧ S.creator = i ∧ Built S j

/-- **The invariant.** -/
structure Inv (s : State) : Prop where
  runs : ∀ i p, s.runs i = some p → Outside p ∨ Builds s.session i p
  session : ∀ S, s.session = some S → ∃ j, Built S j

theorem inv_init {s : State} (h : Init s) : Inv s :=
  ⟨fun i p hp => by simp [h.1 i] at hp, fun S hS => by simp [h.2] at hS⟩

/-! ### Panes of a session that is set up -/

theorem exists_kind {i : ℕ} {P : Pane} : ∀ {ks : List Kind} {Ps : List Pane},
    List.Forall₂ Kind.Holds ks Ps → Ps[i]? = some P → ∃ κ, ks[i]? = some κ ∧ κ.Holds P := by
  intro ks Ps h
  induction h generalizing i with
  | nil => intro hP; simp at hP
  | @cons κ Q ks Ps hQ h ih =>
    intro hP
    cases i with
    | zero =>
      obtain rfl : Q = P := Option.some.inj hP
      exact ⟨κ, rfl, hQ⟩
    | succ i => exact ih hP

/-- One pane changes, and stays of the kind it is. -/
theorem forall₂_set {i : ℕ} {P P' : Pane} (hkeep : ∀ κ : Kind, κ.Holds P → κ.Holds P') :
    ∀ {ks : List Kind} {Ps : List Pane}, List.Forall₂ Kind.Holds ks Ps → Ps[i]? = some P →
      List.Forall₂ Kind.Holds ks (Ps.set i P') := by
  intro ks Ps h
  induction h generalizing i with
  | nil => intro hP; simp at hP
  | @cons κ Q ks Ps hQ h ih =>
    intro hP
    cases i with
    | zero =>
      obtain rfl : Q = P := Option.some.inj hP
      exact .cons (hkeep κ hQ) h
    | succ i => exact .cons hQ (ih hP)

/-- The pane of QEMU is the first one, that of the debugger the second one, made last. -/
theorem of_kinds {j i : ℕ} : ((kinds j)[i]? = some .qemu → i = 0) ∧
    ((kinds j)[i]? = some .gdb → i = 1 ∧ j = 4) := by
  rcases j with _ | _ | _ | _ | _ | j <;> rcases i with _ | _ | i <;> simp [kinds]

theorem Kind.Holds.read {κ : Kind} {line : Text} {lines : List Text}
    (h : κ.Holds ⟨line :: lines, none⟩) : κ.Holds ⟨lines, programOf line⟩ := by
  cases κ with
  | fresh => exact absurd h (by simp [Kind.Holds])
  | qemu => exact Pane.Of.read h programOf_runQemu
  | gdb => exact Pane.Of.read h programOf_runGdb

theorem Kind.Holds.call {κ : Kind} {typed : List Text} {a : Call} {k : ℕ → Prog Call}
    (h : κ.Holds ⟨typed, some (.call a k)⟩) (n : ℕ) : κ.Holds ⟨typed, ongoing (k n)⟩ := by
  cases κ with
  | fresh => exact absurd h (by simp [Kind.Holds])
  | qemu => exact Pane.Of.call h n
  | gdb => exact Pane.Of.call h n

/-- **The scripts in the panes**: that of QEMU in the first, that of the debugger in the second. -/
theorem Built.at {S : Session} {j i : ℕ} {a : Call} (h : Built S j) (ha : S.At i a) :
    (i = 0 ∧ ofQemu a = true) ∨ (i = 1 ∧ j = 4 ∧ ofGdb a = true) := by
  obtain ⟨P, p, hP, hp, hn⟩ := ha
  obtain ⟨κ, hκ, hold⟩ := exists_kind h.panes hP
  cases κ with
  | fresh =>
    rw [show P = ⟨[], none⟩ from hold] at hp
    simp at hp
  | qemu => exact Or.inl ⟨of_kinds.1 hκ, Pane.Of.next hold hp hn⟩
  | gdb =>
    obtain ⟨hi, hj⟩ := of_kinds.2 hκ
    exact Or.inr ⟨hi, hj, Pane.Of.next hold hp hn⟩

/-! ### Steps of a run -/

/-- **The next command of the run that sets the session up.** -/
theorem built_serve {S : Session} {j : ℕ} (h : Built S j) (hj : j ≤ 3) :
    ∃ a, stage j = .call a (check options false fun _ => stage (j + 1)) ∧
      ∃ S', serve S.creator a 0 (some S) = some (some S') ∧ S'.creator = S.creator ∧
        Built S' (j + 1) := by
  obtain ⟨hb, hk, hp⟩ := h
  obtain rfl | rfl | rfl : j = 1 ∨ j = 2 ∨ j = 3 := by omega
  · obtain ⟨P, Ps, hP, hnil, hpanes⟩ := List.forall₂_cons_left_iff.mp hp
    obtain rfl : Ps = [] := List.forall₂_nil_left_iff.mp hnil
    obtain rfl : P = ⟨[], none⟩ := hP
    refine ⟨.sendKeys runQemuLine, rfl, _, rfl, rfl, by omega, ?_, ?_⟩
    · show S.keys ++ _ = _
      rw [hk]
      rfl
    · show List.Forall₂ _ _ (typeInto runQemuLine S.panes)
      rw [hpanes]
      exact .cons (Or.inl ⟨rfl, rfl⟩) .nil
  · refine ⟨.splitWindow, rfl, _, rfl, rfl, by omega, hk, ?_⟩
    obtain ⟨P, Ps, hP, hnil, hpanes⟩ := List.forall₂_cons_left_iff.mp hp
    obtain rfl : Ps = [] := List.forall₂_nil_left_iff.mp hnil
    show List.Forall₂ _ _ (S.panes ++ _)
    rw [hpanes]
    exact .cons hP (.cons rfl .nil)
  · obtain ⟨P, Ps, hP, hrest, hpanes⟩ := List.forall₂_cons_left_iff.mp hp
    obtain ⟨G, Gs, hG, hnil, rfl⟩ := List.forall₂_cons_left_iff.mp hrest
    obtain rfl : Gs = [] := List.forall₂_nil_left_iff.mp hnil
    obtain rfl : G = ⟨[], none⟩ := hG
    refine ⟨.sendKeys runGdbLine, rfl, _, rfl, rfl, by omega, ?_, ?_⟩
    · show S.keys ++ _ = _
      rw [hk]
      rfl
    · show List.Forall₂ _ _ (typeInto runGdbLine S.panes)
      rw [hpanes]
      exact .cons hP (.cons (Or.inl ⟨rfl, rfl⟩) .nil)

/-- A call that fails leaves the session as it is. -/
theorem serve_failed {i n : ℕ} (hn : n ≠ 0) (a : Call) (S : Option Session) :
    serve i a n S = some S := by
  obtain ⟨m, rfl⟩ := Nat.exists_eq_succ_of_ne_zero hn
  cases a <;> rfl

/-- A quiet call leaves the session as it is. -/
theorem serve_quiet {i n : ℕ} {a : Call} (ha : quiet a = true) (S : Option Session) :
    serve i a n S = some S := by
  cases a with
  | echo | attach | selectLayout => cases n <;> cases S <;> rfl
  | _ => simp [quiet] at ha

/-- The first call of a run asks for the session. -/
theorem start_eq : ∃ k, script options runSh = .call .hasSession k ∧ ∀ n, Outside (k n) := by
  refine ⟨_, rfl, fun n => ?_⟩
  have htest : check options true = fun (k : ℕ → Prog Call) => k := by
    funext k m
    unfold check Options.stops
    simp
  show Outside (check options true _ n)
  rw [htest]
  dsimp only
  split_ifs
  · exact Or.inr (Or.inr (all_attach _ _))
  · exact Or.inr (Or.inl rfl)

/-! ### The invariant is kept -/

section Steps
variable {s : State} (h : Inv s)
include h

/-- A run that has nothing to set up, or no longer, goes on; the session is left as it is. -/
theorem inv_outside (i : ℕ) {p : Prog Call} (hp : Outside p) :
    Inv ⟨Function.update s.runs i (some p), s.session⟩ := by
  refine ⟨fun i' p' hp' => ?_, h.session⟩
  dsimp only at hp'
  rcases eq_or_ne i' i with rfl | hne
  · rw [Function.update_self] at hp'
    exact Or.inl (Option.some.inj hp' ▸ hp)
  · rw [Function.update_of_ne hne] at hp'
    exact h.runs i' p' hp'

/-- A session is made, or set up further, by the run `i`. -/
theorem inv_build {i j : ℕ} {S' : Session} (hc : S'.creator = i) (hb : Built S' (j + 1))
    (hold : ∀ S, s.session = some S → S.creator = i) :
    Inv ⟨Function.update s.runs i (some (stage (j + 1))), some S'⟩ := by
  refine ⟨fun i' p' hp' => ?_, fun S hS => ⟨j + 1, by rwa [← Option.some.inj hS]⟩⟩
  dsimp only at hp'
  rcases eq_or_ne i' i with rfl | hne
  · rw [Function.update_self] at hp'
    obtain rfl := Option.some.inj hp'
    by_cases hj : j + 1 ≤ 3
    · exact Or.inr ⟨j + 1, S', hj, rfl, rfl, hc, hb⟩
    · have hj4 : j + 1 = 4 := by
        have := hb.bounds
        omega
      rw [hj4]
      exact Or.inl (Or.inr (Or.inr all_stage))
  · rw [Function.update_of_ne hne] at hp'
    rcases h.runs i' p' hp' with ho | ⟨_, S, _, _, hS, hi, _⟩
    · exact Or.inl ho
    · exact absurd ((hold S hS).symm.trans hi).symm hne

/-- **A run performs its next call.** -/
theorem inv_call {i n : ℕ} {a : Call} {k : ℕ → Prog Call} {T : Option Session}
    (hi : s.runs i = some (.call a k)) (hs : serve i a n s.session = some T) :
    Inv ⟨Function.update s.runs i (some (k n)), T⟩ := by
  have hsame : ∀ {p : Prog Call}, serve i a n s.session = some s.session → k n = p → Outside p →
      Inv ⟨Function.update s.runs i (some (k n)), T⟩ := fun hserve hk ho => by
    rw [← Option.some.inj (hserve.symm.trans hs), hk]
    exact inv_outside h i ho
  have hdone : Outside (.done n) := Or.inr (Or.inr trivial)
  rcases h.runs i _ hi with (hstart | hnew | hquiet) | ⟨j, S, hj, hp, hS, hc, hb⟩
  · -- the run asks for the session
    obtain ⟨k', hk', ho⟩ := start_eq
    obtain ⟨rfl, rfl⟩ : a = .hasSession ∧ k = k' := by simpa using hstart.trans hk'
    refine hsame ?_ rfl (ho n)
    cases hT : s.session with
    | none =>
      rw [hT] at hs
      cases n with
      | zero => simp [serve] at hs
      | succ n => rfl
    | some S => cases n <;> rfl
  · -- the run makes the session, unless there is one
    obtain ⟨rfl, rfl⟩ : a = .newSession ∧ k = check options false fun _ => stage 1 := by
      simpa using hnew.trans stage_zero
    by_cases hn : n = 0
    · subst hn
      cases hT : s.session with
      | none =>
        rw [hT] at hs
        obtain rfl := Option.some.inj hs
        exact inv_build (j := 0) h rfl ⟨by omega, rfl, .cons rfl .nil⟩ fun S hS => by simp [hT] at hS
      | some S =>
        rw [hT] at hs
        simp [serve] at hs
    · refine hsame (serve_failed hn _ _) (p := .done n) ?_ hdone
      rw [check_options, if_neg hn]
  · exact hsame (serve_quiet hquiet.1 _) rfl (Or.inr (Or.inr (hquiet.2 n)))
  · obtain ⟨b, hb', S', hserve, hc', hbuilt⟩ := built_serve hb hj
    obtain ⟨rfl, rfl⟩ : a = b ∧ k = check options false fun _ => stage (j + 1) := by
      simpa using hp.trans hb'
    by_cases hn : n = 0
    · subst hn
      rw [hS, ← hc, hserve] at hs
      obtain rfl := Option.some.inj hs
      rw [check_options, if_pos rfl]
      refine inv_build h (hc'.trans hc) hbuilt fun S₀ hS₀ => ?_
      rw [hS] at hS₀
      rw [← Option.some.inj hS₀, hc]
    · refine hsame (serve_failed hn _ _) (p := .done n) ?_ hdone
      rw [check_options, if_neg hn]

/-- The shell of a pane, or its script, goes on. -/
theorem inv_setPane {S : Session} {j : ℕ} {P P' : Pane} (hS : s.session = some S)
    (hP : S.panes[j]? = some P) (hkeep : ∀ κ : Kind, κ.Holds P → κ.Holds P') :
    Inv (s.setPane S j P') := by
  have hb : ∀ m, Built S m → Built { S with panes := S.panes.set j P' } m := fun m hm =>
    ⟨hm.bounds, hm.keys, forall₂_set hkeep hm.panes hP⟩
  refine ⟨fun i p hp => ?_, fun S' hS' => ?_⟩
  · rcases h.runs i p hp with ho | ⟨m, S₀, hm, hp', hS₀, hc, hbuilt⟩
    · exact Or.inl ho
    · rw [hS] at hS₀
      obtain rfl := Option.some.inj hS₀
      exact Or.inr ⟨m, _, hm, hp', rfl, hc, hb m hbuilt⟩
  · obtain rfl := Option.some.inj hS'
    obtain ⟨m, hm⟩ := h.session S hS
    exact ⟨m, hb m hm⟩

/-- The session ends, and no run is setting it up. -/
theorem inv_end (hno : ∀ i p, s.runs i = some p → ¬ Builds s.session i p) :
    Inv { s with session := none } := by
  refine ⟨fun i p hp => Or.inl ?_, fun S hS => by simp at hS⟩
  exact (h.runs i p hp).resolve_right (hno i p hp)

/-- **The debugger's script ends its session**: then no run is setting it up. -/
theorem inv_kill {S : Session} {j : ℕ} (hS : s.session = some S) (hk : S.At j .killSession) :
    Inv { s with session := none } := by
  refine inv_end h fun i p _ ⟨m, S₀, hm, _, hS₀, _, hb⟩ => ?_
  rw [hS] at hS₀
  obtain rfl := Option.some.inj hS₀
  rcases hb.at hk with ⟨-, hq⟩ | ⟨-, hm4, -⟩
  · simp [ofQemu] at hq
  · omega

end Steps

/-- A run that sets a session up is about to type, or to split the window. -/
theorem setsUp_of_builds {s : State} {i : ℕ} {p : Prog Call} (hi : s.runs i = some p)
    (hb : Builds s.session i p) : SetsUp s i := by
  obtain ⟨j, S, hj, rfl, -, -, hbuilt⟩ := hb
  have hlow := hbuilt.bounds.1
  obtain rfl | rfl | rfl : j = 1 ∨ j = 2 ∨ j = 3 := by omega
  · exact ⟨_, hi, Or.inl ⟨runQemuLine, rfl⟩⟩
  · exact ⟨_, hi, Or.inr rfl⟩
  · exact ⟨_, hi, Or.inl ⟨runGdbLine, rfl⟩⟩

/-- A run that types into the session, or splits its window, sets it up. -/
theorem builds_of_setsUp {s : State} (h : Inv s) {i : ℕ} (hi : SetsUp s i) :
    ∃ p, s.runs i = some p ∧ Builds s.session i p := by
  obtain ⟨p, hp, hnext⟩ := hi
  refine ⟨p, hp, (h.runs i p hp).resolve_left fun ho => ?_⟩
  rcases ho with rfl | rfl | hq
  · have hn : next (script options runSh) = some .hasSession := rfl
    rw [hn] at hnext
    simp at hnext
  · have hn : next (stage 0) = some .newSession := rfl
    rw [hn] at hnext
    simp at hnext
  · cases p with
    | done n => simp [next] at hnext
    | call a k =>
      have ha : quiet a = true := hq.1
      rcases hnext with ⟨t, ht⟩ | ht
      · rw [Option.some.inj ht] at ha
        simp [quiet] at ha
      · rw [Option.some.inj ht] at ha
        simp [quiet] at ha

/-- **Every careful step keeps the invariant.** -/
theorem inv_step (s : State) (a : Act) (s' : State) (h : Inv s) (hc : Careful s a)
    (hs : step s a = some s') : Inv s' := by
  cases a with
  | start i =>
    rw [step] at hs
    split_ifs at hs
    obtain rfl := Option.some.inj hs
    exact inv_outside h i (Or.inl rfl)
  | call i n =>
    rw [step] at hs
    split at hs
    · obtain ⟨T, hT, rfl⟩ := Option.map_eq_some_iff.mp hs
      exact inv_call h ‹_› hT
    · simp at hs
  | read j =>
    rw [step] at hs
    split at hs
    · split at hs
      · obtain rfl := Option.some.inj hs
        exact inv_setPane h ‹_› ‹_› fun κ hκ => hκ.read
      · simp at hs
    · simp at hs
  | pane j n =>
    rw [step] at hs
    split at hs
    · split at hs
      · next S hS _ typed a k hP =>
        split_ifs at hs with hk
        · obtain rfl := Option.some.inj hs
          exact inv_kill h hS (j := j) ⟨_, _, hP, rfl, congrArg some hk.1⟩
        · obtain rfl := Option.some.inj hs
          exact inv_setPane h hS hP fun κ hκ => hκ.call n
      · simp at hs
    · simp at hs
  | stop =>
    rw [step] at hs
    split_ifs at hs
    obtain rfl := Option.some.inj hs
    refine inv_end h fun i p hi hb => ?_
    obtain ⟨j, S, -, -, hS, rfl, -⟩ := id hb
    exact hc S hS (setsUp_of_builds hi hb)

/-! ### Exclusion holds -/

theorem exclusive_of_inv {s : State} (h : Inv s) : Exclusive s where
  setsUp i hi := by
    obtain ⟨p, -, j, S, -, -, hS, hc, -⟩ := builds_of_setsUp h hi
    exact ⟨S, hS, hc⟩
  keys S hS := by
    obtain ⟨j, hb⟩ := h.session S hS
    rw [hb.keys]
    exact List.take_prefix _ _
  qemu S hS i j args args' hi hj := by
    obtain ⟨m, hb⟩ := h.session S hS
    have h0 : ∀ i args, S.At i (.qemu args) → i = 0 := fun i args hat => by
      rcases hb.at hat with ⟨rfl, -⟩ | ⟨-, -, hg⟩
      · rfl
      · simp [ofGdb] at hg
    rw [h0 i args hi, h0 j args' hj]
  socket S hS i j args hi hj := by
    obtain ⟨m, hb⟩ := h.session S hS
    obtain ⟨rfl, -⟩ | ⟨-, -, hg⟩ := hb.at hi
    · obtain ⟨rfl, -⟩ | ⟨-, -, hg⟩ := hb.at hj
      · obtain ⟨P, p, hP, hp, hn⟩ := hi
        obtain ⟨P', p', hP', hp', hn'⟩ := hj
        obtain rfl := Option.some.inj (hP.symm.trans hP')
        obtain rfl := Option.some.inj (hp.symm.trans hp')
        simp [hn] at hn'
      · simp [ofGdb] at hg
    · simp [ofGdb] at hg
  gdb S hS i j bin bin' args args' hi hj := by
    obtain ⟨m, hb⟩ := h.session S hS
    have h1 : ∀ i bin args, S.At i (.gdb bin args) → i = 1 := fun i bin args hat => by
      rcases hb.at hat with ⟨-, hq⟩ | ⟨rfl, -, -⟩
      · simp [ofQemu] at hq
      · rfl
    rw [h1 i bin args hi, h1 j bin' args' hj]

/-- **One session, one QEMU, one debugger**, whatever the order in which any number of runs, the shells
and the scripts go on. -/
theorem exclusive_of_careful {s : State} (h : Reach step Init Careful s) : Exclusive s :=
  exclusive_of_inv (h.invariant (fun _ => inv_init) inv_step)

/-- Two runs find no session; the first one makes it, and the second one ends. QEMU runs when the
debugger starts. -/
def twoRuns : List Act :=
  [.start 0, .start 1, .call 0 1, .call 1 1, .call 0 0, .call 1 1, .call 0 0, .read 0, .pane 0 0,
    .call 0 0, .pane 0 0, .call 0 0, .read 1, .pane 1 0, .pane 1 0, .pane 1 0]

theorem exclusive_of_careful_two : ∃ s, Reach step Init Careful s ∧
    (∃ S, s.session = some S ∧ S.creator = 0 ∧ S.At 0 (.qemu qemuArgs) ∧
      S.At 1 (.gdb "riscv64-linux-gnu-gdb".toList gdbArgs)) ∧
    s.runs 1 = some (.done 1) ∧ Exclusive s := by
  obtain ⟨s, hs, hS, h1⟩ : ∃ s, runFrom step ⟨fun _ => none, none⟩ twoRuns = some s ∧
      (∃ S, s.session = some S ∧ S.creator = 0 ∧ S.At 0 (.qemu qemuArgs) ∧
        S.At 1 (.gdb "riscv64-linux-gnu-gdb".toList gdbArgs)) ∧ s.runs 1 = some (.done 1) :=
    ⟨_, rfl, ⟨_, rfl, rfl, ⟨_, _, rfl, rfl, rfl⟩, ⟨_, _, rfl, rfl, rfl⟩⟩, rfl⟩
  have hr : Reach step Init Careful s := by
    refine Reach.runAllowed twoRuns (fun a ha s => ?_) (.start ⟨fun _ => rfl, rfl⟩) hs
    cases a with
    | stop => simp [twoRuns] at ha
    | _ => trivial
  exact ⟨s, hr, hS, h1, exclusive_of_careful hr⟩

end Lightbox.Riscv.Exclusion
