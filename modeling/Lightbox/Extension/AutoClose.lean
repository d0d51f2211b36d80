import Lightbox.Extension.Config
import Mathlib.Data.Finset.Prod
import Mathlib.Data.List.Nodup

/-! # Auto-close: sessions and their listeners

With `autoClose` on, `runButton` opens a session: a terminal, a flag `started`, and the array `subs`
of the three listeners it registers. All listeners of all sessions receive the events of every
terminal. The handlers only look at the terminal of an event, never at the shell execution.

The world keeps the listeners that are registered (`live`), and logs every `dispose()` of a listener
(`released`) and of a terminal (`disposed`). Delivering an event (`fire`) calls the listeners that
were registered when it began, skipping those disposed meanwhile; `terminal.dispose()` may deliver
the closed event before it returns (`re`).

Between two events the sessions have distinct terminals, and the registered listeners are exactly
those in the arrays `subs`, which are full or empty (`Inv`). So an event reaches at most one session
(`fire_eq`), and `fire_onStart`, `fire_onClose` and `fire_onFinish` say what it does to it. -/

namespace Lightbox.Extension.AutoClose

open Lightbox.Extension.Config

abbrev Terminal := ℕ

/-- The identity of a shell execution. -/
abbrev Exec := ℕ

/-- The three events a session listens to. -/
inductive Kind
  | start | finish | close
  deriving DecidableEq, Repr

instance : Fintype Kind := ⟨{.start, .finish, .close}, fun k => by cases k <;> decide⟩

/-- A listener: the session that registered it and its event. -/
abbrev Listener := ℕ × Kind

structure Session where
  terminal : Terminal
  started : Bool
  subs : List Kind
  deriving DecidableEq, Repr

structure World where
  n : ℕ
  sess : ℕ → Session
  live : List Listener
  released : List Listener
  disposed : List Terminal

/-- What happens outside the handlers: a button is pressed, and VS Code reports that a shell
execution started or ended in a terminal, or that a terminal was closed. -/
inductive Event
  | run (cfg : ButtonConfig) (t : Terminal)
  | start (t : Terminal) (x : Exec)
  | finish (t : Terminal) (x : Exec) (re : Bool)
  | close (t : Terminal)
  deriving DecidableEq, Repr

/-- The terminal of an event. -/
def Event.terminal : Event → Terminal
  | .run _ t | .start t _ | .finish t _ _ | .close t => t

/-! ### The handlers -/

/-- `dispose()` of a listener. -/
def release (w : World) (l : Listener) : World :=
  { w with live := w.live.erase l, released := w.released ++ [l] }

def setSession (w : World) (i : ℕ) (s : Session) : World :=
  { w with sess := Function.update w.sess i s }

/-- `while (subs.length) subs.pop()!.dispose()`: the last element first. -/
def cleanup (w : World) (i : ℕ) : World :=
  setSession ((w.sess i).subs.foldr (fun k w => release w (i, k)) w) i
    { w.sess i with subs := [] }

def onStart (w : World) (i : ℕ) (t : Terminal) : World :=
  if t = (w.sess i).terminal then setSession w i { w.sess i with started := true } else w

def onClose (w : World) (i : ℕ) (t : Terminal) : World :=
  if t = (w.sess i).terminal then cleanup w i else w

/-- Call one listener, unless it was disposed meanwhile. -/
def call (h : World → ℕ → Terminal → World) (t : Terminal) (w : World) (l : Listener) : World :=
  if l ∈ w.live then h w l.1 t else w

/-- Deliver an event to the listeners registered for it. -/
def fire (h : World → ℕ → Terminal → World) (k : Kind) (t : Terminal) (w : World) : World :=
  (w.live.filter fun l => l.2 = k).foldl (call h t) w

/-- `terminal.dispose()`. -/
def disposeTerminal (re : Bool) (w : World) (t : Terminal) : World :=
  let w' := { w with disposed := w.disposed ++ [t] }
  if re then fire onClose .close t w' else w'

def onFinish (re : Bool) (w : World) (i : ℕ) (t : Terminal) : World :=
  if t ≠ (w.sess i).terminal ∨ (w.sess i).started = false then w
  else disposeTerminal re (cleanup w i) (w.sess i).terminal

/-- `runButton` opens a session: there is a script, and `autoClose !== false`. -/
def opens (cfg : ButtonConfig) : Bool := truthy cfg.script && cfg.autoClose != some false

/-- The three listeners, in the order they are pushed. -/
def allKinds : List Kind := [.start, .finish, .close]

def runButton (w : World) (cfg : ButtonConfig) (t : Terminal) : World :=
  if opens cfg then
    { w with
      n := w.n + 1
      sess := Function.update w.sess w.n ⟨t, false, allKinds⟩
      live := w.live ++ allKinds.map fun k => (w.n, k) }
  else w

/-- One event. -/
def step (w : World) : Event → World
  | .run cfg t => runButton w cfg t
  | .start t _ => fire onStart .start t w
  | .finish t _ re => fire (onFinish re) .finish t w
  | .close t => fire onClose .close t w

/-- The world before the first button is pressed. -/
def init : World := ⟨0, fun _ => ⟨0, false, []⟩, [], [], []⟩

def run (tr : List Event) : World := tr.foldl step init

/-! ### The invariant -/

/-- **What holds between two events.** -/
structure Inv (w : World) : Prop where
  inj : ∀ i < w.n, ∀ j < w.n, (w.sess i).terminal = (w.sess j).terminal → i = j
  subs : ∀ i < w.n, (w.sess i).subs = allKinds ∨ (w.sess i).subs = []
  mem_live : ∀ l, l ∈ w.live ↔ l.1 < w.n ∧ l.2 ∈ (w.sess l.1).subs
  nodup_live : w.live.Nodup
  mem_released : ∀ l, l ∈ w.released ↔ l.1 < w.n ∧ (w.sess l.1).subs = []
  nodup_released : w.released.Nodup

theorem inv_init : Inv init where
  inj i hi := by simp [init] at hi
  subs i hi := by simp [init] at hi
  mem_live l := by simp [init]
  nodup_live := List.nodup_nil
  mem_released l := by simp [init]
  nodup_released := List.nodup_nil

theorem mem_allKinds (k : Kind) : k ∈ allKinds := by cases k <;> decide

/-! ### Cleaning up -/

/-- The listeners disposed by a `cleanup`, in order. -/
def kindsOf (i : ℕ) : List Listener := [(i, .close), (i, .finish), (i, .start)]

theorem mem_kindsOf {i : ℕ} {l : Listener} : l ∈ kindsOf i ↔ l.1 = i := by
  obtain ⟨j, k⟩ := l
  cases k <;> simp [kindsOf]

variable {w : World} {i : ℕ}

/-- What `cleanup` does to a session that is not finished. -/
theorem cleanup_eq (hs : (w.sess i).subs = allKinds) :
    cleanup w i = ⟨w.n, Function.update w.sess i ⟨(w.sess i).terminal, (w.sess i).started, []⟩,
      ((w.live.erase (i, .close)).erase (i, .finish)).erase (i, .start), w.released ++ kindsOf i,
      w.disposed⟩ := by
  simp [cleanup, hs, allKinds, kindsOf, release, setSession]

theorem mem_erase_kinds {L : List Listener} (hL : L.Nodup) (i : ℕ) (l : Listener) :
    l ∈ ((L.erase (i, .close)).erase (i, .finish)).erase (i, .start) ↔ l.1 ≠ i ∧ l ∈ L := by
  have h1 : (L.erase (i, Kind.close)).Nodup := hL.erase _
  have h2 : ((L.erase (i, Kind.close)).erase (i, Kind.finish)).Nodup := h1.erase _
  rw [h2.mem_erase_iff, h1.mem_erase_iff, hL.mem_erase_iff]
  obtain ⟨j, k⟩ := l
  constructor
  · rintro ⟨ha, hb, hc, hl⟩
    refine ⟨?_, hl⟩
    rintro rfl
    cases k with
    | start => exact ha rfl
    | finish => exact hb rfl
    | close => exact hc rfl
  · rintro ⟨hj, hl⟩
    have hne : ∀ k', (j, k) ≠ (i, k') := fun k' h => hj (congrArg Prod.fst h)
    exact ⟨hne _, hne _, hne _, hl⟩

theorem cleanup_sess_self (hs : (w.sess i).subs = allKinds) :
    (cleanup w i).sess i = ⟨(w.sess i).terminal, (w.sess i).started, []⟩ := by
  rw [cleanup_eq hs]; exact Function.update_self ..

theorem cleanup_sess_ne (hs : (w.sess i).subs = allKinds) {j : ℕ} (hj : j ≠ i) :
    (cleanup w i).sess j = w.sess j := by
  rw [cleanup_eq hs]; exact Function.update_of_ne hj ..

theorem cleanup_terminal (hs : (w.sess i).subs = allKinds) (j : ℕ) :
    ((cleanup w i).sess j).terminal = (w.sess j).terminal := by
  rcases eq_or_ne j i with rfl | hj
  · rw [cleanup_sess_self hs]
  · rw [cleanup_sess_ne hs hj]

theorem cleanup_n (hs : (w.sess i).subs = allKinds) : (cleanup w i).n = w.n := by
  rw [cleanup_eq hs]

theorem cleanup_disposed (hs : (w.sess i).subs = allKinds) :
    (cleanup w i).disposed = w.disposed := by
  rw [cleanup_eq hs]

theorem mem_cleanup_live (h : Inv w) (hs : (w.sess i).subs = allKinds) (l : Listener) :
    l ∈ (cleanup w i).live ↔ l.1 ≠ i ∧ l ∈ w.live := by
  rw [cleanup_eq hs]; exact mem_erase_kinds h.nodup_live i l

theorem inv_cleanup (h : Inv w) (hi : i < w.n) (hs : (w.sess i).subs = allKinds) :
    Inv (cleanup w i) := by
  have hn := cleanup_n hs
  refine ⟨?_, ?_, ?_, ?_, ?_, ?_⟩
  · intro a ha b hb hab
    rw [cleanup_terminal hs, cleanup_terminal hs] at hab
    exact h.inj a (hn ▸ ha) b (hn ▸ hb) hab
  · intro j hj
    rcases eq_or_ne j i with rfl | hji
    · right; rw [cleanup_sess_self hs]
    · rw [cleanup_sess_ne hs hji]; exact h.subs j (hn ▸ hj)
  · intro l
    rw [mem_cleanup_live h hs, h.mem_live, hn]
    rcases eq_or_ne l.1 i with hl | hl
    · rw [hl, cleanup_sess_self hs]; simp
    · rw [cleanup_sess_ne hs hl]; simp [hl]
  · rw [cleanup_eq hs]
    exact ((h.nodup_live.erase _).erase _).erase _
  · intro l
    have hr : (cleanup w i).released = w.released ++ kindsOf i := by rw [cleanup_eq hs]
    rw [hr, List.mem_append, h.mem_released, mem_kindsOf, hn]
    rcases eq_or_ne l.1 i with hl | hl
    · rw [hl, cleanup_sess_self hs]; simp [hi]
    · rw [cleanup_sess_ne hs hl]; simp [hl]
  · rw [cleanup_eq hs]
    refine List.nodup_append.mpr ⟨h.nodup_released, by simp [kindsOf], ?_⟩
    intro a ha b hb
    rintro rfl
    -- a listener of a session that is not finished was not disposed before
    have hsub := ((h.mem_released a).mp ha).2
    rw [mem_kindsOf.mp hb, hs] at hsub
    simp [allKinds] at hsub

/-! ### Delivering an event -/

/-- A handler that only looks at sessions with the terminal of the event, and keeps all terminals. -/
structure Local (h : World → ℕ → Terminal → World) : Prop where
  ne : ∀ (w : World) (i : ℕ) (t : Terminal), (w.sess i).terminal ≠ t → h w i t = w

theorem foldl_call_of_ne {h : World → ℕ → Terminal → World} (hl : Local h) {t : Terminal} :
    ∀ (L : List Listener) (w : World), (∀ l ∈ L, (w.sess l.1).terminal ≠ t) →
      L.foldl (call h t) w = w
  | [], _, _ => rfl
  | l :: L, w, hL => by
    have hc : call h t w l = w := by
      unfold call
      split_ifs
      · exact hl.ne w l.1 t (hL l (by simp))
      · rfl
    rw [List.foldl_cons, hc]
    exact foldl_call_of_ne hl L w fun l' hl' => hL l' (by simp [hl'])

/-- No session is registered for the terminal: nothing happens. -/
theorem fire_of_ne {h : World → ℕ → Terminal → World} (hl : Local h) {k : Kind} {t : Terminal}
    (hne : ∀ l ∈ w.live, (w.sess l.1).terminal ≠ t) : fire h k t w = w :=
  foldl_call_of_ne hl _ w fun l hl' => hne l (List.mem_filter.mp hl').1

/-- **An event reaches only the session of its terminal.** -/
theorem fire_eq {h : World → ℕ → Terminal → World} (hl : Local h) (hw : Inv w) {k : Kind}
    {t : Terminal} (hi : i < w.n) (hs : (w.sess i).subs = allKinds) (ht : (w.sess i).terminal = t)
    (hterm : ∀ j, ((h w i t).sess j).terminal = (w.sess j).terminal) :
    fire h k t w = h w i t := by
  have hmem : (i, k) ∈ w.live := (hw.mem_live _).mpr ⟨hi, by rw [hs]; exact mem_allKinds k⟩
  have hmem' : (i, k) ∈ w.live.filter fun l => l.2 = k := List.mem_filter.mpr ⟨hmem, by simp⟩
  have hnd : (w.live.filter fun l => l.2 = k).Nodup := hw.nodup_live.filter _
  obtain ⟨L1, L2, hL⟩ := List.append_of_mem hmem'
  rw [hL] at hnd
  -- the other listeners belong to other sessions, which have other terminals
  have hother : ∀ l ∈ w.live.filter (fun l => l.2 = k), l ≠ (i, k) → (w.sess l.1).terminal ≠ t := by
    rintro ⟨j, k'⟩ hl' hne heq
    obtain ⟨hlive, hk⟩ := List.mem_filter.mp hl'
    have hj := ((hw.mem_live _).mp hlive).1
    have hji : j = i := hw.inj j hj i hi (heq.trans ht.symm)
    exact hne (Prod.ext hji (by simpa using hk))
  have hsplit := List.nodup_append.mp hnd
  have h1 : ∀ l ∈ L1, (w.sess l.1).terminal ≠ t := fun l hl' =>
    hother l (by rw [hL]; simp [hl']) fun he => hsplit.2.2 l hl' (i, k) (by simp) he
  have h2 : ∀ l ∈ L2, ((h w i t).sess l.1).terminal ≠ t := by
    intro l hl'
    rw [hterm]
    refine hother l (by rw [hL]; simp [hl']) fun he => ?_
    rw [he] at hl'
    exact (List.nodup_cons.mp hsplit.2.1).1 hl'
  unfold fire
  rw [hL, List.foldl_append, foldl_call_of_ne hl L1 w h1, List.foldl_cons,
    show call h t w (i, k) = h w i t from if_pos hmem, foldl_call_of_ne hl L2 _ h2]

theorem local_onStart : Local onStart := ⟨fun _ _ _ h => if_neg fun he => h he.symm⟩

theorem local_onClose : Local onClose := ⟨fun _ _ _ h => if_neg fun he => h he.symm⟩

theorem local_onFinish (re : Bool) : Local (onFinish re) :=
  ⟨fun _ _ _ h => if_pos (Or.inl fun he => h he.symm)⟩

/-! ### What an event does -/

/-- Session `i` is not finished and its terminal is `t`. -/
structure Watches (w : World) (i : ℕ) (t : Terminal) : Prop where
  lt : i < w.n
  subs : (w.sess i).subs = allKinds
  terminal : (w.sess i).terminal = t

theorem watches_or (h : Inv w) (t : Terminal) :
    (∃ i, Watches w i t) ∨ ∀ l ∈ w.live, (w.sess l.1).terminal ≠ t := by
  by_cases hw : ∃ i, Watches w i t
  · exact Or.inl hw
  · refine Or.inr fun l hl ht => hw ⟨l.1, ?_⟩
    obtain ⟨hn, hk⟩ := (h.mem_live l).mp hl
    refine ⟨hn, (h.subs l.1 hn).resolve_right fun h0 => ?_, ht⟩
    rw [h0] at hk
    simp at hk

/-- The terminal of a finished session is watched by none. -/
theorem not_watches_cleanup {t : Terminal} (h : Inv w) (hw : Watches w i t) :
    ∀ l ∈ (cleanup w i).live, ((cleanup w i).sess l.1).terminal ≠ t := by
  intro l hl ht
  obtain ⟨hne, hl⟩ := (mem_cleanup_live h hw.subs l).mp hl
  rw [cleanup_terminal hw.subs] at ht
  exact hne (h.inj l.1 ((h.mem_live l).mp hl).1 i hw.lt (ht.trans hw.terminal.symm))

theorem fire_onStart {t : Terminal} (h : Inv w) (hw : Watches w i t) :
    fire onStart .start t w = setSession w i { w.sess i with started := true } := by
  have he : onStart w i t = setSession w i { w.sess i with started := true } :=
    if_pos hw.terminal.symm
  rw [fire_eq local_onStart h hw.lt hw.subs hw.terminal, he]
  intro j
  rw [he]
  rcases eq_or_ne j i with rfl | hj
  · simp [setSession]
  · simp [setSession, Function.update_of_ne hj]

theorem fire_onClose {t : Terminal} (h : Inv w) (hw : Watches w i t) :
    fire onClose .close t w = cleanup w i := by
  have he : onClose w i t = cleanup w i := if_pos hw.terminal.symm
  rw [fire_eq local_onClose h hw.lt hw.subs hw.terminal, he]
  intro j
  rw [he, cleanup_terminal hw.subs]

/-- `terminal.dispose()` after `cleanup`: a closed event delivered meanwhile finds no listener. -/
theorem disposeTerminal_eq {t : Terminal} (h : Inv w) (hw : Watches w i t) (re : Bool) :
    disposeTerminal re (cleanup w i) t =
      { cleanup w i with disposed := w.disposed ++ [t] } := by
  unfold disposeTerminal
  rw [cleanup_disposed hw.subs]
  cases re with
  | false => rfl
  | true => exact fire_of_ne local_onClose (not_watches_cleanup h hw)

theorem fire_onFinish {t : Terminal} (h : Inv w) (hw : Watches w i t) (re : Bool) :
    fire (onFinish re) .finish t w =
      if (w.sess i).started then { cleanup w i with disposed := w.disposed ++ [t] } else w := by
  have he : onFinish re w i t =
      if (w.sess i).started then { cleanup w i with disposed := w.disposed ++ [t] } else w := by
    unfold onFinish
    rw [hw.terminal, disposeTerminal_eq h hw]
    cases (w.sess i).started <;> simp
  rw [fire_eq (local_onFinish re) h hw.lt hw.subs hw.terminal, he]
  intro j
  rw [he]
  split_ifs
  · exact cleanup_terminal hw.subs j
  · rfl

/-! ### Opening a session -/

theorem inv_runButton {cfg : ButtonConfig} {t : Terminal} (h : Inv w) (ho : opens cfg = true)
    (ht : ∀ i < w.n, (w.sess i).terminal ≠ t) : Inv (runButton w cfg t) := by
  have hself : (runButton w cfg t).sess w.n = ⟨t, false, allKinds⟩ := by simp [runButton, ho]
  have hne : ∀ j, j ≠ w.n → (runButton w cfg t).sess j = w.sess j := by
    intro j hj
    simp [runButton, ho, Function.update_of_ne hj]
  have hn : (runButton w cfg t).n = w.n + 1 := by simp [runButton, ho]
  have hlive : (runButton w cfg t).live = w.live ++ allKinds.map fun k => (w.n, k) := by
    simp [runButton, ho]
  have hrel : (runButton w cfg t).released = w.released := by simp [runButton, ho]
  have hold : ∀ k, (w.n, k) ∉ w.live := fun k hk => by
    have := ((h.mem_live _).mp hk).1
    simp at this
  have hlt : ∀ {a}, a ≠ w.n → (a < w.n + 1 ↔ a < w.n) := by omega
  refine ⟨?_, ?_, ?_, ?_, ?_, ?_⟩
  · intro a ha b hb hab
    rw [hn] at ha hb
    rcases eq_or_ne a w.n with rfl | ha'
    · rcases eq_or_ne b w.n with rfl | hb'
      · rfl
      · rw [hself, hne b hb'] at hab
        exact absurd hab.symm (ht b (by omega))
    · rcases eq_or_ne b w.n with rfl | hb'
      · rw [hself, hne a ha'] at hab
        exact absurd hab (ht a (by omega))
      · rw [hne a ha', hne b hb'] at hab
        exact h.inj a (by omega) b (by omega) hab
  · intro j hj
    rw [hn] at hj
    rcases eq_or_ne j w.n with rfl | hj'
    · left; rw [hself]
    · rw [hne j hj']; exact h.subs j (by omega)
  · intro l
    rw [hlive, List.mem_append, h.mem_live, hn]
    rcases eq_or_ne l.1 w.n with hl | hl
    · have hk : l ∈ allKinds.map fun k => (w.n, k) :=
        List.mem_map.mpr ⟨l.2, mem_allKinds l.2, Prod.ext hl.symm rfl⟩
      simp [hl, hself, hk, mem_allKinds]
    · have hk : l ∉ allKinds.map fun k => (w.n, k) := by
        intro hk
        obtain ⟨k, -, rfl⟩ := List.mem_map.mp hk
        exact hl rfl
      rw [hne l.1 hl, hlt hl]
      simp only [hk, or_false]
  · rw [hlive]
    refine List.nodup_append.mpr ⟨h.nodup_live, by simp [allKinds], ?_⟩
    intro a ha b hb
    rintro rfl
    obtain ⟨k, -, rfl⟩ := List.mem_map.mp hb
    exact hold k ha
  · intro l
    rw [hrel, h.mem_released, hn]
    rcases eq_or_ne l.1 w.n with hl | hl
    · rw [hl, hself]; simp [allKinds]
    · rw [hne l.1 hl, hlt hl]
  · rw [hrel]; exact h.nodup_released

/-- Only the flag changes. -/
theorem inv_started (h : Inv w) (b : Bool) : Inv (setSession w i { w.sess i with started := b }) := by
  set w' := setSession w i { w.sess i with started := b }
  have hs : ∀ j, (w'.sess j).terminal = (w.sess j).terminal ∧ (w'.sess j).subs = (w.sess j).subs := by
    intro j
    rcases eq_or_ne j i with rfl | hj
    · simp [w', setSession]
    · simp [w', setSession, Function.update_of_ne hj]
  refine ⟨?_, ?_, ?_, h.nodup_live, ?_, h.nodup_released⟩
  · intro a ha b hb hab
    rw [(hs a).1, (hs b).1] at hab
    exact h.inj a ha b hb hab
  · intro j hj
    rw [(hs j).2]; exact h.subs j hj
  · intro l
    rw [(hs l.1).2]; exact h.mem_live l
  · intro l
    rw [(hs l.1).2]; exact h.mem_released l

/-- **Three listeners for every session that is not finished.** -/
theorem length_live (h : Inv w) :
    w.live.length = 3 * ((Finset.range w.n).filter fun i => (w.sess i).subs ≠ []).card := by
  have hset : w.live.toFinset =
      ((Finset.range w.n).filter fun i => (w.sess i).subs ≠ []) ×ˢ (Finset.univ : Finset Kind) := by
    ext ⟨i, k⟩
    rw [List.mem_toFinset, h.mem_live]
    simp only [Finset.mem_product, Finset.mem_filter, Finset.mem_range, Finset.mem_univ, and_true]
    constructor
    · rintro ⟨hi, hk⟩
      exact ⟨hi, List.ne_nil_of_mem hk⟩
    · rintro ⟨hi, hs⟩
      rw [(h.subs i hi).resolve_right hs]
      exact ⟨hi, mem_allKinds k⟩
  rw [← List.toFinset_card_of_nodup h.nodup_live, hset, Finset.card_product]
  exact Nat.mul_comm _ 3

end Lightbox.Extension.AutoClose
