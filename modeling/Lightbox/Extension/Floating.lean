import Lightbox.Extension.Sessions
import Lightbox.Run.System
import Mathlib.Data.List.Perm.Basic

/-! # Floating windows

`runButton` shows its terminal and sets a timer. When the timer fires, a command moves the terminal that is
active then into a window of its own; if VS Code refuses it, the handler issues an older command for the same
purpose. Nothing ties the commands to the terminal of the press. The handlers of auto-close are those of
`AutoClose`: a press may have its terminal disposed before its timer fires.

If no other terminal becomes active while a move is pending, and no execution ends in the terminal that is to
be moved, then every terminal that is moved is that of its own press, each at most once, and all have been
moved or refused when nothing is pending (`floats_of_careful`). -/

namespace Lightbox.Extension.Floating

open Lightbox.Extension.Config Lightbox.Extension.Sessions
open Lightbox.Extension.AutoClose (Terminal Event World opens Watches watches_or fire_onStart fire_onClose
  fire_onFinish fire_of_ne local_onStart local_onClose local_onFinish cleanup_disposed)
open Lightbox.Run.System

/-- `floatingWindow !== false` -/
def floats (cfg : ButtonConfig) : Bool := cfg.floatingWindow != some false

/-- The handlers of auto-close, the terminals that were created, those of them that are to close by themselves
and those that are to float, the active terminal, the timers that are set, the commands of the first and of the
second kind that VS Code has not carried out yet, each with the terminal of its press, the terminals that were
moved, and the presses whose terminal was not moved in the end. -/
structure State where
  world : World
  created : List Terminal
  closing : List Terminal
  floated : List Terminal
  active : Option Terminal
  timers : List Terminal
  first : List Terminal
  second : List Terminal
  moved : List (Terminal × Option Terminal)
  refused : List Terminal

def Init (s : State) : Prop :=
  s.world = AutoClose.init ∧ s.created = [] ∧ s.closing = [] ∧ s.floated = [] ∧ s.timers = [] ∧
    s.first = [] ∧ s.second = [] ∧ s.moved = [] ∧ s.refused = []

/-- A button is pressed; something happens in a terminal; the user, or VS Code, activates a terminal; a timer
fires; VS Code carries out a command, or refuses it. -/
inductive Act
  | press (cfg : ButtonConfig) (t : Terminal)
  | shell (e : Event)
  | focus (t : Option Terminal)
  | fire (k : ℕ)
  | first (k : ℕ) (ok : Bool)
  | second (k : ℕ) (ok : Bool)

/-- The terminals that an event removes: one that was closed, and one that a handler disposes. -/
def gone (w : World) : Event → List Terminal
  | .close t => [t]
  | e => (AutoClose.step w e).disposed.drop w.disposed.length

/-- `t` is added to the terminals, if `b` holds. -/
def addIf (b : Bool) (l : List Terminal) (t : Terminal) : List Terminal := if b then l ++ [t] else l

def press (s : State) (cfg : ButtonConfig) (t : Terminal) : State :=
  if truthy cfg.script then
    { s with
      world := AutoClose.runButton s.world cfg t
      created := s.created ++ [t]
      closing := addIf (opens cfg) s.closing t
      active := some t
      floated := addIf (floats cfg) s.floated t
      timers := addIf (floats cfg) s.timers t }
  else s

def step : StepFn State Act
  | s, .press cfg t => if t ∈ s.created then none else some (press s cfg t)
  | _, .shell (.run _ _) => none
  | s, .shell e => some { s with
      world := AutoClose.step s.world e
      active := s.active.filter (· ∉ gone s.world e) }
  | s, .focus t => some { s with active := t }
  | s, .fire k => s.timers[k]?.map fun t =>
      { s with timers := s.timers.eraseIdx k, first := s.first ++ [t] }
  | s, .first k ok => s.first[k]?.map fun t =>
      if ok then { s with first := s.first.eraseIdx k, moved := s.moved ++ [(t, s.active)] }
      else { s with first := s.first.eraseIdx k, second := s.second ++ [t] }
  | s, .second k ok => s.second[k]?.map fun t =>
      if ok then { s with second := s.second.eraseIdx k, moved := s.moved ++ [(t, s.active)] }
      else { s with second := s.second.eraseIdx k, refused := s.refused ++ [t] }

/-- The presses whose terminal is still to be moved. -/
def pending (s : State) : List Terminal := s.timers ++ s.first ++ s.second

/-- The condition on a step: while a move is pending, no other terminal becomes active, and the terminal is not
closed; nor does an execution end in it, if it closes by itself. -/
def Careful (s : State) : Act → Prop
  | .press cfg _ => truthy cfg.script = true → pending s = []
  | .shell (.finish t _ _) => t ∈ pending s → t ∉ s.closing
  | .shell (.close t) => t ∉ pending s
  | .focus _ => pending s = []
  | _ => True

instance (s : State) : ∀ a, Decidable (Careful s a)
  | .press _ _ => inferInstanceAs (Decidable (_ → _))
  | .shell (.finish _ _ _) => inferInstanceAs (Decidable (_ → _))
  | .shell (.close _) => inferInstanceAs (Decidable (_ ∉ _))
  | .shell (.run _ _) | .shell (.start _ _) => inferInstanceAs (Decidable True)
  | .focus _ => inferInstanceAs (Decidable (_ = _))
  | .fire _ | .first _ _ | .second _ _ => inferInstanceAs (Decidable True)

/-- **Floating**: a terminal that is moved is that of its press; each is moved once, and only if it is to
float; and when nothing is pending, all have been moved but those whose commands were refused. -/
structure Floats (s : State) : Prop where
  own : ∀ m ∈ s.moved, m.2 = some m.1 ∧ m.1 ∈ s.floated
  once : (s.moved.map Prod.fst).Nodup
  all : pending s = [] → ∀ t ∈ s.floated, t ∈ s.refused ∨ (t, some t) ∈ s.moved

/-! ### What an event removes -/

/-- An event removes no terminal but its own. -/
theorem eq_of_gone {w : World} (h : AutoClose.Inv w) {e : Event} (hrun : ∀ cfg t, e ≠ .run cfg t)
    {t : Terminal} (ht : t ∈ gone w e) : (∃ x re i, e = .finish t x re ∧ Watches w i t) ∨ e = .close t := by
  cases e with
  | run cfg t' => exact absurd rfl (hrun cfg t')
  | close t' => exact Or.inr (by rw [List.mem_singleton.mp ht])
  | start t' x =>
    exfalso
    have hd : (AutoClose.step w (.start t' x)).disposed = w.disposed := by
      rw [AutoClose.step]
      rcases watches_or h t' with ⟨i, hw⟩ | hw
      · rw [fire_onStart h hw]
        rfl
      · rw [fire_of_ne local_onStart hw]
    simp [gone, hd] at ht
  | finish t' x re =>
    left
    rw [gone, AutoClose.step] at ht
    · rcases watches_or h t' with ⟨i, hw⟩ | hw
      · rw [fire_onFinish h hw] at ht
        split_ifs at ht
        · simp only [List.drop_left] at ht
          rw [List.mem_singleton.mp ht]
          exact ⟨x, re, i, rfl, hw⟩
        · simp at ht
      · rw [fire_of_ne (local_onFinish re) hw] at ht
        simp at ht
    · simp

/-! ### What a timer or a command does -/

/-- The terminals and the handlers are as they were. -/
structure Alike (s s' : State) : Prop where
  world : s'.world = s.world
  created : s'.created = s.created
  closing : s'.closing = s.closing
  floated : s'.floated = s.floated
  active : s'.active = s.active

/-- A move goes on, is carried out, or is refused in the end. -/
inductive Handled (s s' : State) : Prop
  | on : (pending s').Perm (pending s) → s'.moved = s.moved → s'.refused = s.refused → Handled s s'
  | moved (t : Terminal) : (t :: pending s').Perm (pending s) → s'.moved = s.moved ++ [(t, s.active)] →
      s'.refused = s.refused → Handled s s'
  | refused (t : Terminal) : (t :: pending s').Perm (pending s) → s'.moved = s.moved →
      s'.refused = s.refused ++ [t] → Handled s s'

theorem count_cons_eq (t : Terminal) (l : List Terminal) (x : Terminal) :
    (t :: l).count x = l.count x + [t].count x := by
  rw [← List.singleton_append, List.count_append, Nat.add_comm]

/-- One queue gives the terminal away. -/
theorem count_eraseIdx_add {l : List Terminal} {k : ℕ} {t : Terminal} (h : l[k]? = some t) (x : Terminal) :
    (l.eraseIdx k).count x + [t].count x = l.count x := by
  obtain ⟨hk, rfl⟩ := List.getElem?_eq_some_iff.mp h
  rw [← count_cons_eq]
  exact (List.getElem_cons_eraseIdx_perm hk).count_eq x

theorem handled_of_step {s s' : State} {a : Act} (hs : step s a = some s')
    (ha : (∃ k, a = .fire k) ∨ (∃ k ok, a = .first k ok) ∨ ∃ k ok, a = .second k ok) :
    Alike s s' ∧ Handled s s' := by
  rcases ha with ⟨k, rfl⟩ | ⟨k, ok, rfl⟩ | ⟨k, ok, rfl⟩
  · obtain ⟨t, ht, rfl⟩ := Option.map_eq_some_iff.mp hs
    refine ⟨⟨rfl, rfl, rfl, rfl, rfl⟩, .on (List.perm_iff_count.mpr fun x => ?_) rfl rfl⟩
    have hx := count_eraseIdx_add ht x
    simp only [pending, List.count_append]
    omega
  · obtain ⟨t, ht, rfl⟩ := Option.map_eq_some_iff.mp hs
    have hx := count_eraseIdx_add ht
    cases ok with
    | true =>
      refine ⟨⟨rfl, rfl, rfl, rfl, rfl⟩, .moved t (List.perm_iff_count.mpr fun x => ?_) rfl rfl⟩
      have := hx x
      rw [count_cons_eq]
      simp only [pending, List.count_append, if_true]
      omega
    | false =>
      refine ⟨⟨rfl, rfl, rfl, rfl, rfl⟩, .on (List.perm_iff_count.mpr fun x => ?_) rfl rfl⟩
      have := hx x
      simp only [pending, List.count_append, Bool.false_eq_true, if_false]
      omega
  · obtain ⟨t, ht, rfl⟩ := Option.map_eq_some_iff.mp hs
    have hx := count_eraseIdx_add ht
    have hperm : (t :: (s.timers ++ s.first ++ s.second.eraseIdx k)).Perm (pending s) :=
      List.perm_iff_count.mpr fun x => by
        have := hx x
        rw [count_cons_eq]
        simp only [pending, List.count_append]
        omega
    cases ok with
    | true => exact ⟨⟨rfl, rfl, rfl, rfl, rfl⟩, .moved t hperm rfl rfl⟩
    | false => exact ⟨⟨rfl, rfl, rfl, rfl, rfl⟩, .refused t hperm rfl rfl⟩

/-! ### Every move is accounted for -/

/-- **What holds in every run.** The handlers of auto-close are in phase; each terminal that is to float is
pending, moved or refused, once. -/
structure Inv (s : State) : Prop where
  sim : ∃ A, Sim s.world A ∧ ∀ t, t ∉ s.closing → A t = none
  closing : ∀ t ∈ s.closing, t ∈ s.created
  subset : ∀ t ∈ s.floated, t ∈ s.created
  nodup : s.floated.Nodup
  accounts : ∀ t, (pending s).count t + (s.moved.map Prod.fst).count t + s.refused.count t =
    s.floated.count t

theorem inv_init {s : State} (h : Init s) : Inv s := by
  obtain ⟨hw, -, hc, hf, ht, h1, h2, hm, hr⟩ := h
  refine ⟨⟨fun _ => none, by rw [hw]; exact sim_init, fun _ _ => rfl⟩, ?_, ?_, ?_, fun t => ?_⟩
  · simp [hc]
  · simp [hf]
  · simp [hf]
  · simp [pending, ht, h1, h2, hm, hr, hf]

theorem mem_addIf {b : Bool} {l : List Terminal} {t x : Terminal} (h : x ∈ addIf b l t) :
    x ∈ l ∨ x = t := by
  unfold addIf at h
  split_ifs at h
  · simpa using h
  · exact Or.inl h

theorem count_addIf (b : Bool) (l : List Terminal) (t x : Terminal) :
    (addIf b l t).count x = l.count x + (addIf b [] t).count x := by
  unfold addIf
  split_ifs <;> simp

/-- A terminal that closes by itself has a session from its press on. -/
theorem sim_press {s : State} (h : Inv s) (cfg : ButtonConfig) {t : Terminal} (ht : t ∉ s.created) :
    ∃ A, Sim (AutoClose.runButton s.world cfg t) A ∧
      ∀ t', t' ∉ addIf (opens cfg) s.closing t → A t' = none := by
  obtain ⟨A, hsim, hnone⟩ := h.sim
  unfold addIf
  split_ifs with ho
  · refine ⟨_, sim_runButton hsim ho (hnone t fun hm => ht (h.closing t hm)), fun t' ht' => ?_⟩
    rw [List.mem_append, List.mem_singleton, not_or] at ht'
    rw [Function.update_of_ne ht'.2, hnone t' ht'.1]
  · have hw : AutoClose.runButton s.world cfg t = s.world := if_neg ho
    rw [hw]
    exact ⟨A, hsim, hnone⟩

theorem inv_press {s : State} (h : Inv s) (cfg : ButtonConfig) {t : Terminal} (ht : t ∉ s.created) :
    Inv (press s cfg t) := by
  have hmem : ∀ {l b}, (∀ x ∈ l, x ∈ s.created) → ∀ x ∈ addIf b l t, x ∈ s.created ++ [t] := by
    intro l b hl x hx
    rw [List.mem_append, List.mem_singleton]
    exact (mem_addIf hx).imp_left (hl x)
  unfold press
  split_ifs with hs
  · refine ⟨sim_press h cfg ht, hmem h.closing, hmem h.subset, ?_, fun x => ?_⟩
    · show (addIf (floats cfg) s.floated t).Nodup
      unfold addIf
      split_ifs
      · refine List.nodup_append.mpr ⟨h.nodup, List.nodup_singleton t, fun a ha b hb hab => ?_⟩
        rw [hab, List.mem_singleton.mp hb] at ha
        exact ht (h.subset t ha)
      · exact h.nodup
    · have hx := h.accounts x
      have h1 := count_addIf (floats cfg) s.timers t x
      have h2 := count_addIf (floats cfg) s.floated t x
      simp only [pending, List.count_append] at hx ⊢
      omega
  · exact h

theorem inv_handled {s s' : State} (h : Inv s) (ha : Alike s s') (hd : Handled s s') : Inv s' where
  sim := by
    rw [ha.world, ha.closing]
    exact h.sim
  closing := by
    rw [ha.closing, ha.created]
    exact h.closing
  subset := by
    rw [ha.floated, ha.created]
    exact h.subset
  nodup := by
    rw [ha.floated]
    exact h.nodup
  accounts x := by
    have hx := h.accounts x
    rw [ha.floated, ← hx]
    cases hd with
    | on hp hm hr => rw [hp.count_eq, hm, hr]
    | moved t hp hm hr =>
      rw [← hp.count_eq, count_cons_eq, hm, hr, List.map_append, List.count_append]
      show _ + (_ + [t].count x) + _ = _
      omega
    | refused t hp hm hr =>
      rw [← hp.count_eq, count_cons_eq, hm, hr, List.count_append]
      omega

theorem inv_shell {s : State} (h : Inv s) {e : Event} (hrun : ∀ cfg t, e ≠ .run cfg t)
    (o : Option Terminal) : Inv { s with world := AutoClose.step s.world e, active := o } := by
  obtain ⟨A, hsim, hnone⟩ := h.sim
  refine ⟨⟨specStep A e, ?_, fun t ht => ?_⟩, h.closing, h.subset, h.nodup, h.accounts⟩
  · cases e with
    | run cfg t => exact absurd rfl (hrun cfg t)
    | start t x => exact sim_start hsim x
    | finish t x re => exact sim_finish hsim x re
    | close t => exact sim_close hsim
  · cases e with
    | run cfg t => exact absurd rfl (hrun cfg t)
    | start t' x => exact update_map_none (hnone t ht) t' _
    | finish t' x re => exact update_map_none (hnone t ht) t' _
    | close t' => exact update_map_none (hnone t ht) t' _

/-- A shell event that is no press. -/
theorem shell_of_step {s s' : State} {e : Event} (hs : step s (.shell e) = some s') :
    (∀ cfg t, e ≠ .run cfg t) ∧ s' = { s with
      world := AutoClose.step s.world e
      active := s.active.filter (· ∉ gone s.world e) } := by
  cases e with
  | run cfg t => simp [step] at hs
  | start t x => exact ⟨by simp, (Option.some.inj hs).symm⟩
  | finish t x re => exact ⟨by simp, (Option.some.inj hs).symm⟩
  | close t => exact ⟨by simp, (Option.some.inj hs).symm⟩

theorem inv_step (s : State) (a : Act) (s' : State) (h : Inv s) (hs : step s a = some s') : Inv s' := by
  cases a with
  | press cfg t =>
    rw [step] at hs
    split_ifs at hs with ht
    obtain rfl := Option.some.inj hs
    exact inv_press h cfg ht
  | shell e =>
    obtain ⟨hrun, rfl⟩ := shell_of_step hs
    exact inv_shell h hrun _
  | focus o =>
    obtain rfl := Option.some.inj hs
    exact ⟨h.sim, h.closing, h.subset, h.nodup, h.accounts⟩
  | fire k =>
    obtain ⟨ha, hd⟩ := handled_of_step hs (Or.inl ⟨k, rfl⟩)
    exact inv_handled h ha hd
  | first k ok =>
    obtain ⟨ha, hd⟩ := handled_of_step hs (Or.inr (Or.inl ⟨k, ok, rfl⟩))
    exact inv_handled h ha hd
  | second k ok =>
    obtain ⟨ha, hd⟩ := handled_of_step hs (Or.inr (Or.inr ⟨k, ok, rfl⟩))
    exact inv_handled h ha hd

/-! ### Careful runs -/

/-- **What holds in a careful run.** The terminal of a pending move is active. -/
structure Own (s : State) : Prop where
  active : ∀ t ∈ pending s, s.active = some t
  own : ∀ m ∈ s.moved, m.2 = some m.1

theorem own_press {s : State} (h : Own s) {cfg : ButtonConfig} (t : Terminal)
    (hc : Careful s (.press cfg t)) : Own (press s cfg t) := by
  unfold press
  split_ifs with hs
  · refine ⟨fun t' ht' => ?_, h.own⟩
    have hnil : s.timers ++ s.first ++ s.second = [] := hc hs
    simp only [List.append_eq_nil_iff] at hnil
    rw [pending, hnil.1.1, hnil.1.2, hnil.2, List.append_nil, List.append_nil] at ht'
    rcases mem_addIf ht' with ht' | rfl
    · simp at ht'
    · rfl
  · exact h

theorem own_shell {s : State} (hi : Inv s) (h : Own s) {e : Event} (hrun : ∀ cfg t, e ≠ .run cfg t)
    (hc : Careful s (.shell e)) : Own { s with
      world := AutoClose.step s.world e
      active := s.active.filter (· ∉ gone s.world e) } := by
  refine ⟨fun t ht => ?_, h.own⟩
  have ht : t ∈ pending s := ht
  obtain ⟨A, hsim, hnone⟩ := hi.sim
  have hstays : t ∉ gone s.world e := fun hg => by
    rcases eq_of_gone hsim.inv hrun hg with ⟨x, re, i, rfl, hw⟩ | rfl
    · exact hsim.absent t (hnone t (hc ht)) i hw.lt hw.terminal
    · exact hc ht
  show s.active.filter _ = some t
  rw [h.active t ht, Option.filter_some, if_pos (by simpa using hstays)]

theorem own_handled {s s' : State} (h : Own s) (ha : Alike s s') (hd : Handled s s') : Own s' := by
  have hkeeps : ∀ t, t ∈ pending s → s'.active = some t := fun t ht => by
    rw [ha.active]
    exact h.active t ht
  cases hd with
  | on hp hm _ => exact ⟨fun t ht => hkeeps t (hp.mem_iff.mp ht), by rw [hm]; exact h.own⟩
  | moved t hp hm _ =>
    refine ⟨fun t' ht' => hkeeps t' (hp.mem_iff.mp (List.mem_cons_of_mem t ht')), fun m hmem => ?_⟩
    rw [hm, List.mem_append, List.mem_singleton] at hmem
    rcases hmem with hmem | rfl
    · exact h.own m hmem
    · exact h.active t (hp.mem_iff.mp List.mem_cons_self)
  | refused t hp hm _ =>
    exact ⟨fun t' ht' => hkeeps t' (hp.mem_iff.mp (List.mem_cons_of_mem t ht')), by rw [hm]; exact h.own⟩

theorem own_step {s : State} {a : Act} {s' : State} (hi : Inv s) (h : Own s) (hc : Careful s a)
    (hs : step s a = some s') : Own s' := by
  cases a with
  | press cfg t =>
    rw [step] at hs
    split_ifs at hs
    obtain rfl := Option.some.inj hs
    exact own_press h t hc
  | shell e =>
    obtain ⟨hrun, rfl⟩ := shell_of_step hs
    exact own_shell hi h hrun hc
  | focus o =>
    obtain rfl := Option.some.inj hs
    have hnil : pending s = [] := hc
    refine ⟨fun t ht => ?_, h.own⟩
    have hmem : t ∈ pending s := ht
    rw [hnil] at hmem
    simp at hmem
  | fire k =>
    obtain ⟨ha, hd⟩ := handled_of_step hs (Or.inl ⟨k, rfl⟩)
    exact own_handled h ha hd
  | first k ok =>
    obtain ⟨ha, hd⟩ := handled_of_step hs (Or.inr (Or.inl ⟨k, ok, rfl⟩))
    exact own_handled h ha hd
  | second k ok =>
    obtain ⟨ha, hd⟩ := handled_of_step hs (Or.inr (Or.inr ⟨k, ok, rfl⟩))
    exact own_handled h ha hd

theorem floats_of_inv {s : State} (hi : Inv s) (h : Own s) : Floats s where
  own m hm := by
    refine ⟨h.own m hm, List.count_pos_iff.mp ?_⟩
    have hmem : 0 < (s.moved.map Prod.fst).count m.1 := List.count_pos_iff.mpr (List.mem_map_of_mem hm)
    have := hi.accounts m.1
    omega
  once := by
    refine List.nodup_iff_count_le_one.mpr fun t => ?_
    have hone := List.nodup_iff_count_le_one.mp hi.nodup t
    have := hi.accounts t
    omega
  all hnil t ht := by
    have hpos := List.count_pos_iff.mpr ht
    have hacc := hi.accounts t
    rw [hnil, List.count_nil] at hacc
    by_cases hr : t ∈ s.refused
    · exact Or.inl hr
    · right
      have hpos : 0 < (s.moved.map Prod.fst).count t := by
        have := List.count_eq_zero.mpr hr
        omega
      obtain ⟨m, hm, rfl⟩ := List.mem_map.mp (List.count_pos_iff.mp hpos)
      rwa [← h.own m hm]

/-- **Floating windows**: in every run in which no other terminal becomes active and no execution ends in the
terminal while a move is pending, each terminal that is to float is moved once, and no other. -/
theorem floats_of_careful {s : State} (h : Reach step Init Careful s) : Floats s := by
  have hboth : Inv s ∧ Own s := by
    refine h.invariant (I := fun s => Inv s ∧ Own s) (fun s h0 => ⟨inv_init h0, ?_, ?_⟩) fun s a s' hi hc hs =>
      ⟨inv_step s a s' hi.1 hs, own_step hi.1 hi.2 hc hs⟩
    · obtain ⟨-, -, -, -, ht, h1, h2, -⟩ := h0
      simp [pending, ht, h1, h2]
    · obtain ⟨-, -, -, -, -, -, -, hm, -⟩ := h0
      simp [hm]
  exact floats_of_inv hboth.1 hboth.2

/-- Nothing has been pressed; the terminal `t` is active. -/
def start (t : Terminal) : State := ⟨AutoClose.init, [], [], [], some t, [], [], [], [], []⟩

def script : ButtonConfig := { script := some "make".toList }

/-- The command of the first press ends when its terminal floats; for the second press VS Code refuses the
first command. -/
def twoPresses : List Act :=
  [.press script 1, .shell (.start 1 0), .fire 0, .first 0 true, .shell (.finish 1 0 true), .focus (some 7),
    .press script 2, .shell (.start 2 1), .fire 0, .first 0 false, .second 0 true]

theorem floats_of_careful_two : ∃ s, Reach step Init Careful s ∧ s.moved = [(1, some 1), (2, some 2)] ∧
    s.world.disposed = [1] ∧ Floats s := by
  obtain ⟨s, hs, hm, hd⟩ : ∃ s, runFrom (guarded step Careful) (start 7) twoPresses = some s ∧
      s.moved = [(1, some 1), (2, some 2)] ∧ s.world.disposed = [1] := ⟨_, rfl, rfl, rfl⟩
  have hr : Reach step Init Careful s :=
    Reach.runGuarded twoPresses (.start ⟨rfl, rfl, rfl, rfl, rfl, rfl, rfl, rfl, rfl⟩) hs
  exact ⟨s, hr, hm, hd, floats_of_careful hr⟩

/-- A command that ends before the timer fires: the terminal that is moved is one of the user. -/
example : (runFrom step (start 7) [.press script 1, .shell (.start 1 0), .shell (.finish 1 0 true),
    .focus (some 7), .fire 0, .first 0 true]).map State.moved = some [(1, some 7)] := rfl

end Lightbox.Extension.Floating
