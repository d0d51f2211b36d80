import Lightbox.Extension.AutoClose

/-! # Auto-close: the life of a session

For its user a session is a terminal in one of four phases: waiting for a first execution, running,
auto-closed by the extension, or closed otherwise (`Phase`). The phases of all terminals
(`Spec`) are an abstract model of the extension, in which an event only concerns the session of its
terminal. The world of handlers and listeners refines it (`sim_run`).

From the refinement follow, for every sequence of events: when exactly the extension disposes a
terminal, that sessions do not disturb each other, and that listeners are kept and released with
their sessions (`autoClose_sessions`); and when the extension disposes a terminal too early
(`disposedAfterSent_iff`). -/

namespace Lightbox.Extension.Sessions

open Lightbox.Extension.Config Lightbox.Extension.AutoClose

/-! ### The abstract model -/

inductive Phase
  | waiting | running | autoClosed | closed
  deriving DecidableEq, Repr

/-- What an event of its terminal does to a session. -/
def Phase.next : Phase → Event → Phase
  | .waiting, .start _ _ => .running
  | .running, .finish _ _ _ => .autoClosed
  | .waiting, .close _ | .running, .close _ => .closed
  | p, _ => p

/-- The phase of the session of each terminal, if it has one. -/
abbrev Spec := Terminal → Option Phase

def specStep (A : Spec) : Event → Spec
  | .run cfg t => if opens cfg then Function.update A t (some .waiting) else A
  | e => Function.update A e.terminal ((A e.terminal).map (·.next e))

def specRun (tr : List Event) : Spec := tr.foldl specStep fun _ => none

/-! ### Refinement -/

/-- The session is in the phase. -/
def Matches (s : Session) : Phase → Prop
  | .waiting => s.subs = allKinds ∧ s.started = false
  | .running => s.subs = allKinds ∧ s.started = true
  | .autoClosed | .closed => s.subs = []

/-- **The world refines the phases.** -/
structure Sim (w : World) (A : Spec) : Prop where
  inv : Inv w
  absent : ∀ t, A t = none → ∀ i < w.n, (w.sess i).terminal ≠ t
  present : ∀ t p, A t = some p → ∃ i < w.n, (w.sess i).terminal = t ∧ Matches (w.sess i) p
  disposed : ∀ t, w.disposed.count t = if A t = some .autoClosed then 1 else 0

theorem sim_init : Sim init fun _ => none where
  inv := inv_init
  absent t _ i hi := by simp [init] at hi
  present t p h := by simp at h
  disposed t := by simp [init]

variable {w : World} {A : Spec} {i : ℕ} {t : Terminal}

/-- A watched terminal is waiting or running. -/
theorem Sim.phase_of_watches (h : Sim w A) (hw : Watches w i t) :
    (A t = some .waiting ∧ (w.sess i).started = false) ∨
      (A t = some .running ∧ (w.sess i).started = true) := by
  cases hA : A t with
  | none => exact absurd hw.terminal (h.absent t hA i hw.lt)
  | some p =>
    obtain ⟨j, hj, hjt, hm⟩ := h.present t p hA
    obtain rfl : j = i := h.inv.inj j hj i hw.lt (hjt.trans hw.terminal.symm)
    have hs : (w.sess j).subs ≠ [] := by rw [hw.subs]; simp [allKinds]
    cases p with
    | waiting => exact Or.inl ⟨rfl, hm.2⟩
    | running => exact Or.inr ⟨rfl, hm.2⟩
    | autoClosed => exact absurd hm hs
    | closed => exact absurd hm hs

/-- A terminal nobody watches has no session, or one that has ended: no event changes it. -/
theorem Sim.next_of_not_watches (h : Sim w A) (hw : ∀ l ∈ w.live, (w.sess l.1).terminal ≠ t)
    (e : Event) : Function.update A t ((A t).map (·.next e)) = A := by
  have hA : (A t).map (·.next e) = A t := by
    cases hA : A t with
    | none => rfl
    | some p =>
      obtain ⟨i, hi, hit, hm⟩ := h.present t p hA
      have hns : (w.sess i).subs ≠ allKinds := fun hs =>
        hw (i, .start) ((h.inv.mem_live _).mpr ⟨hi, by simp [hs, allKinds]⟩) hit
      cases p with
      | waiting => exact absurd hm.1 hns
      | running => exact absurd hm.1 hns
      | autoClosed => rfl
      | closed => rfl
  rw [hA, Function.update_eq_self]

/-- One session moves to another phase, the others stay. -/
theorem Sim.update {w' : World} {p' : Phase} (h : Sim w A) (hw : Watches w i t) (hinv : Inv w')
    (hn : w'.n = w.n) (hne : ∀ j, j ≠ i → w'.sess j = w.sess j)
    (hterm : (w'.sess i).terminal = t) (hm : Matches (w'.sess i) p')
    (hd : ∀ t', w'.disposed.count t' =
      if Function.update A t (some p') t' = some .autoClosed then 1 else 0) :
    Sim w' (Function.update A t (some p')) where
  inv := hinv
  absent t' ht' j hj := by
    rcases eq_or_ne t' t with rfl | hne'
    · simp at ht'
    · rw [Function.update_of_ne hne'] at ht'
      rcases eq_or_ne j i with rfl | hji
      · rw [hterm]; exact hne'.symm
      · rw [hne j hji]; exact h.absent t' ht' j (hn ▸ hj)
  present t' q hq := by
    rcases eq_or_ne t' t with rfl | hne'
    · rw [Function.update_self, Option.some.injEq] at hq
      exact ⟨i, hn ▸ hw.lt, hterm, hq ▸ hm⟩
    · rw [Function.update_of_ne hne'] at hq
      obtain ⟨j, hj, hjt, hjm⟩ := h.present t' q hq
      have hji : j ≠ i := by
        rintro rfl
        exact hne' (hjt.symm.trans hw.terminal)
      exact ⟨j, hn ▸ hj, by rw [hne j hji]; exact hjt, by rw [hne j hji]; exact hjm⟩
  disposed := hd

/-- The log of disposed terminals is not touched and the session was not auto-closed. -/
theorem Sim.disposed_update (h : Sim w A) {p' : Phase} (hA : A t ≠ some .autoClosed)
    (hp' : p' ≠ .autoClosed) (t' : Terminal) : w.disposed.count t' =
      if Function.update A t (some p') t' = some .autoClosed then 1 else 0 := by
  rw [h.disposed t']
  rcases eq_or_ne t' t with rfl | hne
  · simp [hA, hp']
  · rw [Function.update_of_ne hne]

theorem sim_runButton {cfg : ButtonConfig} (h : Sim w A) (ho : opens cfg = true)
    (ht : A t = none) : Sim (runButton w cfg t) (Function.update A t (some .waiting)) := by
  have hself : (runButton w cfg t).sess w.n = ⟨t, false, allKinds⟩ := by simp [runButton, ho]
  have hne : ∀ j, j ≠ w.n → (runButton w cfg t).sess j = w.sess j := by
    intro j hj
    simp [runButton, ho, Function.update_of_ne hj]
  have hn : (runButton w cfg t).n = w.n + 1 := by simp [runButton, ho]
  have hd : (runButton w cfg t).disposed = w.disposed := by simp [runButton, ho]
  refine ⟨inv_runButton h.inv ho (h.absent t ht), ?_, ?_, ?_⟩
  · intro t' ht' j hj
    rw [hn] at hj
    rcases eq_or_ne t' t with rfl | hne'
    · simp at ht'
    · rw [Function.update_of_ne hne'] at ht'
      rcases eq_or_ne j w.n with rfl | hj'
      · rw [hself]; exact hne'.symm
      · rw [hne j hj']; exact h.absent t' ht' j (by omega)
  · intro t' q hq
    rcases eq_or_ne t' t with rfl | hne'
    · rw [Function.update_self, Option.some.injEq] at hq
      subst hq
      exact ⟨w.n, by omega, by rw [hself], by rw [hself]; exact ⟨rfl, rfl⟩⟩
    · rw [Function.update_of_ne hne'] at hq
      obtain ⟨j, hj, hjt, hjm⟩ := h.present t' q hq
      have hj' : j ≠ w.n := by omega
      exact ⟨j, by omega, by rw [hne j hj']; exact hjt, by rw [hne j hj']; exact hjm⟩
  · intro t'
    rw [hd, h.disposed t']
    rcases eq_or_ne t' t with rfl | hne'
    · simp [ht]
    · rw [Function.update_of_ne hne']

theorem sim_start (h : Sim w A) (x : Exec) :
    Sim (step w (.start t x)) (specStep A (.start t x)) := by
  show Sim _ (Function.update A t ((A t).map (·.next (.start t x))))
  rcases watches_or h.inv t with ⟨i, hw⟩ | hw
  · have hp := h.phase_of_watches hw
    have hA : (A t).map (·.next (.start t x)) = some .running ∧ A t ≠ some .autoClosed := by
      rcases hp with ⟨hA, -⟩ | ⟨hA, -⟩ <;> simp [hA, Phase.next]
    rw [hA.1, step, fire_onStart h.inv hw]
    refine h.update hw (inv_started h.inv true) rfl ?_ ?_ ?_ (h.disposed_update hA.2 (by simp))
    · intro j hj; exact Function.update_of_ne hj _ _
    · simp [setSession, hw.terminal]
    · exact ⟨by simp [setSession, hw.subs], by simp [setSession]⟩
  · rw [h.next_of_not_watches hw, step, fire_of_ne local_onStart hw]
    exact h

theorem sim_close (h : Sim w A) : Sim (step w (.close t)) (specStep A (.close t)) := by
  show Sim _ (Function.update A t ((A t).map (·.next (.close t))))
  rcases watches_or h.inv t with ⟨i, hw⟩ | hw
  · have hp := h.phase_of_watches hw
    have hA : (A t).map (·.next (.close t)) = some .closed ∧ A t ≠ some .autoClosed := by
      rcases hp with ⟨hA, -⟩ | ⟨hA, -⟩ <;> simp [hA, Phase.next]
    rw [hA.1, step, fire_onClose h.inv hw]
    refine h.update hw (inv_cleanup h.inv hw.lt hw.subs) (cleanup_n hw.subs) ?_ ?_ ?_ ?_
    · intro j hj; exact cleanup_sess_ne hw.subs hj
    · rw [cleanup_terminal hw.subs, hw.terminal]
    · rw [cleanup_sess_self hw.subs]; exact rfl
    · rw [cleanup_disposed hw.subs]; exact h.disposed_update hA.2 (by simp)
  · rw [h.next_of_not_watches hw, step, fire_of_ne local_onClose hw]
    exact h

theorem sim_finish (h : Sim w A) (x : Exec) (re : Bool) :
    Sim (step w (.finish t x re)) (specStep A (.finish t x re)) := by
  show Sim _ (Function.update A t ((A t).map (·.next (.finish t x re))))
  rcases watches_or h.inv t with ⟨i, hw⟩ | hw
  · rw [step, fire_onFinish h.inv hw]
    rcases h.phase_of_watches hw with ⟨hA, hs⟩ | ⟨hA, hs⟩
    · have hn : Function.update A t ((A t).map (·.next (.finish t x re))) = A := by
        rw [hA]; exact Function.update_eq_self_iff.mpr hA.symm
      rw [hs, hn]
      exact h
    · have hn : (A t).map (·.next (.finish t x re)) = some .autoClosed := by rw [hA]; rfl
      rw [hs, if_pos rfl, hn]
      have hc := inv_cleanup h.inv hw.lt hw.subs
      refine h.update hw ⟨hc.inj, hc.subs, hc.mem_live, hc.nodup_live, hc.mem_released,
        hc.nodup_released⟩ (cleanup_n hw.subs) ?_ ?_ ?_ ?_
      · intro j hj; exact cleanup_sess_ne hw.subs hj
      · show ((cleanup w i).sess i).terminal = t
        rw [cleanup_terminal hw.subs, hw.terminal]
      · show Matches ((cleanup w i).sess i) .autoClosed
        rw [cleanup_sess_self hw.subs]; exact rfl
      · intro t'
        show (w.disposed ++ [t]).count t' = _
        rw [List.count_append, h.disposed t']
        rcases eq_or_ne t' t with rfl | hne
        · simp [hA]
        · simp [Function.update_of_ne hne, hne.symm]
  · rw [h.next_of_not_watches hw, step, fire_of_ne (local_onFinish re) hw]
    exact h

/-! ### Runs -/

/-- The terminal `runButton` creates: none without a script. -/
def creates : Event → Option Terminal
  | .run cfg t => if truthy cfg.script then some t else none
  | _ => none

/-- Every created terminal is a new one. -/
def Valid (tr : List Event) : Prop := (tr.filterMap creates).Nodup

instance (tr : List Event) : Decidable (Valid tr) := inferInstanceAs (Decidable (List.Nodup _))

theorem creates_of_opens {cfg : ButtonConfig} (ho : opens cfg = true) (t : Terminal) :
    creates (.run cfg t) = some t := by
  have hs : truthy cfg.script = true := (Bool.and_eq_true_iff.mp ho).1
  simp [creates, hs]

theorem run_snoc (tr : List Event) (e : Event) : run (tr ++ [e]) = step (run tr) e := by
  simp [run]

theorem specRun_snoc (tr : List Event) (e : Event) :
    specRun (tr ++ [e]) = specStep (specRun tr) e := by
  simp [specRun]

theorem valid_snoc {tr : List Event} {e : Event} (h : Valid (tr ++ [e])) :
    Valid tr ∧ ∀ t, creates e = some t → t ∉ tr.filterMap creates := by
  unfold Valid at h
  rw [List.filterMap_append, List.nodup_append] at h
  refine ⟨h.1, fun t ht hm => h.2.2 t hm t ?_ rfl⟩
  simp [ht]

theorem update_map_none {A : Spec} (hA : A t = none) (t' : Terminal) (f : Phase → Phase) :
    Function.update A t' ((A t').map f) t = none := by
  rcases eq_or_ne t t' with rfl | hne
  · simp [hA]
  · rw [Function.update_of_ne hne, hA]

/-- Only created terminals have sessions. -/
theorem specRun_eq_none (t : Terminal) : ∀ tr : List Event, t ∉ tr.filterMap creates →
    specRun tr t = none := by
  intro tr
  induction tr using List.reverseRecOn with
  | nil => intro _; rfl
  | append_singleton tr e ih =>
    intro h
    rw [List.filterMap_append, List.mem_append, not_or] at h
    have hA := ih h.1
    rw [specRun_snoc]
    cases e with
    | run cfg t' =>
      by_cases ho : opens cfg = true
      · have hne : t ≠ t' := by
          rintro rfl
          exact h.2 (by simp [creates_of_opens ho])
        simp [specStep, ho, Function.update_of_ne hne, hA]
      · simp [specStep, ho, hA]
    | start t' x => exact update_map_none hA t' _
    | finish t' x re => exact update_map_none hA t' _
    | close t' => exact update_map_none hA t' _

/-- **Every run of the extension is a run of the abstract model.** -/
theorem sim_run : ∀ tr : List Event, Valid tr → Sim (run tr) (specRun tr) := by
  intro tr
  induction tr using List.reverseRecOn with
  | nil => intro _; exact sim_init
  | append_singleton tr e ih =>
    intro hv
    obtain ⟨hv, hnew⟩ := valid_snoc hv
    have h := ih hv
    rw [run_snoc, specRun_snoc]
    cases e with
    | run cfg t =>
      by_cases ho : opens cfg = true
      · have hA := specRun_eq_none t tr (hnew t (creates_of_opens ho t))
        have hs := sim_runButton h ho hA
        simpa [step, specStep, ho] using hs
      · simpa [step, runButton, specStep, ho] using h
    | start t x => exact sim_start h x
    | finish t x re => exact sim_finish h x re
    | close t => exact sim_close h

/-! ### Phases and events -/

/-- An execution ended in the terminal after one had started there, before it was closed. -/
def Due (t : Terminal) (post : List Event) : Prop :=
  ∃ u v x re, post = u ++ .finish t x re :: v ∧ (∃ y, .start t y ∈ u) ∧ .close t ∉ u

/-- The session is over: auto-closed or closed. -/
def Ended (t : Terminal) (post : List Event) : Prop := Due t post ∨ .close t ∈ post

/-- What the events since a session was opened say about its phase. -/
def PhaseSpec (t : Terminal) (post : List Event) : Phase → Prop
  | .waiting => (¬ ∃ y, .start t y ∈ post) ∧ .close t ∉ post
  | .running => (∃ y, .start t y ∈ post) ∧ .close t ∉ post ∧ ¬ Due t post
  | .autoClosed => Due t post
  | .closed => .close t ∈ post ∧ ¬ Due t post

theorem due_snoc {post : List Event} {e : Event} : Due t (post ++ [e]) ↔
    Due t post ∨ (∃ x re, e = .finish t x re) ∧ (∃ y, .start t y ∈ post) ∧ .close t ∉ post := by
  constructor
  · rintro ⟨u, v, x, re, heq, hs, hc⟩
    rcases List.eq_nil_or_concat v with rfl | ⟨v', e', rfl⟩
    · obtain ⟨rfl, he⟩ := List.append_inj' heq rfl
      simp only [List.cons.injEq, and_true] at he
      exact Or.inr ⟨⟨x, re, he⟩, hs, hc⟩
    · rw [List.concat_eq_append, ← List.cons_append, ← List.append_assoc] at heq
      obtain ⟨rfl, -⟩ := List.append_inj' heq rfl
      exact Or.inl ⟨u, v', x, re, rfl, hs, hc⟩
  · rintro (⟨u, v, x, re, rfl, hs, hc⟩ | ⟨⟨x, re, rfl⟩, hs, hc⟩)
    · exact ⟨u, v ++ [e], x, re, by simp, hs, hc⟩
    · exact ⟨post, [], x, re, rfl, hs, hc⟩

theorem Due.start {post : List Event} (h : Due t post) : ∃ y, .start t y ∈ post := by
  obtain ⟨u, v, x, re, rfl, ⟨y, hy⟩, -⟩ := h
  exact ⟨y, by simp [hy]⟩

theorem ended_iff {post : List Event} {p : Phase} (h : PhaseSpec t post p) :
    Ended t post ↔ p = .autoClosed ∨ p = .closed := by
  cases p with
  | waiting =>
    have hn : ¬ Ended t post := fun he => he.elim (fun hd => h.1 hd.start) h.2
    simp [hn]
  | running =>
    have hn : ¬ Ended t post := fun he => he.elim h.2.2 h.2.1
    simp [hn]
  | autoClosed => exact ⟨fun _ => Or.inl rfl, fun _ => Or.inl h⟩
  | closed => exact ⟨fun _ => Or.inr rfl, fun _ => Or.inr h.1⟩

theorem due_iff {post : List Event} {p : Phase} (h : PhaseSpec t post p) :
    Due t post ↔ p = .autoClosed := by
  cases p with
  | waiting => simpa using fun hd : Due t post => h.1 hd.start
  | running => simpa using h.2.2
  | autoClosed => exact ⟨fun _ => rfl, fun _ => h⟩
  | closed => simpa using h.2

/-- An event of another terminal says nothing about the phase. -/
theorem phaseSpec_of_ne {post : List Event} {p : Phase} {e : Event} (he : e.terminal ≠ t)
    (h : PhaseSpec t post p) : PhaseSpec t (post ++ [e]) p := by
  have hs : (∃ y, .start t y ∈ post ++ [e]) ↔ ∃ y, .start t y ∈ post := by
    refine exists_congr fun y => ?_
    rw [List.mem_append, List.mem_singleton, or_iff_left]
    rintro rfl; exact he rfl
  have hc : .close t ∈ post ++ [e] ↔ .close t ∈ post := by
    rw [List.mem_append, List.mem_singleton, or_iff_left]
    rintro rfl; exact he rfl
  have hd : Due t (post ++ [e]) ↔ Due t post := by
    rw [due_snoc, or_iff_left]
    rintro ⟨⟨x, re, rfl⟩, -⟩; exact he rfl
  cases p <;> simpa only [PhaseSpec, hs, hc, hd] using h

/-- **The phases follow the events.** -/
theorem phaseSpec_next {post : List Event} {p : Phase} {e : Event} (he : e.terminal = t)
    (h : PhaseSpec t post p) : PhaseSpec t (post ++ [e]) (p.next e) := by
  cases e with
  | run cfg t' =>
    have hd : Due t (post ++ [.run cfg t']) ↔ Due t post := by rw [due_snoc]; simp
    cases p <;> simpa [PhaseSpec, Phase.next, hd] using h
  | start t' x =>
    obtain rfl : t' = t := he
    have hd : Due t' (post ++ [.start t' x]) ↔ Due t' post := by rw [due_snoc]; simp
    cases p with
    | waiting =>
      exact ⟨⟨x, by simp⟩, by simpa using h.2, fun hdue => h.1 (hd.mp hdue).start⟩
    | running => exact ⟨⟨x, by simp⟩, by simpa using h.2.1, by rw [hd]; exact h.2.2⟩
    | autoClosed => exact hd.mpr h
    | closed => exact ⟨by simp [h.1], by rw [hd]; exact h.2⟩
  | finish t' x re =>
    obtain rfl : t' = t := he
    have hd := @due_snoc t' post (.finish t' x re)
    cases p with
    | waiting => exact ⟨by simpa using h.1, by simpa using h.2⟩
    | running => exact hd.mpr (Or.inr ⟨⟨x, re, rfl⟩, h.1, h.2.1⟩)
    | autoClosed => exact hd.mpr (Or.inl h)
    | closed => exact ⟨by simp [h.1], fun hdue => (hd.mp hdue).elim h.2 fun hf => hf.2.2 h.1⟩
  | close t' =>
    obtain rfl : t' = t := he
    have hd : Due t' (post ++ [.close t']) ↔ Due t' post := by rw [due_snoc]; simp
    cases p with
    | waiting => exact ⟨by simp, fun hdue => h.1 (hd.mp hdue).start⟩
    | running => exact ⟨by simp, by rw [hd]; exact h.2.2⟩
    | autoClosed => exact hd.mpr h
    | closed => exact ⟨by simp, by rw [hd]; exact h.2⟩

theorem specStep_of_ne {A : Spec} {e : Event} (he : t ≠ e.terminal) : specStep A e t = A t := by
  cases e with
  | run cfg t' =>
    by_cases ho : opens cfg = true
    · simp only [specStep, ho, if_true]; exact Function.update_of_ne he ..
    · simp [specStep, ho]
  | start t' x => exact Function.update_of_ne he ..
  | finish t' x re => exact Function.update_of_ne he ..
  | close t' => exact Function.update_of_ne he ..

theorem specStep_self {A : Spec} {e : Event} {p : Phase} (hA : A e.terminal = some p)
    (hr : ∀ cfg, e = .run cfg e.terminal → opens cfg = false) :
    specStep A e e.terminal = some (p.next e) := by
  cases e with
  | run cfg t' =>
    have ho := hr cfg rfl
    have hp : p.next (.run cfg t') = p := by cases p <;> rfl
    simpa [specStep, ho, hp] using hA
  | start t' x => simp [specStep, hA]
  | finish t' x re => simp [specStep, hA]
  | close t' => simp [specStep, hA]

/-- The events since the session of `t` was opened are `post`. -/
def SessionOf (tr : List Event) (t : Terminal) (post : List Event) : Prop :=
  ∃ pre cfg, tr = pre ++ .run cfg t :: post ∧ opens cfg = true

/-- **The phase of a session** follows from the events since it was opened. -/
theorem specRun_session {pre : List Event} {cfg : ButtonConfig} (ho : opens cfg = true) :
    ∀ post : List Event, Valid (pre ++ .run cfg t :: post) →
      ∃ p, specRun (pre ++ .run cfg t :: post) t = some p ∧ PhaseSpec t post p := by
  intro post
  induction post using List.reverseRecOn with
  | nil =>
    intro _
    refine ⟨.waiting, ?_, by simp [PhaseSpec]⟩
    rw [specRun_snoc]
    simp [specStep, ho]
  | append_singleton post e ih =>
    intro hv
    rw [← List.cons_append, ← List.append_assoc] at hv ⊢
    obtain ⟨hv', hnew⟩ := valid_snoc hv
    obtain ⟨p, hA, hp⟩ := ih hv'
    have hcreated : t ∈ (pre ++ .run cfg t :: post).filterMap creates :=
      List.mem_filterMap.mpr ⟨.run cfg t, by simp, creates_of_opens ho t⟩
    rw [specRun_snoc]
    rcases eq_or_ne t e.terminal with rfl | he
    · refine ⟨p.next e, specStep_self hA fun cfg' hcfg => ?_, phaseSpec_next rfl hp⟩
      -- a second session of the same terminal cannot be opened
      by_contra ho'
      rw [Bool.not_eq_false] at ho'
      exact hnew _ (by rw [hcfg]; exact creates_of_opens ho' _) hcreated
    · exact ⟨p, by rw [specStep_of_ne he, hA], phaseSpec_of_ne he.symm hp⟩

/-- Every session was opened by some event. -/
theorem exists_sessionOf {tr : List Event} (h : specRun tr t ≠ none) :
    ∃ post, SessionOf tr t post := by
  induction tr using List.reverseRecOn with
  | nil => exact absurd rfl h
  | append_singleton tr e ih =>
    by_cases hA : specRun tr t = none
    · -- only opening a session makes one
      rw [specRun_snoc] at h
      cases e with
      | run cfg t' =>
        by_cases ho : opens cfg = true
        · by_cases he : t = t'
          · subst he
            exact ⟨[], tr, cfg, rfl, ho⟩
          · rw [specStep_of_ne (show t ≠ Event.terminal (.run cfg t') from he)] at h
            exact absurd hA h
        · simp [specStep, ho, hA] at h
      | start t' x => exact absurd (update_map_none hA t' _) h
      | finish t' x re => exact absurd (update_map_none hA t' _) h
      | close t' => exact absurd (update_map_none hA t' _) h
    · obtain ⟨post, pre, cfg, rfl, ho⟩ := ih hA
      exact ⟨post ++ [e], pre, cfg, by simp, ho⟩

/-! ### Sessions in a run -/

variable {tr post : List Event}

/-- The session of a terminal has its listeners until it ends. -/
theorem SessionOf.index (hv : Valid tr) (hs : SessionOf tr t post) :
    ∃ i < (run tr).n, ((run tr).sess i).terminal = t ∧
      (((run tr).sess i).subs = [] ↔ Ended t post) := by
  have h := sim_run tr hv
  obtain ⟨pre, cfg, rfl, ho⟩ := hs
  obtain ⟨p, hA, hp⟩ := specRun_session ho post hv
  obtain ⟨i, hi, hit, hm⟩ := h.present t p hA
  refine ⟨i, hi, hit, ?_⟩
  rw [ended_iff hp]
  cases p with
  | waiting => simp [hm.1, allKinds]
  | running => simp [hm.1, allKinds]
  | autoClosed => exact ⟨fun _ => Or.inl rfl, fun _ => hm⟩
  | closed => exact ⟨fun _ => Or.inr rfl, fun _ => hm⟩

theorem sessionOf_of_lt (hv : Valid tr) (hi : i < (run tr).n) :
    ∃ post, SessionOf tr ((run tr).sess i).terminal post ∧
      (((run tr).sess i).subs = [] ↔ Ended ((run tr).sess i).terminal post) := by
  have h := sim_run tr hv
  obtain ⟨post, hs⟩ := exists_sessionOf fun hA => h.absent _ hA i hi rfl
  obtain ⟨j, hj, hjt, he⟩ := hs.index hv
  obtain rfl : j = i := h.inv.inj j hj i hi hjt
  exact ⟨post, hs, he⟩

/-- The listeners of a session are all registered, or none is. -/
theorem live_iff (hv : Valid tr) (hi : i < (run tr).n) (k : Kind) :
    (i, k) ∈ (run tr).live ↔ ((run tr).sess i).subs ≠ [] := by
  have h := (sim_run tr hv).inv
  rw [h.mem_live]
  constructor
  · rintro ⟨-, hk⟩; exact List.ne_nil_of_mem hk
  · intro hs
    rw [(h.subs i hi).resolve_right hs]
    exact ⟨hi, mem_allKinds k⟩

theorem mem_disposed (hv : Valid tr) (hs : SessionOf tr t post) :
    t ∈ (run tr).disposed ↔ Due t post := by
  have h := sim_run tr hv
  obtain ⟨pre, cfg, rfl, ho⟩ := hs
  obtain ⟨p, hA, hp⟩ := specRun_session ho post hv
  rw [← List.count_pos_iff, h.disposed t, hA, due_iff hp]
  cases p <;> simp

theorem SessionOf.snoc (hs : SessionOf tr t post) (e : Event) :
    SessionOf (tr ++ [e]) t (post ++ [e]) := by
  obtain ⟨pre, cfg, rfl, ho⟩ := hs
  exact ⟨pre, cfg, by simp, ho⟩

/-- **An event of another terminal leaves a session alone.** -/
theorem step_of_ne (h : Inv w) (hi : i < w.n) {e : Event} (he : e.terminal ≠ (w.sess i).terminal) :
    (step w e).sess i = w.sess i ∧ ∀ k, (i, k) ∈ (step w e).live ↔ (i, k) ∈ w.live := by
  have hne : ∀ {j}, Watches w j e.terminal → i ≠ j := by
    rintro j hw rfl
    exact he hw.terminal.symm
  have hclean : ∀ {j}, Watches w j e.terminal →
      (cleanup w j).sess i = w.sess i ∧ ∀ k, (i, k) ∈ (cleanup w j).live ↔ (i, k) ∈ w.live := by
    intro j hw
    refine ⟨cleanup_sess_ne hw.subs (hne hw), fun k => ?_⟩
    rw [mem_cleanup_live h hw.subs]
    simp [hne hw]
  cases e with
  | run cfg t =>
    by_cases ho : opens cfg = true
    · have hin : i ≠ w.n := by omega
      refine ⟨by simp [step, runButton, ho, Function.update_of_ne hin], fun k => ?_⟩
      simp [step, runButton, ho, hin.symm]
    · simp [step, runButton, ho]
  | start t x =>
    rcases watches_or h t with ⟨j, hw⟩ | hw
    · rw [step, fire_onStart h hw]
      exact ⟨Function.update_of_ne (hne hw) _ _, fun k => Iff.rfl⟩
    · rw [step, fire_of_ne local_onStart hw]
      exact ⟨rfl, fun k => Iff.rfl⟩
  | finish t x re =>
    rcases watches_or h t with ⟨j, hw⟩ | hw
    · rw [step, fire_onFinish h hw]
      split_ifs
      · exact hclean hw
      · exact ⟨rfl, fun k => Iff.rfl⟩
    · rw [step, fire_of_ne (local_onFinish re) hw]
      exact ⟨rfl, fun k => Iff.rfl⟩
  | close t =>
    rcases watches_or h t with ⟨j, hw⟩ | hw
    · rw [step, fire_onClose h hw]
      exact hclean hw
    · rw [step, fire_of_ne local_onClose hw]
      exact ⟨rfl, fun k => Iff.rfl⟩

open Classical in
/-- What a run of the extension does to its sessions. -/
structure CleansUp (tr : List Event) : Prop where
  /-- Only terminals of sessions are disposed, -/
  own : ∀ t ∈ (run tr).disposed, ∃ post, SessionOf tr t post
  /-- at most once, -/
  once : ∀ t post, SessionOf tr t post →
    (run tr).disposed.count t ≤ 1 ∧ (t ∈ (run tr).disposed ↔ Due t post)
  /-- exactly at the first end of an execution after a start and before a close. -/
  first : ∀ t post, SessionOf tr t post → ∀ e, Valid (tr ++ [e]) →
    (t ∉ (run tr).disposed ∧ t ∈ (run (tr ++ [e])).disposed ↔
      (∃ x re, e = .finish t x re) ∧ (∃ y, .start t y ∈ post) ∧ .close t ∉ post ∧ ¬ Due t post)
  /-- Events of other terminals do not change a session. -/
  frame : ∀ i < (run tr).n, ∀ e : Event, e.terminal ≠ ((run tr).sess i).terminal →
    (step (run tr) e).sess i = (run tr).sess i ∧
      ∀ k, (i, k) ∈ (step (run tr) e).live ↔ (i, k) ∈ (run tr).live
  /-- A session has its three listeners until it ends and none afterwards, -/
  listeners : ∀ t post, SessionOf tr t post → ∃ i < (run tr).n,
    ((run tr).sess i).terminal = t ∧ ∀ k, (i, k) ∈ (run tr).live ↔ ¬ Ended t post
  /-- so there are three for each unfinished session, -/
  count : (run tr).live.length = 3 * ((Finset.range (run tr).n).filter fun i =>
    ∃ post, SessionOf tr ((run tr).sess i).terminal post ∧
      ¬ Ended ((run tr).sess i).terminal post).card
  /-- and none is disposed twice. -/
  released : (run tr).released.Nodup

/-- **Auto-close sessions are independent and clean up exactly once.** -/
theorem autoClose_sessions (tr : List Event) (hv : Valid tr) : CleansUp tr := by
  have h := sim_run tr hv
  refine ⟨?_, ?_, ?_, ?_, ?_, ?_, h.inv.nodup_released⟩
  · intro t ht
    refine exists_sessionOf fun hA => ?_
    have hc := h.disposed t
    rw [hA] at hc
    have hpos := List.count_pos_iff.mpr ht
    simp at hc
    omega
  · intro t post hs
    refine ⟨?_, mem_disposed hv hs⟩
    rw [h.disposed t]
    split_ifs <;> omega
  · intro t post hs e hv'
    rw [mem_disposed hv hs, mem_disposed hv' (hs.snoc e), due_snoc]
    constructor
    · rintro ⟨hn, hd⟩
      obtain ⟨hf, hst, hc⟩ := hd.resolve_left hn
      exact ⟨hf, hst, hc, hn⟩
    · rintro ⟨hf, hst, hc, hn⟩
      exact ⟨hn, Or.inr ⟨hf, hst, hc⟩⟩
  · intro i hi e he
    exact step_of_ne h.inv hi he
  · intro t post hs
    obtain ⟨i, hi, hit, he⟩ := hs.index hv
    exact ⟨i, hi, hit, fun k => by rw [live_iff hv hi, ne_eq, he]⟩
  · rw [length_live h.inv]
    congr 2
    ext i
    simp only [Finset.mem_filter, Finset.mem_range]
    refine and_congr_right fun hi => ?_
    constructor
    · intro hs
      obtain ⟨post, hpost, he⟩ := sessionOf_of_lt hv hi
      exact ⟨post, hpost, fun hend => hs (he.mpr hend)⟩
    · rintro ⟨post, hpost, hn⟩ hs
      obtain ⟨j, hj, hjt, he⟩ := hpost.index hv
      obtain rfl : j = i := h.inv.inj j hj i hi hjt
      exact hn (he.mp hs)

/-- Two sessions, the events of their terminals interleaved. -/
def twoSessions : List Event :=
  [.run { script := some "top".toList } 1, .run { script := some "htop".toList } 2, .start 2 7,
    .start 1 8, .finish 2 7 true, .close 1, .finish 1 8 false]

theorem autoClose_sessions_two : Valid twoSessions ∧ CleansUp twoSessions :=
  ⟨by decide, autoClose_sessions twoSessions (by decide)⟩

/-! ### Which execution ended -/

/-- The sent command line runs as the execution `sent`; the executions of a terminal end after they
started. -/
def EndsAfterStart (t : Terminal) (post : List Event) : Prop :=
  ∀ u v x re, post = u ++ .finish t x re :: v → .start t x ∈ u

/-- While the terminal is open, no other execution ends in it before `sent` has ended. -/
def SentEndsFirst (sent : Exec) (t : Terminal) (post : List Event) : Prop :=
  ∀ u v x re, post = u ++ .finish t x re :: v → .close t ∉ u →
    x = sent ∨ ∃ re', .finish t sent re' ∈ u

/-- Whenever the extension has disposed the terminal, `sent` has ended. -/
def DisposedAfterSent (sent : Exec) (pre : List Event) (cfg : ButtonConfig) (t : Terminal)
    (post : List Event) : Prop :=
  ∀ u v, post = u ++ v → t ∈ (run (pre ++ .run cfg t :: u)).disposed → ∃ re, .finish t sent re ∈ u

theorem Valid.of_append {tr tr' : List Event} (h : Valid (tr ++ tr')) : Valid tr := by
  unfold Valid at h ⊢
  rw [List.filterMap_append] at h
  exact (List.nodup_append.mp h).1

/-- **The terminal outlives the sent command** in exactly those runs in which no other execution
ends before it. -/
theorem disposedAfterSent_iff (sent : Exec) {pre : List Event} {cfg : ButtonConfig} {t : Terminal}
    {post : List Event} (hv : Valid (pre ++ .run cfg t :: post)) (ho : opens cfg = true)
    (hx : EndsAfterStart t post) :
    DisposedAfterSent sent pre cfg t post ↔ SentEndsFirst sent t post := by
  have hdue : ∀ u v, post = u ++ v →
      (t ∈ (run (pre ++ .run cfg t :: u)).disposed ↔ Due t u) := by
    rintro u v rfl
    have hv' : Valid (pre ++ .run cfg t :: u) := by
      have hsplit : Valid ((pre ++ .run cfg t :: u) ++ v) := by simpa using hv
      exact hsplit.of_append
    exact mem_disposed hv' ⟨pre, cfg, rfl, ho⟩
  constructor
  · intro h u v x re hpost hc
    have hd : Due t (u ++ [.finish t x re]) :=
      ⟨u, [], x, re, rfl, ⟨x, hx u v x re hpost⟩, hc⟩
    have hsplit : post = (u ++ [.finish t x re]) ++ v := by simpa using hpost
    obtain ⟨re', hre⟩ := h _ v hsplit ((hdue _ v hsplit).mpr hd)
    rw [List.mem_append, List.mem_singleton] at hre
    rcases hre with hre | hre
    · exact Or.inr ⟨re', hre⟩
    · cases hre; exact Or.inl rfl
  · intro h u v hpost hdis
    obtain ⟨a, b, x, re, rfl, -, hc⟩ := (hdue u v hpost).mp hdis
    rcases h a (b ++ v) x re (by simpa using hpost) hc with rfl | ⟨re', hre⟩
    · exact ⟨re, by simp⟩
    · exact ⟨re', by simp [hre]⟩

theorem disposedAfterSent_iff_top :
    (Valid [.run { script := some "top".toList } 1, .start 1 5, .finish 1 5 false] ∧
      EndsAfterStart 1 [.start 1 5, .finish 1 5 false]) ∧
    (DisposedAfterSent 5 [] { script := some "top".toList } 1 [.start 1 5, .finish 1 5 false] ↔
      SentEndsFirst 5 1 [.start 1 5, .finish 1 5 false]) := by
  have hx : EndsAfterStart 1 [.start 1 5, .finish 1 5 false] := by
    intro u v x re h
    rcases u with _ | ⟨a, _ | ⟨b, _ | ⟨c, u⟩⟩⟩ <;> simp at h
    obtain ⟨rfl, ⟨rfl, rfl⟩, rfl⟩ := h
    simp
  have hv : Valid ([] ++ .run { script := some "top".toList } 1 :: [.start 1 5, .finish 1 5 false]) := by
    decide
  exact ⟨⟨hv, hx⟩, disposedAfterSent_iff 5 hv (by decide) hx⟩

/-- An activation command that another extension runs first. -/
def activationFirst : List Event := [.start 1 4, .finish 1 4 false, .start 1 5]

/-- The terminal is gone before the sent command has started. -/
theorem disposed_before_sent :
    Valid (.run { script := some "top".toList } 1 :: activationFirst) ∧
      EndsAfterStart 1 activationFirst ∧
      ¬ DisposedAfterSent 5 [] { script := some "top".toList } 1 activationFirst := by
  refine ⟨by decide, ?_, fun h => ?_⟩
  · intro u v x re h
    rcases u with _ | ⟨a, _ | ⟨b, _ | ⟨c, u⟩⟩⟩ <;> simp [activationFirst] at h
    obtain ⟨rfl, ⟨rfl, rfl⟩, -⟩ := h
    simp
  obtain ⟨re, hre⟩ := h [.start 1 4, .finish 1 4 false] [.start 1 5] rfl (by decide)
  simp at hre

end Lightbox.Extension.Sessions
