import Mathlib.Data.List.Basic
import Mathlib.Tactic.Common

/-! # Scripts under `set -e`

A command is built from calls of programs and of builtins, and what a script does next depends on exit
statuses only. So a script is a tree of calls with a continuation for each status (`Prog`), and
`compile` gives the tree of a command: with `errexit`, a call or a pipeline that fails ends the script,
unless its status is tested (by `if` or `!`, or on the left of `&&` or `||`).

* `Runs E`: the executions of a tree, where `E` says which statuses and states a call leads to.
* `wp`: the weakest precondition of a tree, which says the same of all executions (`wp_iff`).
* `Triple`: pre- and postconditions of a command, with a rule for each construct. A command may end the
  script: there the second postcondition holds.
* `recording`: executions in which a call returns any possible status; the state is the log of calls. -/

namespace Lightbox.Shell.Errexit

variable {A S : Type}

/-- A command. What `exec` is given replaces the shell; a missing `else` is `skip`. -/
inductive Cmd (A : Type)
  | call (a : A)
  | skip
  | seq (c d : Cmd A)
  | and (c d : Cmd A)
  | or (c d : Cmd A)
  | not (c : Cmd A)
  | ite (c d e : Cmd A)
  | pipe (c d : Cmd A)
  | exec (a : A)
  | exit (n : ℕ)

/-- One command after the other. -/
def Cmd.list : List (Cmd A) → Cmd A
  | [] => .skip
  | [c] => c
  | c :: cs => .seq c (list cs)

/-- `set -e` and `set -o pipefail`. -/
structure Options where
  errexit : Bool
  pipefail : Bool

/-- A status that is not tested ends the script. -/
def Options.stops (o : Options) (tested : Bool) (n : ℕ) : Bool := o.errexit && !tested && n != 0

/-- The status of a pipeline. -/
def Options.pipeStatus (o : Options) (m n : ℕ) : ℕ := if o.pipefail && n == 0 then m else n

/-- A script: the calls to come, each with what follows for its status. -/
inductive Prog (A : Type)
  | done (n : ℕ)
  | call (a : A) (k : ℕ → Prog A)

/-- One script, and with its status another one. -/
def Prog.bind : Prog A → (ℕ → Prog A) → Prog A
  | .done n, f => f n
  | .call a k, f => .call a fun n => (k n).bind f

/-- What follows a status. -/
def check (o : Options) (tested : Bool) (k : ℕ → Prog A) (n : ℕ) : Prog A :=
  if o.stops tested n then .done n else k n

/-- **The meaning of a command** that is followed by `k`. The parts of a pipeline are run in subshells. -/
def compile (o : Options) : Bool → Cmd A → (ℕ → Prog A) → Prog A
  | t, .call a, k => .call a (check o t k)
  | _, .skip, k => k 0
  | t, .seq c d, k => compile o t c fun _ => compile o t d k
  | t, .and c d, k => compile o true c fun n => if n = 0 then compile o t d k else k n
  | t, .or c d, k => compile o true c fun n => if n = 0 then k 0 else compile o t d k
  | _, .not c, k => compile o true c fun n => k (if n = 0 then 1 else 0)
  | t, .ite c d e, k => compile o true c fun n => if n = 0 then compile o t d k else compile o t e k
  | t, .pipe c d, k => (compile o t c .done).bind fun m => (compile o t d .done).bind fun n =>
      check o t k (o.pipeStatus m n)
  | _, .exec a, _ => .call a .done
  | _, .exit n, _ => .done n

/-- A script that consists of a command. -/
def script (o : Options) (c : Cmd A) : Prog A := compile o false c .done

/-! ### Executions -/

/-- The executions of a script: the status it ends with, and the state. -/
inductive Runs (E : A → S → ℕ → S → Prop) : Prog A → S → ℕ → S → Prop
  | done (n : ℕ) (s : S) : Runs E (.done n) s n s
  | call {a : A} {k : ℕ → Prog A} {s s' s'' : S} {m n : ℕ} : E a s m s' → Runs E (k m) s' n s'' →
      Runs E (.call a k) s n s''

/-- **The weakest precondition** of a script. -/
def wp (E : A → S → ℕ → S → Prop) (X : ℕ → S → Prop) : Prog A → S → Prop
  | .done n, s => X n s
  | .call a k, s => ∀ n s', E a s n s' → wp E X (k n) s'

section Wp
variable {E : A → S → ℕ → S → Prop} {X : ℕ → S → Prop}

/-- **The weakest precondition speaks of all executions.** -/
theorem wp_iff {p : Prog A} {s : S} : wp E X p s ↔ ∀ n s', Runs E p s n s' → X n s' := by
  induction p generalizing s with
  | done m =>
    constructor
    · intro h n s' hr
      cases hr with
      | done => exact h
    · exact fun h => h m s (.done m s)
  | call a k ih =>
    constructor
    · intro h n s' hr
      cases hr with
      | call he hr => exact (ih _).mp (h _ _ he) n s' hr
    · exact fun h m s' he => (ih m).mpr fun n s'' hr => h n s'' (.call he hr)

theorem wp_bind {p : Prog A} {f : ℕ → Prog A} {s : S} :
    wp E X (p.bind f) s ↔ wp E (fun n s' => wp E X (f n) s') p s := by
  induction p generalizing s with
  | done m => exact Iff.rfl
  | call a k ih =>
    constructor
    · exact fun h n s' he => (ih n).mp (h n s' he)
    · exact fun h n s' he => (ih n).mpr (h n s' he)

theorem wp_mono {Y : ℕ → S → Prop} (h : ∀ n s, X n s → Y n s) {p : Prog A} {s : S}
    (hp : wp E X p s) : wp E Y p s :=
  wp_iff.mpr fun n s' hr => h n s' (wp_iff.mp hp n s' hr)

end Wp

/-! ### Rules -/

/-- **Pre- and postconditions**: from a state with `P`, the command ends with `Q`, or it ends the
script with `X`. -/
def Triple (o : Options) (E : A → S → ℕ → S → Prop) (X : ℕ → S → Prop) (t : Bool) (P : S → Prop)
    (c : Cmd A) (Q : ℕ → S → Prop) : Prop :=
  ∀ k s, P s → (∀ n s', Q n s' → wp E X (k n) s') → wp E X (compile o t c k) s

section Rules
variable {o : Options} {E : A → S → ℕ → S → Prop} {X : ℕ → S → Prop} {t : Bool} {P M : S → Prop}
  {Q : ℕ → S → Prop} {a : A} {c d e : Cmd A}

/-- **What the rules show of a script** holds at the end of all its executions. -/
theorem Triple.runs (h : Triple o E X false P c X) {s s' : S} {n : ℕ} (hs : P s)
    (hr : Runs E (script o c) s n s') : X n s' :=
  wp_iff.mp (h .done s hs fun _ _ hx => hx) n s' hr

theorem Triple.conseq {P' : S → Prop} {Q' : ℕ → S → Prop} (h : Triple o E X t P' c Q')
    (hp : ∀ s, P s → P' s) (hq : ∀ n s, Q' n s → Q n s) : Triple o E X t P c Q :=
  fun k s hs hk => h k s (hp s hs) fun n s' hn => hk n s' (hq n s' hn)

theorem wp_check {k : ℕ → Prog A} {n : ℕ} {s : S} :
    wp E X (check o t k n) s ↔ if o.stops t n then X n s else wp E X (k n) s := by
  unfold check
  split_ifs <;> exact Iff.rfl

/-- A call whose status may end the script. -/
theorem Triple.call (h : ∀ s n s', P s → E a s n s' → if o.stops t n then X n s' else Q n s') :
    Triple o E X t P (.call a) Q := by
  intro k s hs hk n s' he
  have hn := h s n s' hs he
  rw [wp_check]
  split_ifs at hn ⊢ with hstop
  · exact hn
  · exact hk n s' hn

/-- A call whose status is tested. -/
theorem Triple.call_tested (h : ∀ s n s', P s → E a s n s' → Q n s') :
    Triple o E X true P (.call a) Q :=
  .call fun s n s' hs he => by
    have hno : o.stops true n = false := by simp [Options.stops]
    rw [hno, if_neg (by simp)]
    exact h s n s' hs he

/-- A call that ends a subshell. -/
theorem Triple.call_last (h : ∀ s n s', P s → E a s n s' → X n s') :
    Triple o E X t P (.call a) X :=
  .call fun s n s' hs he => by
    split_ifs
    · exact h s n s' hs he
    · exact h s n s' hs he

theorem Triple.skip (h : ∀ s, P s → Q 0 s) : Triple o E X t P .skip Q :=
  fun _ s hs hk => hk 0 s (h s hs)

theorem Triple.seq (hc : Triple o E X t P c fun _ => M) (hd : Triple o E X t M d Q) :
    Triple o E X t P (.seq c d) Q :=
  fun k s hs hk => hc _ s hs fun _ s' hm => hd k s' hm hk

/-- On the left of `||` no status ends the script. -/
theorem Triple.or {N : ℕ → S → Prop} (hc : Triple o E X true P c N) (hq : ∀ s, N 0 s → Q 0 s)
    (hd : Triple o E X t (fun s => ∃ n, n ≠ 0 ∧ N n s) d Q) : Triple o E X t P (.or c d) Q := by
  intro k s hs hk
  refine hc _ s hs fun n s' hn => ?_
  by_cases h0 : n = 0
  · subst h0
    rw [if_pos rfl]
    exact hk 0 s' (hq s' hn)
  · rw [if_neg h0]
    exact hd k s' ⟨n, h0, hn⟩ hk

theorem Triple.not {N : ℕ → S → Prop} (hc : Triple o E X true P c N)
    (hq : ∀ n s, N n s → Q (if n = 0 then 1 else 0) s) : Triple o E X t P (.not c) Q :=
  fun _ s hs hk => hc _ s hs fun n s' hn => hk _ s' (hq n s' hn)

theorem Triple.ite {N : ℕ → S → Prop} (hc : Triple o E X true P c N)
    (hd : Triple o E X t (N 0) d Q) (he : Triple o E X t (fun s => ∃ n, n ≠ 0 ∧ N n s) e Q) :
    Triple o E X t P (.ite c d e) Q := by
  intro k s hs hk
  refine hc _ s hs fun n s' hn => ?_
  by_cases h0 : n = 0
  · subst h0
    rw [if_pos rfl]
    exact hd k s' hn hk
  · rw [if_neg h0]
    exact he k s' ⟨n, h0, hn⟩ hk

/-- The parts of a pipeline end in their subshells; its status may end the script. -/
theorem Triple.pipe {N : ℕ → S → Prop} {L : ℕ → ℕ → S → Prop} (hc : Triple o E N t P c N)
    (hd : ∀ m, Triple o E (L m) t (N m) d (L m))
    (hq : ∀ m n s, L m n s →
      if o.stops t (o.pipeStatus m n) then X (o.pipeStatus m n) s else Q (o.pipeStatus m n) s) :
    Triple o E X t P (.pipe c d) Q := by
  intro k s hs hk
  show wp E X ((compile o t c .done).bind _) s
  rw [wp_bind]
  refine wp_mono (fun m s' hm => ?_) (hc .done s hs fun _ _ hn => hn)
  rw [wp_bind]
  refine wp_mono (fun n s'' hn => ?_) (hd m .done s' hm fun _ _ hl => hl)
  have hl := hq m n s'' hn
  rw [wp_check]
  split_ifs at hl ⊢ with hstop
  · exact hl
  · exact hk _ s'' hl

/-- What replaces the shell ends the script. -/
theorem Triple.exec (h : ∀ s n s', P s → E a s n s' → X n s') : Triple o E X t P (.exec a) Q :=
  fun _ s hs _ n s' he => h s n s' hs he

theorem Triple.exit {n : ℕ} (h : ∀ s, P s → X n s) : Triple o E X t P (.exit n) Q :=
  fun _ s hs _ => h s hs

/-- `c || true`, if `true` succeeds and changes nothing that matters. -/
theorem Triple.or_true (hc : Triple o E X true P c fun _ => M)
    (ht : ∀ s n s', M s → E a s n s' → n = 0 ∧ M s') :
    Triple o E X t P (.or c (.call a)) fun n s => n = 0 ∧ M s := by
  refine Triple.or hc (fun s hs => ⟨rfl, hs⟩) (Triple.call fun s n s' hs he => ?_)
  obtain ⟨m, -, hm⟩ := hs
  obtain ⟨rfl, hm'⟩ := ht s n s' hm he
  have hno : o.stops t 0 = false := by simp [Options.stops]
  rw [hno, if_neg (by simp)]
  exact ⟨rfl, hm'⟩

/-- A list of commands. -/
theorem Triple.cons {cs : List (Cmd A)} {N : ℕ → S → Prop} (hc : Triple o E X t P c N)
    (hn : ∀ n s, N n s → M s) (hd : Triple o E X t M (.list (d :: cs)) Q) :
    Triple o E X t P (.list (c :: d :: cs)) Q :=
  Triple.seq (hc.conseq (fun _ h => h) hn) hd

end Rules

/-! ### The calls of a script -/

/-- Every call of the script satisfies `p`. -/
def Prog.All (p : A → Prop) : Prog A → Prop
  | .done _ => True
  | .call a k => p a ∧ ∀ n, (k n).All p

/-- The calls in the text of a command. -/
def Cmd.calls : Cmd A → List A
  | .call a | .exec a => [a]
  | .skip | .exit _ => []
  | .seq c d | .and c d | .or c d | .pipe c d => c.calls ++ d.calls
  | .not c => c.calls
  | .ite c d e => c.calls ++ (d.calls ++ e.calls)

theorem Prog.All.bind {p : A → Prop} {f : ℕ → Prog A} : ∀ {q : Prog A}, q.All p →
    (∀ n, (f n).All p) → (q.bind f).All p
  | .done n, _, hf => hf n
  | .call _ _, hq, hf => ⟨hq.1, fun n => (hq.2 n).bind hf⟩

theorem Prog.All.check {p : A → Prop} {o : Options} {t : Bool} {k : ℕ → Prog A}
    (hk : ∀ n, (k n).All p) (n : ℕ) : (check o t k n).All p := by
  unfold Errexit.check
  split_ifs
  · trivial
  · exact hk n

/-- **A script makes no calls but those in its text.** -/
theorem all_compile {p : A → Prop} {o : Options} : ∀ {c : Cmd A} {t : Bool} {k : ℕ → Prog A},
    (∀ a ∈ c.calls, p a) → (∀ n, (k n).All p) → (compile o t c k).All p
  | .call a, t, k, hc, hk => ⟨hc a (List.mem_singleton_self a), fun n => .check hk n⟩
  | .skip, t, k, hc, hk => hk 0
  | .seq c d, t, k, hc, hk => by
    obtain ⟨h1, h2⟩ := List.forall_mem_append.mp hc
    exact all_compile (c := c) h1 fun _ => all_compile (c := d) h2 hk
  | .and c d, t, k, hc, hk => by
    obtain ⟨h1, h2⟩ := List.forall_mem_append.mp hc
    refine all_compile (c := c) h1 fun n => ?_
    split_ifs
    · exact all_compile (c := d) h2 hk
    · exact hk n
  | .or c d, t, k, hc, hk => by
    obtain ⟨h1, h2⟩ := List.forall_mem_append.mp hc
    refine all_compile (c := c) h1 fun n => ?_
    split_ifs
    · exact hk 0
    · exact all_compile (c := d) h2 hk
  | .not c, t, k, hc, hk => all_compile (c := c) hc fun n => hk _
  | .ite c d e, t, k, hc, hk => by
    obtain ⟨h1, h23⟩ := List.forall_mem_append.mp hc
    obtain ⟨h2, h3⟩ := List.forall_mem_append.mp h23
    refine all_compile (c := c) h1 fun n => ?_
    split_ifs
    · exact all_compile (c := d) h2 hk
    · exact all_compile (c := e) h3 hk
  | .pipe c d, t, k, hc, hk => by
    obtain ⟨h1, h2⟩ := List.forall_mem_append.mp hc
    have hdone : ∀ n, (Prog.done n : Prog A).All p := fun _ => trivial
    exact (all_compile (c := c) h1 hdone).bind fun m =>
      (all_compile (c := d) h2 hdone).bind fun n => .check hk _
  | .exec a, t, k, hc, hk => ⟨hc a (List.mem_singleton_self a), fun _ => trivial⟩
  | .exit n, t, k, hc, hk => trivial

/-! ### Logs -/

/-- A call returns any status that is possible for it, and is logged. -/
def recording (possible : A → ℕ → Prop) (a : A) (l : List (A × ℕ)) (n : ℕ) (l' : List (A × ℕ)) :
    Prop := possible a n ∧ l' = l ++ [(a, n)]

/-- Calls that act on a state, and are logged. -/
def logged (E : A → S → ℕ → S → Prop) (a : A) (x : S × List (A × ℕ)) (n : ℕ)
    (x' : S × List (A × ℕ)) : Prop := E a x.1 n x'.1 ∧ x'.2 = x.2 ++ [(a, n)]

theorem Runs.logged {E : A → S → ℕ → S → Prop} {a : A} {k : ℕ → Prog A} {s s' : S}
    {l : List (A × ℕ)} {m n : ℕ} {x : S × List (A × ℕ)} (he : E a s m s')
    (h : Runs (logged E) (k m) (s', l ++ [(a, m)]) n x) : Runs (logged E) (.call a k) (s, l) n x :=
  .call (by exact ⟨he, rfl⟩) h

end Lightbox.Shell.Errexit
