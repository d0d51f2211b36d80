import Mathlib.Data.List.Basic
import Mathlib.Tactic.Common

/-! # The QEMU machine protocol

The server's side of one connection. The server greets the client and is in negotiation mode then:
`qmp_capabilities` takes it to command mode, and every other command is answered with
`CommandNotFound`. It reads a stream of JSON values, the reader being a machine that takes one
character at a time and may yield values (`Monitor.lex`).

`serve_eq` says that only the values of the stream matter, not how it is cut into pieces. For a stream
of one command, `executed_single` says whether the server executes it. -/

namespace Lightbox.Qmp.Protocol

abbrev Text := List Char

inductive Json
  | null
  | bool (b : Bool)
  | num (digits : Text)
  | str (s : Text)
  | arr (items : List Json)
  | obj (members : List (Text × Json))

/-- A command: its name, whether it is to be executed out of band, its arguments and its tag. -/
structure Request where
  name : Text
  oob : Bool
  args : Option Json
  id : Option Json

/-- The members that a command may have. -/
def requestKeys : List Text :=
  ["execute".toList, "exec-oob".toList, "arguments".toList, "id".toList]

/-- The arguments are an object, if they are given. -/
def argumentsOk : Option Json → Bool
  | none => true
  | some (.obj _) => true
  | some _ => false

/-- The name of a command, and whether it is to be executed out of band. -/
def commandName : Option Json → Option Json → Option (Text × Bool)
  | some (.str n), none => some (n, false)
  | none, some (.str n) => some (n, true)
  | _, _ => none

/-- The command that a value stands for. -/
def Json.request : Json → Option Request
  | .obj members =>
    if members.all (fun m => requestKeys.contains m.1) ∧ argumentsOk (members.lookup "arguments".toList) then
      (commandName (members.lookup "execute".toList) (members.lookup "exec-oob".toList)).map fun n =>
        ⟨n.1, n.2, members.lookup "arguments".toList, members.lookup "id".toList⟩
    else none
  | _ => none

inductive ErrorClass
  | commandNotFound | genericError
  deriving DecidableEq

inductive Reply
  | greeting (capabilities : List Text)
  | ret (value : Json) (id : Option Json)
  | error (cls : ErrorClass) (id : Option Json)

inductive Phase
  | negotiation
  | command (oob : Bool)
  deriving DecidableEq

/-- A server: the reader of its input, the capabilities it offers, and its commands: which there are,
which may be executed out of band, for which arguments they are executed, and what they answer. -/
structure Monitor (P : Type) where
  start : P
  lex : P → Char → P × List (Option Json)
  offered : List Text
  known : Text → Bool
  allowsOob : Text → Bool
  typed : Request → Bool
  answer : Request → Except ErrorClass Json

/-- A connection as the server sees it: what it has executed and what it has sent. -/
structure Chan where
  phase : Phase
  executed : List Request
  sent : List Reply

/-- The server's side of a connection, with the state of the reader. -/
structure Side (P : Type) where
  reader : P
  chan : Chan

def qmpCapabilities : Text := "qmp_capabilities".toList

/-- The capabilities that the client enables; they must be among those offered. -/
def enabled (offered : List Text) : Option Json → Option (List Text)
  | none => some []
  | some (.obj []) => some []
  | some (.obj [(k, .arr items)]) =>
    if k = "enable".toList then
      items.mapM fun
        | .str s => if offered.contains s then some s else none
        | _ => none
    else none
  | _ => none

def Chan.reply (c : Chan) (r : Reply) : Chan := { c with sent := c.sent ++ [r] }

def Chan.execute (c : Chan) (r : Request) (p : Phase) (a : Reply) : Chan :=
  ⟨p, c.executed ++ [r], c.sent ++ [a]⟩

section Server
variable {P : Type} (M : Monitor P)

/-- A connection that has been established. -/
def Chan.fresh : Chan := ⟨.negotiation, [], [.greeting M.offered]⟩

def Side.fresh : Side P := ⟨M.start, .fresh M⟩

/-- A command in negotiation mode. -/
def negotiate (c : Chan) (r : Request) : Chan :=
  if r.name ≠ qmpCapabilities then c.reply (.error .commandNotFound r.id)
  -- nothing is executed out of band before it has been enabled
  else if r.oob then c.reply (.error .genericError r.id)
  else match enabled M.offered r.args with
    | none => c.reply (.error .genericError r.id)
    | some caps => c.execute r (.command (caps.contains "oob".toList)) (.ret (.obj []) r.id)

/-- A command in command mode. -/
def perform (c : Chan) (oob : Bool) (r : Request) : Chan :=
  if r.name = qmpCapabilities ∨ M.known r.name = false then c.reply (.error .commandNotFound r.id)
  else if r.oob = true ∧ (oob && M.allowsOob r.name) = false then
    c.reply (.error .genericError r.id)
  else if M.typed r = false then c.reply (.error .genericError r.id)
  else c.execute r (.command oob) (match M.answer r with
    | .ok v => .ret v r.id
    | .error e => .error e r.id)

/-- **What the server does with a value**, or with input that is none. -/
def handle (c : Chan) (v : Option Json) : Chan :=
  match v.bind Json.request with
  | none => c.reply (.error .genericError none)
  | some r =>
    match c.phase with
    | .negotiation => negotiate M c r
    | .command oob => perform M c oob r

def feed (s : Side P) (a : Char) : Side P :=
  ⟨(M.lex s.reader a).1, (M.lex s.reader a).2.foldl (handle M) s.chan⟩

/-- The server reads a piece of the stream. -/
def serve (s : Side P) (t : Text) : Side P := t.foldl (feed M) s

/-! ### Streams -/

/-- The values that the reader finds in a text. -/
def valuesFrom : P → Text → List (Option Json)
  | _, [] => []
  | p, a :: t => (M.lex p a).2 ++ valuesFrom (M.lex p a).1 t

def values (t : Text) : List (Option Json) := valuesFrom M M.start t

theorem serve_append (s : Side P) (t u : Text) : serve M s (t ++ u) = serve M (serve M s t) u :=
  List.foldl_append

/-- **Only the values of the stream matter.** -/
theorem serve_eq (t : Text) (s : Side P) :
    (serve M s t).chan = (valuesFrom M s.reader t).foldl (handle M) s.chan := by
  induction t generalizing s with
  | nil => rfl
  | cons a t ih =>
    show (serve M (feed M s a) t).chan = _
    rw [ih (feed M s a), valuesFrom, List.foldl_append]
    rfl

/-- The commands that a new connection executes. -/
def Negotiates (r : Request) : Prop :=
  r.name = qmpCapabilities ∧ r.oob = false ∧ (enabled M.offered r.args).isSome

instance (r : Request) : Decidable (Negotiates M r) := inferInstanceAs (Decidable (_ ∧ _ ∧ _))

theorem executed_negotiate (r : Request) :
    (negotiate M (.fresh M) r).executed = if Negotiates M r then [r] else [] := by
  unfold negotiate
  by_cases hname : r.name = qmpCapabilities
  · rw [if_neg (not_not.mpr hname)]
    by_cases hoob : r.oob = true
    · rw [if_pos hoob, if_neg fun h => by simp [h.2.1] at hoob]
      rfl
    · rw [if_neg hoob]
      split
      · next hcaps =>
        rw [if_neg fun h => by simpa [hcaps] using h.2.2]
        rfl
      · next caps hcaps =>
        rw [if_pos ⟨hname, by simpa using hoob, by simp [hcaps]⟩]
        rfl
  · rw [if_pos hname, if_neg fun h => hname h.1]
    rfl

/-- **A stream of one command** on a new connection. -/
theorem executed_single {t : Text} {j : Json} {r : Request} (hv : values M t = [some j])
    (hr : j.request = some r) :
    (serve M (.fresh M) t).chan.executed = if Negotiates M r then [r] else [] := by
  have hhandle : handle M (.fresh M) (some j) = negotiate M (.fresh M) r := by
    unfold handle
    rw [Option.bind_some, hr]
    rfl
  rw [serve_eq, show valuesFrom M (Side.fresh M).reader t = [some j] from hv]
  show (handle M (.fresh M) (some j)).executed = _
  rw [hhandle, executed_negotiate]

end Server

end Lightbox.Qmp.Protocol
