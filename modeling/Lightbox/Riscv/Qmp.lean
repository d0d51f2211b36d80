import Lightbox.Qmp.Protocol
import Lightbox.Run.System

/-! # Commands for QEMU

`qmp_cmd` of `run-gdb.sh` opens a connection to the monitor, writes one line and closes its sending
side; what the monitor sends is discarded. Any number of calls may be under way, and greeting, line
and end of stream are delivered in any order and in any pieces.

The line is the first thing that the monitor reads on its connection. So the command is executed
exactly if it is a `qmp_capabilities` that the monitor accepts (`executed_iff`); `quit` never is. -/

namespace Lightbox.Riscv.Qmp

open Lightbox.Qmp.Protocol
open Lightbox.Run.System

/-- What the client has done: it has written its line and closed its sending side, and the greeting
has arrived. -/
structure Client where
  written : Bool
  shut : Bool
  greeted : Bool

/-- A call of `qmp_cmd`: its argument, the client, and what the server has read. -/
structure Conn (P : Type) where
  json : Text
  client : Client
  pos : ℕ
  ended : Bool
  side : Side P

/-- What `printf` writes. -/
def line (json : Text) : Text := json ++ ['\n']

structure State (P : Type) where
  socket : Bool
  conns : List (Conn P)

inductive Act
  | call (json : Text)
  | write (i : ℕ)
  | shut (i : ℕ)
  | greet (i : ℕ)
  | read (i n : ℕ)
  | eof (i : ℕ)

section System
variable {P : Type} (M : Monitor P)

def Conn.open (json : Text) : Conn P := ⟨json, ⟨false, false, false⟩, 0, false, .fresh M⟩

/-- **A call of `qmp_cmd`**; without a socket it does nothing. -/
def qmpCmd (s : State P) (json : Text) : State P :=
  if s.socket then { s with conns := s.conns ++ [Conn.open M json] } else s

def Client.write (k : Client) : Option Client :=
  if k.written = false then some { k with written := true } else none

def Client.close (k : Client) : Option Client :=
  if k.written = true ∧ k.shut = false then some { k with shut := true } else none

/-- The greeting is read and discarded. -/
def Client.greet (k : Client) : Option Client :=
  if k.greeted = false then some { k with greeted := true } else none

def Conn.onClient (f : Client → Option Client) (c : Conn P) : Option (Conn P) :=
  (f c.client).map fun k => { c with client := k }

/-- The server reads `n` characters. -/
def Conn.read (n : ℕ) (c : Conn P) : Option (Conn P) :=
  if c.client.written = true ∧ c.pos + n ≤ (line c.json).length then
    some { c with pos := c.pos + n, side := serve M c.side (((line c.json).drop c.pos).take n) }
  else none

/-- The server finds the end of the stream. -/
def Conn.eof (c : Conn P) : Option (Conn P) :=
  if c.client.shut = true ∧ c.pos = (line c.json).length ∧ c.ended = false then
    some { c with ended := true }
  else none

/-- One of the connections goes on. -/
def onConn (s : State P) (i : ℕ) (f : Conn P → Option (Conn P)) : Option (State P) :=
  (s.conns[i]?).bind fun c => (f c).map fun c' => { s with conns := s.conns.set i c' }

def step : StepFn (State P) Act := fun s a =>
  match a with
  | .call json => some (qmpCmd M s json)
  | .write i => onConn s i (Conn.onClient Client.write)
  | .shut i => onConn s i (Conn.onClient Client.close)
  | .greet i => onConn s i (Conn.onClient Client.greet)
  | .read i n => onConn s i (Conn.read M n)
  | .eof i => onConn s i Conn.eof

/-- No call has been made. -/
def init (s : State P) : Prop := s.conns = []

/-! ### What the server has read -/

/-- The server's side is that of a new connection on which the first `pos` characters have been
read. -/
structure Conn.Wf (c : Conn P) : Prop where
  side : c.side = serve M (.fresh M) ((line c.json).take c.pos)
  ended : c.ended = true → c.pos = (line c.json).length

theorem wf_open (json : Text) : (Conn.open M json).Wf M where
  side := rfl
  ended := fun h => by simp [Conn.open] at h

section Steps
variable {M} {c c' : Conn P} (h : c.Wf M)
include h

theorem wf_onClient {f : Client → Option Client} (hs : c.onClient f = some c') : c'.Wf M := by
  obtain ⟨k, -, rfl⟩ := Option.map_eq_some_iff.mp hs
  exact ⟨h.side, h.ended⟩

theorem wf_eof (hs : c.eof = some c') : c'.Wf M := by
  unfold Conn.eof at hs
  split_ifs at hs with hend
  obtain rfl := Option.some.inj hs
  exact ⟨h.side, fun _ => hend.2.1⟩

/-- A piece that is read is put behind what has been read before. -/
theorem wf_read {n : ℕ} (hs : c.read M n = some c') : c'.Wf M := by
  unfold Conn.read at hs
  split_ifs at hs with hle
  obtain rfl := Option.some.inj hs
  refine ⟨?_, fun hend => ?_⟩
  · show serve M c.side _ = serve M (.fresh M) ((line c.json).take (c.pos + n))
    rw [h.side, ← serve_append, List.take_add]
  · have hpos : c.pos = (line c.json).length := h.ended hend
    show c.pos + n = (line c.json).length
    omega

end Steps

/-- Every connection of a state is as it should be. -/
def Inv (s : State P) : Prop := ∀ c ∈ s.conns, c.Wf M

variable {M}

theorem inv_onConn {s s' : State P} {i : ℕ} {f : Conn P → Option (Conn P)} (hi : Inv M s)
    (hf : ∀ c c', c.Wf M → f c = some c' → c'.Wf M) (hs : onConn s i f = some s') : Inv M s' := by
  obtain ⟨c, hc, hs⟩ := Option.bind_eq_some_iff.mp hs
  obtain ⟨c', hc', rfl⟩ := Option.map_eq_some_iff.mp hs
  intro d hd
  rcases List.mem_or_eq_of_mem_set hd with hd | rfl
  · exact hi d hd
  · exact hf c d (hi c (List.mem_of_getElem? hc)) hc'

theorem inv_step {s s' : State P} {a : Act} (hi : Inv M s) (hs : step M s a = some s') :
    Inv M s' := by
  cases a with
  | call json =>
    obtain rfl := Option.some.inj hs
    unfold qmpCmd
    split_ifs
    · intro c hc
      rcases List.mem_append.mp hc with hc | hc
      · exact hi c hc
      · rw [List.mem_singleton.mp hc]
        exact wf_open M json
    · exact hi
  | write i => exact inv_onConn hi (fun _ _ h => wf_onClient h) hs
  | shut i => exact inv_onConn hi (fun _ _ h => wf_onClient h) hs
  | greet i => exact inv_onConn hi (fun _ _ h => wf_onClient h) hs
  | read i n => exact inv_onConn hi (fun _ _ h => wf_read h) hs
  | eof i => exact inv_onConn hi (fun _ _ h => wf_eof h) hs

theorem reach_inv {s : State P} (h : Reach (step M) init always s) : Inv M s :=
  h.invariant (fun s hs c hc => by rw [hs] at hc; simp at hc) fun _ _ _ hi _ hs => inv_step hi hs

end System

/-- The argument of `qmp_cmd` is one well-formed command. -/
def IsCommand {P : Type} (M : Monitor P) (json : Text) (r : Request) : Prop :=
  ∃ j, values M (line json) = [some j] ∧ j.request = some r

/-- **When a command is executed**: in every run, by a server that has read the stream to its end. -/
theorem executed_iff {P : Type} (M : Monitor P) (s : State P) (h : Reach (step M) init always s)
    (c : Conn P) (hc : c ∈ s.conns) (hend : c.ended = true) (r : Request)
    (hr : IsCommand M c.json r) : r ∈ c.side.chan.executed ↔ Negotiates M r := by
  obtain ⟨j, hv, hj⟩ := hr
  have hw := reach_inv h c hc
  have hread : c.side = serve M (.fresh M) (line c.json) := by
    rw [hw.side, hw.ended hend, List.take_length]
  rw [hread, executed_single M hv hj]
  split_ifs with hn
  · exact ⟨fun _ => hn, fun _ => List.mem_singleton_self r⟩
  · exact ⟨fun hmem => absurd hmem List.not_mem_nil, fun hneg => absurd hneg hn⟩

/-! ### A run -/

def capabilitiesText : Text := "\x7b \"execute\": \"qmp_capabilities\" \x7d".toList

/-- What `run-gdb.sh` sends when the debugger has ended. -/
def quitText : Text := "\x7b \"execute\": \"quit\" \x7d".toList

/-- A command without arguments. -/
def bare (name : Text) : Json := .obj [("execute".toList, .str name)]

def bareRequest (name : Text) : Request := ⟨name, false, none, none⟩

theorem request_bare (name : Text) : (bare name).request = some (bareRequest name) := by
  rfl

/-- A monitor that reads lines, and knows the two commands. -/
def lineMonitor : Monitor Text where
  start := []
  lex t a :=
    if a = '\n' then
      ([], [if t = quitText then some (bare "quit".toList)
        else if t = capabilitiesText then some (bare qmpCapabilities) else none])
    else (t ++ [a], [])
  offered := ["oob".toList]
  known n := n = "quit".toList
  allowsOob _ := false
  typed _ := true
  answer _ := .ok (.obj [])

/-- One call for each command; the second line is read in two pieces, and its greeting never
arrives. -/
def twoCalls : List Act :=
  [.call capabilitiesText, .write 0, .greet 0, .read 0 34, .shut 0, .eof 0,
    .call quitText, .write 1, .read 1 5, .shut 1, .read 1 17, .eof 1]

def negotiated : Conn Text where
  json := capabilitiesText
  client := ⟨true, true, true⟩
  pos := 34
  ended := true
  side := ⟨[], ⟨.command false, [bareRequest qmpCapabilities],
    [.greeting ["oob".toList], .ret (.obj []) none]⟩⟩

def refused : Conn Text where
  json := quitText
  client := ⟨true, true, false⟩
  pos := 22
  ended := true
  side := ⟨[], ⟨.negotiation, [], [.greeting ["oob".toList], .error .commandNotFound none]⟩⟩

theorem reach_twoCalls : Reach (step lineMonitor) init always ⟨true, [negotiated, refused]⟩ := by
  have hstart : Reach (step lineMonitor) init always ⟨true, []⟩ := .start rfl
  exact hstart.runFrom twoCalls rfl

theorem isCommand_capabilities :
    IsCommand lineMonitor capabilitiesText (bareRequest qmpCapabilities) :=
  ⟨bare qmpCapabilities, rfl, request_bare _⟩

theorem isCommand_quit : IsCommand lineMonitor quitText (bareRequest "quit".toList) :=
  ⟨bare "quit".toList, rfl, request_bare _⟩

theorem executed_iff_capabilities :
    bareRequest qmpCapabilities ∈ negotiated.side.chan.executed :=
  (executed_iff lineMonitor _ reach_twoCalls negotiated List.mem_cons_self rfl _
    isCommand_capabilities).mpr ⟨rfl, rfl, rfl⟩

/-- `quit` is read to the end of its stream and answered with `CommandNotFound`, although an earlier
call has negotiated. -/
theorem not_executed_quit : ∃ s : State Text, Reach (step lineMonitor) init always s ∧
    ∃ c ∈ s.conns, c.ended = true ∧ IsCommand lineMonitor c.json (bareRequest "quit".toList) ∧
      bareRequest "quit".toList ∉ c.side.chan.executed ∧
      c.side.chan.sent = [.greeting ["oob".toList], .error .commandNotFound none] := by
  refine ⟨_, reach_twoCalls, refused, by simp, rfl, isCommand_quit, ?_, rfl⟩
  exact List.not_mem_nil

end Lightbox.Riscv.Qmp
