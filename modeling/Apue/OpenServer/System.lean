import Apue.OpenServer.Codec
import Apue.OpenServer.Loop

/-!
# The open server with its clients (Chapter-17/open-2: 17-18.c, 17-25.c and 17-29.c)

Any number of clients, each of which connects, calls `csopen` any number of times and exits, and the
`loop` of the server. A connection has two streams: the bytes of requests that the server has not read,
and the cells of answers. `writev` puts a whole request into the stream; a `read` of the server takes as
much as there is, up to `MAXLINE`; the answer goes out as in `FdPassing`, while the loop waits.

The scheduler is free: any client, or the loop, makes the next step. `calls`, `served` and `results` log
what a client asked for, each `handle_request` on its behalf, and what its `recv_fd` returned.

What ends the server is there too: a call that fails and leads to `log_sys`, a descriptor that `fd_set`
has no room for, and a conversion in the format of `log_msg`. A client ends between its calls only.
-/

namespace Apue.OpenServer
open Transition

variable {C F : Type*}

/-- One `handle_request`: the buffer, the user, the globals before, and how `open` ends. -/
structure Served (F : Type*) where
  bytes : List UInt8
  stale : List UInt8
  uid : UInt32
  env : Env F
  globals : Globals

/-- The answer it sends. -/
def Served.call (e : Served F) : Call F :=
  (handleRequest e.env e.globals (e.bytes ++ e.stale) e.bytes.length e.uid).1

/-- What `recv_fd` should make of the answer: its result and what goes to `userfunc`. -/
def Served.result (e : Served F) : Option (Except ℤ F) × List UInt8 :=
  (some (answer e.call.arg), e.call.text)

/-- The format that `log_msg` gets behind it. -/
def Served.format (e : Served F) : Option CStr :=
  logFormat e.env e.globals (e.bytes ++ e.stale) e.bytes.length e.uid

inductive Stage where
  | unconnected
  | connected
  | closed
  deriving DecidableEq

/-- A client and its connection; `asking` are the arguments of the `csopen` it is in. -/
structure Session (F : Type*) where
  stage : Stage
  up : List UInt8
  down : State F
  asking : Option Ask
  calls : List Ask
  served : List (Served F)
  results : List (Option (Except ℤ F) × List UInt8)

def Session.start : Session F := ⟨.unconnected, [], ⟨[], .done, Recv.start⟩, none, [], [], []⟩

/-- `peer` is the client at the other end of a descriptor of the server, `sending` the one that
`handle_request` is sending the answer to, and `logging` the format of the `log_msg` behind it. -/
structure Sys (C F : Type*) where
  server : Server
  backlog : List C
  peer : ℕ → Option C
  sending : Option C
  logging : Option CStr
  session : C → Session F

def Sys.start (initial : Finset ℕ) (listenfd : ℕ) : Sys C F :=
  ⟨Server.start initial listenfd, [], fun _ => none, none, none, fun _ => Session.start⟩

inductive SysAct (C F : Type*) where
  | connect (c : C)
  | csopen (c : C) (q : Ask)
  /-- A turn of `recv_fd`; `write` is what writing to the standard error returns, `room` says that the
  client has a free descriptor. -/
  | recv (c : C) (write : List UInt8 → ℤ) (room : Bool)
  /-- `malloc` or `recvmsg` fails, or the server is gone, and `recv_fd` returns -1. -/
  | fail (c : C)
  | exit (c : C)
  | select (rset : Finset ℕ)
  | accept (clifd : ℕ) (uid : UInt32)
  | next
  | eof
  | read (stale : List UInt8) (env : Env F) (newfd : ℕ)
  | write (n : ℕ)
  /-- The end of the answer, and `log_msg`; `survives` says that it returns in spite of a conversion. -/
  | sendmsg (survives : Bool)
  /-- `select`, `serv_accept`, `read` or `send_fd` fails. -/
  | logSys

/-- There is something to read from `fd`. -/
def Sys.readable (listenfd : ℕ) (s : Sys C F) (fd : ℕ) : Bool :=
  if fd = listenfd then !s.backlog.isEmpty
  else match s.peer fd with
    | none => false
    | some c => !(s.session c).up.isEmpty || (s.session c).stage = .closed

/-- Who is in the slot that the scan has stopped at. -/
def Sys.turn (s : Sys C F) : Option (Client × C) :=
  match s.server.pc with
  | .scan i =>
    match s.server.visit i with
    | .ready cl => (s.peer cl.fd).map fun c => (cl, c)
    | _ => none
  | _ => none

/-- The server ends. -/
def Sys.die (s : Sys C F) : Sys C F :=
  { s with server := { s.server with pc := .died }, sending := none, logging := none }

/-- For a receiver without a free descriptor, those that come with its bytes are lost. -/
def State.full (s : State F) : State F :=
  { s with stream := (s.stream.take MAXLINE).map (fun c => plain c.byte) ++ s.stream.drop MAXLINE }

variable [DecidableEq C]

def Sys.put (s : Sys C F) (c : C) (k : Session F) : Sys C F :=
  { s with session := Function.update s.session c k }

/-- A step of the loop, which waits while an answer is sent. -/
def Sys.loop (listenfd : ℕ) (s : Sys C F) (a : LoopAct F) : Option (Sys C F) :=
  if s.sending = none then (loopStep listenfd s.server a).map fun server => { s with server } else none

/-- `userfunc` has no part in the steps of the sender. -/
def sysStep (listenfd : ℕ) (s : Sys C F) : SysAct C F → Option (Sys C F)
  | .connect c =>
    let k := s.session c
    if k.stage = .unconnected then
      some { s.put c { k with stage := .connected } with backlog := s.backlog ++ [c] }
    else none
  | .csopen c q =>
    let k := s.session c
    if k.stage = .connected ∧ k.asking.isNone then
      some (s.put c { k with
        up := k.up ++ q.bytes
        down := { k.down with recv := Recv.start }
        asking := some q
        calls := k.calls ++ [q] })
    else none
  | .recv c write room =>
    let k := s.session c
    if k.asking.isNone then none
    else (step write (if room then k.down else k.down.full) .recvmsg).map fun down =>
      match down.recv.pc with
      | .returned r =>
        s.put c { k with down, asking := none, results := k.results ++ [(r, down.recv.passed)] }
      | _ => s.put c { k with down }
  | .fail c =>
    let k := s.session c
    if k.asking.isNone then none
    else some (s.put c { k with
      asking := none
      results := k.results ++ [(some (.error (-1)), k.down.recv.passed)] })
  | .exit c =>
    let k := s.session c
    if k.asking.isNone then some (s.put c { k with stage := .closed }) else none
  | .select rset =>
    if ∀ fd ∈ rset, s.readable listenfd fd = true then s.loop listenfd (.select rset) else none
  | .accept clifd uid =>
    match s.backlog with
    | [] => none
    | c :: backlog =>
      if clifd < FD_SETSIZE then
        (s.loop listenfd (.accept clifd uid)).map fun s =>
          { s with backlog, peer := Function.update s.peer clifd (some c) }
      else if s.sending = none ∧ s.server.pc = .accept ∧ clifd ∉ s.server.opened then
        -- `FD_SET` writes behind `allset`
        some { s.die with backlog }
      else none
  | .next => s.loop listenfd .next
  | .eof =>
    match s.turn with
    | none => none
    | some (_, c) =>
      let k := s.session c
      if k.up = [] ∧ k.stage = .closed then s.loop listenfd .eof else none
  | .read stale env newfd =>
    match s.turn with
    | none => none
    | some (cl, c) =>
      let k := s.session c
      let bytes := k.up.take MAXLINE
      let e : Served F := ⟨bytes, stale, cl.uid, env, s.server.globals⟩
      (s.loop listenfd (.request bytes stale env newfd)).map fun s =>
        { s.put c { k with
            up := k.up.drop MAXLINE
            down := { k.down with sender := e.call.start }
            served := k.served ++ [e] } with
          sending := some c
          logging := e.format }
  | .write n =>
    match s.sending with
    | none => none
    | some c =>
      let k := s.session c
      (step (fun _ => 0) k.down (.write n)).map fun down => s.put c { k with down }
  | .sendmsg survives =>
    match s.sending with
    | none => none
    | some c =>
      let k := s.session c
      (step (fun _ => 0) k.down .sendmsg).map fun down =>
        let t := s.put c { k with down }
        if survives || s.logging.all fun format => noConversion format.bytes then
          { t with sending := none, logging := none }
        else t.die
  | .logSys => if s.server.pc = .died then none else some s.die

end Apue.OpenServer
