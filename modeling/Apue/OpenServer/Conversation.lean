import Apue.Lib.Descriptors
import Apue.OpenServer.Version1

/-!
# The client and the server of version 1 (Chapter-17/open-1: 17-18.c, 17-19.c, 17-21.c and 17-22.c)

`main` of the client reads names from its standard input, has `csopen` ask the server for each of them and
copies the file it gets to its standard output. The server reads one request after the other from its standard
input, answers it, and closes what it has opened. It is there already: `Spawn` is about starting it.

The two processes take their steps in any order; `write`, `sendmsg` and `recvmsg` are those of `FdPassing`.
`writev` puts a whole request into the stream, and a `read` of the server takes as much as there is, up to
`MAXLINE`.
-/

namespace Apue.OpenServer.V1
open Descriptors Transition

variable {F : Type*}

def O_RDONLY : ℕ := 0

def BUFFSIZE : ℕ := 8192

/-- What `main` asks for. -/
def ask (name : CStr) : Ask := ⟨name, O_RDONLY, by decide⟩

inductive Entry (F : Type*) where
  | other
  | sock
  | file (f : F)

/-- The client is in `fgets`, before `writev`, in `recv_fd`, or copies the file `f` behind `fd`, of which it
has read `off` bytes. It may use memory that is not its own, call `abort` or exit. -/
inductive ClientPc (F : Type*) where
  | fgets
  | csopen (name : CStr)
  | recvFd (name : CStr)
  | copy (fd : ℕ) (f : F) (off : ℕ)
  | undefined
  | aborted
  | exited (status : ℕ)

/-- The server is in `read`, answers a request for which it has opened `newfd`, or has exited. -/
inductive ServerPc where
  | read
  | answer (newfd : Option ℕ)
  | exited
  deriving DecidableEq

/-- `served` logs what each `handle_request` meets: how `open` ends, and the globals. -/
structure Talk (F : Type*) where
  input : List UInt8
  out : List UInt8
  err : List UInt8
  client : ClientPc F
  clientFds : Table (Entry F)
  up : List UInt8
  down : State F
  server : ServerPc
  serverFds : Table (Entry F)
  globals : Globals
  served : List (Env F × Globals)

/-- What the conversation starts with: the bytes in each file, the descriptors of the client with its socket
`fd[0]`, and those of the server with its standard input and output. Both can open one more file. -/
structure Setup (F : Type*) where
  contents : F → List UInt8
  clientFds : Table (Entry F)
  fd : ℕ
  serverFds : Table (Entry F)
  client_sock : clientFds fd = some .sock
  server_stdin : serverFds 0 = some .sock
  server_stdout : serverFds 1 = some .sock
  client_free : ∃ i, clientFds i = none
  server_free : ∃ i, serverFds i = none

/-- `write` is what writing to the standard error returns, `newfd` a descriptor that is given out. -/
inductive TalkAct (F : Type*) where
  | fgets
  | writev
  | read (stale : List UInt8) (env : Env F) (newfd : ℕ)
  | write (n : ℕ)
  | sendmsg
  | recvmsg (write : List UInt8 → ℤ) (newfd : ℕ)
  | copy (n : ℕ)
  /-- The `read` of the client fails, or its `write` ends after `n` bytes. -/
  | copyFails (n : ℕ)
  | close
  | eof

namespace Talk

def start (c : Setup F) (input : List UInt8) : Talk F where
  input := input
  out := []
  err := []
  client := .fgets
  clientFds := c.clientFds
  up := []
  down := ⟨[], .done, Recv.start⟩
  server := .read
  serverFds := c.serverFds
  globals := Globals.start
  served := []

/-- The body of the loop up to `csopen`. -/
def readLine (s : Talk F) : Talk F :=
  match Stdio.fgets MAXLINE s.input with
  | none => { s with client := .exited 0 }
  | some (chunk, rest) =>
    match trim (CStr.ofBuf chunk) with
    | none => { s with input := rest, client := .undefined }
    | some name => { s with input := rest, client := .csopen name }

/-- `handle_request` up to the answer, with `bytes` in the buffer in front of `stale`. -/
def handle (s : Talk F) (stale : List UInt8) (env : Env F) (newfd : ℕ) : Option (Talk F) :=
  let bytes := s.up.take MAXLINE
  let r := handleRequest env s.globals (bytes ++ stale) bytes.length
  let t := { s with
    up := s.up.drop MAXLINE
    down := { s.down with sender := r.1.start }
    globals := r.2
    served := s.served ++ [(env, s.globals)] }
  match r.1 with
  | .sendErr _ _ => some { t with server := .answer none }
  | .sendFd f =>
    if s.serverFds newfd = none then
      some { t with server := .answer (some newfd), serverFds := s.serverFds.put newfd (.file f) }
    else none

/-- `close(newfd)`, if there is one. -/
def closeNewfd (s : Talk F) : Option ℕ → Table (Entry F)
  | none => s.serverFds
  | some newfd => s.serverFds.close newfd

/-- A turn of `recv_fd` that has changed `s.down` to `down`, and what `main` does when it returns. -/
def receive (s : Talk F) (down : State F) (newfd : ℕ) : Option (Talk F) :=
  let t := { s with down, err := s.err ++ down.recv.passed.drop s.down.recv.passed.length }
  match down.recv.pc with
  | .running => some t
  | .dumped _ => some { t with client := .aborted }
  | .returned none => some { t with client := .undefined }
  | .returned (some (.error _)) => some { t with client := .fgets }
  | .returned (some (.ok f)) =>
    if s.clientFds newfd = none then
      some { t with client := .copy newfd f 0, clientFds := s.clientFds.put newfd (.file f) }
    else none

def step (c : Setup F) (s : Talk F) : TalkAct F → Option (Talk F)
  | .fgets =>
    match s.client with
    | .fgets => some s.readLine
    | _ => none
  | .writev =>
    match s.client, s.clientFds c.fd with
    | .csopen name, some .sock =>
      some { s with
        client := .recvFd name
        up := s.up ++ (ask name).bytes
        down := { s.down with recv := Recv.start } }
    | _, _ => none
  | .read stale env newfd =>
    match s.server, s.serverFds 0 with
    | .read, some .sock => if s.up = [] then none else s.handle stale env newfd
    | _, _ => none
  | .write n =>
    match s.server, s.serverFds 1 with
    | .answer _, some .sock => (OpenServer.step (fun _ => 0) s.down (.write n)).map fun down => { s with down }
    | _, _ => none
  | .sendmsg =>
    match s.server, s.serverFds 1 with
    | .answer newfd, some .sock =>
      (OpenServer.step (fun _ => 0) s.down .sendmsg).map fun down =>
        { s with down, server := .read, serverFds := s.closeNewfd newfd }
    | _, _ => none
  | .recvmsg write newfd =>
    match s.client, s.clientFds c.fd with
    | .recvFd _, some .sock => (OpenServer.step write s.down .recvmsg).bind fun down => s.receive down newfd
    | _, _ => none
  | .copy n =>
    match s.client with
    | .copy fd f off =>
      if 1 ≤ n ∧ n ≤ BUFFSIZE ∧ off + n ≤ (c.contents f).length then
        some { s with client := .copy fd f (off + n), out := s.out ++ ((c.contents f).drop off).take n }
      else none
    | _ => none
  | .copyFails n =>
    match s.client with
    | .copy _ f off => some { s with client := .exited 1, out := s.out ++ ((c.contents f).drop off).take n }
    | _ => none
  | .close =>
    match s.client with
    | .copy fd f off =>
      if (c.contents f).length ≤ off then some { s with client := .fgets, clientFds := s.clientFds.close fd }
      else none
    | _ => none
  | .eof =>
    match s.client, s.server, s.serverFds 0 with
    | .exited _, .read, some .sock => if s.up = [] then some { s with server := .exited } else none
    | _, _, _ => none

/-! ### What a step can do -/

section cases
variable {c : Setup F} {s t : Talk F}

theorem step_fgets (hs : step c s .fgets = some t) : s.client = .fgets ∧ t = s.readLine := by
  dsimp only [step] at hs
  split at hs
  · exact ⟨‹_›, (Option.some.inj hs).symm⟩
  · cases hs

theorem step_writev (hs : step c s .writev = some t) :
    ∃ name, s.client = .csopen name ∧ t = { s with
      client := .recvFd name
      up := s.up ++ (ask name).bytes
      down := { s.down with recv := Recv.start } } := by
  dsimp only [step] at hs
  split at hs
  · exact ⟨_, ‹_›, (Option.some.inj hs).symm⟩
  · cases hs

theorem step_read {stale : List UInt8} {env : Env F} {newfd : ℕ}
    (hs : step c s (.read stale env newfd) = some t) :
    s.server = .read ∧ s.up ≠ [] ∧ s.handle stale env newfd = some t := by
  dsimp only [step] at hs
  split at hs
  · obtain ⟨hne, hs⟩ := Option.ite_none_left_eq_some.mp hs
    exact ⟨‹_›, hne, hs⟩
  · cases hs

theorem handle_eq_some {stale : List UInt8} {env : Env F} {newfd : ℕ} (hs : s.handle stale env newfd = some t) :
    ∃ fd?, t = { s with
        up := s.up.drop MAXLINE
        down := { s.down with sender :=
          (handleRequest env s.globals (s.up.take MAXLINE ++ stale) (s.up.take MAXLINE).length).1.start }
        globals := (handleRequest env s.globals (s.up.take MAXLINE ++ stale) (s.up.take MAXLINE).length).2
        served := s.served ++ [(env, s.globals)]
        server := .answer fd?
        serverFds := t.serverFds } ∧
      (fd? = none ∧ t.serverFds = s.serverFds ∨
        ∃ f, fd? = some newfd ∧ s.serverFds newfd = none ∧ t.serverFds = s.serverFds.put newfd (.file f)) := by
  unfold handle at hs
  simp only at hs
  split at hs
  · obtain rfl := Option.some.inj hs
    exact ⟨none, rfl, .inl ⟨rfl, rfl⟩⟩
  · rename_i f _
    obtain ⟨hfree, hs⟩ := Option.ite_none_right_eq_some.mp hs
    obtain rfl := Option.some.inj hs
    exact ⟨some newfd, rfl, .inr ⟨f, rfl, hfree, rfl⟩⟩

theorem step_write {n : ℕ} (hs : step c s (.write n) = some t) :
    ∃ down, OpenServer.step (fun _ => 0) s.down (.write n) = some down ∧ t = { s with down } := by
  dsimp only [step] at hs
  split at hs
  · obtain ⟨down, hdown, rfl⟩ := Option.map_eq_some_iff.mp hs
    exact ⟨down, hdown, rfl⟩
  · cases hs

theorem step_sendmsg (hs : step c s .sendmsg = some t) :
    ∃ newfd down, s.server = .answer newfd ∧ OpenServer.step (fun _ => 0) s.down .sendmsg = some down ∧
      t = { s with down, server := .read, serverFds := s.closeNewfd newfd } := by
  dsimp only [step] at hs
  split at hs
  · rename_i newfd hserver _
    obtain ⟨down, hdown, rfl⟩ := Option.map_eq_some_iff.mp hs
    exact ⟨newfd, down, hserver, hdown, rfl⟩
  · cases hs

theorem step_recvmsg {write : List UInt8 → ℤ} {newfd : ℕ} (hs : step c s (.recvmsg write newfd) = some t) :
    ∃ down, OpenServer.step write s.down .recvmsg = some down ∧ s.receive down newfd = some t := by
  dsimp only [step] at hs
  split at hs
  · exact Option.bind_eq_some_iff.mp hs
  · cases hs

theorem receive_running {down : State F} {newfd : ℕ} (hrunning : down.recv.pc = .running)
    (hs : s.receive down newfd = some t) :
    t = { s with down, err := s.err ++ down.recv.passed.drop s.down.recv.passed.length } := by
  unfold receive at hs
  simp only [hrunning, Option.some.injEq] at hs
  exact hs.symm

theorem receive_error {down : State F} {newfd : ℕ} {v : ℤ} (hpc : down.recv.pc = .returned (some (.error v)))
    (hs : s.receive down newfd = some t) :
    t = { s with
      down
      err := s.err ++ down.recv.passed.drop s.down.recv.passed.length
      client := .fgets } := by
  unfold receive at hs
  simp only [hpc, Option.some.injEq] at hs
  exact hs.symm

theorem receive_ok {down : State F} {newfd : ℕ} {f : F} (hpc : down.recv.pc = .returned (some (.ok f)))
    (hs : s.receive down newfd = some t) :
    s.clientFds newfd = none ∧ t = { s with
      down
      err := s.err ++ down.recv.passed.drop s.down.recv.passed.length
      client := .copy newfd f 0
      clientFds := s.clientFds.put newfd (.file f) } := by
  unfold receive at hs
  simp only [hpc] at hs
  obtain ⟨hfree, hs⟩ := Option.ite_none_right_eq_some.mp hs
  exact ⟨hfree, (Option.some.inj hs).symm⟩

theorem step_copy {n : ℕ} (hs : step c s (.copy n) = some t) :
    ∃ fd f off, s.client = .copy fd f off ∧ 1 ≤ n ∧ off + n ≤ (c.contents f).length ∧
      t = { s with client := .copy fd f (off + n), out := s.out ++ ((c.contents f).drop off).take n } := by
  dsimp only [step] at hs
  split at hs
  · obtain ⟨⟨hpos, -, hle⟩, hs⟩ := Option.ite_none_right_eq_some.mp hs
    exact ⟨_, _, _, ‹_›, hpos, hle, (Option.some.inj hs).symm⟩
  · cases hs

theorem step_copyFails {n : ℕ} (hs : step c s (.copyFails n) = some t) :
    ∃ fd f off, s.client = .copy fd f off ∧
      t = { s with client := .exited 1, out := s.out ++ ((c.contents f).drop off).take n } := by
  dsimp only [step] at hs
  split at hs
  · exact ⟨_, _, _, ‹_›, (Option.some.inj hs).symm⟩
  · cases hs

theorem step_close (hs : step c s .close = some t) :
    ∃ fd f off, s.client = .copy fd f off ∧ (c.contents f).length ≤ off ∧
      t = { s with client := .fgets, clientFds := s.clientFds.close fd } := by
  dsimp only [step] at hs
  split at hs
  · obtain ⟨hend, hs⟩ := Option.ite_none_right_eq_some.mp hs
    exact ⟨_, _, _, ‹_›, hend, (Option.some.inj hs).symm⟩
  · cases hs

theorem step_eof (hs : step c s .eof = some t) :
    ∃ status, s.client = .exited status ∧ s.server = .read ∧ t = { s with server := .exited } := by
  dsimp only [step] at hs
  split at hs
  · obtain ⟨-, hs⟩ := Option.ite_none_right_eq_some.mp hs
    exact ⟨_, ‹_›, ‹_›, (Option.some.inj hs).symm⟩
  · cases hs

end cases

end Talk

end Apue.OpenServer.V1
