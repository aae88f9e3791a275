import Apue.Lib.CString
import Apue.Lib.Descriptors
import Mathlib.Data.Int.Notation

/-!
# Connections over UNIX domain sockets (Chapter-17/17-8.c, Chapter-17/17-10.c)

One call of `serv_listen` or `cli_conn`: the descriptors, the files that the names of sockets stand for,
`errno`, and a log of the system calls with their errors. Every system call may succeed or fail.

`serv_listen` lets a name of `SUN_PATH` bytes through, so `strcpy` writes one byte too many, and leaves the
socket's file behind when `listen` fails; `cli_conn` puts `ENAMETOOLONG` into a variable and not into
`errno`. `unix_socket_iff` says when the two do what they should.
-/

namespace Apue.UnixSocket
open Descriptors

/-- `sizeof(un.sun_path)`. -/
def SUN_PATH : ℕ := 108

def EADDRINUSE : ℕ := 98
def ENAMETOOLONG : ℕ := 36

inductive File where
  | other
  | sock
  deriving DecidableEq

/-- A file that was there before the call, or that `bind` has made. -/
inductive Node where
  | before
  | bound
  deriving DecidableEq

inductive Call where
  | socket
  | unlink (path : CStr)
  | bind (path : CStr)
  | chmod (path : CStr)
  | listen
  | connect (path : CStr)
  | close (fd : ℕ)
  deriving DecidableEq

/-- The calls whose failure makes the function fail. -/
def Call.checked : Call → Bool
  | .unlink _ => false
  | .close _ => false
  | _ => true

/-- What there is before the call. -/
structure World where
  fds : Table File
  files : CStr → Bool
  errno : ℕ

structure State where
  fds : Table File
  files : CStr → Option Node
  errno : ℕ
  /-- The system calls so far, each with its error. -/
  log : List (Call × Option ℕ)
  /-- More than `SUN_PATH` bytes were written into a `sun_path`. -/
  overflow : Bool

def World.start (w : World) : State where
  fds := w.fds
  files path := if w.files path then some .before else none
  errno := w.errno
  log := []
  overflow := false

/-- The outcomes of the system calls: the descriptor of `socket`, and the errors of the others. The second
`unlink` is the one at `errout`. -/
structure Env (w : World) where
  socket : Except ℕ { fd : ℕ // w.fds fd = none }
  unlink : Option ℕ
  bind : Option ℕ
  chmod : Option ℕ
  listen : Option ℕ
  connect : Option ℕ
  close : Option ℕ
  cleanup : Option ℕ
  pid : ℕ
  pid_lt : pid < 2 ^ 31

/-! ### The system calls -/

namespace State

/-- A call that fails sets `errno`. -/
def called (s : State) (c : Call) (r : Option ℕ) : State :=
  { s with log := s.log ++ [(c, r)], errno := r.getD s.errno }

def opened (s : State) (fd : ℕ) : State := { s.called .socket none with fds := s.fds.put fd .sock }

/-- The descriptor is gone in any case. -/
def close (s : State) (fd : ℕ) (r : Option ℕ) : State :=
  { s.called (.close fd) r with fds := s.fds.close fd }

def unlink (s : State) (path : CStr) (r : Option ℕ) : State :=
  { s.called (.unlink path) r with
    files := if r = none then Function.update s.files path none else s.files }

/-- What `bind` returns: a file that is there already makes it fail. -/
def bindError (s : State) (path : CStr) (r : Option ℕ) : Option ℕ :=
  if s.files path ≠ none then some EADDRINUSE else r

/-- `bind` makes the file; the socket gets a name without a file if there are no bytes in `path`. -/
def bind (s : State) (path : CStr) (r : Option ℕ) : State :=
  { s.called (.bind path) r with
    files := if r = none ∧ path ≠ CStr.empty then Function.update s.files path (some .bound) else s.files }

/-- `strcpy` or `sprintf` into `sun_path`. -/
def copy (s : State) (path : CStr) : State :=
  { s with overflow := s.overflow || decide (SUN_PATH < path.length + 1) }

end State

variable {w : World}

/-- What stands at `errout` in both functions; only `cli_conn` has a file to unlink. -/
def errout (env : Env w) (s : State) (fd : ℕ) (rval : ℤ) (do_unlink : Option CStr) : ℤ × State :=
  let err := s.errno
  let s := s.close fd env.close
  let s :=
    match do_unlink with
    | none => s
    | some path => s.unlink path env.cleanup
  (rval, { s with errno := err })

/-! ### The two functions -/

/-- `serv_listen`: what it returns, and the state after it. -/
def servListen (env : Env w) (name : CStr) : ℤ × State :=
  if SUN_PATH < name.length then (-1, { w.start with errno := ENAMETOOLONG })
  else
    match env.socket with
    | .error e => (-2, w.start.called .socket (some e))
    | .ok fd =>
      let s := ((w.start.opened fd).unlink name env.unlink).copy name
      let r := s.bindError name env.bind
      let s := s.bind name r
      if r ≠ none then errout env s fd (-3) none
      else
        let s := s.called .listen env.listen
        if env.listen ≠ none then errout env s fd (-4) none
        else ((fd : ℕ), s)

/-- `sprintf(un.sun_path, "%s%05ld", CLI_PATH, (long)getpid())`. -/
def cliPath (pid : ℕ) : CStr where
  bytes := ascii "/var/tmp/" ++ (List.replicate (5 - (CStr.digitBytes pid).length) 48 ++ CStr.digitBytes pid)
  noNul h := by
    obtain h | h | h := (List.mem_append.mp h).imp_right List.mem_append.mp
    · exact absurd h (by decide)
    · exact absurd (List.eq_of_mem_replicate h) (by decide)
    · exact absurd (CStr.toNat_digitBytes h) (by decide)

/-- `cli_conn`. A name that is too long only sets the variable `err`. -/
def cliConn (env : Env w) (name : CStr) : ℤ × State :=
  if SUN_PATH ≤ name.length then (-1, w.start)
  else
    match env.socket with
    | .error e => (-1, w.start.called .socket (some e))
    | .ok fd =>
      let un := cliPath env.pid
      let s := ((w.start.opened fd).copy un).unlink un env.unlink
      let r := s.bindError un env.bind
      let s := s.bind un r
      if r ≠ none then errout env s fd (-2) none
      else
        let s := s.called (.chmod un) env.chmod
        if env.chmod ≠ none then errout env s fd (-3) (some un)
        else
          let s := (s.copy name).called (.connect name) env.connect
          if env.connect ≠ none then errout env s fd (-4) (some un)
          else ((fd : ℕ), s)

/-! ### What they should do -/

/-- No file that `bind` has made is there. -/
def State.NoBound (s : State) : Prop := ∀ path, s.files path ≠ some .bound

/-- A descriptor was returned, and is the only new one. -/
def Opened (w : World) (r : ℤ × State) : Prop :=
  ∃ fd : ℕ, r.1 = fd ∧ w.fds fd = none ∧ r.2.fds = w.fds.put fd .sock

/-- Nothing is left of the call but the error of the step that failed. -/
structure Failed (w : World) (r : ℤ × State) : Prop where
  neg : r.1 < 0
  fds : r.2.fds = w.fds
  files : r.2.NoBound
  step : ∃ c, c.checked = true ∧ (c, some r.2.errno) ∈ r.2.log
  errno : ∀ c e, (c, some e) ∈ r.2.log → c.checked = true → e = r.2.errno

/-- The name was refused before any system call. -/
structure Refused (w : World) (r : ℤ × State) : Prop where
  neg : r.1 < 0
  fds : r.2.fds = w.fds
  files : r.2.NoBound
  log : r.2.log = []
  errno : r.2.errno = ENAMETOOLONG

structure Right (w : World) (name : CStr) (r : ℤ × State) : Prop where
  fits : name.length < SUN_PATH → Opened w r ∨ Failed w r
  long : SUN_PATH ≤ name.length → Refused w r
  bounds : r.2.overflow = false

/-- `socket` and `bind` succeed. -/
structure Env.Binds (env : Env w) (path : CStr) : Prop where
  socket : ∃ fd, env.socket = .ok fd
  unlink : w.files path = true → env.unlink = none
  bind : env.bind = none

/-- The name has not just as many bytes as `sun_path`, and `listen` does not fail after `bind` made a file. -/
def ServFine (env : Env w) (name : CStr) : Prop :=
  name.length ≠ SUN_PATH ∧
    (name.length < SUN_PATH → name ≠ CStr.empty → env.Binds name → env.listen = none)

/-- If the name is too long, `errno` was `ENAMETOOLONG` before; if it is not, the second `unlink` succeeds
wherever it is called. -/
def CliFine (env : Env w) (name : CStr) : Prop :=
  (SUN_PATH ≤ name.length → w.errno = ENAMETOOLONG) ∧
    (name.length < SUN_PATH → env.Binds (cliPath env.pid) → env.chmod ≠ none ∨ env.connect ≠ none →
      env.cleanup = none)

/-! ### The states in between -/

section steps
variable {s : State} {path : CStr} {r : Option ℕ} {fd : ℕ}

theorem State.NoBound.unlink (h : s.NoBound) : (s.unlink path r).NoBound := by
  intro p
  simp only [State.unlink]
  split
  · by_cases hp : p = path
    · subst hp
      simp
    · rw [Function.update_of_ne hp]
      exact h p
  · exact h p

theorem World.start_noBound (w : World) : w.start.NoBound := by
  intro p
  simp only [World.start]
  split
  · simp
  · simp

theorem State.NoBound.bind (h : s.NoBound) (hr : r ≠ none ∨ path = CStr.empty) : (s.bind path r).NoBound := by
  have hno : ¬ (r = none ∧ path ≠ CStr.empty) := fun hboth => hr.elim (· hboth.1) hboth.2
  intro p
  simp only [State.bind, if_neg hno]
  exact h p

theorem State.not_noBound_bind (hpath : path ≠ CStr.empty) : ¬ (s.bind path none).NoBound := by
  intro h
  have hbound : (s.bind path none).files path = some .bound := by
    simp [State.bind, hpath]
  exact h path hbound

theorem State.NoBound.bind_unlink (h : s.NoBound) : ((s.bind path none).unlink path none).NoBound := by
  intro p
  simp only [State.unlink, State.bind, if_true]
  by_cases hp : p = path
  · subst hp
    simp
  · rw [Function.update_of_ne hp]
    split
    · rw [Function.update_of_ne hp]
      exact h p
    · exact h p

theorem State.bindError_eq_none (hfiles : s.files = (w.start.unlink path r).files) {r' : Option ℕ} :
    s.bindError path r' = none ↔ (w.files path = true → r = none) ∧ r' = none := by
  have hfree : s.files path = none ↔ (w.files path = true → r = none) := by
    rw [hfiles]
    simp only [State.unlink, World.start]
    split
    · rename_i hr
      simp [hr]
    · rename_i hr
      simp [hr]
  unfold State.bindError
  rw [← hfree]
  by_cases h : s.files path = none
  · simp [h]
  · simp [h]

@[simp] theorem State.called_overflow {c : Call} : (s.called c r).overflow = s.overflow := rfl
@[simp] theorem State.opened_overflow : (s.opened fd).overflow = s.overflow := rfl
@[simp] theorem State.unlink_overflow : (s.unlink path r).overflow = s.overflow := rfl
@[simp] theorem State.bind_overflow : (s.bind path r).overflow = s.overflow := rfl

theorem State.copy_overflow (hfits : path.length < SUN_PATH) : (s.copy path).overflow = s.overflow := by
  have hlong : ¬ SUN_PATH < path.length + 1 := by omega
  rw [State.copy, decide_eq_false hlong, Bool.or_false]

@[simp] theorem errout_overflow (env : Env w) {rval : ℤ} {du : Option CStr} :
    (errout env s fd rval du).2.overflow = s.overflow := by
  cases du with
  | none => rfl
  | some path => rfl

@[simp] theorem World.start_overflow : w.start.overflow = false := rfl

theorem not_opened {x : ℤ × State} (hneg : x.1 < 0) : ¬ Opened w x := by
  rintro ⟨fd, hfd, -⟩
  omega

/-- A step of the call has failed, and nothing since `socket` before it. -/
structure Failing (w : World) (fd : ℕ) (s : State) : Prop where
  free : w.fds fd = none
  fds : s.fds = w.fds.put fd .sock
  step : ∃ c, c.checked = true ∧ (c, some s.errno) ∈ s.log
  errno : ∀ c e, (c, some e) ∈ s.log → c.checked = true → e = s.errno

theorem Failing.errout (h : Failing w fd s) (env : Env w) {rval : ℤ} (hneg : rval < 0) {du : Option CStr}
    (hfiles : (errout env s fd rval du).2.NoBound) : Failed w (errout env s fd rval du) := by
  have hfds : (w.fds.put fd .sock).close fd = w.fds := by
    funext i
    by_cases hi : i = fd
    · subst hi
      rw [Table.close_self, h.free]
    · rw [Table.close_of_ne _ hi, Table.put_of_ne _ hi]
  have hfds' : (UnixSocket.errout env s fd rval du).2.fds = w.fds := by
    rw [← hfds, ← h.fds]
    cases du with
    | none => rfl
    | some path => rfl
  have hlog : ∃ l, (UnixSocket.errout env s fd rval du).2.log = s.log ++ l ∧ ∀ x ∈ l, x.1.checked = false := by
    cases du with
    | none => exact ⟨[_], rfl, fun x hx => by rw [List.mem_singleton.mp hx]; rfl⟩
    | some path =>
      refine ⟨[_, _], List.append_assoc .., ?_⟩
      simp [Call.checked]
  obtain ⟨l, hl, hunchecked⟩ := hlog
  obtain ⟨c, hc, hmem⟩ := h.step
  refine ⟨hneg, hfds', hfiles, ⟨c, hc, hl ▸ List.mem_append_left _ hmem⟩, fun c' e he hc' => ?_⟩
  rw [hl] at he
  obtain he | he := List.mem_append.mp he
  · exact h.errno c' e he hc'
  · rw [hunchecked _ he] at hc'
    cases hc'

/-- With a file that `bind` has made, nothing is left if and only if the second `unlink` succeeds. -/
theorem Failing.errout_unlink {t : State} (h : Failing w fd t) (env : Env w) {rval : ℤ} (hneg : rval < 0)
    (hclean : s.NoBound) (hpath : path ≠ CStr.empty) (hfiles : t.files = (s.bind path none).files) :
    Opened w (UnixSocket.errout env t fd rval (some path)) ∨ Failed w (UnixSocket.errout env t fd rval (some path)) ↔
      env.cleanup = none := by
  have hfiles' : (UnixSocket.errout env t fd rval (some path)).2.files =
      ((s.bind path none).unlink path env.cleanup).files := by
    simp only [UnixSocket.errout, State.unlink, State.close, State.called, hfiles]
  cases hcleanup : env.cleanup with
  | none =>
    rw [hcleanup] at hfiles'
    refine iff_of_true (.inr (h.errout env hneg fun p => ?_)) rfl
    rw [hfiles']
    exact hclean.bind_unlink p
  | some e =>
    rw [hcleanup] at hfiles'
    refine iff_of_false ?_ (by simp)
    rintro (hopened | hfailed)
    · exact not_opened hneg hopened
    · refine State.not_noBound_bind (s := s) hpath fun p => ?_
      rw [show (s.bind path none).files = _ from hfiles'.symm]
      exact hfailed.files p

/-- The socket is there, and no step has failed. -/
structure Going (w : World) (fd : ℕ) (s : State) : Prop where
  free : w.fds fd = none
  fds : s.fds = w.fds.put fd .sock
  errors : ∀ c e, (c, some e) ∈ s.log → c.checked = false

theorem opened_going (hfree : w.fds fd = none) : Going w fd (w.start.opened fd) where
  free := hfree
  fds := rfl
  errors c e he := by
    obtain ⟨-, he⟩ := Prod.mk.inj (List.mem_singleton.mp he)
    cases he

theorem Going.next {t : State} {c : Call} (h : Going w fd s) (hfds : t.fds = s.fds)
    (hlog : t.log = s.log ++ [(c, r)]) (hc : r = none ∨ c.checked = false) : Going w fd t := by
  refine ⟨h.free, hfds.trans h.fds, fun c' e he => ?_⟩
  rw [hlog] at he
  obtain he | he := List.mem_append.mp he
  · exact h.errors c' e he
  · obtain ⟨rfl, hr⟩ := Prod.mk.inj (List.mem_singleton.mp he)
    obtain rfl | hc := hc
    · cases hr
    · exact hc

theorem Going.failing {t : State} {c : Call} {e : ℕ} (h : Going w fd s) (hfds : t.fds = s.fds)
    (hlog : t.log = s.log ++ [(c, some e)]) (hc : c.checked = true) (herrno : t.errno = e) :
    Failing w fd t := by
  refine ⟨h.free, hfds.trans h.fds, ⟨c, hc, ?_⟩, fun c' e' he hc' => ?_⟩
  · rw [hlog, herrno]
    exact List.mem_append_right _ (List.mem_singleton.mpr rfl)
  · rw [hlog] at he
    obtain he | he := List.mem_append.mp he
    · rw [h.errors c' e' he] at hc'
      cases hc'
    · obtain ⟨-, he⟩ := Prod.mk.inj (List.mem_singleton.mp he)
      rw [herrno]
      exact Option.some.inj he

theorem failed_socket (w : World) {rval : ℤ} (hneg : rval < 0) (e : ℕ) :
    Failed w (rval, w.start.called .socket (some e)) where
  neg := hneg
  fds := rfl
  files := w.start_noBound
  step := ⟨.socket, rfl, List.mem_singleton.mpr rfl⟩
  errno c e' he _ := by
    obtain ⟨-, he⟩ := Prod.mk.inj (List.mem_singleton.mp he)
    exact Option.some.inj he

theorem Going.opened (h : Going w fd s) : Opened w ((fd : ℕ), s) := ⟨fd, rfl, h.free, h.fds⟩

end steps

/-! ### `serv_listen` -/

section serv
variable (env : Env w) {name : CStr}

theorem Env.binds_iff {path : CStr} {fd : { fd : ℕ // w.fds fd = none }} (hsocket : env.socket = .ok fd) :
    env.Binds path ↔ (w.files path = true → env.unlink = none) ∧ env.bind = none :=
  ⟨fun h => ⟨h.unlink, h.bind⟩, fun h => ⟨⟨fd, hsocket⟩, h.1, h.2⟩⟩

theorem servListen_fits (hlt : name.length < SUN_PATH) :
    Opened w (servListen env name) ∨ Failed w (servListen env name) ↔
      (name ≠ CStr.empty → env.Binds name → env.listen = none) := by
  unfold servListen
  rw [if_neg (by omega)]
  cases hsocket : env.socket with
  | error e =>
    refine iff_of_true (.inr (failed_socket w (by decide) e)) fun _ hbinds => ?_
    obtain ⟨fd, hfd⟩ := hbinds.socket
    rw [hsocket] at hfd
    cases hfd
  | ok fd =>
    rw [env.binds_iff hsocket]
    obtain ⟨fd, hfree⟩ := fd
    -- the state in front of `bind`
    simp only [ne_eq, ite_not]
    generalize hs : ((w.start.opened fd).unlink name env.unlink).copy name = s
    have hgoing : Going w fd s := hs ▸ (opened_going hfree).next rfl rfl (.inr rfl)
    have hclean : s.NoBound := hs ▸ w.start_noBound.unlink
    have hfiles : s.files = (w.start.unlink name env.unlink).files := hs ▸ rfl
    rw [← State.bindError_eq_none hfiles]
    cases hr : s.bindError name env.bind with
    | some e =>
      have hfailing : Failing w fd (s.bind name (some e)) := hgoing.failing rfl rfl rfl rfl
      have hclean' : (s.bind name (some e)).NoBound := hclean.bind (.inl (by simp))
      rw [if_neg (by simp)]
      exact iff_of_true (.inr (hfailing.errout env (by decide) hclean')) (by simp)
    | none =>
      have hgoing' : Going w fd (s.bind name none) := hgoing.next rfl rfl (.inl rfl)
      rw [if_pos rfl]
      cases hlisten : env.listen with
      | none =>
        have hdone : Going w fd ((s.bind name none).called .listen none) := hgoing'.next rfl rfl (.inl rfl)
        rw [if_pos rfl]
        exact iff_of_true (.inl hdone.opened) (by simp)
      | some e =>
        rw [if_neg (by simp)]
        have hfailing : Failing w fd ((s.bind name none).called .listen (some e)) :=
          hgoing'.failing rfl rfl rfl rfl
        by_cases hname : name = CStr.empty
        · have hclean' : (s.bind name none).NoBound := hclean.bind (.inr hname)
          exact iff_of_true (.inr (hfailing.errout env (by decide) hclean')) (by simp [hname])
        · refine iff_of_false ?_ (by simp [hname])
          rintro (hopened | hfailed)
          · exact not_opened (show (-4 : ℤ) < 0 by decide) hopened
          · exact State.not_noBound_bind hname hfailed.files

theorem servListen_overflow (hlt : name.length < SUN_PATH) : (servListen env name).2.overflow = false := by
  unfold servListen
  rw [if_neg (by omega)]
  cases hsocket : env.socket with
  | error e => rfl
  | ok fd =>
    simp only
    split
    · simp [State.copy_overflow hlt]
    · split
      · simp [State.copy_overflow hlt]
      · simp [State.copy_overflow hlt]

theorem servListen_log : (servListen env name).2.log = [] ↔ SUN_PATH < name.length := by
  unfold servListen
  split
  · rename_i hlong
    exact iff_of_true rfl hlong
  · rename_i hlong
    refine iff_of_false ?_ hlong
    cases hsocket : env.socket with
    | error e => exact List.cons_ne_nil _ _
    | ok fd =>
      simp only
      split
      · exact List.append_ne_nil_of_right_ne_nil _ (by simp)
      · split
        · exact List.append_ne_nil_of_right_ne_nil _ (by simp)
        · exact List.append_ne_nil_of_right_ne_nil _ (by simp)

theorem servListen_iff : Right w name (servListen env name) ↔ ServFine env name := by
  obtain hlt | heq | hgt := Nat.lt_trichotomy name.length SUN_PATH
  · constructor
    · intro hright
      exact ⟨hlt.ne, fun _ => (servListen_fits env hlt).mp (hright.fits hlt)⟩
    · intro hfine
      exact ⟨fun _ => (servListen_fits env hlt).mpr (hfine.2 hlt), fun hle => absurd hlt (by omega),
        servListen_overflow env hlt⟩
  · refine iff_of_false (fun hright => ?_) fun hfine => hfine.1 heq
    have hlong := (servListen_log env).mp (hright.long heq.ge).log
    omega
  · refine iff_of_true ⟨fun hlt => absurd hlt (by omega), fun _ => ?_, ?_⟩ ⟨hgt.ne', fun hlt => absurd hlt (by omega)⟩
    · rw [servListen, if_pos hgt]
      exact ⟨show (-1 : ℤ) < 0 by decide, rfl, w.start_noBound, rfl, rfl⟩
    · rw [servListen, if_pos hgt]
      rfl

end serv

/-! ### `cli_conn` -/

section cli
variable (env : Env w) {name : CStr}

theorem cliPath_ne_empty {pid : ℕ} : cliPath pid ≠ CStr.empty := by
  intro h
  have hnil := (List.append_eq_nil_iff.mp (congrArg CStr.bytes h)).1
  exact absurd hnil (by decide)

theorem length_cliPath {pid : ℕ} (hpid : pid < 2 ^ 31) : (cliPath pid).length < SUN_PATH := by
  have hlen : (CStr.digitBytes pid).length ≤ 10 :=
    CStr.length_digitBytes_le (by omega) (Nat.lt_trans hpid (by norm_num))
  have hdir : (ascii "/var/tmp/").length = 9 := by decide
  show (ascii "/var/tmp/" ++ _).length < 108
  rw [List.length_append, List.length_append, List.length_replicate]
  omega

theorem cliConn_fits (hlt : name.length < SUN_PATH) :
    Opened w (cliConn env name) ∨ Failed w (cliConn env name) ↔
      (env.Binds (cliPath env.pid) → env.chmod ≠ none ∨ env.connect ≠ none → env.cleanup = none) := by
  unfold cliConn
  rw [if_neg (by omega)]
  cases hsocket : env.socket with
  | error e =>
    refine iff_of_true (.inr (failed_socket w (by decide) e)) fun hbinds => ?_
    obtain ⟨fd, hfd⟩ := hbinds.socket
    rw [hsocket] at hfd
    cases hfd
  | ok fd =>
    rw [env.binds_iff hsocket]
    obtain ⟨fd, hfree⟩ := fd
    generalize hun : cliPath env.pid = un
    have hpath : un ≠ CStr.empty := hun ▸ cliPath_ne_empty
    -- the state in front of `bind`
    simp only [ne_eq, ite_not]
    generalize hs : ((w.start.opened fd).copy un).unlink un env.unlink = s
    have hgoing : Going w fd s := hs ▸ (opened_going hfree).next rfl rfl (.inr rfl)
    have hclean : s.NoBound := hs ▸ w.start_noBound.unlink
    have hfiles : s.files = (w.start.unlink un env.unlink).files := hs ▸ rfl
    rw [← State.bindError_eq_none hfiles]
    cases hr : s.bindError un env.bind with
    | some e =>
      have hfailing : Failing w fd (s.bind un (some e)) := hgoing.failing rfl rfl rfl rfl
      have hclean' : (s.bind un (some e)).NoBound := hclean.bind (.inl (by simp))
      rw [if_neg (by simp)]
      exact iff_of_true (.inr (hfailing.errout env (by decide) hclean')) (by simp)
    | none =>
      have hgoing' : Going w fd (s.bind un none) := hgoing.next rfl rfl (.inl rfl)
      rw [if_pos rfl]
      cases hchmod : env.chmod with
      | some e =>
        have hfailing : Failing w fd ((s.bind un none).called (.chmod un) (some e)) :=
          hgoing'.failing rfl rfl rfl rfl
        rw [if_neg (by simp), hfailing.errout_unlink env (by decide) hclean hpath rfl]
        simp
      | none =>
        have hgoing'' : Going w fd (((s.bind un none).called (.chmod un) none).copy name) :=
          hgoing'.next rfl rfl (.inl rfl)
        rw [if_pos rfl]
        cases hconnect : env.connect with
        | some e =>
          have hfailing : Failing w fd
              ((((s.bind un none).called (.chmod un) none).copy name).called (.connect name) (some e)) :=
            hgoing''.failing rfl rfl rfl rfl
          rw [if_neg (by simp), hfailing.errout_unlink env (by decide) hclean hpath rfl]
          simp
        | none =>
          have hdone : Going w fd
              ((((s.bind un none).called (.chmod un) none).copy name).called (.connect name) none) :=
            hgoing''.next rfl rfl (.inl rfl)
          rw [if_pos rfl]
          exact iff_of_true (.inl hdone.opened) (by simp)

theorem cliConn_overflow : (cliConn env name).2.overflow = false := by
  have hun := length_cliPath env.pid_lt
  unfold cliConn
  split
  · rfl
  · rename_i hlong
    have hname : name.length < SUN_PATH := Nat.lt_of_not_le hlong
    cases hsocket : env.socket with
    | error e => rfl
    | ok fd =>
      simp only
      split
      · simp [State.copy_overflow hun]
      · split
        · simp [State.copy_overflow hun]
        · split
          · simp [State.copy_overflow hun, State.copy_overflow hname]
          · simp [State.copy_overflow hun, State.copy_overflow hname]

theorem cliConn_log : (cliConn env name).2.log = [] ↔ SUN_PATH ≤ name.length := by
  unfold cliConn
  split
  · rename_i hlong
    exact iff_of_true rfl hlong
  · rename_i hlong
    refine iff_of_false ?_ hlong
    cases hsocket : env.socket with
    | error e => exact List.cons_ne_nil _ _
    | ok fd =>
      simp only
      split
      · exact List.append_ne_nil_of_right_ne_nil _ (by simp)
      · split
        · exact List.append_ne_nil_of_right_ne_nil _ (by simp)
        · split
          · exact List.append_ne_nil_of_right_ne_nil _ (by simp)
          · exact List.append_ne_nil_of_right_ne_nil _ (by simp)

theorem cliConn_iff : Right w name (cliConn env name) ↔ CliFine env name := by
  by_cases hlong : SUN_PATH ≤ name.length
  · have hcall : cliConn env name = (-1, w.start) := by
      rw [cliConn, if_pos hlong]
    rw [hcall]
    constructor
    · intro hright
      exact ⟨fun _ => (hright.long hlong).errno, fun hlt => absurd hlt (by omega)⟩
    · intro hfine
      exact ⟨fun hlt => absurd hlt (by omega),
        fun _ => ⟨show (-1 : ℤ) < 0 by decide, rfl, w.start_noBound, rfl, hfine.1 hlong⟩, rfl⟩
  · have hlt : name.length < SUN_PATH := Nat.lt_of_not_le hlong
    constructor
    · intro hright
      exact ⟨fun hle => absurd hle hlong, fun _ => (cliConn_fits env hlt).mp (hright.fits hlt)⟩
    · intro hfine
      exact ⟨fun _ => (cliConn_fits env hlt).mpr (hfine.2 hlt), fun hle => absurd hle hlong,
        cliConn_overflow env⟩

end cli

/-! ### Both -/

/-- When each of the two does what it should, and when they refuse the same names. -/
theorem unix_socket_iff (env : Env w) (name : CStr) :
    (Right w name (servListen env name) ↔ ServFine env name) ∧
      (Right w name (cliConn env name) ↔ CliFine env name) ∧
      (((servListen env name).2.log = [] ↔ (cliConn env name).2.log = []) ↔ name.length ≠ SUN_PATH) := by
  refine ⟨servListen_iff env, cliConn_iff env, ?_⟩
  rw [servListen_log, cliConn_log]
  omega

/-- Nothing is there and nothing fails. -/
def quiet : World := ⟨fun _ => none, fun _ => false, 0⟩

def succeeding : Env quiet :=
  ⟨.ok ⟨3, rfl⟩, none, none, none, none, none, none, none, 4711, by decide⟩

/-- As many bytes as `sun_path` has. -/
def exactly : CStr := ⟨List.replicate 108 97, by decide⟩

/-- `serv_listen` accepts the name and writes past the end of `sun_path`; `cli_conn` refuses it without
setting `errno`. -/
theorem unix_socket_exactly : (servListen succeeding exactly).1 = 3 ∧
    (servListen succeeding exactly).2.overflow = true ∧ (cliConn succeeding exactly).1 = -1 ∧
    (cliConn succeeding exactly).2.errno ≠ ENAMETOOLONG ∧
    ¬ Right quiet exactly (servListen succeeding exactly) ∧ ¬ Right quiet exactly (cliConn succeeding exactly) := by
  have hlength : exactly.length = SUN_PATH := List.length_replicate
  have hrefused : cliConn succeeding exactly = (-1, quiet.start) := by
    rw [cliConn, if_pos hlength.ge]
  refine ⟨rfl, rfl, ?_, ?_, fun h => ((servListen_iff _).mp h).1 hlength, fun h => ?_⟩
  · rw [hrefused]
  · rw [hrefused]
    decide
  · exact absurd (((cliConn_iff _).mp h).1 hlength.ge) (by decide)

end Apue.UnixSocket
