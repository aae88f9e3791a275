import Apue.Lib.CString
import Apue.Lib.Descriptors
import Apue.Lib.Transition
import Mathlib.Data.Int.Notation

/-!
# Who has connected (Chapter-17/17-9.c)

A server that calls `serv_accept` over and over, in the middle of any number of processes that bind names to
sockets, connect, and change, remove and make files. `serv_accept` takes the owner of the file behind the name of
the other end for the user who has connected.

`files` is what `stat` says of a name, which has to be the same for every process, so the names are absolute. A
`change` may be of the file, of its owner, or of a link on the way to it.

`serv_accept` is right as long as the name leads to a socket of the same user from `bind` to the end of `serv_accept`
(`Stays`): nobody removes the file, gives it to somebody else or puts another one in its place. `serv_accept_run` says
what holds then, and `serv_accept_takes_over` shows a run in which a file is removed and another user is taken for
the one who has connected.
-/

namespace Apue.ServAccept
open Descriptors Transition

/-- What `serv_accept` looks at of a `struct stat`. -/
structure Stat where
  isSock : Bool
  mode : ℕ
  atime : ℤ
  ctime : ℤ
  mtime : ℤ
  uid : ℕ
  deriving DecidableEq

def S_IRWXU : ℕ := 448
def S_IRWXG : ℕ := 56
def S_IRWXO : ℕ := 7
def STALE : ℤ := 30

/-- `rwx------`, or else `serv_accept` returns -5. -/
def Stat.Private (st : Stat) : Prop := st.mode &&& (S_IRWXG ||| S_IRWXO) = 0 ∧ st.mode &&& S_IRWXU = S_IRWXU

/-- None of the three times is older than `STALE` seconds. -/
def Stat.Fresh (st : Stat) (now : ℤ) : Prop :=
  now - STALE ≤ st.atime ∧ now - STALE ≤ st.ctime ∧ now - STALE ≤ st.mtime

instance (st : Stat) : Decidable st.Private := inferInstanceAs (Decidable (_ ∧ _))

instance (st : Stat) (now : ℤ) : Decidable (st.Fresh now) := inferInstanceAs (Decidable (_ ∧ _ ∧ _))

/-- The processes that connect: `uid p` is the user, `path p` the name that `p` binds. -/
structure Peers (P : Type*) where
  uid : P → ℕ
  path : P → CStr

/-- What has become of the socket of a process. -/
inductive Stage where
  | unbound
  | bound
  | connected
  | served
  deriving DecidableEq

inductive Entry (P : Type*) where
  | other
  | conn (p : P)
  deriving DecidableEq

/-- The server is outside of `serv_accept`; before `accept`, `stat`, `time`, or the `unlink` at the end; or at
`errout` with what it is going to return. `p` is the process at the other end of `clifd`. -/
inductive Pc (P : Type*) where
  | out
  | accept
  | stat (p : P) (clifd : ℕ)
  | time (p : P) (clifd : ℕ) (st : Stat)
  | unlink (p : P) (clifd : ℕ) (st : Stat)
  | errout (p : P) (clifd : ℕ) (rval : ℤ)
  deriving DecidableEq

/-- What a call has returned, `*uidptr` after it if it was set, and whose connection it was about. -/
structure Result (P : Type*) where
  rval : ℤ
  uid : Option ℕ
  peer : Option P
  deriving DecidableEq

/-- `connects` logs who has connected, in this order; `names` is how many of the buffers from `malloc` there
are. -/
structure State (P : Type*) where
  files : CStr → Option Stat
  now : ℤ
  stage : P → Stage
  queue : List P
  connects : List P
  fds : Table (Entry P)
  names : ℕ
  errno : ℕ
  pc : Pc P
  results : List (Result P)

/-- A system call of the server comes with its error, if it fails. -/
inductive Act (P : Type*) where
  | call (malloc : Bool)
  | accept (r : Except ℕ ℕ)
  | stat (err : Option ℕ)
  | time
  | unlink (err : Option ℕ)
  | close (err : Option ℕ)
  | bind (p : P) (mode : ℕ)
  | connect (p : P)
  | tick (n : ℕ)
  | create (path : CStr) (st : Stat)
  | change (path : CStr) (st : Stat)
  | remove (path : CStr)

variable {P : Type*}

namespace State

def Free (s : State P) (fd : ℕ) : Prop := s.fds fd = none

instance (s : State P) (fd : ℕ) : Decidable (s.Free fd) :=
  match h : s.fds fd with
  | none => isTrue h
  | some _ => isFalse fun hfree => by rw [Free, h] at hfree; cases hfree

/-- A call that fails sets `errno`. -/
def fails (s : State P) (e : Option ℕ) : State P := { s with errno := e.getD s.errno }

/-- Out of `serv_accept`, with the buffer freed. -/
def leave (s : State P) (r : Result P) : State P :=
  { s with pc := .out, names := s.names - 1, results := s.results ++ [r] }

end State

/-- The server has done with the connection of `p`. -/
def State.serve [DecidableEq P] (s : State P) (p : P) : State P := { s with stage := Function.update s.stage p .served }

/-- `name` holds what `accept` has put into `sun_path`, which is `peers.path p`. -/
def step [DecidableEq P] (peers : Peers P) (s : State P) : Act P → Option (State P)
  | .call malloc =>
    match s.pc with
    | .out =>
      if malloc then some { s with pc := .accept, names := s.names + 1 }
      else some { s with results := s.results ++ [⟨-1, none, none⟩] }
    | _ => none
  | .accept r =>
    match s.pc, r, s.queue with
    | .accept, .error e, _ => some ((s.fails (some e)).leave ⟨-2, none, none⟩)
    | .accept, .ok clifd, p :: queue =>
      if s.Free clifd then
        some { s with pc := .stat p clifd, queue, fds := s.fds.put clifd (.conn p) }
      else none
    | _, _, _ => none
  | .stat err =>
    match s.pc with
    | .stat p clifd =>
      match s.files (peers.path p), err with
      | some st, none =>
        if st.isSock = false then some { s with pc := .errout p clifd (-4) }
        else if ¬ st.Private then some { s with pc := .errout p clifd (-5) }
        else some { s with pc := .time p clifd st }
      | _, err => some { s.fails (some (err.getD 2)) with pc := .errout p clifd (-3) }
    | _ => none
  | .time =>
    match s.pc with
    | .time p clifd st =>
      if st.Fresh s.now then some { s with pc := .unlink p clifd st }
      else some { s with pc := .errout p clifd (-6) }
    | _ => none
  | .unlink err =>
    match s.pc with
    | .unlink p clifd st =>
      let s := { s.fails err with
        files := if err = none then Function.update s.files (peers.path p) none else s.files }
      some ((s.serve p).leave ⟨clifd, some st.uid, some p⟩)
    | _ => none
  | .close err =>
    match s.pc with
    | .errout p clifd rval =>
      let e := s.errno
      let t := { s.fails err with fds := s.fds.close clifd }
      some ({ t.serve p with errno := e }.leave ⟨rval, none, some p⟩)
    | _ => none
  | .bind p mode =>
    if s.stage p = .unbound ∧ s.files (peers.path p) = none then
      some { s with
        stage := Function.update s.stage p .bound
        files := Function.update s.files (peers.path p) (some ⟨true, mode, s.now, s.now, s.now, peers.uid p⟩) }
    else none
  | .connect p =>
    if s.stage p = .bound then
      some { s with
        stage := Function.update s.stage p .connected
        queue := s.queue ++ [p]
        connects := s.connects ++ [p] }
    else none
  | .tick n => some { s with now := s.now + n }
  | .create path st =>
    if s.files path = none then some { s with files := Function.update s.files path (some st) } else none
  | .change path st =>
    if (s.files path).isSome then some { s with files := Function.update s.files path (some st) } else none
  | .remove path => some { s with files := Function.update s.files path none }

/-- Nobody has connected yet; there may be any files and descriptors. -/
def start (files : CStr → Option Stat) (now : ℤ) (others : ℕ → Bool) (errno : ℕ) : State P where
  files := files
  now := now
  stage _ := .unbound
  queue := []
  connects := []
  fds fd := if others fd then some .other else none
  names := 0
  errno := errno
  pc := .out
  results := []

/-! ### What the calls should do -/

/-- The name is bound and `serv_accept` is not done with it. -/
def State.Live (s : State P) (p : P) : Prop := s.stage p = .bound ∨ s.stage p = .connected

instance (s : State P) (p : P) : Decidable (s.Live p) :=
  inferInstanceAs (Decidable (s.stage p = .bound ∨ s.stage p = .connected))

/-- The name of a process that is waiting for `serv_accept` stays that of a socket of its user. -/
def Stays (peers : Peers P) (s : State P) : Act P → Prop
  | .remove path => ∀ p, s.Live p → peers.path p ≠ path
  | .change path st => ∀ p, s.Live p → peers.path p = path → st.uid = peers.uid p ∧ st.isSock = true
  | _ => True

instance [Fintype P] (peers : Peers P) (s : State P) (a : Act P) : Decidable (Stays peers s a) := by
  unfold Stays
  split <;> infer_instance

/-- The process that `serv_accept` is working for, and its descriptor. -/
def Pc.current : Pc P → Option (P × ℕ)
  | .out | .accept => none
  | .stat p clifd | .time p clifd _ | .unlink p clifd _ | .errout p clifd _ => some (p, clifd)

/-- The `struct stat` it has got. -/
def Pc.statbuf : Pc P → Option (P × Stat)
  | .time p _ st | .unlink p _ st => some (p, st)
  | _ => none

/-- The buffer is there from `malloc` to the end of the call. -/
def Pc.names : Pc P → ℕ
  | .out => 0
  | _ => 1

/-- A result is right: a descriptor comes with the user who has connected, and an error with none. -/
def Result.Right (peers : Peers P) (s : State P) (r : Result P) : Prop :=
  (∃ (p : P) (fd : ℕ), r = ⟨fd, some (peers.uid p), some p⟩ ∧ s.fds fd = some (.conn p)) ∨
    (r.rval < 0 ∧ r.uid = none)

/-- The results so far: in the order in which the processes have connected, and nobody twice; every descriptor of
a connection belongs to a result, or to the call that is under way. -/
structure Right (peers : Peers P) (s : State P) : Prop where
  results : ∀ r ∈ s.results, r.Right peers s
  served : s.results.filterMap Result.peer ++ (s.pc.current.map Prod.fst).toList ++ s.queue = s.connects
  nodup : s.connects.Nodup
  fds : ∀ fd p, s.fds fd = some (.conn p) →
    (⟨fd, some (peers.uid p), some p⟩ : Result P) ∈ s.results ∨ s.pc.current = some (p, fd)
  names : s.names = s.pc.names
  /-- What is behind the name of a process is always a socket. -/
  sock : ∀ r ∈ s.results, r.rval ≠ -4

/-! ### The invariant -/

structure Inv (peers : Peers P) (s : State P) : Prop where
  right : Right peers s
  live : ∀ p, s.Live p → ∃ st, s.files (peers.path p) = some st ∧ st.uid = peers.uid p ∧ st.isSock = true
  apart : ∀ p q, s.Live p → s.Live q → peers.path p = peers.path q → p = q
  queue : ∀ p ∈ s.queue, s.stage p = .connected
  early : ∀ p, s.stage p = .unbound ∨ s.stage p = .bound → p ∉ s.connects
  current : ∀ p fd, s.pc.current = some (p, fd) → s.stage p = .connected ∧ s.fds fd = some (.conn p)
  statbuf : ∀ p st, s.pc.statbuf = some (p, st) → st.uid = peers.uid p
  errout : ∀ p fd rval, s.pc = .errout p fd rval → rval < 0 ∧ rval ≠ -4

variable {peers : Peers P} {s t : State P} {p q : P} {fd : ℕ}

theorem start_inv (files : CStr → Option Stat) (now : ℤ) (others : ℕ → Bool) (errno : ℕ) :
    Inv peers (start files now others errno : State P) where
  right := {
    results := by simp [start]
    served := rfl
    nodup := List.nodup_nil
    fds fd p h := by
      simp only [start] at h
      split at h <;> simp at h
    names := rfl
    sock := by simp [start] }
  live p h := by simp [State.Live, start] at h
  apart p q h := by simp [State.Live, start] at h
  queue := by simp [start]
  early := by simp [start]
  current := by simp [start, Pc.current]
  statbuf := by simp [start, Pc.statbuf]
  errout := by simp [start]

theorem Inv.notMem_results (h : Inv peers s) (hcur : s.pc.current = some (p, fd)) {r : Result P}
    (hr : r ∈ s.results) : r.peer ≠ some p := by
  intro hpeer
  have hnodup := h.right.nodup
  rw [← h.right.served, hcur] at hnodup
  have hmem : p ∈ s.results.filterMap Result.peer := List.mem_filterMap.mpr ⟨r, hr, hpeer⟩
  have hdisj := (List.nodup_append.mp (List.nodup_append.mp hnodup).1).2.2
  exact hdisj p hmem p (by simp) rfl

/-! ### Steps of the other processes -/

theorem Inv.files (h : Inv peers s) {files : CStr → Option Stat}
    (hfiles : ∀ p st, s.Live p → s.files (peers.path p) = some st →
      ∃ st', files (peers.path p) = some st' ∧ st'.uid = st.uid ∧ st'.isSock = st.isSock) :
    Inv peers { s with files } := by
  refine ⟨⟨h.right.results, h.right.served, h.right.nodup, h.right.fds, h.right.names, h.right.sock⟩, ?_, h.apart,
    h.queue, h.early, h.current, h.statbuf, h.errout⟩
  intro p hp
  obtain ⟨st, hst, huid, hsock⟩ := h.live p hp
  obtain ⟨st', hst', huid', hsock'⟩ := hfiles p st hp hst
  exact ⟨st', hst', huid'.trans huid, hsock'.trans hsock⟩

variable [DecidableEq P]

/-- A name is bound only while there is no file with it. -/
theorem bind_inv {mode : ℕ} (h : Inv peers s) (hs : step peers s (.bind p mode) = some t) : Inv peers t := by
  obtain ⟨⟨hstage, hfree⟩, hs⟩ := Option.ite_none_right_eq_some.mp hs
  obtain rfl := Option.some.inj hs
  have hold : ∀ q, q ≠ p → Function.update s.stage p Stage.bound q = s.stage q := fun q hq =>
    Function.update_of_ne hq ..
  have hapart : ∀ q, s.Live q → peers.path q ≠ peers.path p := by
    intro q hq heq
    obtain ⟨st, hst, -⟩ := h.live q hq
    rw [heq, hfree] at hst
    cases hst
  have hlive : ∀ q, q ≠ p → (Function.update s.stage p Stage.bound q = .bound ∨
      Function.update s.stage p Stage.bound q = .connected) → s.Live q := by
    intro q hq hlive
    rwa [hold q hq] at hlive
  constructor
  case right =>
    exact ⟨h.right.results, h.right.served, h.right.nodup, h.right.fds, h.right.names, h.right.sock⟩
  case live =>
    intro q hq
    by_cases hqp : q = p
    · subst hqp
      exact ⟨_, Function.update_self .., rfl, rfl⟩
    · have hq' := hlive q hqp hq
      obtain ⟨st, hst, hrest⟩ := h.live q hq'
      exact ⟨st, (Function.update_of_ne (hapart q hq') ..).trans hst, hrest⟩
  case apart =>
    intro q r hq hr heq
    by_cases hqp : q = p
    · by_cases hrp : r = p
      · rw [hqp, hrp]
      · exact absurd (hqp ▸ heq.symm) (hapart r (hlive r hrp hr))
    · by_cases hrp : r = p
      · exact absurd (hrp ▸ heq) (hapart q (hlive q hqp hq))
      · exact h.apart q r (hlive q hqp hq) (hlive r hrp hr) heq
  case queue =>
    intro q hq
    have hconn := h.queue q hq
    show Function.update s.stage p Stage.bound q = _
    rw [hold q, hconn]
    rintro rfl
    rw [hstage] at hconn
    cases hconn
  case early =>
    intro q hq
    by_cases hqp : q = p
    · exact h.early q (.inl (hqp ▸ hstage))
    · exact h.early q (by rwa [← hold q hqp])
  case current =>
    intro q fd hcur
    obtain ⟨hconn, hfd⟩ := h.current q fd hcur
    refine ⟨?_, hfd⟩
    show Function.update s.stage p Stage.bound q = _
    rw [hold q, hconn]
    rintro rfl
    rw [hstage] at hconn
    cases hconn
  case statbuf => exact h.statbuf
  case errout => exact h.errout

theorem connect_inv (h : Inv peers s) (hs : step peers s (.connect p) = some t) : Inv peers t := by
  obtain ⟨hstage, hs⟩ := Option.ite_none_right_eq_some.mp hs
  obtain rfl := Option.some.inj hs
  have hold : ∀ q, q ≠ p → Function.update s.stage p Stage.connected q = s.stage q := fun q hq =>
    Function.update_of_ne hq ..
  have hlive : ∀ q, (Function.update s.stage p Stage.connected q = .bound ∨
      Function.update s.stage p Stage.connected q = .connected) → s.Live q := by
    intro q hq
    by_cases hqp : q = p
    · exact .inl (hqp ▸ hstage)
    · rwa [hold q hqp] at hq
  have hconnected : ∀ q, s.stage q = .connected → Function.update s.stage p Stage.connected q = .connected := by
    intro q hq
    by_cases hqp : q = p
    · rw [hqp, Function.update_self]
    · rw [hold q hqp, hq]
  constructor
  case right =>
    refine ⟨h.right.results, ?_, ?_, h.right.fds, h.right.names, h.right.sock⟩
    · show _ ++ (s.queue ++ [p]) = s.connects ++ [p]
      rw [← List.append_assoc, h.right.served]
    · refine List.nodup_append.mpr ⟨h.right.nodup, List.nodup_singleton p, fun q hq r hr => ?_⟩
      rintro rfl
      rw [List.mem_singleton.mp hr] at hq
      exact h.early p (.inr hstage) hq
  case live => exact fun q hq => h.live q (hlive q hq)
  case apart => exact fun q r hq hr => h.apart q r (hlive q hq) (hlive r hr)
  case queue =>
    intro q hq
    rcases List.mem_append.mp hq with hq | hq
    · exact hconnected q (h.queue q hq)
    · rw [List.mem_singleton.mp hq]
      exact Function.update_self ..
  case early =>
    intro q hq hmem
    by_cases hqp : q = p
    · subst hqp
      simp only [Function.update_self, reduceCtorEq, or_self] at hq
    · simp only [hold q hqp] at hq
      rcases List.mem_append.mp hmem with hmem | hmem
      · exact h.early q hq hmem
      · exact hqp (List.mem_singleton.mp hmem)
  case current =>
    intro q fd hcur
    obtain ⟨hconn, hfd⟩ := h.current q fd hcur
    exact ⟨hconnected q hconn, hfd⟩
  case statbuf => exact h.statbuf
  case errout => exact h.errout

theorem create_inv {path : CStr} {st : Stat} (h : Inv peers s) (hs : step peers s (.create path st) = some t) :
    Inv peers t := by
  obtain ⟨hfree, hs⟩ := Option.ite_none_right_eq_some.mp hs
  obtain rfl := Option.some.inj hs
  refine h.files fun p st' _ hst => ⟨st', (Function.update_of_ne ?_ ..).trans hst, rfl, rfl⟩
  rintro rfl
  rw [hfree] at hst
  cases hst

theorem change_inv {path : CStr} {st : Stat} (h : Inv peers s) (hstays : Stays peers s (.change path st))
    (hs : step peers s (.change path st) = some t) : Inv peers t := by
  obtain ⟨-, hs⟩ := Option.ite_none_right_eq_some.mp hs
  obtain rfl := Option.some.inj hs
  refine h.files fun p st' hlive hst => ?_
  by_cases hp : peers.path p = path
  · obtain ⟨old, hold, huid, hsock⟩ := h.live p hlive
    obtain rfl := Option.some.inj (hold.symm.trans hst)
    obtain ⟨huid', hsock'⟩ := hstays p hlive hp
    exact ⟨st, hp ▸ Function.update_self .., huid'.trans huid.symm, hsock'.trans hsock.symm⟩
  · exact ⟨st', (Function.update_of_ne hp ..).trans hst, rfl, rfl⟩

theorem remove_inv {path : CStr} (h : Inv peers s) (hstays : Stays peers s (.remove path))
    (hs : step peers s (.remove path) = some t) : Inv peers t := by
  obtain rfl := Option.some.inj hs
  exact h.files fun p st' hp hst => ⟨st', (Function.update_of_ne (hstays p hp) ..).trans hst, rfl, rfl⟩

theorem tick_inv {n : ℕ} (h : Inv peers s) (hs : step peers s (.tick n) = some t) : Inv peers t := by
  obtain rfl := Option.some.inj hs
  exact ⟨⟨h.right.results, h.right.served, h.right.nodup, h.right.fds, h.right.names, h.right.sock⟩, h.live,
    h.apart, h.queue, h.early, h.current, h.statbuf, h.errout⟩

/-! ### Steps of the server -/

omit [DecidableEq P] in
theorem Inv.failed (h : Inv peers s) (hcur : s.pc.current = none) (errno : ℕ) {rval : ℤ} (hneg : rval < 0)
    (hsock : rval ≠ -4) :
    Inv peers { s with pc := .out, names := 0, errno, results := s.results ++ [⟨rval, none, none⟩] } := by
  have hserved := h.right.served
  have hfds := h.right.fds
  rw [hcur] at hserved hfds
  refine ⟨⟨?_, ?_, h.right.nodup, ?_, rfl, ?_⟩, h.live, h.apart, h.queue, h.early, by simp [Pc.current],
    by simp [Pc.statbuf], by simp⟩
  · intro r hr
    rcases List.mem_append.mp hr with hr | hr
    · exact h.right.results r hr
    · rw [List.mem_singleton.mp hr]
      exact .inr ⟨hneg, rfl⟩
  · simp only [List.filterMap_append]
    exact (congrArg (· ++ _ ++ _) (List.append_nil _)).trans hserved
  · exact fun fd p hfd => (hfds fd p hfd).imp (List.mem_append_left _) (fun hcur => absurd hcur (by simp))
  · intro r hr
    rcases List.mem_append.mp hr with hr | hr
    · exact h.right.sock r hr
    · rw [List.mem_singleton.mp hr]
      exact hsock

theorem call_inv {malloc : Bool} (h : Inv peers s) (hs : step peers s (.call malloc) = some t) : Inv peers t := by
  simp only [step] at hs
  split at hs
  · rename_i hpc
    have hnames := h.right.names
    simp only [hpc, Pc.names] at hnames
    split at hs
    · obtain rfl := Option.some.inj hs
      have hserved := h.right.served
      have hfds := h.right.fds
      simp only [hpc, Pc.current] at hserved hfds
      exact ⟨⟨h.right.results, hserved, h.right.nodup, hfds, congrArg (· + 1) hnames, h.right.sock⟩, h.live, h.apart,
        h.queue, h.early, by simp [Pc.current], by simp [Pc.statbuf], by simp⟩
    · obtain rfl := Option.some.inj hs
      have hfailed := h.failed (by rw [hpc]; rfl) s.errno (show (-1 : ℤ) < 0 by decide) (by decide)
      rwa [← hpc, ← hnames] at hfailed
  · cases hs

theorem accept_inv {r : Except ℕ ℕ} (h : Inv peers s) (hs : step peers s (.accept r) = some t) : Inv peers t := by
  simp only [step] at hs
  split at hs
  · -- `accept` has failed
    rename_i e hpc
    obtain rfl := Option.some.inj hs
    have hnames := h.right.names
    rw [hpc] at hnames
    have hfailed := h.failed (by rw [hpc]; rfl) e (show (-2 : ℤ) < 0 by decide) (by decide)
    have hzero : s.names - 1 = 0 := by rw [hnames]; rfl
    rwa [← hzero] at hfailed
  · rename_i clifd p queue hpc hqueue
    obtain ⟨hfree, hs⟩ := Option.ite_none_right_eq_some.mp hs
    obtain rfl := Option.some.inj hs
    have hserved := h.right.served
    have hfds := h.right.fds
    have hnames := h.right.names
    simp only [hpc, hqueue, Pc.current, Pc.names] at hserved hfds hnames
    have hnodup := h.right.nodup
    have hother : ∀ fd q, s.fds fd = some (.conn q) → fd ≠ clifd := by
      rintro fd q hfd rfl
      rw [show s.fds fd = none from hfree] at hfd
      cases hfd
    refine ⟨⟨?_, ?_, hnodup, ?_, hnames, h.right.sock⟩, h.live, h.apart, ?_, h.early, ?_, by simp [Pc.statbuf],
      by simp⟩
    · intro r hr
      obtain ⟨q, fd, hres, hfd⟩ | herr := h.right.results r hr
      · exact .inl ⟨q, fd, hres, (Table.put_of_ne _ (hother fd q hfd)).trans hfd⟩
      · exact .inr herr
    · rw [← hserved]
      simp [Pc.current]
    · intro fd q hfd
      by_cases hfdc : fd = clifd
      · subst hfdc
        obtain rfl := Entry.conn.inj (Option.some.inj ((Table.put_self _).symm.trans hfd))
        exact .inr rfl
      · have hold : s.fds fd = some (.conn q) := (Table.put_of_ne _ hfdc).symm.trans hfd
        obtain hold | hcur := hfds fd q hold
        · exact .inl hold
        · cases hcur
    · exact fun q hq => h.queue q (by rw [hqueue]; exact List.mem_cons_of_mem _ hq)
    · intro q fd hcur
      obtain ⟨rfl, rfl⟩ := Prod.mk.inj (Option.some.inj hcur)
      exact ⟨h.queue p (by rw [hqueue]; exact List.mem_cons_self), Table.put_self _⟩
  · cases hs

omit [DecidableEq P] in
theorem Inv.goto (h : Inv peers s) {pc : Pc P} (errno : ℕ) (hcur : pc.current = s.pc.current)
    (hnames : pc.names = s.pc.names) (hstat : ∀ p st, pc.statbuf = some (p, st) → st.uid = peers.uid p)
    (herr : ∀ p fd rval, pc = .errout p fd rval → rval < 0 ∧ rval ≠ -4) : Inv peers { s with pc, errno } where
  right := {
    results := h.right.results
    served := by
      show _ ++ (pc.current.map Prod.fst).toList ++ _ = _
      rw [hcur]
      exact h.right.served
    nodup := h.right.nodup
    fds := fun fd p hfd => (h.right.fds fd p hfd).imp_right hcur.trans
    names := h.right.names.trans hnames.symm
    sock := h.right.sock }
  live := h.live
  apart := h.apart
  queue := h.queue
  early := h.early
  current := fun p fd hc => h.current p fd (hcur.symm.trans hc)
  statbuf := hstat
  errout := herr

theorem stat_inv {err : Option ℕ} (h : Inv peers s) (hs : step peers s (.stat err) = some t) : Inv peers t := by
  simp only [step] at hs
  split at hs
  · rename_i p clifd hpc
    obtain ⟨hconn, -⟩ := h.current p clifd (by rw [hpc]; rfl)
    obtain ⟨st, hst, huid, hsock⟩ := h.live p (.inr hconn)
    rw [hst] at hs
    split at hs
    · rename_i st' heq
      obtain rfl := Option.some.inj heq
      rw [hsock, if_neg (by decide)] at hs
      split at hs
      · obtain rfl := Option.some.inj hs
        exact h.goto _ (by rw [hpc]; rfl) (by rw [hpc]; rfl) (by simp [Pc.statbuf])
          fun p fd rval heq => by
            obtain ⟨-, -, rfl⟩ := Pc.errout.inj heq
            decide
      · obtain rfl := Option.some.inj hs
        exact h.goto _ (by rw [hpc]; rfl) (by rw [hpc]; rfl)
          (fun q st' heq => by
            obtain ⟨rfl, rfl⟩ := Prod.mk.inj (Option.some.inj heq)
            exact huid)
          (by simp)
    · obtain rfl := Option.some.inj hs
      exact h.goto _ (by rw [hpc]; rfl) (by rw [hpc]; rfl) (by simp [Pc.statbuf])
        fun p fd rval heq => by
          obtain ⟨-, -, rfl⟩ := Pc.errout.inj heq
          decide
  · cases hs

theorem time_inv (h : Inv peers s) (hs : step peers s .time = some t) : Inv peers t := by
  simp only [step] at hs
  split at hs
  · rename_i p clifd st hpc
    split at hs
    · obtain rfl := Option.some.inj hs
      exact h.goto _ (by rw [hpc]; rfl) (by rw [hpc]; rfl) (fun q st' heq => h.statbuf q st' (by rw [hpc]; exact heq))
        (by simp)
    · obtain rfl := Option.some.inj hs
      exact h.goto _ (by rw [hpc]; rfl) (by rw [hpc]; rfl) (by simp [Pc.statbuf])
        fun p fd rval heq => by
          obtain ⟨-, -, rfl⟩ := Pc.errout.inj heq
          decide
  · cases hs

theorem Inv.leave (h : Inv peers s) (hcur : s.pc.current = some (p, fd)) {files : CStr → Option Stat}
    {fds : Table (Entry P)} {errno : ℕ} {r : Result P} (hpeer : r.peer = some p) (hsock : r.rval ≠ -4)
    (hfiles : ∀ q, peers.path q ≠ peers.path p → files (peers.path q) = s.files (peers.path q))
    (hsame : files (peers.path p) = s.files (peers.path p) ∨ files (peers.path p) = none)
    (hkeep : ∀ i q, i ≠ fd → (fds i = some (.conn q) ↔ s.fds i = some (.conn q)))
    (hr : (r = ⟨fd, some (peers.uid p), some p⟩ ∧ fds fd = some (.conn p)) ∨
      (r.rval < 0 ∧ r.uid = none ∧ ∀ q, fds fd ≠ some (.conn q))) :
    Inv peers (({ s with files, fds, errno } : State P).serve p |>.leave r) := by
  have hold : ∀ q, q ≠ p → Function.update s.stage p Stage.served q = s.stage q := fun q hq =>
    Function.update_of_ne hq ..
  obtain ⟨hconn, hfd⟩ := h.current p fd hcur
  have hlive : ∀ q, (Function.update s.stage p Stage.served q = .bound ∨
      Function.update s.stage p Stage.served q = .connected) → q ≠ p ∧ s.Live q := by
    intro q hq
    by_cases hqp : q = p
    · subst hqp
      simp only [Function.update_self, reduceCtorEq, or_self] at hq
    · exact ⟨hqp, by rwa [hold q hqp] at hq⟩
  have hserved := h.right.served
  have hnodup := h.right.nodup
  rw [hcur] at hserved
  have hqueue : p ∉ s.queue := by
    rw [← hserved] at hnodup
    intro hmem
    exact (List.nodup_append.mp hnodup).2.2 p (by simp) p hmem rfl
  have hnames : s.pc.names = 1 := by
    cases hpc : s.pc <;> simp_all [Pc.current, Pc.names]
  constructor
  case right =>
    refine ⟨?_, ?_, hnodup, ?_, ?_, ?_⟩
    · intro r' hr'
      rcases List.mem_append.mp hr' with hr' | hr'
      · obtain ⟨q, i, hres, hi⟩ | herr := h.right.results r' hr'
        · refine .inl ⟨q, i, hres, (hkeep i q ?_).mpr hi⟩
          rintro rfl
          obtain rfl := Entry.conn.inj (Option.some.inj (hi.symm.trans hfd))
          exact h.notMem_results hcur hr' (by rw [hres])
        · exact .inr herr
      · rw [List.mem_singleton.mp hr']
        obtain ⟨hres, hput⟩ | ⟨hneg, huid, -⟩ := hr
        · exact .inl ⟨p, fd, hres, hput⟩
        · exact .inr ⟨hneg, huid⟩
    · show (s.results ++ [r]).filterMap Result.peer ++ [] ++ s.queue = s.connects
      rw [List.filterMap_append, List.filterMap_cons, hpeer, List.filterMap_nil, List.append_nil]
      exact hserved
    · intro i q hi
      by_cases hifd : i = fd
      · subst hifd
        obtain ⟨hres, hput⟩ | ⟨-, -, hnone⟩ := hr
        · obtain rfl := Entry.conn.inj (Option.some.inj (hi.symm.trans hput))
          exact .inl (List.mem_append_right _ (by rw [hres]; exact List.mem_singleton.mpr rfl))
        · exact absurd hi (hnone q)
      · obtain hmem | hcur' := h.right.fds i q ((hkeep i q hifd).mp hi)
        · exact .inl (List.mem_append_left _ hmem)
        · rw [hcur] at hcur'
          exact absurd (Prod.mk.inj (Option.some.inj hcur')).2.symm hifd
    · show s.names - 1 = 0
      rw [h.right.names, hnames]
    · intro r' hr'
      rcases List.mem_append.mp hr' with hr' | hr'
      · exact h.right.sock r' hr'
      · rw [List.mem_singleton.mp hr']
        exact hsock
  case live =>
    intro q hq
    obtain ⟨hqp, hlive'⟩ := hlive q hq
    obtain ⟨st, hst, hrest⟩ := h.live q hlive'
    exact ⟨st, (hfiles q fun heq => hqp (h.apart q p hlive' (.inr hconn) heq)).trans hst, hrest⟩
  case apart => exact fun q r hq hr => h.apart q r (hlive q hq).2 (hlive r hr).2
  case queue =>
    intro q hq
    show Function.update s.stage p Stage.served q = _
    rw [hold q fun heq => hqueue (heq ▸ hq), h.queue q hq]
  case early =>
    intro q hq
    by_cases hqp : q = p
    · subst hqp
      simp only [State.leave, State.serve, Function.update_self, reduceCtorEq, or_self] at hq
    · refine h.early q ?_
      simpa only [State.leave, State.serve, hold q hqp] using hq
  case current => simp [State.leave, Pc.current]
  case statbuf => simp [State.leave, Pc.statbuf]
  case errout => simp [State.leave]

theorem unlink_inv {err : Option ℕ} (h : Inv peers s) (hs : step peers s (.unlink err) = some t) : Inv peers t := by
  simp only [step] at hs
  split at hs
  · rename_i p clifd st hpc
    obtain rfl := Option.some.inj hs
    have hcur : s.pc.current = some (p, clifd) := by rw [hpc]; rfl
    have huid := h.statbuf p st (by rw [hpc]; rfl)
    refine h.leave hcur rfl ?_ (fun q hq => ?_) ?_ (fun i q _ => Iff.rfl)
      (.inl ⟨by rw [huid], (h.current p clifd hcur).2⟩)
    · show ((clifd : ℕ) : ℤ) ≠ -4
      omega
    · split
      · exact Function.update_of_ne hq ..
      · rfl
    · split
      · exact .inr (Function.update_self ..)
      · exact .inl rfl
  · cases hs

theorem close_inv {err : Option ℕ} (h : Inv peers s) (hs : step peers s (.close err) = some t) : Inv peers t := by
  simp only [step] at hs
  split at hs
  · rename_i p clifd rval hpc
    obtain rfl := Option.some.inj hs
    obtain ⟨hneg, hsock⟩ := h.errout p clifd rval hpc
    have hleave : Inv peers (({ s with fds := s.fds.close clifd } : State P).serve p |>.leave ⟨rval, none, some p⟩) := by
      refine h.leave (by rw [hpc]; rfl) rfl hsock (fun q _ => rfl) (.inl rfl) (fun i q hi => ?_)
        (.inr ⟨hneg, rfl, fun q hq => ?_⟩)
      · rw [Table.close_of_ne _ hi]
      · rw [Table.close_self] at hq
        cases hq
    exact hleave
  · cases hs

theorem step_inv (s : State P) (a : Act P) (t : State P) (h : Inv peers s) (hstays : Stays peers s a)
    (hs : step peers s a = some t) : Inv peers t := by
  cases a with
  | call malloc => exact call_inv h hs
  | accept r => exact accept_inv h hs
  | stat err => exact stat_inv h hs
  | time => exact time_inv h hs
  | unlink err => exact unlink_inv h hs
  | close err => exact close_inv h hs
  | bind p mode => exact bind_inv h hs
  | connect p => exact connect_inv h hs
  | tick n => exact tick_inv h hs
  | create path st => exact create_inv h hs
  | change path st => exact change_inv h hstays hs
  | remove path => exact remove_inv h hstays hs

/-! ### Every run -/

/-- As long as the names of the processes that are waiting lead to sockets of their users, `serv_accept` says for
every connection who is at the other end, in the order in which they have connected; and a call that fails leaves nothing open. -/
theorem serv_accept_run {files : CStr → Option Stat} {now : ℤ} {others : ℕ → Bool} {errno : ℕ} (as : List (Act P))
    (hstays : Meets (step peers) (Stays peers) (start files now others errno) as)
    (hrun : run (step peers) (start files now others errno) as = some s) : Right peers s :=
  (invariant_of_meets step_inv (start_inv files now others errno) hstays hrun).right

/-- Two users, whose processes use the same name. -/
def twoPeers : Peers Bool where
  uid p := if p then 1000 else 0
  path _ := ⟨[112], by decide⟩

/-- One of the two connects and is served. -/
def oneServed : List (Act Bool) :=
  [.bind true 511, .change ⟨[112], by decide⟩ ⟨true, 448, 5, 5, 5, 1000⟩, .connect true, .call true, .accept (.ok 3),
    .stat none, .tick 20, .time, .unlink none]

theorem serv_accept_run_oneServed : ∃ s, run (step twoPeers) (start (fun _ => none) 5 (fun fd => fd < 3) 0) oneServed =
      some s ∧ s.results = [⟨3, some 1000, some true⟩] ∧ Right twoPeers s := by
  have hrun : (run (step twoPeers) (start (fun _ => none) 5 (fun fd => fd < 3) 0) oneServed).map State.results =
      some [⟨3, some 1000, some true⟩] := by decide +kernel
  obtain ⟨s, hs, hresults⟩ := Option.map_eq_some_iff.mp hrun
  have hstays : Meets (step twoPeers) (Stays twoPeers) (start (fun _ => none) 5 (fun fd => fd < 3) 0) oneServed := by
    decide +kernel
  exact ⟨s, hs, hresults, serv_accept_run oneServed hstays hs⟩

theorem serv_accept_takes_over : ∃ s, run (step twoPeers) (start (fun _ => none) 5 (fun fd => fd < 3) 0)
    [.bind true 448, .connect true, .remove ⟨[112], by decide⟩, .bind false 448, .call true, .accept (.ok 3),
      .stat none, .time, .unlink none] = some s ∧ s.results = [⟨3, some 0, some true⟩] ∧ ¬ Right twoPeers s := by
  have hrun : (run (step twoPeers) (start (fun _ => none) 5 (fun fd => fd < 3) 0)
      [.bind true 448, .connect true, .remove ⟨[112], by decide⟩, .bind false 448, .call true, .accept (.ok 3),
        .stat none, .time, .unlink none]).map State.results = some [⟨3, some 0, some true⟩] := by decide +kernel
  obtain ⟨s, hs, hresults⟩ := Option.map_eq_some_iff.mp hrun
  refine ⟨s, hs, hresults, fun hright => ?_⟩
  obtain ⟨p, fd, hres, -⟩ | ⟨hneg, -⟩ := hright.results ⟨3, some 0, some true⟩ (by rw [hresults]; exact List.mem_cons_self)
  · simp only [Result.mk.injEq, Option.some.injEq] at hres
    obtain ⟨-, huid, rfl⟩ := hres
    exact absurd huid (by decide)
  · exact absurd hneg (by decide)

end Apue.ServAccept
