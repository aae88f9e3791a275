import Apue.Lib.Descriptors
import Apue.Lib.Transition
import Mathlib.Data.Int.Notation

/-!
# Starting the server (Chapter-17/open-1/17-19.c, Chapter-17/17-2.c)

A process that calls `csopen` of version 1, any number of times, and opens and closes other files in
between. The first call makes a socket pair and forks the server; the static `fd` says whether that has been
done. `fd` is set by `fd_pipe`, before there is a server, and a `fork` that fails leaves it set and both
descriptors open: the next call writes to a socket that nobody reads. `csopen_start_iff` says that this is all
that goes wrong.

What is asked for, and the answer, are in `Codec`.
-/

namespace Apue.OpenServer.Spawn
open Descriptors Transition

/-- `fd[0]` and `fd[1]` of `fd_pipe`. -/
inductive End where
  | client
  | server
  deriving DecidableEq

inductive File where
  | other
  | sock (pair : ℕ) (e : End)
  deriving DecidableEq

structure State where
  fds : Table File
  /-- The static `fd[2]` of `csopen`. -/
  fd : ℤ × ℤ
  /-- How many socket pairs there have been. -/
  pairs : ℕ
  /-- The servers that were started, each with the descriptors it has. -/
  servers : List (Table File)

/-- What a call of `csopen` meets: the two descriptors of `fd_pipe`, or none if it fails; whether `fork`
succeeds; what `recv_fd` returns, or none if `writev` fails. -/
structure Outcome where
  fd_pipe : Option (ℕ × ℕ)
  fork : Bool
  reply : Option ℤ

inductive Act where
  | csopen (o : Outcome)
  | openFile (fd : ℕ)
  | closeFile (fd : ℕ)

namespace State

def Free (s : State) (fd : ℕ) : Prop := s.fds fd = none

instance (s : State) (fd : ℕ) : Decidable (s.Free fd) := inferInstanceAs (Decidable (_ = _))

/-- The descriptors of the child when it calls `execl`. -/
def child (s : State) : Table File :=
  let t := s.fds.close s.fd.1.toNat
  let t := if s.fd.2 ≠ 0 then t.dup2 s.fd.2.toNat 0 else t
  if s.fd.2 ≠ 1 then t.dup2 s.fd.2.toNat 1 else t

/-- The part of `csopen` under `if (fd[0] < 0)`: an error is a call that returns -1. None when the outcome
cannot be: a descriptor of `fd_pipe` that is in use. -/
def startServer (s : State) (o : Outcome) : Option (Except State State) :=
  if s.fd.1 < 0 then
    match o.fd_pipe with
    | none => some (.error s)
    | some (a, b) =>
      if s.Free a ∧ s.Free b ∧ a ≠ b then
        let t := { s with
          fds := (s.fds.put a (.sock s.pairs .client)).put b (.sock s.pairs .server)
          fd := (a, b)
          pairs := s.pairs + 1 }
        if o.fork then some (.ok { t with fds := t.fds.close b, servers := t.servers ++ [t.child] })
        else some (.error t)
      else none
  else some (.ok s)

/-- `csopen`: what it returns, and the state after it. -/
def csopen (s : State) (o : Outcome) : Option (ℤ × State) :=
  match s.startServer o with
  | none => none
  | some (.error t) => some (-1, t)
  | some (.ok t) =>
    match o.reply with
    | none => some (-1, t)
    | some newfd =>
      if newfd < 0 then some (newfd, t)
      else if t.Free newfd.toNat then some (newfd, { t with fds := t.fds.put newfd.toNat .other })
      else none

end State

def step (s : State) : Act → Option State
  | .csopen o => (s.csopen o).map Prod.snd
  | .openFile fd => if s.Free fd then some { s with fds := s.fds.put fd .other } else none
  | .closeFile fd => if s.fds fd = some .other then some { s with fds := s.fds.close fd } else none

/-- A process that has not called `csopen`, with any descriptors. -/
def start (others : ℕ → Bool) : State where
  fds fd := if others fd then some .other else none
  fd := (-1, -1)
  pairs := 0
  servers := []

/-! ### What a call should do -/

/-- The descriptor that `csopen` writes to is a socket whose other end a server has as its standard input and
output, and the client has closed. -/
def Served (s : State) : Prop :=
  0 ≤ s.fd.1 ∧ ∃ n, s.fds s.fd.1.toNat = some (.sock n .client) ∧ (∀ i, s.fds i ≠ some (.sock n .server)) ∧
    ∃ t ∈ s.servers, t 0 = some (.sock n .server) ∧ t 1 = some (.sock n .server)

/-- A call that gets as far as `writev` has a server; one that returns before has opened nothing, and the next
one tries again. -/
structure Right (s : State) (o : Outcome) : Prop where
  served : ∀ t, s.startServer o = some (.ok t) → Served t
  undone : ∀ t, s.startServer o = some (.error t) → t.fds = s.fds ∧ t.fd.1 < 0

/-- Every call of `csopen` does what it should. -/
def Rightly (s : State) : Act → Prop
  | .csopen o => Right s o
  | .openFile _ => True
  | .closeFile _ => True

/-- Not a call in which `fd_pipe` succeeds and `fork` fails. -/
def Forks (s : State) : Act → Prop
  | .csopen o => s.fd.1 < 0 → o.fd_pipe ≠ none → o.fork = true
  | .openFile _ => True
  | .closeFile _ => True

/-! ### The invariant -/

structure Inv (s : State) : Prop where
  served : 0 ≤ s.fd.1 → Served s
  fresh : ∀ i n e, s.fds i = some (.sock n e) → n < s.pairs

variable {s t : State} {o : Outcome} {a b fd : ℕ} {others : ℕ → Bool}

theorem start_inv : Inv (start others) where
  served h := absurd h (by simp [start])
  fresh i n e h := by
    simp only [start] at h
    split at h <;> simp at h

theorem Inv.sameSocks (hinv : Inv s) {fds : Table File}
    (hsame : ∀ i n e, fds i = some (.sock n e) ↔ s.fds i = some (.sock n e)) : Inv { s with fds := fds } := by
  refine ⟨fun h => ?_, fun i n e hi => hinv.fresh i n e ((hsame i n e).mp hi)⟩
  obtain ⟨hnonneg, n, hclient, hclosed, hserver⟩ := hinv.served h
  exact ⟨hnonneg, n, (hsame _ _ _).mpr hclient, fun i hi => hclosed i ((hsame _ _ _).mp hi), hserver⟩

theorem Inv.put (hinv : Inv s) (hfree : s.Free fd) : Inv { s with fds := s.fds.put fd .other } := by
  refine hinv.sameSocks fun i n e => ?_
  by_cases hi : i = fd
  · subst hi
    rw [show s.fds i = none from hfree]
    simp
  · rw [Table.put_of_ne _ hi]

theorem Inv.close (hinv : Inv s) (hother : s.fds fd = some .other) :
    Inv { s with fds := s.fds.close fd } := by
  refine hinv.sameSocks fun i n e => ?_
  by_cases hi : i = fd
  · subst hi
    simp [hother]
  · rw [Table.close_of_ne _ hi]

/-! ### Starting the server -/

theorem child_apply {f : File} (hb : s.fd.2 = b) (hfd : s.fds b = some f) (hne : b ≠ s.fd.1.toNat) :
    s.child 0 = some f ∧ s.child 1 = some f := by
  have hclose : s.fds.close s.fd.1.toNat b = some f := by
    rw [Table.close_of_ne _ hne, hfd]
  have hcast : ((b : ℤ) = 0 ↔ b = 0) ∧ ((b : ℤ) = 1 ↔ b = 1) := by omega
  unfold State.child
  simp only [hb, Int.toNat_natCast, ne_eq, hcast, ite_not]
  by_cases hb0 : b = 0
  · subst hb0
    rw [if_pos rfl, if_neg (by decide)]
    exact ⟨(Table.dup2_of_ne _ (by decide)).trans hclose, Table.dup2_self _ hclose⟩
  · rw [if_neg hb0]
    have hzero : (s.fds.close s.fd.1.toNat).dup2 b 0 0 = some f := Table.dup2_self _ hclose
    by_cases hb1 : b = 1
    · subst hb1
      rw [if_pos rfl]
      exact ⟨hzero, (Table.dup2_of_ne _ (by decide)).trans hclose⟩
    · rw [if_neg hb1]
      refine ⟨(Table.dup2_of_ne _ (by decide)).trans hzero, Table.dup2_self _ ?_⟩
      rw [Table.dup2_of_ne _ hb0, hclose]

/-- `fd_pipe` with the descriptors `a` and `b`. -/
def State.piped (s : State) (a b : ℕ) : State :=
  { s with
    fds := (s.fds.put a (.sock s.pairs .client)).put b (.sock s.pairs .server)
    fd := (a, b)
    pairs := s.pairs + 1 }

theorem startServer_cases {r : Except State State} (hr : s.startServer o = some r) :
    (0 ≤ s.fd.1 ∧ r = .ok s) ∨ (s.fd.1 < 0 ∧ o.fd_pipe = none ∧ r = .error s) ∨
      ∃ a b, s.fd.1 < 0 ∧ o.fd_pipe = some (a, b) ∧ s.Free a ∧ s.Free b ∧ a ≠ b ∧
        ((o.fork = true ∧ r = .ok { s.piped a b with
            fds := (s.piped a b).fds.close b
            servers := s.servers ++ [(s.piped a b).child] }) ∨
          (o.fork = false ∧ r = .error (s.piped a b))) := by
  unfold State.startServer at hr
  by_cases hfd : s.fd.1 < 0
  · rw [if_pos hfd] at hr
    cases hpipe : o.fd_pipe with
    | none =>
      rw [hpipe] at hr
      exact .inr (.inl ⟨hfd, rfl, (Option.some.inj hr).symm⟩)
    | some ab =>
      obtain ⟨a, b⟩ := ab
      simp only [hpipe, Option.ite_none_right_eq_some] at hr
      obtain ⟨⟨ha, hb, hne⟩, hr⟩ := hr
      refine .inr (.inr ⟨a, b, hfd, rfl, ha, hb, hne, ?_⟩)
      cases hfork : o.fork with
      | true =>
        rw [hfork, if_pos rfl, Option.some.injEq] at hr
        exact .inl ⟨rfl, hr.symm⟩
      | false =>
        rw [hfork, if_neg (by decide), Option.some.injEq] at hr
        exact .inr ⟨rfl, hr.symm⟩
  · rw [if_neg hfd, Option.some.injEq] at hr
    exact .inl ⟨Int.not_lt.mp hfd, hr.symm⟩

theorem Inv.forked (hinv : Inv s) (hne : a ≠ b) :
    Inv { s.piped a b with
      fds := (s.piped a b).fds.close b
      servers := s.servers ++ [(s.piped a b).child] } := by
  have hold {i n : ℕ} {e : End} (hi : (s.piped a b).fds.close b i = some (.sock n e)) :
      (i = a ∧ n = s.pairs ∧ e = .client) ∨ s.fds i = some (.sock n e) := by
    by_cases hib : i = b
    · subst hib
      simp at hi
    · rw [Table.close_of_ne _ hib] at hi
      simp only [State.piped, Table.put_of_ne _ hib] at hi
      by_cases hia : i = a
      · subst hia
        simp only [Table.put_self, Option.some.injEq, File.sock.injEq] at hi
        exact .inl ⟨rfl, hi.1.symm, hi.2.symm⟩
      · rw [Table.put_of_ne _ hia] at hi
        exact .inr hi
  refine ⟨fun _ => ⟨Int.natCast_nonneg a, s.pairs, ?_, fun i hi => ?_, (s.piped a b).child, ?_, ?_⟩,
    fun i n e hi => ?_⟩
  · show (s.piped a b).fds.close b a = _
    rw [Table.close_of_ne _ hne]
    exact (Table.put_of_ne _ hne).trans (Table.put_self _)
  · obtain ⟨-, -, he⟩ | hi := hold hi
    · cases he
    · exact absurd (hinv.fresh i _ _ hi) (Nat.lt_irrefl _)
  · exact List.mem_append_right _ (List.mem_singleton.mpr rfl)
  · exact child_apply (s := s.piped a b) rfl (Table.put_self _) (Ne.symm hne)
  · obtain ⟨-, rfl, -⟩ | hi := hold hi
    · exact Nat.lt_succ_self _
    · exact Nat.lt_succ_of_lt (hinv.fresh i n e hi)

theorem Inv.startServer (hinv : Inv s) (hforks : Forks s (.csopen o)) {r : Except State State}
    (hr : s.startServer o = some r) :
    (∃ t, r = .ok t ∧ Inv t ∧ 0 ≤ t.fd.1) ∨ (r = .error s ∧ s.fd.1 < 0) := by
  obtain ⟨hfd, rfl⟩ | ⟨hfd, -, rfl⟩ | ⟨a, b, hfd, hpipe, -, -, hne, ⟨-, rfl⟩ | ⟨hfork, -⟩⟩ := startServer_cases hr
  · exact .inl ⟨s, rfl, hinv, hfd⟩
  · exact .inr ⟨rfl, hfd⟩
  · exact .inl ⟨_, rfl, hinv.forked hne, Int.natCast_nonneg a⟩
  · have htrue := hforks hfd (by simp [hpipe])
    rw [hfork] at htrue
    cases htrue

theorem Inv.right (hinv : Inv s) (hforks : Forks s (.csopen o)) : Right s o where
  served t ht := by
    obtain ⟨u, hu, hinv', hfd⟩ | ⟨hu, -⟩ := hinv.startServer hforks ht
    · obtain rfl := Except.ok.inj hu
      exact hinv'.served hfd
    · cases hu
  undone t ht := by
    obtain ⟨u, hu, -⟩ | ⟨hu, hfd⟩ := hinv.startServer hforks ht
    · cases hu
    · obtain rfl := Except.error.inj hu
      exact ⟨rfl, hfd⟩

/-! ### Every run -/

theorem csopen_inv (hinv : Inv s) (hforks : Forks s (.csopen o)) {z : ℤ} (hs : s.csopen o = some (z, t)) :
    Inv t := by
  unfold State.csopen at hs
  cases hr : s.startServer o with
  | none => simp [hr] at hs
  | some r =>
    obtain ⟨u, rfl, hinv', -⟩ | ⟨rfl, -⟩ := hinv.startServer hforks hr
    · simp only [hr] at hs
      cases hreply : o.reply with
      | none =>
        simp only [hreply, Option.some.injEq, Prod.mk.injEq] at hs
        exact hs.2 ▸ hinv'
      | some newfd =>
        simp only [hreply] at hs
        split at hs
        · simp only [Option.some.injEq, Prod.mk.injEq] at hs
          exact hs.2 ▸ hinv'
        · obtain ⟨hfree, hs⟩ := Option.ite_none_right_eq_some.mp hs
          simp only [Option.some.injEq, Prod.mk.injEq] at hs
          exact hs.2 ▸ hinv'.put hfree
    · simp only [hr, Option.some.injEq, Prod.mk.injEq] at hs
      exact hs.2 ▸ hinv

theorem step_inv (s : State) (a : Act) (t : State) (hinv : Inv s) (hforks : Forks s a)
    (hs : step s a = some t) : Inv t := by
  cases a with
  | csopen o =>
    obtain ⟨⟨z, u⟩, hcsopen, rfl⟩ := Option.map_eq_some_iff.mp hs
    exact csopen_inv hinv hforks hcsopen
  | openFile fd =>
    obtain ⟨hfree, hs⟩ := Option.ite_none_right_eq_some.mp hs
    exact Option.some.inj hs ▸ hinv.put hfree
  | closeFile fd =>
    obtain ⟨hother, hs⟩ := Option.ite_none_right_eq_some.mp hs
    exact Option.some.inj hs ▸ hinv.close hother

theorem rightly_of_forks (s : State) (a : Act) (t : State) (hinv : Inv s) (hforks : Forks s a)
    (_ : step s a = some t) : Rightly s a := by
  cases a with
  | csopen o => exact hinv.right hforks
  | openFile fd => trivial
  | closeFile fd => trivial

theorem forks_of_rightly (s : State) (a : Act) (t : State) (_ : True) (hright : Rightly s a)
    (hs : step s a = some t) : Forks s a := by
  cases a with
  | csopen o =>
    intro hfd hpipe
    by_contra hfork
    obtain ⟨⟨z, u⟩, hcsopen, -⟩ := Option.map_eq_some_iff.mp hs
    cases hr : s.startServer o with
    | none => simp [State.csopen, hr] at hcsopen
    | some r =>
      obtain ⟨hfd', -⟩ | ⟨-, hnone, -⟩ | ⟨a, b, -, -, -, hb, -, ⟨htrue, -⟩ | ⟨-, rfl⟩⟩ := startServer_cases hr
      · omega
      · exact hpipe hnone
      · exact hfork htrue
      · obtain ⟨hsame, -⟩ := hright.undone _ hr
        have hput := congrFun hsame b
        rw [hb] at hput
        exact absurd ((Table.put_self _).symm.trans hput) (by simp)
  | openFile fd => trivial
  | closeFile fd => trivial

/-- A process calls `csopen` rightly if and only if no `fork` fails after its `fd_pipe`. -/
theorem csopen_start_iff (as : List Act) (hrun : run step (start others) as = some s) :
    Meets step Rightly (start others) as ↔ Meets step Forks (start others) as :=
  ⟨Meets.imp (fun _ _ _ _ _ _ => trivial) forks_of_rightly trivial hrun,
    Meets.imp step_inv rightly_of_forks start_inv hrun⟩

def started : Outcome := ⟨some (3, 4), true, some 4⟩

/-- The first call starts the server, the second one does not. -/
theorem csopen_start_iff_twice : ∃ s, run step (start fun fd => fd < 3) [.csopen started, .csopen ⟨none, true, some (-1)⟩] =
      some s ∧
    Meets step Rightly (start fun fd => fd < 3) [.csopen started, .csopen ⟨none, true, some (-1)⟩] := by
  refine ⟨_, rfl, (csopen_start_iff _ rfl).mpr ⟨fun _ _ => rfl, fun t ht => ⟨fun hfd => ?_, fun _ _ => trivial⟩⟩⟩
  obtain rfl := Option.some.inj ht
  exact absurd hfd (by decide)

/-- `fork` fails in the first call; the second one writes to a socket that no server has. -/
theorem csopen_no_server : ∃ s t, step (start fun fd => fd < 3) (.csopen ⟨some (3, 4), false, none⟩) = some s ∧
    s.fds 3 ≠ none ∧ s.fds 4 ≠ none ∧ s.startServer started = some (.ok t) ∧ t.servers = [] ∧
    ¬ Meets step Rightly (start fun fd => fd < 3) [.csopen ⟨some (3, 4), false, none⟩] := by
  refine ⟨_, _, rfl, by decide, by decide, rfl, rfl, fun hmeets => ?_⟩
  obtain ⟨-, hneg⟩ := hmeets.1.undone _ rfl
  exact absurd hneg (by decide)

end Apue.OpenServer.Spawn
