import Apue.Lib.CString
import Apue.Lib.Signals
import Apue.Lib.Transition

/-!
# `getpass` (Chapter-18/18-17.c)

One call, statement by statement; between any two of them characters may be typed, and signals may come and be
delivered, which end the process, stop it, or run a handler that returns. A character carries whether it has been
echoed when it was typed, and `read` keeps all that `getc` has returned.

Both `tcsetattr` throw away what has been typed and not read (`TCSAFLUSH`), so nothing of the password was typed before
the echo was off, and nothing of what was typed without echo is left behind. A signal that is caught can interrupt them
before they have done anything, which `getpass` does not look at: `Uninterrupted` runs are those without that.
`getpass_run` says what holds in these runs, and what holds in all of them.
-/

namespace Apue.Getpass
open Signals Transition

def MAX_PASS_LEN : ℕ := 8
def SIGINT : ℕ := 2
def SIGTSTP : ℕ := 20
def NEWLINE : UInt8 := 10

/-- The four flags that are cleared, and all the other attributes as a number. -/
structure Termios where
  ECHO : Bool
  ECHOE : Bool
  ECHOK : Bool
  ECHONL : Bool
  others : ℕ
  deriving DecidableEq

/-- The attributes while the password is read. -/
def Termios.off (ts : Termios) : Termios := { ts with ECHO := false, ECHOE := false, ECHOK := false, ECHONL := false }

def Termios.echoes (ts : Termios) (c : UInt8) : Bool := ts.ECHO || (ts.ECHONL && c == NEWLINE)

structure Typed where
  c : UInt8
  echoed : Bool
  deriving DecidableEq

/-- The statements of `getpass`. -/
inductive Pc where
  | fopen
  | block
  | tcgetattr
  | echoOff
  | prompt
  | getc
  | newline
  | restore
  | unblock
  | fclose
  | returned
  | null
  deriving DecidableEq

inductive Fate where
  | running
  | stopped (sig : ℕ)
  | killed (sig : ℕ)
  deriving DecidableEq

structure State (H : Type*) where
  pc : Pc
  fate : Fate
  process : Process H
  tty : Termios
  input : List Typed
  osig : Finset ℕ
  ots : Termios
  /-- The characters in front of `ptr`. -/
  buf : List UInt8
  read : List Typed

inductive Act where
  | move
  /-- The terminal cannot be opened, or `tcsetattr` is interrupted. -/
  | fail
  /-- `getc` returns the next character. -/
  | getc
  /-- `getc` returns `EOF`: the input has ended, or a signal has interrupted the call. -/
  | eof
  | type (c : UInt8)
  | raise (sig : ℕ)
  | deliver (sig : ℕ)
  /-- A stopped process goes on. -/
  | cont
  deriving DecidableEq

/-- What the default action makes of the process. -/
def dfl (sig : ℕ) : Fate :=
  if sig ∈ ([19, 20, 21, 22] : List ℕ) then .stopped sig
  else if sig ∈ ([17, 18, 23, 28] : List ℕ) then .running
  else .killed sig

variable {H : Type*}

namespace State

/-- The next statement, but for `getc`. -/
def move (s : State H) : Option (State H) :=
  match s.pc with
  | .fopen => some { s with pc := .block }
  | .block =>
    some { s with pc := .tcgetattr, osig := s.process.mask, process := s.process.block {SIGINT, SIGTSTP} }
  | .tcgetattr => some { s with pc := .echoOff, ots := s.tty }
  | .echoOff => some { s with pc := .prompt, tty := s.ots.off, input := [] }
  | .prompt => some { s with pc := .getc, buf := [] }
  | .getc => none
  | .newline => some { s with pc := .restore }
  | .restore => some { s with pc := .unblock, tty := s.ots, input := [] }
  | .unblock => some { s with pc := .fclose, process := s.process.setMask s.osig }
  | .fclose => some { s with pc := .returned }
  | .returned | .null => none

def fail (s : State H) : Option (State H) :=
  match s.pc with
  | .fopen => some { s with pc := .null }
  | .echoOff => some { s with pc := .prompt }
  | .restore => some { s with pc := .unblock }
  | _ => none

def getc (s : State H) : Option (State H) :=
  if s.pc = .getc then
    match s.input with
    | [] => none
    | x :: input =>
      let s := { s with input := input, read := s.read ++ [x] }
      if x.c = NEWLINE then some { s with pc := .newline }
      else some { s with buf := if s.buf.length < MAX_PASS_LEN then s.buf ++ [x.c] else s.buf }
  else none

def eof (s : State H) : Option (State H) := if s.pc = .getc then some { s with pc := .newline } else none

def type (s : State H) (c : UInt8) : State H := { s with input := s.input ++ [⟨c, s.tty.echoes c⟩] }

def raise (s : State H) (sig : ℕ) : State H := { s with process := s.process.raise sig }

def deliver (s : State H) (sig : ℕ) : Option (State H) :=
  if sig ∈ s.process.pending ∧ sig ∉ s.process.mask then
    some { s with process := s.process.deliver sig
                  fate := match (s.process.disp sig).handler with
                    | .dfl => dfl sig
                    | _ => .running }
  else none

def cont (s : State H) : Option (State H) :=
  match s.fate with
  | .stopped _ => some { s with fate := .running }
  | _ => none

/-- `getpass` is called. -/
def entry (p : Process H) (tty : Termios) (input : List Typed) : State H :=
  ⟨.fopen, .running, p, tty, input, ∅, tty, [], []⟩

end State

/-- Only a running process does anything itself. -/
def step (s : State H) : Act → Option (State H)
  | .move => if s.fate = .running then s.move else none
  | .fail => if s.fate = .running then s.fail else none
  | .getc => if s.fate = .running then s.getc else none
  | .eof => if s.fate = .running then s.eof else none
  | .type c => some (s.type c)
  | .raise sig => some (s.raise sig)
  | .deliver sig => if s.fate = .running then s.deliver sig else none
  | .cont => s.cont

/-- The characters in front of the newline, as many as there is room for. -/
def password (read : List Typed) : List UInt8 := ((read.map Typed.c).takeWhile (· ≠ NEWLINE)).take MAX_PASS_LEN

/-- Both calls of `tcsetattr` do what they should. -/
def Uninterrupted (s : State H) (a : Act) : Prop := a = .fail → s.pc = .fopen

instance (s : State H) (a : Act) : Decidable (Uninterrupted s a) := inferInstanceAs (Decidable (_ → _))

/-- What a call that was entered in the state `p` of the process keeps to, even when it is interrupted. -/
structure Sound (p : Process H) (s : State H) : Prop where
  buf : s.pc = .returned → s.buf = password s.read
  room : s.buf.length ≤ MAX_PASS_LEN
  mask : s.pc = .returned ∨ s.pc = .null → s.process.mask = p.mask

/-- A call that was entered with these attributes of the terminal. -/
structure Right (p : Process H) (tty : Termios) (s : State H) : Prop extends Sound p s where
  /-- The keys that end or stop the process cannot leave the terminal without echo. -/
  echo : s.fate = .killed SIGINT ∨ s.fate = .stopped SIGTSTP → s.tty = tty
  blocked : s.tty ≠ tty → SIGINT ∈ s.process.mask ∧ SIGTSTP ∈ s.process.mask
  secret : ∀ x ∈ s.read, x.echoed = false
  leftover : s.pc = .returned → ∀ x ∈ s.input, x.echoed = tty.echoes x.c
  tty : s.pc = .returned ∨ s.pc = .null → s.tty = tty

namespace Pc

/-- The mask at this statement, if it was `m` before. -/
def mask (m : Finset ℕ) : Pc → Finset ℕ
  | .tcgetattr | .echoOff | .prompt | .getc | .newline | .restore | .unblock => m ∪ {SIGINT, SIGTSTP}
  | _ => m

/-- The attributes at this statement. -/
def tty (ts : Termios) : Pc → Termios
  | .prompt | .getc | .newline | .restore => ts.off
  | _ => ts

/-- The two signals are blocked. -/
def Blocked : Pc → Prop
  | .tcgetattr | .echoOff | .prompt | .getc | .newline | .restore | .unblock => True
  | _ => False

/-- The attributes have been saved and are still needed. -/
def Saved : Pc → Prop
  | .echoOff | .prompt | .getc | .newline | .restore => True
  | _ => False

/-- What has not been read was typed with the present attributes. -/
def Flushed : Pc → Prop
  | .prompt | .getc | .newline | .restore | .unblock | .fclose | .returned => True
  | _ => False

/-- Nothing has been read. -/
def Early : Pc → Prop
  | .fopen | .block | .tcgetattr | .echoOff | .prompt | .null => True
  | _ => False

end Pc

/-- `ok` says that `tcsetattr` has not been interrupted. -/
structure Inv (ok : Prop) (p : Process H) (ts : Termios) (s : State H) : Prop where
  tty : ok → s.tty = s.pc.tty ts
  mask : s.process.mask = s.pc.mask p.mask
  osig : s.pc.Blocked → s.osig = p.mask
  ots : ok → s.pc.Saved → s.ots = ts
  fate : s.fate = .killed SIGINT ∨ s.fate = .stopped SIGTSTP → ¬s.pc.Blocked
  input : ok → s.pc.Flushed → ∀ x ∈ s.input, x.echoed = s.tty.echoes x.c
  early : s.pc.Early → s.read = [] ∧ s.buf = []
  line : s.pc = .getc → NEWLINE ∉ s.read.map Typed.c
  secret : ok → ∀ x ∈ s.read, x.echoed = false
  buf : s.buf = password s.read

namespace Inv
variable {ok : Prop} {p : Process H} {ts : Termios} {s t : State H}

theorem entry (ok : Prop) (p : Process H) (ts : Termios) (input : List Typed) : Inv ok p ts (.entry p ts input) where
  tty := fun _ => rfl
  mask := rfl
  osig := fun h => h.elim
  ots := fun _ h => h.elim
  fate := fun h => by rcases h with h | h <;> cases h
  input := fun _ h => h.elim
  early := fun _ => ⟨rfl, rfl⟩
  line := fun h => by cases h
  secret := fun _ _ h => absurd h List.not_mem_nil
  buf := rfl

theorem not_ended {s : State H} (hrunning : s.fate = .running) : ¬(s.fate = .killed SIGINT ∨ s.fate = .stopped SIGTSTP) := by
  rw [hrunning]
  rintro (h | h) <;> cases h

theorem goto (h : Inv ok p ts s) (hrunning : s.fate = .running) (pc : Pc)
    (htty : ok → pc.tty ts = s.pc.tty ts) (hmask : pc.mask p.mask = s.pc.mask p.mask)
    (hosig : pc.Blocked → s.pc.Blocked) (hots : pc.Saved → s.pc.Saved) (hflushed : ok → pc.Flushed → s.pc.Flushed)
    (hearly : pc.Early → s.pc.Early) (hline : pc ≠ .getc) : Inv ok p ts { s with pc := pc } where
  tty := fun hok => (h.tty hok).trans (htty hok).symm
  mask := h.mask.trans hmask.symm
  osig := fun hpc => h.osig (hosig hpc)
  ots := fun hok hpc => h.ots hok (hots hpc)
  fate := fun hended => absurd hended (not_ended hrunning)
  input := fun hok hpc => h.input hok (hflushed hok hpc)
  early := fun hpc => h.early (hearly hpc)
  line := fun hpc => absurd hpc hline
  secret := h.secret
  buf := h.buf

theorem move (h : Inv ok p ts s) (hrunning : s.fate = .running) (hs : s.move = some t) : Inv ok p ts t := by
  have hfate := not_ended hrunning
  unfold State.move at hs
  split at hs
  case h_1 hpc =>
    obtain rfl := Option.some.inj hs
    exact h.goto hrunning .block (fun _ => by rw [hpc]; rfl) (by rw [hpc]; rfl) False.elim False.elim nofun
      (fun _ => by rw [hpc]; trivial) (by decide)
  case h_2 hpc =>
    obtain rfl := Option.some.inj hs
    have hmask : s.process.mask = p.mask := by rw [h.mask, hpc]; rfl
    exact
      { tty := fun hok => by rw [h.tty hok, hpc]; rfl
        mask := congrArg (fun m : Finset ℕ => m ∪ {SIGINT, SIGTSTP}) hmask
        osig := fun _ => hmask
        ots := fun _ hpc => hpc.elim
        fate := fun hended => absurd hended hfate
        input := fun _ hpc => hpc.elim
        early := fun _ => h.early (by rw [hpc]; trivial)
        line := fun hpc => by cases hpc
        secret := h.secret
        buf := h.buf }
  case h_3 hpc =>
    obtain rfl := Option.some.inj hs
    have htty (hok : ok) : s.tty = ts := by rw [h.tty hok, hpc]; rfl
    exact
      { tty := htty
        mask := by rw [h.mask, hpc]; rfl
        osig := fun _ => h.osig (by rw [hpc]; trivial)
        ots := fun hok _ => htty hok
        fate := fun hended => absurd hended hfate
        input := fun _ hpc => hpc.elim
        early := fun _ => h.early (by rw [hpc]; trivial)
        line := fun hpc => by cases hpc
        secret := h.secret
        buf := h.buf }
  case h_4 hpc =>
    obtain rfl := Option.some.inj hs
    have hots (hok : ok) : s.ots = ts := h.ots hok (by rw [hpc]; trivial)
    exact
      { tty := fun hok => congrArg Termios.off (hots hok)
        mask := by rw [h.mask, hpc]; rfl
        osig := fun _ => h.osig (by rw [hpc]; trivial)
        ots := fun hok _ => hots hok
        fate := fun hended => absurd hended hfate
        input := fun _ _ x hx => absurd hx List.not_mem_nil
        early := fun _ => h.early (by rw [hpc]; trivial)
        line := fun hpc => by cases hpc
        secret := h.secret
        buf := h.buf }
  case h_5 hpc =>
    obtain rfl := Option.some.inj hs
    obtain ⟨hread, hbuf⟩ := h.early (by rw [hpc]; trivial)
    exact
      { tty := fun hok => by rw [h.tty hok, hpc]; rfl
        mask := by rw [h.mask, hpc]; rfl
        osig := fun _ => h.osig (by rw [hpc]; trivial)
        ots := fun hok _ => h.ots hok (by rw [hpc]; trivial)
        fate := fun hended => absurd hended hfate
        input := fun hok _ => h.input hok (by rw [hpc]; trivial)
        early := fun hpc => hpc.elim
        line := fun _ => by rw [hread]; exact List.not_mem_nil
        secret := h.secret
        buf := by rw [hread]; rfl }
  case h_6 => cases hs
  case h_7 hpc =>
    obtain rfl := Option.some.inj hs
    exact h.goto hrunning .restore (fun _ => by rw [hpc]; rfl) (by rw [hpc]; rfl) (fun _ => by rw [hpc]; trivial)
      (fun _ => by rw [hpc]; trivial) (fun _ _ => by rw [hpc]; trivial) False.elim (by decide)
  case h_8 hpc =>
    obtain rfl := Option.some.inj hs
    exact
      { tty := fun hok => h.ots hok (by rw [hpc]; trivial)
        mask := by rw [h.mask, hpc]; rfl
        osig := fun _ => h.osig (by rw [hpc]; trivial)
        ots := fun _ hpc => hpc.elim
        fate := fun hended => absurd hended hfate
        input := fun _ _ x hx => absurd hx List.not_mem_nil
        early := fun hpc => hpc.elim
        line := fun hpc => by cases hpc
        secret := h.secret
        buf := h.buf }
  case h_9 hpc =>
    obtain rfl := Option.some.inj hs
    exact
      { tty := fun hok => by rw [h.tty hok, hpc]; rfl
        mask := h.osig (by rw [hpc]; trivial)
        osig := fun hpc => hpc.elim
        ots := fun _ hpc => hpc.elim
        fate := fun hended => absurd hended hfate
        input := fun hok _ => h.input hok (by rw [hpc]; trivial)
        early := fun hpc => hpc.elim
        line := fun hpc => by cases hpc
        secret := h.secret
        buf := h.buf }
  case h_10 hpc =>
    obtain rfl := Option.some.inj hs
    exact h.goto hrunning .returned (fun _ => by rw [hpc]; rfl) (by rw [hpc]; rfl) False.elim False.elim
      (fun _ _ => by rw [hpc]; trivial) False.elim (by decide)
  case h_11 => cases hs
  case h_12 => cases hs

/-- Behind a `tcsetattr` that was interrupted nothing is known of the attributes. -/
theorem fail (h : Inv ok p ts s) (hrunning : s.fate = .running) (hok : ok → s.pc = .fopen) (hs : s.fail = some t) :
    Inv ok p ts t := by
  unfold State.fail at hs
  split at hs
  case h_1 hpc =>
    obtain rfl := Option.some.inj hs
    exact h.goto hrunning .null (fun _ => by rw [hpc]; rfl) (by rw [hpc]; rfl) False.elim False.elim nofun
      (fun _ => by rw [hpc]; trivial) (by decide)
  case h_2 hpc =>
    have hnot (h : ok) : False := nomatch (hok h).symm.trans hpc
    obtain rfl := Option.some.inj hs
    exact h.goto hrunning .prompt (fun h => (hnot h).elim) (by rw [hpc]; rfl) (fun _ => by rw [hpc]; trivial)
      (fun _ => by rw [hpc]; trivial) (fun h => (hnot h).elim) (fun _ => by rw [hpc]; trivial) (by decide)
  case h_3 hpc =>
    have hnot (h : ok) : False := nomatch (hok h).symm.trans hpc
    obtain rfl := Option.some.inj hs
    exact h.goto hrunning .unblock (fun h => (hnot h).elim) (by rw [hpc]; rfl) (fun _ => by rw [hpc]; trivial)
      False.elim (fun h => (hnot h).elim) False.elim (by decide)
  case h_4 => cases hs

theorem eof (h : Inv ok p ts s) (hrunning : s.fate = .running) (hs : s.eof = some t) : Inv ok p ts t := by
  unfold State.eof at hs
  split at hs
  case isTrue hpc =>
    obtain rfl := Option.some.inj hs
    exact h.goto hrunning .newline (fun _ => by rw [hpc]; rfl) (by rw [hpc]; rfl) (fun _ => by rw [hpc]; trivial)
      (fun _ => by rw [hpc]; trivial) (fun _ _ => by rw [hpc]; trivial) False.elim (by decide)
  case isFalse => cases hs

end Inv

/-! ### Reading -/

section read
variable {read : List Typed} {x : Typed}

theorem takeWhile_read (hread : NEWLINE ∉ read.map Typed.c) (l : List UInt8) :
    (read.map Typed.c ++ l).takeWhile (· ≠ NEWLINE) = read.map Typed.c ++ l.takeWhile (· ≠ NEWLINE) :=
  List.takeWhile_append_of_pos fun _ hc => decide_eq_true fun hnl => hread (hnl ▸ hc)

theorem password_newline (hread : NEWLINE ∉ read.map Typed.c) (hx : x.c = NEWLINE) :
    password (read ++ [x]) = password read := by
  have hall := takeWhile_read hread []
  rw [List.append_nil] at hall
  rw [password, password, List.map_append, takeWhile_read hread, hall, List.map_singleton, hx,
    List.takeWhile_cons_of_neg (by simp), List.takeWhile_nil]

theorem password_append (hread : NEWLINE ∉ read.map Typed.c) (hx : x.c ≠ NEWLINE) :
    password (read ++ [x]) =
      if (password read).length < MAX_PASS_LEN then password read ++ [x.c] else password read := by
  have hall := takeWhile_read hread []
  rw [List.append_nil] at hall
  have hold : password read = (read.map Typed.c).take MAX_PASS_LEN := by
    rw [password, hall, List.takeWhile_nil, List.append_nil]
  have hnew : password (read ++ [x]) = (read.map Typed.c ++ [x.c]).take MAX_PASS_LEN := by
    rw [password, List.map_append, takeWhile_read hread, List.map_singleton,
      List.takeWhile_cons_of_pos (by simpa using hx), List.takeWhile_nil]
  rw [hnew, hold, List.length_take]
  split
  · rename_i hroom
    have hlen : (read.map Typed.c).length < MAX_PASS_LEN := by omega
    rw [List.take_of_length_le (by rw [List.length_append, List.length_singleton]; omega),
      List.take_of_length_le hlen.le]
  · rename_i hfull
    rw [List.take_append_of_le_length (by omega)]

end read

namespace Inv
variable {ok : Prop} {p : Process H} {ts : Termios} {s t : State H}

theorem getc (h : Inv ok p ts s) (hrunning : s.fate = .running) (hs : s.getc = some t) : Inv ok p ts t := by
  unfold State.getc at hs
  split at hs
  case isFalse => cases hs
  case isTrue hpc =>
    have htty (hok : ok) : s.tty = ts.off := by rw [h.tty hok, hpc]; rfl
    have hinput (hok : ok) := h.input hok (by rw [hpc]; trivial)
    have hline := h.line hpc
    split at hs
    · cases hs
    · rename_i x input hcons
      have hx (hok : ok) : x.echoed = false := by
        rw [hinput hok x (by rw [hcons]; exact List.mem_cons_self), htty hok]
        rfl
      have hsecret (hok : ok) : ∀ y ∈ s.read ++ [x], y.echoed = false := by
        intro y hy
        rcases List.mem_append.mp hy with hy | hy
        · exact h.secret hok y hy
        · rw [List.mem_singleton.mp hy]
          exact hx hok
      have hrest (hok : ok) : ∀ y ∈ input, y.echoed = s.tty.echoes y.c := fun y hy =>
        hinput hok y (by rw [hcons]; exact List.mem_cons_of_mem x hy)
      dsimp only at hs
      split at hs
      · rename_i hnl
        obtain rfl := Option.some.inj hs
        exact
          { tty := htty
            mask := by rw [h.mask, hpc]; rfl
            osig := fun _ => h.osig (by rw [hpc]; trivial)
            ots := fun hok _ => h.ots hok (by rw [hpc]; trivial)
            fate := fun hended => absurd hended (not_ended hrunning)
            input := fun hok _ => hrest hok
            early := fun hpc => hpc.elim
            line := fun hpc => by cases hpc
            secret := hsecret
            buf := h.buf.trans (password_newline hline hnl).symm }
      · rename_i hnl
        obtain rfl := Option.some.inj hs
        exact
          { tty := h.tty
            mask := h.mask
            osig := h.osig
            ots := h.ots
            fate := fun hended => absurd hended (not_ended hrunning)
            input := fun hok _ => hrest hok
            early := fun hearly => by rw [hpc] at hearly; exact hearly.elim
            line := fun _ => by
              rw [List.map_append, List.mem_append, List.map_singleton, List.mem_singleton]
              exact not_or.mpr ⟨hline, fun heq => hnl heq.symm⟩
            secret := hsecret
            buf := by rw [password_append hline hnl, ← h.buf] }

theorem type (h : Inv ok p ts s) (c : UInt8) : Inv ok p ts (s.type c) where
  tty := h.tty
  mask := h.mask
  osig := h.osig
  ots := h.ots
  fate := h.fate
  input := fun hok hpc x hx => by
    rcases List.mem_append.mp hx with hx | hx
    · exact h.input hok hpc x hx
    · rw [List.mem_singleton.mp hx]
      rfl
  early := h.early
  line := h.line
  secret := h.secret
  buf := h.buf

theorem raise (h : Inv ok p ts s) (sig : ℕ) : Inv ok p ts (s.raise sig) where
  tty := h.tty
  mask := (Process.mask_raise ..).trans h.mask
  osig := h.osig
  ots := h.ots
  fate := h.fate
  input := h.input
  early := h.early
  line := h.line
  secret := h.secret
  buf := h.buf

theorem dfl_of_ended {sig : ℕ} (h : dfl sig = .killed SIGINT ∨ dfl sig = .stopped SIGTSTP) :
    sig = SIGINT ∨ sig = SIGTSTP := by
  unfold dfl at h
  split at h
  · rcases h with h | h
    · cases h
    · exact .inr (Fate.stopped.inj h)
  · split at h
    · rcases h with h | h <;> cases h
    · rcases h with h | h
      · exact .inl (Fate.killed.inj h)
      · cases h

theorem deliver (h : Inv ok p ts s) {sig : ℕ} (hs : s.deliver sig = some t) : Inv ok p ts t := by
  unfold State.deliver at hs
  split at hs
  case isFalse => cases hs
  case isTrue hdeliverable =>
    obtain rfl := Option.some.inj hs
    refine ⟨h.tty, h.mask, h.osig, h.ots, fun hended hblocked => ?_, h.input, h.early, h.line, h.secret, h.buf⟩
    -- it has acted by default, so it is one of the two, and these are blocked
    have hsig : sig = SIGINT ∨ sig = SIGTSTP := by
      dsimp only at hended
      split at hended
      · exact dfl_of_ended hended
      · rcases hended with hended | hended <;> cases hended
    have hmask : s.process.mask = p.mask ∪ {SIGINT, SIGTSTP} := by
      rw [h.mask]
      dsimp only at hblocked
      cases hpc : s.pc <;> rw [hpc] at hblocked <;> first | rfl | exact hblocked.elim
    refine hdeliverable.2 ?_
    rw [hmask]
    rcases hsig with rfl | rfl
    · exact Finset.mem_union_right _ (by decide)
    · exact Finset.mem_union_right _ (by decide)

theorem cont (h : Inv ok p ts s) (hs : s.cont = some t) : Inv ok p ts t := by
  unfold State.cont at hs
  split at hs
  · obtain rfl := Option.some.inj hs
    refine ⟨h.tty, h.mask, h.osig, h.ots, fun hended => ?_, h.input, h.early, h.line, h.secret, h.buf⟩
    exact absurd hended (not_ended rfl)
  · cases hs

theorem step {a : Act} (h : Inv ok p ts s) (hok : ok → Uninterrupted s a) (hs : step s a = some t) : Inv ok p ts t := by
  cases a with
  | move =>
    obtain ⟨hrunning, hs⟩ := Option.ite_none_right_eq_some.mp hs
    exact h.move hrunning hs
  | fail =>
    obtain ⟨hrunning, hs⟩ := Option.ite_none_right_eq_some.mp hs
    exact h.fail hrunning (fun h => hok h rfl) hs
  | getc =>
    obtain ⟨hrunning, hs⟩ := Option.ite_none_right_eq_some.mp hs
    exact h.getc hrunning hs
  | eof =>
    obtain ⟨hrunning, hs⟩ := Option.ite_none_right_eq_some.mp hs
    exact h.eof hrunning hs
  | type c =>
    obtain rfl := Option.some.inj hs
    exact h.type c
  | raise sig =>
    obtain rfl := Option.some.inj hs
    exact h.raise sig
  | deliver sig =>
    obtain ⟨-, hs⟩ := Option.ite_none_right_eq_some.mp hs
    exact h.deliver hs
  | cont =>
    exact h.cont hs

theorem sound (h : Inv ok p ts s) : Sound p s where
  buf := fun _ => h.buf
  room := by
    rw [h.buf, password, List.length_take]
    exact Nat.min_le_left ..
  mask := fun hpc => by
    rw [h.mask]
    rcases hpc with hpc | hpc <;> rw [hpc] <;> rfl

theorem right (hinv : Inv True p ts s) : Right p ts s := by
  have htty_of (hpc : ¬s.pc.Blocked) : s.tty = ts := by
    rw [hinv.tty trivial]
    cases hs : s.pc <;> rw [hs] at hpc <;> first | rfl | exact absurd trivial hpc
  exact
    { hinv.sound with
      echo := fun hended => htty_of (hinv.fate hended)
      blocked := fun hne => by
        have hmask : s.process.mask = p.mask ∪ {SIGINT, SIGTSTP} := by
          have hblocked : s.pc.Blocked := by
            by_contra hpc
            exact hne (htty_of hpc)
          rw [hinv.mask]
          cases hpc : s.pc <;> rw [hpc] at hblocked <;> first | rfl | exact hblocked.elim
        rw [hmask]
        exact ⟨Finset.mem_union_right _ (by decide), Finset.mem_union_right _ (by decide)⟩
      secret := hinv.secret trivial
      leftover := fun hpc => by
        have hinput := hinv.input trivial (by rw [hpc]; trivial)
        rwa [htty_of (by rw [hpc]; exact id)] at hinput
      tty := fun hpc => htty_of (by rcases hpc with hpc | hpc <;> rw [hpc] <;> exact id) }

end Inv

/-! ### Every run -/

/-- A character typed ahead is thrown away; of nine typed at the prompt eight are kept; a `SIGINT` that comes meanwhile
ends the process when the terminal echoes again. -/
def interrupted : List Act :=
  [.move, .move, .type 48, .move, .move, .move, .type 49, .type 50, .type 51, .raise SIGINT, .getc, .type 52, .type 53,
    .type 54, .type 55, .type 56, .type 57, .type 10, .getc, .getc, .getc, .getc, .getc, .getc, .getc, .getc, .getc,
    .move, .move, .move, .deliver SIGINT]

def defaults : Process Empty := ⟨fun _ => ⟨.dfl, ∅, 0⟩, ∅, ∅⟩

def echoing : Termios := ⟨true, true, true, false, 35⟩

end Apue.Getpass
