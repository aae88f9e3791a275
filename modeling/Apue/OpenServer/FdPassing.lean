import Apue.Lib.Transition
import Mathlib.Data.List.Infix
import Mathlib.Tactic.Ring

/-!
# Passing descriptors and errors (Chapter-17/17-12.c, 17-13.c and 17-14.c)

A stream socket carries cells: a byte, with the descriptor that travels with it as ancillary data, if
any. `send_err` writes its message, in as many pieces as `writen` happens to need, and then calls
`send_fd` with a negative number; `send_fd` sends a null byte and a status byte in one `sendmsg`.
`recv_fd` takes what has arrived, at most `MAXLINE` bytes at a time, looks for the null byte, which has
to be the last but one of the buffer, and hands everything before it to `userfunc`.

`F` is the type of open files. `scan` is the inner loop of `recv_fd`, `recvBuf` one turn of the outer
one. `recv_fd_run`: for every message without a null byte that fits, with its two final bytes, in one
buffer, and every splitting of writes and reads, `recv_fd` never dumps, hands over the message and
returns the answer.
-/

namespace Apue.OpenServer
open Transition

def MAXLINE : ℕ := 4096

/-- A byte of a stream and the descriptor that comes with it. -/
structure Cell (F : Type*) where
  byte : UInt8
  fd : Option F

variable {F : Type*}

def plain (b : UInt8) : Cell F := ⟨b, none⟩

/-! ### The sender -/

/-- `buf[1]` of `send_fd` for a negative argument. -/
def statusByte (e : ℤ) : UInt8 :=
  let b := UInt8.ofNat ((-e) % 256).toNat
  if b = 0 then 1 else b

/-- The two bytes of `send_fd`, for a negative number or a descriptor. -/
def sendFd : Except ℤ F → List (Cell F)
  | .error e => [plain 0, plain (statusByte e)]
  | .ok d => [⟨0, some d⟩, plain 0]

/-- What `send_err` hands to `send_fd`. -/
def errArg (errcode : ℤ) : ℤ := if errcode ≥ 0 then -1 else errcode

/-- What the peer calls. -/
inductive Call (F : Type*) where
  | sendErr (errcode : ℤ) (msg : List UInt8)
  | sendFd (d : F)

/-- The sender is in `writen`, before `sendmsg`, or done. -/
inductive Sender (F : Type*) where
  | writen (rest : List UInt8) (errcode : ℤ)
  | sendmsg (arg : Except ℤ F)
  | done

def Call.start : Call F → Sender F
  | .sendErr errcode msg =>
    if 0 < msg.length then .writen msg errcode else .sendmsg (.error (errArg errcode))
  | .sendFd d => .sendmsg (.ok d)

/-! ### The receiver -/

inductive Dump where
  | messageFormatError
  | statusZeroNoFd
  deriving DecidableEq

/-- What becomes of `newfd` at the status byte `b`; `control` is the descriptor that came along. -/
def readStatus (control : Option F) (b : UInt8) : Except Dump (Except ℤ F) :=
  if b = 0 then
    match control with
    | none => .error .statusZeroNoFd
    | some d => .ok (.ok d)
  else .ok (.error (-b.toNat))

/-- The loop over the bytes `buf[ptr..]`, with the `nr` bytes that count. -/
def scan (control : Option F) : List UInt8 → ℕ → ℕ → ℤ → Option (Except ℤ F) →
    Except Dump (ℕ × ℤ × Option (Except ℤ F))
  | [], _, nr, status, newfd => .ok (nr, status, newfd)
  | c :: rest, ptr, nr, status, newfd =>
    if ptr < nr then
      if c = 0 then
        -- `ptr` has moved on to the byte behind the null
        if ptr + 1 ≠ nr - 1 then .error .messageFormatError
        else (readStatus control (rest.headD 0)).bind fun v =>
          scan control rest (ptr + 1) (nr - 2) (rest.headD 0).toNat (some v)
      else scan control rest (ptr + 1) nr status newfd
    else .ok (nr, status, newfd)

inductive RecvPc (F : Type*) where
  | running
  | returned (r : Option (Except ℤ F))
  | dumped (d : Dump)

/-- The variables of `recv_fd`; `newfd` is `none` until it is assigned. `passed` logs what `userfunc`
was given. -/
structure Recv (F : Type*) where
  status : ℤ
  newfd : Option (Except ℤ F)
  passed : List UInt8
  pc : RecvPc F

def Recv.start : Recv F := ⟨-1, none, [], .running⟩

/-- One turn of the loop of `recv_fd`, after `recvmsg` has filled `buf`. -/
def recvBuf (userfunc : List UInt8 → ℤ) (r : Recv F) (buf : List UInt8) (control : Option F) : Recv F :=
  match scan control buf 0 buf.length r.status r.newfd with
  | .error d => { r with pc := .dumped d }
  | .ok (nr, status, newfd) =>
    { status, newfd
      passed := r.passed ++ buf.take nr
      pc :=
        if 0 < nr ∧ userfunc (buf.take nr) ≠ nr then .returned (some (.error (-1)))
        else if status ≥ 0 then .returned newfd
        else .running }

/-! ### The two ends -/

structure State (F : Type*) where
  stream : List (Cell F)
  sender : Sender F
  recv : Recv F

/-- A write of `n` bytes inside `writen`, the `sendmsg`, or a `recvmsg` of the receiver. -/
inductive Act where
  | write (n : ℕ)
  | sendmsg
  | recvmsg

def step (userfunc : List UInt8 → ℤ) (s : State F) : Act → Option (State F)
  | .write n =>
    match s.sender with
    | .writen rest errcode =>
      if 1 ≤ n ∧ n ≤ rest.length then
        some { s with
          stream := s.stream ++ (rest.take n).map plain
          sender :=
            if n = rest.length then .sendmsg (.error (errArg errcode))
            else .writen (rest.drop n) errcode }
      else none
    | _ => none
  | .sendmsg =>
    match s.sender with
    | .sendmsg arg => some { s with stream := s.stream ++ sendFd arg, sender := .done }
    | _ => none
  | .recvmsg =>
    match s.recv.pc with
    | .running =>
      if s.stream = [] then none
      else
        some { s with
          stream := s.stream.drop MAXLINE
          recv := recvBuf userfunc s.recv ((s.stream.take MAXLINE).map Cell.byte)
            ((s.stream.take MAXLINE).findSome? Cell.fd) }
    | _ => none

def Call.init (c : Call F) : State F := ⟨[], c.start, Recv.start⟩

/-! ### What is sent and what is to come out -/

def Call.text : Call F → List UInt8
  | .sendErr _ msg => msg
  | .sendFd _ => []

def Call.arg : Call F → Except ℤ F
  | .sendErr errcode _ => .error (errArg errcode)
  | .sendFd d => .ok d

/-- The message is without null bytes and no longer than `handle_request` can make it. -/
def Call.Fits (c : Call F) : Prop := 0 ∉ c.text ∧ c.text.length ≤ MAXLINE - 2

/-- What `recv_fd` makes of the argument of `send_fd`. -/
def answer : Except ℤ F → Except ℤ F
  | .error e => .error (-(statusByte e).toNat)
  | .ok d => .ok d

/-- What `recv_fd` should return. -/
def Call.Answers : Call F → Except ℤ F → Prop
  | .sendErr errcode _, .error v =>
    -255 ≤ v ∧ v ≤ -1 ∧ (-255 ≤ errcode ∧ errcode ≤ -1 → v = errcode) ∧ (errcode ≥ 0 → v = -1)
  | .sendFd d, .ok d' => d' = d
  | _, _ => False

theorem toNat_statusByte (e : ℤ) :
    (statusByte e).toNat = if ((-e) % 256).toNat = 0 then 1 else ((-e) % 256).toNat := by
  have hlt : ((-e) % 256).toNat < 256 := by omega
  have hnat : (UInt8.ofNat ((-e) % 256).toNat).toNat = ((-e) % 256).toNat := by
    rw [UInt8.toNat_ofNat']
    exact Nat.mod_eq_of_lt hlt
  unfold statusByte
  by_cases hzero : ((-e) % 256).toNat = 0
  · rw [hzero]
    rfl
  · have hne : UInt8.ofNat ((-e) % 256).toNat ≠ 0 := by
      intro h
      rw [h] at hnat
      exact hzero hnat.symm
    simp only [if_neg hne, if_neg hzero, hnat]

theorem statusByte_ne_zero (e : ℤ) : statusByte e ≠ 0 := by
  intro h
  have hnat := toNat_statusByte e
  rw [h] at hnat
  have hzero : (0 : UInt8).toNat = 0 := rfl
  split at hnat <;> omega

theorem answers_answer (c : Call F) : c.Answers (answer c.arg) := by
  cases c with
  | sendFd d => rfl
  | sendErr errcode msg =>
    have hbyte := toNat_statusByte (errArg errcode)
    simp only [Call.arg, answer, Call.Answers]
    have harg : errArg errcode = if errcode ≥ 0 then -1 else errcode := rfl
    generalize errArg errcode = arg at hbyte harg ⊢
    generalize (statusByte arg).toNat = b at hbyte ⊢
    rcases lt_or_ge errcode 0 with hneg | hpos
    · rw [if_neg (Int.not_le.mpr hneg)] at harg
      split at hbyte <;> omega
    · rw [if_pos hpos] at harg
      split at hbyte <;> omega

/-! ### The inner loop -/

section scan
variable {control : Option F} {status : ℤ} {newfd : Option (Except ℤ F)} {m : List UInt8} {ptr nr : ℕ}

theorem scan_of_notMem (h : 0 ∉ m) (hnr : ptr + m.length = nr) :
    scan control m ptr nr status newfd = .ok (nr, status, newfd) := by
  induction m generalizing ptr with
  | nil => rfl
  | cons c m ih =>
    rw [List.length_cons] at hnr
    have hc : c ≠ 0 := fun hc => h (by simp [hc])
    rw [scan, if_pos (by omega), if_neg hc]
    exact ih (fun hmem => h (by simp [hmem])) (by omega)

theorem scan_message (h : 0 ∉ m) (b : UInt8) (hnr : ptr + m.length + 2 = nr) :
    scan control (m ++ [0, b]) ptr nr status newfd =
      (readStatus control b).map fun v => (nr - 2, (b.toNat : ℤ), some v) := by
  induction m generalizing ptr with
  | nil =>
    rw [List.length_nil] at hnr
    rw [List.nil_append, scan, if_pos (by omega), if_pos rfl, if_neg (by omega), List.headD_cons]
    cases readStatus control b with
    | error d => rfl
    | ok v =>
      show scan control [b] (ptr + 1) (nr - 2) b.toNat (some v) = _
      rw [scan, if_neg (by omega)]
      rfl
  | cons c m ih =>
    rw [List.length_cons] at hnr
    have hc : c ≠ 0 := fun hc => h (by simp [hc])
    rw [List.cons_append, scan, if_pos (by omega), if_neg hc]
    exact ih (fun hmem => h (by simp [hmem])) (by omega)

end scan

/-! ### One turn of `recv_fd` -/

section recv
variable {userfunc : List UInt8 → ℤ} {r : Recv F} {m : List UInt8}

theorem recvBuf_piece (haccept : ∀ b, userfunc b = b.length) (hm : 0 ∉ m) (hstatus : r.status = -1)
    (control : Option F) :
    recvBuf userfunc r m control = { r with passed := r.passed ++ m, pc := .running } := by
  rw [recvBuf, scan_of_notMem hm (Nat.zero_add _)]
  simp [haccept, hstatus]

theorem recvBuf_last (haccept : ∀ b, userfunc b = b.length) (hm : 0 ∉ m) {control : Option F}
    {b : UInt8} {v : Except ℤ F} (hv : readStatus control b = .ok v) :
    recvBuf userfunc r (m ++ [0, b]) control =
      ⟨b.toNat, some v, r.passed ++ m, .returned (some v)⟩ := by
  rw [recvBuf, scan_message hm b (by simp), hv]
  simp [haccept, Except.map]

theorem map_byte_plain (m : List UInt8) : (m.map (plain (F := F))).map Cell.byte = m := by
  rw [List.map_map]
  exact List.map_id m

theorem findSome?_plain (m : List UInt8) : (m.map (plain (F := F))).findSome? Cell.fd = none := by
  simp [plain]

theorem sendFd_bytes (m : List UInt8) (a : Except ℤ F) : ∃ b,
    (m.map plain ++ sendFd a).map Cell.byte = m ++ [0, b] ∧
      readStatus ((m.map plain ++ sendFd a).findSome? Cell.fd) b = .ok (answer a) := by
  rw [List.map_append, map_byte_plain, List.findSome?_append, findSome?_plain, Option.none_or]
  cases a with
  | error e =>
    refine ⟨statusByte e, rfl, ?_⟩
    unfold readStatus
    rw [if_neg (statusByte_ne_zero e)]
    rfl
  | ok d => exact ⟨0, rfl, rfl⟩

end recv

/-! ### Every run -/

section run
variable {userfunc : List UInt8 → ℤ} {c : Call F} {s s' : State F}

theorem write_eq_some {n : ℕ} (hs : step userfunc s (.write n) = some s') :
    ∃ rest errcode, s.sender = .writen rest errcode ∧ 1 ≤ n ∧ n ≤ rest.length ∧
      s' = { s with
        stream := s.stream ++ (rest.take n).map plain
        sender :=
          if n = rest.length then .sendmsg (.error (errArg errcode))
          else .writen (rest.drop n) errcode } := by
  unfold step at hs
  cases hsender : s.sender with
  | sendmsg arg => simp [hsender] at hs
  | done => simp [hsender] at hs
  | writen rest errcode =>
    simp only [hsender] at hs
    obtain ⟨⟨hpos, hle⟩, hs⟩ := Option.ite_none_right_eq_some.mp hs
    exact ⟨rest, errcode, rfl, hpos, hle, (Option.some.inj hs).symm⟩

theorem sendmsg_eq_some (hs : step userfunc s .sendmsg = some s') :
    ∃ arg, s.sender = .sendmsg arg ∧
      s' = { s with stream := s.stream ++ sendFd arg, sender := .done } := by
  unfold step at hs
  cases hsender : s.sender with
  | writen rest errcode => simp [hsender] at hs
  | done => simp [hsender] at hs
  | sendmsg arg =>
    simp only [hsender, Option.some.injEq] at hs
    exact ⟨arg, rfl, hs.symm⟩

theorem recvmsg_eq_some (hs : step userfunc s .recvmsg = some s') :
    s.recv.pc = .running ∧ s.stream ≠ [] ∧
      s' = { s with
        stream := s.stream.drop MAXLINE
        recv := recvBuf userfunc s.recv ((s.stream.take MAXLINE).map Cell.byte)
          ((s.stream.take MAXLINE).findSome? Cell.fd) } := by
  unfold step at hs
  cases hpc : s.recv.pc with
  | returned r => simp [hpc] at hs
  | dumped d => simp [hpc] at hs
  | running =>
    simp only [hpc] at hs
    obtain ⟨hne, hs⟩ := Option.ite_none_left_eq_some.mp hs
    exact ⟨rfl, hne, (Option.some.inj hs).symm⟩

/-- What the sender still has to send. -/
def Sender.unsent : Sender F → List (Cell F)
  | .writen rest errcode => rest.map plain ++ sendFd (.error (errArg errcode))
  | .sendmsg arg => sendFd arg
  | .done => []

/-- The sender works on the call `c`. -/
inductive Sender.For (c : Call F) : Sender F → Prop where
  | writen {rest errcode} (harg : c.arg = .error (errArg errcode)) (hne : rest ≠ []) :
      Sender.For c (.writen rest errcode)
  | sendmsg : Sender.For c (.sendmsg c.arg)
  | done : Sender.For c .done

theorem Sender.For.unsent {sender : Sender F} (h : sender.For c) :
    sender = .done ∨ ∃ rest : List UInt8, sender.unsent = rest.map plain ++ sendFd c.arg := by
  cases h with
  | writen harg _ => exact Or.inr ⟨_, by rw [harg]; rfl⟩
  | sendmsg => exact Or.inr ⟨[], rfl⟩
  | done => exact Or.inl rfl

/-- Until `recv_fd` returns, the rest of the message and the two final bytes are in the stream or still
to be sent; then nothing is left of them. -/
inductive Inv (c : Call F) (s : State F) : Prop where
  | running (rest : List UInt8) (htext : c.text = s.recv.passed ++ rest)
      (hstatus : s.recv.status = -1) (hpc : s.recv.pc = .running) (hsender : s.sender.For c)
      (hstream : s.stream ++ s.sender.unsent = rest.map plain ++ sendFd c.arg)
  | returned (htext : s.recv.passed = c.text) (hpc : s.recv.pc = .returned (some (answer c.arg)))
      (hstream : s.stream = []) (hsender : s.sender = .done)

theorem init_inv (c : Call F) : Inv c c.init := by
  cases c with
  | sendFd d => exact .running [] rfl rfl rfl .sendmsg rfl
  | sendErr errcode msg =>
    have hinit : (Call.sendErr (F := F) errcode msg).init.sender =
        if 0 < msg.length then .writen msg errcode else .sendmsg (.error (errArg errcode)) := rfl
    split at hinit
    · rename_i hlen
      have hne : msg ≠ [] := List.ne_nil_of_length_pos hlen
      exact .running msg rfl rfl rfl (hinit ▸ .writen rfl hne) (by rw [hinit]; rfl)
    · rename_i hlen
      obtain rfl : msg = [] := List.length_eq_zero_iff.mp (by omega)
      exact .running [] rfl rfl rfl (hinit ▸ .sendmsg) (by rw [hinit]; rfl)

theorem write_inv {n : ℕ} (h : Inv c s) (hs : step userfunc s (.write n) = some s') : Inv c s' := by
  obtain ⟨r, errcode, hsender, -, hn, rfl⟩ := write_eq_some hs
  cases h with
  | returned _ _ _ hdone => exact absurd (hsender.symm.trans hdone) (by simp)
  | running rest htext hstatus hpc hfor hstream =>
    rw [hsender] at hstream hfor
    have harg : c.arg = .error (errArg errcode) := by
      cases hfor with
      | writen harg _ => exact harg
    refine .running rest htext hstatus hpc ?_ ?_
    · show Sender.For c (if n = r.length then _ else _)
      split
      · rw [← harg]
        exact .sendmsg
      · refine .writen harg (List.ne_nil_of_length_pos ?_)
        rw [List.length_drop]
        omega
    · have hunsent : (if n = r.length then Sender.sendmsg (.error (errArg errcode))
          else .writen (r.drop n) errcode).unsent =
            (r.drop n).map plain ++ sendFd (F := F) (.error (errArg errcode)) := by
        split
        · rename_i hall
          rw [hall, List.drop_length]
          rfl
        · rfl
      rw [hunsent, ← hstream, List.append_assoc, ← List.append_assoc ((r.take n).map plain),
        ← List.map_append, List.take_append_drop]
      rfl

theorem sendmsg_inv (h : Inv c s) (hs : step userfunc s .sendmsg = some s') : Inv c s' := by
  obtain ⟨arg, hsender, rfl⟩ := sendmsg_eq_some hs
  cases h with
  | returned _ _ _ hdone => exact absurd (hsender.symm.trans hdone) (by simp)
  | running rest htext hstatus hpc hfor hstream =>
    rw [hsender] at hstream
    refine .running rest htext hstatus hpc .done ?_
    rw [← hstream]
    exact List.append_nil _

theorem recvmsg_inv (hfits : c.Fits) (haccept : ∀ b, userfunc b = b.length) (h : Inv c s)
    (hs : step userfunc s .recvmsg = some s') : Inv c s' := by
  obtain ⟨hrunning, -, rfl⟩ := recvmsg_eq_some hs
  cases h with
  | returned _ hpc => exact absurd (hrunning.symm.trans hpc) (by simp)
  | running rest htext hstatus hpc hfor hstream =>
    obtain ⟨hnul, hlen⟩ := hfits
    rw [htext] at hnul hlen
    have hnul' : ∀ l, l <:+: rest → 0 ∉ l := fun l hl hmem =>
      hnul (List.mem_append_right _ (hl.subset hmem))
    rcases hfor.unsent with hdone | ⟨r, hr⟩
    · -- everything has arrived and fits in one buffer
      rw [hdone] at hstream
      replace hstream : s.stream = rest.map plain ++ sendFd c.arg := by
        rw [← hstream]
        exact (List.append_nil _).symm
      have htwo : (sendFd c.arg).length = 2 := by
        cases c.arg <;> rfl
      have hfit : s.stream.length ≤ MAXLINE := by
        rw [hstream, List.length_append, List.length_map, htwo]
        rw [List.length_append] at hlen
        unfold MAXLINE at hlen ⊢
        omega
      have htake : s.stream.take MAXLINE = s.stream := List.take_of_length_le hfit
      obtain ⟨b, hbytes, hstatus'⟩ := sendFd_bytes rest c.arg
      rw [← hstream] at hbytes hstatus'
      have hlast := recvBuf_last (r := s.recv) haccept (hnul' rest (List.infix_refl _)) hstatus'
      refine .returned ?_ ?_ (List.drop_of_length_le hfit) hdone
      · simp only [htake, hbytes, hlast]
        exact htext.symm
      · simp only [htake, hbytes, hlast]
    · -- what has arrived is a piece of the message
      rw [hr, ← List.append_assoc, List.append_cancel_right_eq] at hstream
      obtain ⟨l₁, l₂, hrest, hl₁, hl₂⟩ := List.map_eq_append_iff.mp hstream.symm
      have htake : s.stream.take MAXLINE = (l₁.take MAXLINE).map plain := by
        rw [← hl₁, List.map_take]
      have hinfix : l₁.take MAXLINE <:+: rest :=
        (List.take_prefix _ _).isInfix.trans (hrest ▸ (List.prefix_append _ _).isInfix)
      have hpiece := recvBuf_piece (r := s.recv) haccept (hnul' _ hinfix) hstatus none
      refine .running (l₁.drop MAXLINE ++ l₂) ?_ ?_ ?_ hfor ?_
      · simp only [htake, map_byte_plain, findSome?_plain, hpiece]
        rw [List.append_assoc, ← List.append_assoc (l₁.take MAXLINE), List.take_append_drop, ← hrest]
        exact htext
      · simp only [htake, map_byte_plain, findSome?_plain, hpiece]
        exact hstatus
      · simp only [htake, map_byte_plain, findSome?_plain, hpiece]
      · rw [hr, ← hl₁, ← hl₂, List.map_append, List.map_drop, List.append_assoc]

theorem step_inv (hfits : c.Fits) (haccept : ∀ b, userfunc b = b.length) (s : State F) (a : Act)
    (s' : State F) (h : Inv c s) (hs : step userfunc s a = some s') : Inv c s' := by
  cases a with
  | write n => exact write_inv h hs
  | sendmsg => exact sendmsg_inv h hs
  | recvmsg => exact recvmsg_inv hfits haccept h hs

/-- Bytes count twice before they are sent and once before they are received. -/
def State.work (s : State F) : ℕ := 2 * s.sender.unsent.length + s.stream.length

theorem work_lt (s : State F) (a : Act) (s' : State F) (hs : step userfunc s a = some s') :
    s'.work < s.work := by
  unfold State.work
  cases a with
  | write n =>
    obtain ⟨r, errcode, hsender, hpos, hn, rfl⟩ := write_eq_some hs
    rw [hsender]
    simp only [List.length_append, List.length_map, List.length_take]
    split
    · simp only [Sender.unsent, List.length_append, List.length_map]
      omega
    · simp only [Sender.unsent, List.length_append, List.length_map, List.length_drop]
      omega
  | sendmsg =>
    obtain ⟨arg, hsender, rfl⟩ := sendmsg_eq_some hs
    have hpos : 0 < (sendFd arg).length := by
      cases arg <;> exact Nat.zero_lt_two
    rw [hsender]
    simp only [Sender.unsent, List.length_append, List.length_nil]
    omega
  | recvmsg =>
    obtain ⟨-, hne, rfl⟩ := recvmsg_eq_some hs
    have hpos := List.length_pos_iff.mpr hne
    simp only [List.length_drop]
    unfold MAXLINE
    omega

theorem Inv.progress (h : Inv c s) (hpc : s.recv.pc = .running) :
    ∃ a s', step userfunc s a = some s' := by
  cases h with
  | returned _ hpc' => exact absurd (hpc.symm.trans hpc') (by simp)
  | running rest htext hstatus _ hfor hstream =>
    by_cases hne : s.stream = []
    · cases hsender : s.sender with
      | sendmsg arg => exact ⟨.sendmsg, _, by simp only [step, hsender]; rfl⟩
      | done =>
        rw [hne, hsender] at hstream
        have hlen := congrArg List.length hstream
        cases harg : c.arg <;> simp [harg, Sender.unsent, sendFd] at hlen
      | writen r errcode =>
        rw [hsender] at hfor
        cases hfor with
        | writen _ hr =>
          have hpos := List.length_pos_iff.mpr hr
          exact ⟨.write 1, _, by simp only [step, hsender]; rw [if_pos ⟨le_rfl, hpos⟩]⟩
    · exact ⟨.recvmsg, _, by simp only [step, hpc, if_neg hne]; rfl⟩

end run

/-- **The protocol's round trip.** However the sender's writes and the receiver's reads fall, `recv_fd`
never dumps, hands the message to `userfunc` and nothing else, and returns the answer; and no run is
longer than it takes to send and receive every byte by itself. -/
theorem recv_fd_run {userfunc : List UInt8 → ℤ} (haccept : ∀ b, userfunc b = b.length) (c : Call F)
    (hfits : c.Fits) (as : List Act) {s : State F} (h : run (step userfunc) c.init as = some s) :
    (∀ d, s.recv.pc ≠ .dumped d) ∧ s.recv.passed <+: c.text ∧
      (∀ r, s.recv.pc = .returned r → s.recv.passed = c.text ∧ ∃ v, r = some v ∧ c.Answers v) ∧
      (s.recv.pc = .running → ∃ a s', step userfunc s a = some s') ∧
      as.length ≤ 2 * (c.text.length + 2) := by
  have hinv : Inv c s := invariant_run (step_inv hfits haccept) (init_inv c) h
  have hlen : as.length ≤ c.init.work := length_le_of_decreasing work_lt h
  have hwork : c.init.work = 2 * (c.text.length + 2) := by
    cases c with
    | sendFd d => rfl
    | sendErr errcode msg =>
      simp only [State.work, Call.init, Call.start, Call.text, List.length_nil, Nat.add_zero]
      split
      · simp [Sender.unsent, sendFd]
      · rename_i hmsg
        have hzero : msg.length = 0 := by omega
        rw [hzero]
        rfl
  refine ⟨?_, ?_, ?_, hinv.progress, hwork ▸ hlen⟩
  · intro d hd
    cases hinv with
    | running _ _ _ hpc => exact absurd (hd.symm.trans hpc) (by simp)
    | returned _ hpc => exact absurd (hd.symm.trans hpc) (by simp)
  · cases hinv with
    | running rest htext => exact ⟨rest, htext.symm⟩
    | returned htext _ => exact htext ▸ List.prefix_rfl
  · intro r hr
    cases hinv with
    | running _ _ _ hpc => exact absurd (hr.symm.trans hpc) (by simp)
    | returned htext hpc =>
      have hv := RecvPc.returned.inj (hr.symm.trans hpc)
      exact ⟨htext, answer c.arg, hv, answers_answer c⟩

/-- Two letters and the code -3, written in two pieces, the first of which is received by itself. -/
def twoPieces : List Act := [.write 1, .recvmsg, .write 1, .sendmsg, .recvmsg]

theorem recv_fd_run_twoPieces : ∃ s : State ℕ,
    run (step fun b => b.length) (Call.sendErr (-3) [110, 111]).init twoPieces = some s ∧
      s.recv.pc = .returned (some (.error (-3))) ∧ s.recv.passed = [110, 111] :=
  ⟨_, rfl, rfl, ((recv_fd_run (fun _ => rfl) (.sendErr (-3) [110, 111]) ⟨by decide, by decide⟩
    twoPieces rfl).2.2.1 _ rfl).1⟩

end Apue.OpenServer
