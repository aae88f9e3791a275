import Apue.OpenServer.Conversation
import Apue.OpenServer.Matching

/-!
# What the client of version 1 puts out (Chapter-17/open-1)

The conversation is a sequence of turns, one for each name the client has read: between two of them nothing is
on its way, and both processes have the descriptors they started with. In a turn the request is in the stream as
a whole, or the answer is on its way, or the client copies the file (`Phase`).

For this a name has to fit, with the rest of the request, in the buffer of the server. `conversation_run` says
what the client's output is then, in any order of the steps.
-/

namespace Apue.OpenServer.V1
open Descriptors Transition

variable {F : Type*}

/-- A name that was asked for, and what `handle_request` met. -/
structure Turn (F : Type*) where
  name : CStr
  env : Env F
  globals : Globals

namespace Turn

/-- The answer. -/
def call (t : Turn F) : Call F := (answerTo t.env t.globals (ask t.name).name (ask t.name).oflag).1

/-- The file that the client gets, if it gets one. -/
def opened (t : Turn F) : Option F := V1.opened t.env (ask t.name)

/-- What goes to the standard output. -/
def shown (c : Setup F) (t : Turn F) : List UInt8 :=
  match t.opened with
  | none => []
  | some f => c.contents f

/-- What goes to the standard error. -/
def said (t : Turn F) : List UInt8 := t.call.text

/-- What `served` has of it. -/
def log (t : Turn F) : Env F × Globals := (t.env, t.globals)

end Turn

/-- Writing to the standard error succeeds. -/
def TalkAct.Writes : TalkAct F → Prop
  | .recvmsg w _ => ∀ b, w b = b.length
  | _ => True

/-! ### Where a turn can be -/

/-- The turns so far, and the names behind them. -/
structure Past (input : List UInt8) (s : Talk F) (turns : List (Turn F)) (names : List CStr) : Prop where
  names : lines input = turns.map Turn.name ++ names
  served : s.served = turns.map Turn.log
  noNul : 0 ∉ s.input

/-- Nothing is on its way, and the server has only what it started with. -/
structure Idle (c : Setup F) (s : Talk F) : Prop where
  up : s.up = []
  stream : s.down.stream = []
  sender : s.down.sender = .done
  serverFds : s.serverFds = c.serverFds

/-- The server while there is an answer on its way. -/
inductive Answering (c : Setup F) (s : Talk F) : Prop where
  | sending (newfd : Option ℕ) (hserver : s.server = .answer newfd) (hsender : s.down.sender ≠ .done)
      (hfds : s.closeNewfd newfd = c.serverFds) (hstdout : s.serverFds 1 = some .sock)
  | sent (hserver : s.server = .read) (hsender : s.down.sender = .done) (hfds : s.serverFds = c.serverFds)

inductive Phase (c : Setup F) (input : List UInt8) (s : Talk F) : Prop where
  | between (turns : List (Turn F)) (names : List CStr) (hpast : Past input s turns names)
      (hpc : s.client = .fgets ∧ names = lines s.input ∨
        ∃ name, s.client = .csopen name ∧ names = name :: lines s.input)
      (hidle : Idle c s) (hserver : s.server = .read) (hfds : s.clientFds = c.clientFds)
      (hout : s.out = turns.flatMap (Turn.shown c)) (herr : s.err = turns.flatMap Turn.said)
  | asked (turns : List (Turn F)) (name : CStr) (hpast : Past input s turns (name :: lines s.input))
      (hpc : s.client = .recvFd name) (hup : s.up = (ask name).bytes)
      (hdown : s.down = ⟨[], .done, Recv.start⟩) (hserver : s.server = .read)
      (hserverFds : s.serverFds = c.serverFds) (hfds : s.clientFds = c.clientFds)
      (hout : s.out = turns.flatMap (Turn.shown c)) (herr : s.err = turns.flatMap Turn.said)
  | answered (turns : List (Turn F)) (t : Turn F) (hpast : Past input s (turns ++ [t]) (lines s.input))
      (hpc : s.client = .recvFd t.name) (hup : s.up = []) (hdown : Inv t.call s.down)
      (hrunning : s.down.recv.pc = .running) (hanswer : Answering c s) (hfds : s.clientFds = c.clientFds)
      (hout : s.out = turns.flatMap (Turn.shown c))
      (herr : s.err = turns.flatMap Turn.said ++ s.down.recv.passed)
  | copying (turns : List (Turn F)) (t : Turn F) (fd : ℕ) (f : F) (off : ℕ)
      (hpast : Past input s (turns ++ [t]) (lines s.input)) (hpc : s.client = .copy fd f off)
      (hf : t.opened = some f) (hidle : Idle c s) (hserver : s.server = .read)
      (hfree : c.clientFds fd = none) (hfds : s.clientFds = c.clientFds.put fd (.file f))
      (hout : s.out = turns.flatMap (Turn.shown c) ++ (c.contents f).take off)
      (herr : s.err = (turns ++ [t]).flatMap Turn.said)
  | ended (turns : List (Turn F)) (names : List CStr) (status : ℕ) (hpast : Past input s turns names)
      (hpc : s.client = .exited status) (hidle : Idle c s) (hserver : s.server ≠ .exited → s.server = .read)
      (hzero : status = 0 → names = [] ∧ s.clientFds = c.clientFds ∧ s.out = turns.flatMap (Turn.shown c))
      (hout : s.out <+: turns.flatMap (Turn.shown c)) (herr : s.err = turns.flatMap Turn.said)

variable {c : Setup F} {input : List UInt8} {s t : Talk F}

theorem start_phase (hnul : 0 ∉ input) : Phase c input (Talk.start c input) :=
  .between [] (lines input) ⟨rfl, rfl, hnul⟩ (.inl ⟨rfl, rfl⟩) ⟨rfl, rfl, rfl, rfl⟩ rfl rfl rfl rfl

theorem length_ask (name : CStr) : (ask name).bytes.length = name.length + 8 := by
  have hzero : (CStr.decimal (ask name).oflag).bytes.length = 1 := show (CStr.decimal 0).bytes.length = 1 by decide
  rw [Ask.bytes, Ask.iov, flatten_requestIov, requestText]
  simp only [CStr.bytes_append, List.length_append, hzero]
  show 4 + 1 + name.bytes.length + 1 + 1 + 1 = _
  unfold CStr.length
  omega

theorem bytes_ask_ne_nil (name : CStr) : (ask name).bytes ≠ [] := by
  intro h
  have hlen := length_ask name
  rw [h, List.length_nil] at hlen
  omega

theorem Turn.answer (t : Turn F) : OpenServer.answer t.call.arg =
    match t.opened with
    | some f => .ok f
    | none => .error (-1) :=
  answer_answerTo t.env t.globals (ask t.name)

theorem passed_recvBuf (userfunc : List UInt8 → ℤ) (r : Recv F) (buf : List UInt8) (control : Option F) :
    r.passed <+: (recvBuf userfunc r buf control).passed := by
  unfold recvBuf
  split
  · exact List.prefix_rfl
  · exact List.prefix_append _ _

/-! ### One step -/

theorem fgets_phase (h : Phase c input s) (hs : Talk.step c s .fgets = some t) : Phase c input t := by
  obtain ⟨hfgets, rfl⟩ := Talk.step_fgets hs
  cases h with
  | asked turns name hpast hpc => simp [hfgets] at hpc
  | answered turns u hpast hpc => simp [hfgets] at hpc
  | copying turns u fd f off hpast hpc => simp [hfgets] at hpc
  | ended turns names status hpast hpc => simp [hfgets] at hpc
  | between turns names hpast hpc hidle hserver hfds hout herr =>
    obtain ⟨-, rfl⟩ | ⟨name, hpc, -⟩ := hpc
    · unfold Talk.readLine
      cases hline : Stdio.fgets MAXLINE s.input with
      | none =>
        have hnil : s.input = [] := Stdio.fgets_eq_none.mp hline
        have hlines : lines s.input = [] := by rw [hnil, lines_nil]
        exact .ended turns _ 0 ⟨hpast.names, hpast.served, hpast.noNul⟩ rfl
          ⟨hidle.up, hidle.stream, hidle.sender, hidle.serverFds⟩ (fun _ => hserver)
          (fun _ => ⟨hlines, hfds, hout⟩) (hout ▸ List.prefix_rfl) herr
      | some x =>
        obtain ⟨chunk, rest⟩ := x
        obtain ⟨hsplit, hne, -⟩ := Stdio.fgets_eq_some (show 2 ≤ MAXLINE by decide) hline
        have hnul := hpast.noNul
        rw [← hsplit] at hnul
        have hchunk : 0 ∉ chunk := fun hmem => hnul (List.mem_append_left _ hmem)
        have hrest : 0 ∉ rest := fun hmem => hnul (List.mem_append_right _ hmem)
        obtain ⟨name, hname⟩ := Option.ne_none_iff_exists'.mp (trim_ne_none hne hchunk)
        have hlines : lines s.input = name :: lines rest := by
          rw [lines_of_fgets hline, hname, Option.getD_some]
        simp only [hname]
        exact .between turns _ ⟨hpast.names, hpast.served, hrest⟩ (.inr ⟨name, rfl, hlines⟩)
          ⟨hidle.up, hidle.stream, hidle.sender, hidle.serverFds⟩ hserver hfds hout herr
    · simp [hfgets] at hpc

/-- The request is written when nothing else is on its way. -/
theorem writev_phase (h : Phase c input s) (hs : Talk.step c s .writev = some t) : Phase c input t := by
  obtain ⟨name, hname, rfl⟩ := Talk.step_writev hs
  cases h with
  | asked turns name hpast hpc => simp [hname] at hpc
  | answered turns u hpast hpc => simp [hname] at hpc
  | copying turns u fd f off hpast hpc => simp [hname] at hpc
  | ended turns names status hpast hpc => simp [hname] at hpc
  | between turns names hpast hpc hidle hserver hfds hout herr =>
    obtain ⟨hpc, -⟩ | ⟨name', hpc, rfl⟩ := hpc
    · simp [hname] at hpc
    · obtain rfl := ClientPc.csopen.inj (hname.symm.trans hpc)
      refine .asked turns name ⟨hpast.names, hpast.served, hpast.noNul⟩ rfl ?_ ?_ hserver hidle.serverFds hfds
        hout herr
      · simp only [hidle.up, List.nil_append]
      · simp only [hidle.stream, hidle.sender]

theorem read_phase (hfit : ∀ name ∈ lines input, name.length ≤ MAXLINE - 8) {stale : List UInt8} {env : Env F}
    {newfd : ℕ} (h : Phase c input s) (hs : Talk.step c s (.read stale env newfd) = some t) :
    Phase c input t := by
  obtain ⟨-, hne, hs⟩ := Talk.step_read hs
  cases h with
  | between turns names hpast hpc hidle => exact absurd hidle.up hne
  | answered turns u hpast hpc hup => exact absurd hup hne
  | copying turns u fd f off hpast hpc hf hidle => exact absurd hidle.up hne
  | ended turns names status hpast hpc hidle => exact absurd hidle.up hne
  | asked turns name hpast hpc hup hdown _ hserverFds hfds hout herr =>
    have hname : name ∈ lines input := by
      rw [hpast.names]
      exact List.mem_append_right _ List.mem_cons_self
    have hlen : s.up.length ≤ MAXLINE := by
      have hle := hfit name hname
      rw [hup, length_ask]
      unfold MAXLINE at hle ⊢
      omega
    obtain ⟨fd?, ht, hfds?⟩ := Talk.handle_eq_some hs
    rw [List.take_of_length_le hlen, List.drop_of_length_le hlen, hup, handleRequest_request] at ht
    let u : Turn F := ⟨name, env, s.globals⟩
    rw [ht]
    refine .answered turns u ⟨?_, ?_, hpast.noNul⟩ hpc rfl ?_ ?_ ?_ hfds hout ?_
    · rw [hpast.names, List.map_append, List.append_assoc]
      rfl
    · simp only [hpast.served, List.map_append]
      rfl
    · simp only [hdown]
      exact init_inv u.call
    · simp only [hdown, Recv.start]
    · rw [hserverFds] at hfds?
      refine .sending fd? rfl (start_ne_done u.call) ?_ ?_
      · obtain ⟨rfl, htable⟩ | ⟨f, rfl, hfree, htable⟩ := hfds?
        · exact htable
        · show t.serverFds.close newfd = _
          rw [htable, Table.close_put _ hfree]
      · show t.serverFds 1 = _
        obtain ⟨-, htable⟩ | ⟨f, -, hfree, htable⟩ := hfds?
        · rw [htable, c.server_stdout]
        · rw [htable, Table.put_of_ne, c.server_stdout]
          rintro rfl
          rw [c.server_stdout] at hfree
          cases hfree
    · simp only [herr, hdown, Recv.start, List.append_nil]

theorem write_phase {n : ℕ} (h : Phase c input s) (hs : Talk.step c s (.write n) = some t) : Phase c input t := by
  obtain ⟨down, hdown, rfl⟩ := Talk.step_write hs
  obtain ⟨rest, errcode, hwriten, -, -, hdown'⟩ := write_eq_some hdown
  cases h with
  | between turns names hpast hpc hidle => exact absurd (hwriten.symm.trans hidle.sender) (by simp)
  | asked turns name hpast hpc hup hstart => exact absurd (hwriten.symm.trans (congrArg State.sender hstart)) (by simp)
  | copying turns u fd f off hpast hpc hf hidle => exact absurd (hwriten.symm.trans hidle.sender) (by simp)
  | ended turns names status hpast hpc hidle => exact absurd (hwriten.symm.trans hidle.sender) (by simp)
  | answered turns u hpast hpc hup hinv hrunning hanswer hfds hout herr =>
    have hrecv : down.recv = s.down.recv := by rw [hdown']
    refine .answered turns u ⟨hpast.names, hpast.served, hpast.noNul⟩ hpc hup (write_inv hinv hdown)
      (hrecv ▸ hrunning) ?_ hfds hout (hrecv ▸ herr)
    cases hanswer with
    | sent _ hsender => exact absurd (hwriten.symm.trans hsender) (by simp)
    | sending newfd hserver _ hclosed hstdout =>
      refine .sending newfd hserver ?_ hclosed hstdout
      show down.sender ≠ .done
      rw [hdown']
      simp only
      split
      · simp
      · simp

theorem sendmsg_phase (h : Phase c input s) (hs : Talk.step c s .sendmsg = some t) : Phase c input t := by
  obtain ⟨newfd, down, hserver, hdown, rfl⟩ := Talk.step_sendmsg hs
  obtain ⟨arg, hsendmsg, hdown'⟩ := sendmsg_eq_some hdown
  cases h with
  | between turns names hpast hpc hidle => exact absurd (hsendmsg.symm.trans hidle.sender) (by simp)
  | asked turns name hpast hpc hup hstart =>
    exact absurd (hsendmsg.symm.trans (congrArg State.sender hstart)) (by simp)
  | copying turns u fd f off hpast hpc hf hidle => exact absurd (hsendmsg.symm.trans hidle.sender) (by simp)
  | ended turns names status hpast hpc hidle => exact absurd (hsendmsg.symm.trans hidle.sender) (by simp)
  | answered turns u hpast hpc hup hinv hrunning hanswer hfds hout herr =>
    have hrecv : down.recv = s.down.recv := by rw [hdown']
    refine .answered turns u ⟨hpast.names, hpast.served, hpast.noNul⟩ hpc hup (sendmsg_inv hinv hdown)
      (hrecv ▸ hrunning) ?_ hfds hout (hrecv ▸ herr)
    cases hanswer with
    | sent hserver' => exact absurd (hserver.symm.trans hserver') (by simp)
    | sending newfd' hserver' _ hclosed =>
      obtain rfl := ServerPc.answer.inj (hserver.symm.trans hserver')
      exact .sent rfl (by rw [hdown']) hclosed

theorem recvmsg_phase {write : List UInt8 → ℤ} {newfd : ℕ} (hwrite : ∀ b, write b = b.length)
    (h : Phase c input s) (hs : Talk.step c s (.recvmsg write newfd) = some t) : Phase c input t := by
  obtain ⟨down, hdown, hs⟩ := Talk.step_recvmsg hs
  obtain ⟨-, hne, hdown'⟩ := recvmsg_eq_some hdown
  have hsender : down.sender = s.down.sender := by rw [hdown']
  cases h with
  | between turns names hpast hpc hidle => exact absurd hidle.stream hne
  | asked turns name hpast hpc hup hstart => exact absurd (congrArg State.stream hstart) hne
  | copying turns u fd f off hpast hpc hf hidle => exact absurd hidle.stream hne
  | ended turns names status hpast hpc hidle => exact absurd hidle.stream hne
  | answered turns u hpast hpc hup hinv hrunning hanswer hfds hout herr =>
    have hinv' : Inv u.call down :=
      recvmsg_inv (fits_answerTo u.env u.globals (ask u.name).name) hwrite hinv hdown
    have hgrows : s.down.recv.passed <+: down.recv.passed := by
      rw [hdown']
      exact passed_recvBuf ..
    obtain ⟨piece, hpiece⟩ := hgrows
    have hnew : s.err ++ down.recv.passed.drop s.down.recv.passed.length =
        turns.flatMap Turn.said ++ down.recv.passed := by
      rw [herr, ← hpiece, List.drop_left, List.append_assoc]
    cases hinv' with
    | running rest htext hstatus hpc' hfor hstream =>
      rw [Talk.receive_running hpc' hs]
      refine .answered turns u ⟨hpast.names, hpast.served, hpast.noNul⟩ hpc hup
        (.running rest htext hstatus hpc' hfor hstream) hpc' ?_ hfds hout hnew
      cases hanswer with
      | sending fd? hserver hsender' hclosed hstdout =>
        exact .sending fd? hserver (hsender ▸ hsender') hclosed hstdout
      | sent hserver hsender' hserverFds => exact .sent hserver (hsender ▸ hsender') hserverFds
    | returned htext hpc' hstream hdone =>
      -- the server has sent everything, so it is back in `read`
      have hanswer' : s.server = .read ∧ s.serverFds = c.serverFds := by
        cases hanswer with
        | sending _ _ hsender' => exact absurd (hsender.symm.trans hdone) hsender'
        | sent hserver _ hserverFds => exact ⟨hserver, hserverFds⟩
      have hidle : Idle c { s with down } := ⟨hup, hstream, hdone, hanswer'.2⟩
      have hsaid : turns.flatMap Turn.said ++ down.recv.passed = (turns ++ [u]).flatMap Turn.said := by
        rw [htext, List.flatMap_append, List.flatMap_singleton]
        rfl
      rw [hsaid] at hnew
      have hanswer := u.answer
      cases hopened : u.opened with
      | none =>
        rw [hopened] at hanswer
        rw [Talk.receive_error (by rw [hpc', hanswer]) hs]
        refine .between (turns ++ [u]) (lines s.input) ⟨hpast.names, hpast.served, hpast.noNul⟩
          (.inl ⟨rfl, rfl⟩) ⟨hidle.up, hidle.stream, hidle.sender, hidle.serverFds⟩ hanswer'.1 hfds ?_ hnew
        show s.out = _
        rw [hout, List.flatMap_append, List.flatMap_singleton, Turn.shown, hopened, List.append_nil]
      | some f =>
        rw [hopened] at hanswer
        obtain ⟨hfree, ht⟩ := Talk.receive_ok (by rw [hpc', hanswer]) hs
        rw [ht]
        rw [hfds] at hfree
        exact .copying turns u newfd f 0 ⟨hpast.names, hpast.served, hpast.noNul⟩ rfl hopened
          ⟨hidle.up, hidle.stream, hidle.sender, hidle.serverFds⟩ hanswer'.1 hfree
          (congrArg (Table.put · newfd (.file f)) hfds) (by simp [hout]) hnew

theorem copy_phase {n : ℕ} (h : Phase c input s) (hs : Talk.step c s (.copy n) = some t) : Phase c input t := by
  obtain ⟨fd, f, off, hcopy, -, -, rfl⟩ := Talk.step_copy hs
  cases h with
  | between turns names hpast hpc => simp [hcopy] at hpc
  | asked turns name hpast hpc => simp [hcopy] at hpc
  | answered turns u hpast hpc => simp [hcopy] at hpc
  | ended turns names status hpast hpc => simp [hcopy] at hpc
  | copying turns u fd' f' off' hpast hpc hf hidle hserver hfree hfds hout herr =>
    obtain ⟨rfl, rfl, rfl⟩ := ClientPc.copy.inj (hcopy.symm.trans hpc)
    refine .copying turns u fd f (off + n) ⟨hpast.names, hpast.served, hpast.noNul⟩ rfl hf
      ⟨hidle.up, hidle.stream, hidle.sender, hidle.serverFds⟩ hserver hfree hfds ?_ herr
    rw [hout, List.append_assoc, List.take_add]

theorem copyFails_phase {n : ℕ} (h : Phase c input s) (hs : Talk.step c s (.copyFails n) = some t) :
    Phase c input t := by
  obtain ⟨fd, f, off, hcopy, rfl⟩ := Talk.step_copyFails hs
  cases h with
  | between turns names hpast hpc => simp [hcopy] at hpc
  | asked turns name hpast hpc => simp [hcopy] at hpc
  | answered turns u hpast hpc => simp [hcopy] at hpc
  | ended turns names status hpast hpc => simp [hcopy] at hpc
  | copying turns u fd' f' off' hpast hpc hf hidle hserver hfree hfds hout herr =>
    obtain ⟨rfl, rfl, rfl⟩ := ClientPc.copy.inj (hcopy.symm.trans hpc)
    refine .ended (turns ++ [u]) (lines s.input) 1 ⟨hpast.names, hpast.served, hpast.noNul⟩ rfl
      ⟨hidle.up, hidle.stream, hidle.sender, hidle.serverFds⟩ (fun _ => hserver) (by simp) ?_ herr
    have hshown : u.shown c = c.contents f := by rw [Turn.shown, hf]
    rw [hout, List.append_assoc, List.flatMap_append, List.flatMap_singleton, hshown, ← List.take_add]
    exact (List.prefix_append_right_inj _).mpr (List.take_prefix _ _)

theorem close_phase (h : Phase c input s) (hs : Talk.step c s .close = some t) : Phase c input t := by
  obtain ⟨fd, f, off, hcopy, hend, rfl⟩ := Talk.step_close hs
  cases h with
  | between turns names hpast hpc => simp [hcopy] at hpc
  | asked turns name hpast hpc => simp [hcopy] at hpc
  | answered turns u hpast hpc => simp [hcopy] at hpc
  | ended turns names status hpast hpc => simp [hcopy] at hpc
  | copying turns u fd' f' off' hpast hpc hf hidle hserver hfree hfds hout herr =>
    obtain ⟨rfl, rfl, rfl⟩ := ClientPc.copy.inj (hcopy.symm.trans hpc)
    refine .between (turns ++ [u]) (lines s.input) ⟨hpast.names, hpast.served, hpast.noNul⟩ (.inl ⟨rfl, rfl⟩)
      ⟨hidle.up, hidle.stream, hidle.sender, hidle.serverFds⟩ hserver ?_ ?_ herr
    · show s.clientFds.close fd = _
      rw [hfds, Table.close_put _ hfree]
    · show s.out = _
      rw [hout, List.take_of_length_le hend, List.flatMap_append, List.flatMap_singleton, Turn.shown, hf]

theorem eof_phase (h : Phase c input s) (hs : Talk.step c s .eof = some t) : Phase c input t := by
  obtain ⟨status, hexited, -, rfl⟩ := Talk.step_eof hs
  cases h with
  | between turns names hpast hpc => simp [hexited] at hpc
  | asked turns name hpast hpc => simp [hexited] at hpc
  | answered turns u hpast hpc => simp [hexited] at hpc
  | copying turns u fd f off hpast hpc => simp [hexited] at hpc
  | ended turns names status' hpast hpc hidle hserver hzero hout herr =>
    exact .ended turns names status' ⟨hpast.names, hpast.served, hpast.noNul⟩ hpc
      ⟨hidle.up, hidle.stream, hidle.sender, hidle.serverFds⟩ (fun hne => absurd rfl hne) hzero hout herr

theorem step_phase (hfit : ∀ name ∈ lines input, name.length ≤ MAXLINE - 8) (s : Talk F) (a : TalkAct F)
    (t : Talk F) (h : Phase c input s) (hwrites : a.Writes) (hs : Talk.step c s a = some t) :
    Phase c input t := by
  cases a with
  | fgets => exact fgets_phase h hs
  | writev => exact writev_phase h hs
  | read stale env newfd => exact read_phase hfit h hs
  | write n => exact write_phase h hs
  | sendmsg => exact sendmsg_phase h hs
  | recvmsg w newfd => exact recvmsg_phase hwrites h hs
  | copy n => exact copy_phase h hs
  | copyFails n => exact copyFails_phase h hs
  | close => exact close_phase h hs
  | eof => exact eof_phase h hs

/-! ### Every run -/

theorem Phase.progress (h : Phase c input s) (hserver : s.server ≠ .exited) : ∃ a t, Talk.step c s a = some t := by
  cases h with
  | between turns names hpast hpc hidle hread hfds hout herr =>
    obtain ⟨hpc, -⟩ | ⟨name, hpc, -⟩ := hpc
    · exact ⟨.fgets, _, by simp only [Talk.step, hpc]; rfl⟩
    · exact ⟨.writev, _, by simp only [Talk.step, hpc, hfds, c.client_sock]; rfl⟩
  | asked turns name hpast hpc hup hdown hread hserverFds hfds hout herr =>
    obtain ⟨i, hi⟩ := c.server_free
    have hne : s.up ≠ [] := by
      rw [hup]
      exact bytes_ask_ne_nil name
    have hhandle : ∃ t, s.handle [] ⟨fun _ _ => .error 0, fun _ => CStr.empty⟩ i = some t := by
      unfold Talk.handle
      simp only [hserverFds, hi, if_true]
      split
      · exact ⟨_, rfl⟩
      · exact ⟨_, rfl⟩
    obtain ⟨t, ht⟩ := hhandle
    refine ⟨.read [] ⟨fun _ _ => .error 0, fun _ => CStr.empty⟩ i, t, ?_⟩
    have hstdin : s.serverFds 0 = some .sock := by rw [hserverFds, c.server_stdin]
    simp only [Talk.step, hread, hstdin, if_neg hne]
    exact ht
  | answered turns u hpast hpc hup hinv hrunning hanswer hfds hout herr =>
    obtain ⟨i, hi⟩ := c.client_free
    have hsock : s.clientFds c.fd = some .sock := by rw [hfds, c.client_sock]
    obtain ⟨a, down, hdown⟩ : ∃ a down, OpenServer.step (fun b => b.length) s.down a = some down :=
      hinv.progress hrunning
    cases a with
    | recvmsg =>
      have hreceive : ∃ t, s.receive down i = some t := by
        unfold Talk.receive
        simp only [hfds, hi, if_true]
        split
        · exact ⟨_, rfl⟩
        · exact ⟨_, rfl⟩
        · exact ⟨_, rfl⟩
        · exact ⟨_, rfl⟩
        · exact ⟨_, rfl⟩
      obtain ⟨t, ht⟩ := hreceive
      refine ⟨.recvmsg (fun b => b.length) i, t, ?_⟩
      simp only [Talk.step, hpc, hsock, hdown]
      exact ht
    | write n =>
      obtain ⟨rest, errcode, hwriten, hpos, hle, hdown'⟩ := write_eq_some hdown
      cases hanswer with
      | sent _ hsender => exact absurd (hwriten.symm.trans hsender) (by simp)
      | sending newfd hserver' _ _ hstdout =>
        refine ⟨.write n, { s with down }, ?_⟩
        have hdown'' : OpenServer.step (fun _ => 0) s.down (.write n) = some down := hdown
        simp only [Talk.step, hserver', hstdout, hdown'', Option.map_some]
    | sendmsg =>
      obtain ⟨arg, hsendmsg, -⟩ := sendmsg_eq_some hdown
      cases hanswer with
      | sent _ hsender => exact absurd (hsendmsg.symm.trans hsender) (by simp)
      | sending newfd hserver' _ _ hstdout =>
        have hdown'' : OpenServer.step (fun _ => 0) s.down .sendmsg = some down := hdown
        refine ⟨.sendmsg, { s with down, server := .read, serverFds := s.closeNewfd newfd }, ?_⟩
        simp only [Talk.step, hserver', hstdout, hdown'', Option.map_some]
  | copying turns u fd f off hpast hpc hf hidle hread hfree hfds hout herr =>
    rcases Nat.lt_or_ge off (c.contents f).length with hlt | hge
    · refine ⟨.copy 1, ?_⟩
      simp only [Talk.step, hpc]
      exact ⟨_, if_pos ⟨le_rfl, by decide, hlt⟩⟩
    · refine ⟨.close, ?_⟩
      simp only [Talk.step, hpc]
      exact ⟨_, if_pos hge⟩
  | ended turns names status hpast hpc hidle hread hzero hout herr =>
    have hstdin : s.serverFds 0 = some .sock := by rw [hidle.serverFds, c.server_stdin]
    refine ⟨.eof, ?_⟩
    simp only [Talk.step, hpc, hread hserver, hstdin]
    exact ⟨_, if_pos hidle.up⟩

/-- One file, of two bytes, and room for it in both processes. -/
def oneFileSetup : Setup Unit where
  contents _ := [104, 105]
  clientFds i := if i < 3 then some .other else if i = 3 then some .sock else none
  fd := 3
  serverFds i := if i < 2 then some .sock else if i = 2 then some .other else none
  client_sock := rfl
  server_stdin := rfl
  server_stdout := rfl
  client_free := ⟨4, rfl⟩
  server_free := ⟨3, rfl⟩

/-- The client is given one name. -/
def oneLine : List (TalkAct Unit) :=
  [.fgets, .writev, .read [] oneFile 3, .sendmsg, .recvmsg (fun b => b.length) 4, .copy 1, .copy 1, .close, .fgets,
    .eof]

end Apue.OpenServer.V1
