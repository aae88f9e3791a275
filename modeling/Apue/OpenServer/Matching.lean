import Apue.OpenServer.System

/-!
# Requests and answers match (Chapter-17/open-2)

At any moment a client is not in `csopen`, or its request is in the stream as a whole, or the request has
been served and the rest of the answer is on its way (`Phase`). For this a request has to be read in one
piece, so it must not be longer than `MAXLINE` (`Ask.Good`), and the server has to stay alive: what it logs
has no conversions (`Sys.Plain`), and no call fails for which it ends (`SysAct.Good`).

* `csopen_run`: requests and answers match in every run whose steps are good.
* `csopen_drifts`: a name near `MAXLINE` is served twice; a name of conversions and a client with too high
  a descriptor end the server; a client without a free descriptor ends itself.
-/

namespace Apue.OpenServer
open Transition Token

variable {C F : Type*}

/-- The request fits in the buffer of the server, and its name is not one word with white space around. -/
def Ask.Good (q : Ask) : Prop :=
  q.bytes.length ≤ MAXLINE ∧ ∀ word, tokens isWhite q.name.bytes = [word] → word = q.name.bytes

/-- The error message for the name has no conversion, if there is one. -/
def Ask.Plain (q : Ask) (env : Env F) : Prop :=
  match env.openFile q.name.bytes q.oflag with
  | .error errno => noConversion (openError env q.name.bytes errno).str.bytes
  | .ok _ => True

/-- The step does not call `csopen` with a bad request, writing to the standard error succeeds, the
descriptors are small enough, and what has to succeed does. -/
def SysAct.Good : SysAct C F → Prop
  | .csopen _ q => q.Good
  | .recv _ w room => (∀ b, w b = b.length) ∧ room
  | .accept clifd _ => clifd < FD_SETSIZE
  | .fail _ | .logSys => False
  | _ => True

/-- The request that is served can be logged. -/
def Sys.Plain (s : Sys C F) : SysAct C F → Prop
  | .read _ env _ =>
    match s.turn.bind fun x => (s.session x.2).asking with
    | none => True
    | some q => q.Plain env
  | _ => True

def Sys.Good (s : Sys C F) (a : SysAct C F) : Prop := a.Good ∧ s.Plain a

instance (q : Ask) (env : Env F) : Decidable (q.Plain env) := by
  unfold Ask.Plain
  split <;> infer_instance

instance (s : Sys C F) (a : SysAct C F) : Decidable (s.Plain a) := by
  unfold Sys.Plain
  split
  · split <;> infer_instance
  · infer_instance

/-! ### What is logged -/

theorem logFormat_eq_some {env : Env F} {g : Globals} {buf : List UInt8} {nread : ℕ} {uid : UInt32} {f : CStr}
    (h : logFormat env g buf nread uid = some f) : (handleRequest env g buf nread uid).2.errmsg.str = f := by
  unfold logFormat at h
  obtain ⟨-, h⟩ := Option.ite_none_left_eq_some.mp h
  split at h
  · rename_i hreply
    rw [hreply]
    exact Option.some.inj h
  · cases h

theorem plain_answerTo {env : Env F} {g : Globals} {q : Ask} (hgood : q.Good) (hplain : q.Plain env)
    (hg : noConversion g.errmsg.str.bytes) :
    noConversion (answerTo env g q.name q.oflag).2.errmsg.str.bytes := by
  unfold answerTo
  cases htok : tokens isWhite q.name.bytes with
  | nil => exact (by decide : noConversion usage.str.bytes = true)
  | cons word words =>
    cases words with
    | nil =>
      have hword : word = q.name.bytes := hgood.2 word htok
      subst hword
      unfold Ask.Plain at hplain
      cases hopen : env.openFile q.name.bytes q.oflag with
      | error errno =>
        rw [hopen] at hplain
        simpa only [hopen] using hplain
      | ok f => simpa only [hopen] using hg
    | cons word' words =>
      simp only
      split
      · exact (by decide : noConversion usage.str.bytes = true)
      · exact hg

theorem start_ne_done (c : Call F) : c.start ≠ .done := by
  cases c with
  | sendFd f => simp [Call.start]
  | sendErr errcode msg =>
    show (if 0 < msg.length then Sender.writen msg errcode else Sender.sendmsg (.error (errArg errcode))) ≠
      .done
    split
    · simp
    · simp

/-! ### One client -/

/-- Where a client and its connection can be; `busy` says that the server is sending to it. -/
inductive Phase (busy : Prop) (k : Session F) : Prop where
  | idle (hasking : k.asking = none) (hup : k.up = []) (hstream : k.down.stream = [])
      (hsender : k.down.sender = .done) (hpc : ∀ d, k.down.recv.pc ≠ .dumped d)
      (hserved : k.calls.map Ask.bytes = k.served.map Served.bytes)
      (hresults : k.served.map Served.result = k.results) (hbusy : ¬ busy)
  | asked (q : Ask) (hasking : k.asking = some q) (hup : k.up = q.bytes) (hgood : q.Good) (hdown : k.down = ⟨[], .done, Recv.start⟩)
      (hserved : k.calls.map Ask.bytes = k.served.map Served.bytes ++ [q.bytes])
      (hresults : k.served.map Served.result = k.results) (hbusy : ¬ busy)
  | answered (q : Ask) (e : Served F) (hasking : k.asking = some q) (hup : k.up = [])
      (hdown : Inv e.call k.down) (hpc : k.down.recv.pc = .running)
      (hserved : k.calls.map Ask.bytes = k.served.map Served.bytes)
      (hresults : k.served.map Served.result = k.results ++ [e.result])
      (hbusy : busy ↔ k.down.sender ≠ .done)

structure SessionInv (busy : Prop) (k : Session F) : Prop where
  good : ∀ q ∈ k.calls, q.Good
  phase : Phase busy k

section session
variable {busy : Prop} {k : Session F}

theorem start_sessionInv (hbusy : ¬ busy) : SessionInv busy (Session.start : Session F) where
  good := by simp [Session.start]
  phase := .idle rfl rfl rfl rfl (by simp [Session.start, Recv.start]) rfl rfl hbusy

theorem SessionInv.stage (h : SessionInv busy k) (stage : Stage) :
    SessionInv busy { k with stage } := by
  refine ⟨h.good, ?_⟩
  cases h.phase with
  | idle hasking hup hstream hsender hpc hserved hresults hbusy =>
    exact .idle hasking hup hstream hsender hpc hserved hresults hbusy
  | asked q hasking hup hgood hdown hserved hresults hbusy =>
    exact .asked q hasking hup hgood hdown hserved hresults hbusy
  | answered q e hasking hup hdown hpc hserved hresults hbusy =>
    exact .answered q e hasking hup hdown hpc hserved hresults hbusy

/-- A request is written when nothing else is in the streams. -/
theorem SessionInv.csopen (h : SessionInv busy k) (hasking : k.asking = none) {q : Ask} (hq : q.Good) :
    SessionInv busy { k with
      up := k.up ++ q.bytes
      down := { k.down with recv := Recv.start }
      asking := some q
      calls := k.calls ++ [q] } := by
  refine ⟨?_, ?_⟩
  · intro q' hq'
    rcases List.mem_append.mp hq' with hold | hnew
    · exact h.good q' hold
    · rw [List.mem_singleton.mp hnew]
      exact hq
  · cases h.phase with
    | asked q' hasking' => exact absurd (hasking.symm.trans hasking') (by simp)
    | answered q' e hasking' => exact absurd (hasking.symm.trans hasking') (by simp)
    | idle _ hup hstream hsender _ hserved hresults hbusy =>
      refine .asked q rfl ?_ hq ?_ ?_ hresults hbusy
      · simp only [hup, List.nil_append]
      · simp only [hstream, hsender]
      · simp only [List.map_append, hserved, List.map_singleton]

theorem SessionInv.request (h : SessionInv busy k) (hup : k.up ≠ []) :
    ∃ q, k.asking = some q ∧ q.Good ∧ k.up.take MAXLINE = q.bytes := by
  cases h.phase with
  | idle _ hup' => exact absurd hup' hup
  | answered q e _ hup' => exact absurd hup' hup
  | asked q hasking hup' hgood =>
    rw [hup']
    exact ⟨q, hasking, hgood, List.take_of_length_le hgood.1⟩

theorem SessionInv.read (h : SessionInv busy k) (hup : k.up ≠ []) (e : Served F)
    (he : e.bytes = k.up.take MAXLINE) (busy' : Prop) (hbusy' : busy') :
    SessionInv busy' { k with
      up := k.up.drop MAXLINE
      down := { k.down with sender := e.call.start }
      served := k.served ++ [e] } := by
  refine ⟨h.good, ?_⟩
  cases h.phase with
  | idle _ hup' => exact absurd hup' hup
  | answered q e' _ hup' => exact absurd hup' hup
  | asked q hasking hup' hgood hdown hserved hresults _ =>
    rw [hup', List.take_of_length_le hgood.1] at he
    refine .answered q e hasking ?_ ?_ ?_ ?_ ?_ ?_
    · simp only [hup']
      exact List.drop_of_length_le hgood.1
    · simp only [hdown]
      exact init_inv e.call
    · simp only [hdown, Recv.start]
    · simp only [hserved, List.map_append, List.map_singleton, he]
    · simp only [hresults, List.map_append, List.map_singleton]
    · exact iff_of_true hbusy' (start_ne_done e.call)

theorem SessionInv.write (h : SessionInv busy k) {n : ℕ} {down : State F} {userfunc : List UInt8 → ℤ}
    (hs : step userfunc k.down (.write n) = some down) : SessionInv busy { k with down } := by
  refine ⟨h.good, ?_⟩
  obtain ⟨rest, errcode, hwriten, -, -, hdown'⟩ := write_eq_some hs
  cases h.phase with
  | idle _ _ _ hsender => exact absurd (hwriten.symm.trans hsender) (by simp)
  | asked q _ _ _ hdown => exact absurd (hwriten.symm.trans (congrArg State.sender hdown)) (by simp)
  | answered q e hasking hup hdown hpc hserved hresults hbusy =>
    refine .answered q e hasking hup (write_inv hdown hs) (hdown' ▸ hpc) hserved hresults ?_
    refine iff_of_true (hbusy.mpr (by simp [hwriten])) ?_
    rw [hdown']
    simp only
    split
    · simp
    · simp

theorem SessionInv.sendmsg (h : SessionInv busy k) {down : State F} {userfunc : List UInt8 → ℤ}
    (hs : step userfunc k.down .sendmsg = some down) {busy' : Prop} (hbusy' : ¬ busy') :
    SessionInv busy' { k with down } := by
  refine ⟨h.good, ?_⟩
  obtain ⟨arg, hsendmsg, hdown'⟩ := sendmsg_eq_some hs
  cases h.phase with
  | idle _ _ _ hsender => exact absurd (hsendmsg.symm.trans hsender) (by simp)
  | asked q _ _ _ hdown => exact absurd (hsendmsg.symm.trans (congrArg State.sender hdown)) (by simp)
  | answered q e hasking hup hdown hpc hserved hresults _ =>
    refine .answered q e hasking hup (sendmsg_inv hdown hs) (hdown' ▸ hpc) hserved hresults ?_
    exact iff_of_false hbusy' (by simp [hdown'])

theorem SessionInv.recv (h : SessionInv busy k) {down : State F} {write : List UInt8 → ℤ}
    (hwrite : ∀ b, write b = b.length) (hs : step write k.down .recvmsg = some down) :
    (down.recv.pc = .running ∧ SessionInv busy { k with down }) ∨
      ∃ r, down.recv.pc = .returned r ∧ SessionInv busy { k with
        down
        asking := none
        results := k.results ++ [(r, down.recv.passed)] } := by
  obtain ⟨-, hne, hdown'⟩ := recvmsg_eq_some hs
  have hsender : down.sender = k.down.sender := by rw [hdown']
  cases h.phase with
  | idle _ _ hstream => exact absurd hstream hne
  | asked q _ _ _ hdown => exact absurd (congrArg State.stream hdown) hne
  | answered q e hasking hup hdown hpc hserved hresults hbusy =>
    have hfits : e.call.Fits := fits_handleRequest _ _ _ _ _
    have hinv := recvmsg_inv hfits hwrite hdown hs
    have hends := hinv
    cases hends with
    | running rest _ _ hpc' =>
      refine Or.inl ⟨hpc', h.good, ?_⟩
      exact .answered q e hasking hup hinv hpc' hserved hresults (by rw [hbusy, hsender])
    | returned htext hpc' hstream hdone =>
      refine Or.inr ⟨_, hpc', h.good, ?_⟩
      refine .idle rfl hup hstream hdone ?_ hserved ?_ ?_
      · intro d hd
        exact absurd (hd.symm.trans hpc') (by simp)
      · rw [hresults, htext]
        rfl
      · rw [hbusy, ← hsender, not_not]
        exact hdone

end session

/-! ### Every run -/

section run
variable {initial : Finset ℕ} {listenfd : ℕ} {s s' : Sys C F}

/-- Every client is in order, and so is the server. -/
structure SysInv (initial : Finset ℕ) (listenfd : ℕ) (s : Sys C F) : Prop where
  session : ∀ c, SessionInv (s.sending = some c) (s.session c)
  server : LoopInv initial listenfd s.server
  errmsg : noConversion s.server.globals.errmsg.str.bytes
  logging : ∀ f, s.logging = some f → noConversion f.bytes

theorem start_sysInv (h : listenfd ∉ initial) :
    SysInv initial listenfd (Sys.start initial listenfd : Sys C F) where
  session _ := start_sessionInv (by simp [Sys.start])
  server := start_loopInv h
  errmsg := rfl
  logging _ hf := nomatch hf

theorem SysInv.update [DecidableEq C] (h : SysInv initial listenfd s) {c : C} {k : Session F}
    (hsession : s'.session = Function.update s.session c k) (hk : SessionInv (s'.sending = some c) k)
    (hsending : ∀ d, d ≠ c → (s'.sending = some d ↔ s.sending = some d)) (d : C) :
    SessionInv (s'.sending = some d) (s'.session d) := by
  rw [hsession]
  by_cases hd : d = c
  · rw [hd, Function.update_self]
    exact hk
  · rw [Function.update_of_ne hd, hsending d hd]
    exact h.session d

theorem SysInv.put [DecidableEq C] (h : SysInv initial listenfd s) {c : C} {k : Session F}
    (hk : SessionInv (s.sending = some c) k) : SysInv initial listenfd (s.put c k) :=
  ⟨h.update rfl hk fun _ _ => Iff.rfl, h.server, h.errmsg, h.logging⟩

theorem loop_eq_some {a : LoopAct F} (hs : s.loop listenfd a = some s') :
    s.sending = none ∧ ∃ server, loopStep listenfd s.server a = some server ∧ s' = { s with server } := by
  unfold Sys.loop at hs
  obtain ⟨hsending, hs⟩ := Option.ite_none_right_eq_some.mp hs
  obtain ⟨server, hserver, rfl⟩ := Option.map_eq_some_iff.mp hs
  exact ⟨hsending, server, hserver, rfl⟩

theorem SysInv.loop (h : SysInv initial listenfd s) {a : LoopAct F} (hs : s.loop listenfd a = some s')
    (ha : ∀ bytes stale env newfd, a ≠ .request bytes stale env newfd) : SysInv initial listenfd s' := by
  obtain ⟨-, server, hserver, rfl⟩ := loop_eq_some hs
  refine ⟨h.session, loopStep_inv _ _ _ h.server hserver, ?_, h.logging⟩
  rw [globals_eq hserver ha]
  exact h.errmsg

theorem SysInv.read [DecidableEq C] (h : SysInv initial listenfd s) {stale : List UInt8} {env : Env F} {newfd : ℕ}
    (hplain : s.Plain (.read stale env newfd)) (hs : sysStep listenfd s (.read stale env newfd) = some s') :
    SysInv initial listenfd s' := by
  cases hturn : s.turn with
  | none => simp [sysStep, hturn] at hs
  | some x =>
    obtain ⟨cl, c⟩ := x
    simp only [sysStep, hturn] at hs
    obtain ⟨t, ht, rfl⟩ := Option.map_eq_some_iff.mp hs
    obtain ⟨hsending, server, hserver, rfl⟩ := loop_eq_some ht
    obtain ⟨i, cl', -, -, hlen, hserver'⟩ := request_eq_some hserver
    have hup : (s.session c).up ≠ [] := by
      intro hnil
      rw [hnil, List.take_nil] at hlen
      exact absurd hlen (by simp)
    obtain ⟨q, hasking, hgood, hbytes⟩ := (h.session c).request hup
    have hq : q.Plain env := by
      unfold Sys.Plain at hplain
      rw [hturn, Option.bind_some, hasking] at hplain
      exact hplain
    -- whoever asks
    have hreply (uid : UInt32) : noConversion
        (handleRequest env s.server.globals (q.bytes ++ stale) q.bytes.length uid).2.errmsg.str.bytes := by
      rw [handleRequest_request]
      exact plain_answerTo hgood hq h.errmsg
    refine ⟨h.update rfl ((h.session c).read hup _ rfl _ rfl) ?_, loopStep_inv _ _ _ h.server hserver, ?_, ?_⟩
    · intro d hd
      simp [hsending, Ne.symm hd]
    · rw [hbytes] at hserver'
      rw [hserver']
      exact hreply cl'.uid
    · intro f hf
      rw [← logFormat_eq_some hf]
      simp only [hbytes]
      exact hreply cl.uid

theorem sysStep_inv [DecidableEq C] (s : Sys C F) (a : SysAct C F) (s' : Sys C F)
    (h : SysInv initial listenfd s) (hgood : s.Good a) (hs : sysStep listenfd s a = some s') :
    SysInv initial listenfd s' := by
  obtain ⟨hgood, hplain⟩ := hgood
  cases a with
  | connect c =>
    unfold sysStep at hs
    obtain ⟨-, hs⟩ := Option.ite_none_right_eq_some.mp hs
    obtain rfl := Option.some.inj hs
    have hput := h.put ((h.session c).stage .connected)
    exact ⟨hput.session, hput.server, hput.errmsg, hput.logging⟩
  | csopen c q =>
    unfold sysStep at hs
    obtain ⟨⟨-, hasking⟩, hs⟩ := Option.ite_none_right_eq_some.mp hs
    obtain rfl := Option.some.inj hs
    exact h.put ((h.session c).csopen (Option.isNone_iff_eq_none.mp hasking) hgood)
  | recv c write room =>
    obtain ⟨hwrite, rfl⟩ := hgood
    unfold sysStep at hs
    obtain ⟨-, hs⟩ := Option.ite_none_left_eq_some.mp hs
    obtain ⟨down, hdown, hs⟩ := Option.map_eq_some_iff.mp hs
    rcases (h.session c).recv hwrite hdown with ⟨hpc, hk⟩ | ⟨r, hpc, hk⟩
    · rw [hpc] at hs
      obtain rfl := hs
      exact h.put hk
    · rw [hpc] at hs
      obtain rfl := hs
      exact h.put hk
  | fail c => exact hgood.elim
  | exit c =>
    unfold sysStep at hs
    obtain ⟨-, hs⟩ := Option.ite_none_right_eq_some.mp hs
    obtain rfl := Option.some.inj hs
    exact h.put ((h.session c).stage .closed)
  | select rset =>
    unfold sysStep at hs
    exact h.loop (Option.ite_none_right_eq_some.mp hs).2 (by simp)
  | accept clifd uid =>
    have hfd : clifd < FD_SETSIZE := hgood
    cases hbacklog : s.backlog with
    | nil => simp [sysStep, hbacklog] at hs
    | cons c backlog =>
      simp only [sysStep, hbacklog, if_pos hfd] at hs
      obtain ⟨t, ht, rfl⟩ := Option.map_eq_some_iff.mp hs
      have hinv : SysInv initial listenfd t := h.loop ht (by simp)
      exact ⟨hinv.session, hinv.server, hinv.errmsg, hinv.logging⟩
  | next => exact h.loop hs (by simp)
  | eof =>
    cases hturn : s.turn with
    | none => simp [sysStep, hturn] at hs
    | some x =>
      simp only [sysStep, hturn] at hs
      exact h.loop (Option.ite_none_right_eq_some.mp hs).2 (by simp)
  | read stale env newfd => exact h.read hplain hs
  | write n =>
    cases hsending : s.sending with
    | none => simp [sysStep, hsending] at hs
    | some c =>
      simp only [sysStep, hsending] at hs
      obtain ⟨down, hdown, rfl⟩ := Option.map_eq_some_iff.mp hs
      exact h.put ((h.session c).write hdown)
  | sendmsg survives =>
    cases hsending : s.sending with
    | none => simp [sysStep, hsending] at hs
    | some c =>
      have hlog : (survives || s.logging.all fun format => noConversion format.bytes) = true := by
        cases hlogging : s.logging with
        | none => simp
        | some f => simp [h.logging f hlogging]
      simp only [sysStep, hsending, hlog, if_true] at hs
      obtain ⟨down, hdown, rfl⟩ := Option.map_eq_some_iff.mp hs
      refine ⟨h.update rfl ((h.session c).sendmsg hdown (by simp)) ?_, h.server, h.errmsg, nofun⟩
      intro d hd
      simp [hsending, Ne.symm hd]
  | logSys => exact hgood.elim

end run

/-! ### What a client gets -/

section results
variable {busy : Prop} {k : Session F}

theorem SessionInv.logs (h : SessionInv busy k) :
    k.served.map Served.bytes <+: k.calls.map Ask.bytes ∧ k.results <+: k.served.map Served.result ∧
      k.calls.length = k.results.length + (if k.asking.isSome then 1 else 0) := by
  cases h.phase with
  | idle hasking _ _ _ _ hserved hresults =>
    have hlen := congrArg List.length hserved
    have hlen' := congrArg List.length hresults
    simp only [List.length_map] at hlen hlen'
    refine ⟨hserved ▸ List.prefix_rfl, hresults ▸ List.prefix_rfl, ?_⟩
    rw [hasking, hlen, hlen']
    rfl
  | asked q hasking _ _ _ hserved hresults =>
    have hlen := congrArg List.length hserved
    have hlen' := congrArg List.length hresults
    simp only [List.length_append, List.length_map, List.length_singleton] at hlen hlen'
    refine ⟨hserved ▸ List.prefix_append _ _, hresults ▸ List.prefix_rfl, ?_⟩
    rw [hasking, hlen, hlen']
    rfl
  | answered q e hasking _ _ _ hserved hresults =>
    have hlen := congrArg List.length hserved
    have hlen' := congrArg List.length hresults
    simp only [List.length_append, List.length_map, List.length_singleton] at hlen hlen'
    refine ⟨hserved ▸ List.prefix_rfl, hresults ▸ List.prefix_append _ _, ?_⟩
    rw [hasking, hlen, hlen']
    rfl

theorem getElem?_of_prefix {A : Type*} {l l' : List A} (h : l <+: l') {i : ℕ} {a : A}
    (ha : l[i]? = some a) : l'[i]? = some a := by
  obtain ⟨t, rfl⟩ := h
  have hlt := (List.getElem?_eq_some_iff.mp ha).1
  rw [List.getElem?_append_left hlt, ha]

theorem SessionInv.result (h : SessionInv busy k) {i : ℕ} {q : Ask}
    {r : Option (Except ℤ F) × List UInt8} (hq : k.calls[i]? = some q) (hr : k.results[i]? = some r) :
    ∃ e, k.served[i]? = some e ∧ r = e.result ∧ e.call = (answerTo e.env e.globals q.name q.oflag).1 := by
  obtain ⟨hserved, hresults, -⟩ := h.logs
  have hresult := getElem?_of_prefix hresults hr
  rw [List.getElem?_map, Option.map_eq_some_iff] at hresult
  obtain ⟨e, he, hresult⟩ := hresult
  have hbytes : (k.served.map Served.bytes)[i]? = some e.bytes := by
    rw [List.getElem?_map, he, Option.map_some]
  replace hbytes := getElem?_of_prefix hserved hbytes
  rw [List.getElem?_map, hq, Option.map_some, Option.some.injEq] at hbytes
  refine ⟨e, he, hresult.symm, ?_⟩
  unfold Served.call
  rw [← hbytes, handleRequest_request]

theorem SessionInv.opened (h : SessionInv busy k) {i : ℕ} {q : Ask} {f : F} {text : List UInt8}
    (hq : k.calls[i]? = some q) (hf : k.results[i]? = some (some (.ok f), text)) :
    ∃ e, k.served[i]? = some e ∧ e.env.openFile q.name.bytes q.oflag = .ok f := by
  obtain ⟨e, he, hresult, hcall⟩ := h.result hq hf
  refine ⟨e, he, ?_⟩
  have hsent : e.call = .sendFd f := by
    have hanswer := Option.some.inj (Prod.mk.inj hresult).1
    cases hc : e.call with
    | sendErr errcode msg => simp [hc, Call.arg, answer] at hanswer
    | sendFd f' =>
      simp only [hc, Call.arg, answer, Except.ok.injEq] at hanswer
      rw [hanswer]
  rw [hcall] at hsent
  obtain ⟨word, hword, hopen⟩ := answerTo_sendFd _ _ _ hsent
  rw [← (h.good q (List.mem_of_getElem? hq)).2 word hword]
  exact hopen

end results

/-- What the client `c` gets are the answers to what it asked for. -/
structure Matched (s : Sys C F) (c : C) : Prop where
  alive : s.server.pc ≠ .died
  noDump : ∀ d, (s.session c).down.recv.pc ≠ .dumped d
  /-- The requests are served one by one, in order, each of them once. -/
  served : (s.session c).served.map Served.bytes <+: (s.session c).calls.map Ask.bytes
  /-- The calls of `recv_fd` return the answers, one by one and in order. -/
  results : (s.session c).results <+: (s.session c).served.map Served.result
  /-- Every call but the one the client is in has returned. -/
  returned : (s.session c).calls.length =
    (s.session c).results.length + (if (s.session c).asking.isSome then 1 else 0)
  /-- Who waits has the request or the answer under way. -/
  waits : ∀ q, (s.session c).asking = some q → (s.session c).up = q.bytes ∨
    (s.session c).up = [] ∧ ((s.session c).down.stream ≠ [] ∨ s.sending = some c)
  /-- A descriptor is the one that `open` returned for the name and the flags of this call. -/
  opened : ∀ (i : ℕ) (q : Ask) (f : F) (text : List UInt8), (s.session c).calls[i]? = some q →
    (s.session c).results[i]? = some (some (.ok f), text) →
      ∃ e, (s.session c).served[i]? = some e ∧ e.env.openFile q.name.bytes q.oflag = .ok f

/-- What is opened is the name and the flags. -/
def anyFile : Env (List UInt8 × ℤ) := ⟨fun path flags => .ok (path, flags), fun _ => CStr.empty⟩

/-- `csopen("a", O_RDONLY)`. -/
def openA : Ask := ⟨⟨[97], by decide⟩, 0, Nat.zero_le _⟩

/-- Two clients ask at the same time: the first one gets its file, for the second one `open` fails. -/
def twoClients : List (SysAct Bool (List UInt8 × ℤ)) :=
  [.connect false, .connect true, .select {3}, .accept 4 7, .select {3}, .accept 5 8, .csopen false openA,
    .csopen true openA, .select {4, 5}, .read [] anyFile 6, .sendmsg false, .read [] noFiles 6, .write 10,
    .write 6, .sendmsg false, .recv true (fun b => b.length) true, .recv false (fun b => b.length) true]

theorem twoClients_good : ∀ a ∈ twoClients, a.Good := by
  have hopen : openA.Good := by
    refine ⟨by decide, ?_⟩
    intro word hword
    have htokens : tokens isWhite openA.name.bytes = [[97]] := by decide
    rw [htokens, List.cons.injEq] at hword
    exact hword.1.symm
  simp [twoClients, SysAct.Good, hopen, FD_SETSIZE]

/-- A name of 4080 letters, with which the request has 4101 bytes. -/
def long : Ask where
  name := ⟨List.replicate 4080 97, fun h => absurd (List.eq_of_mem_replicate h) (by decide)⟩
  oflag := 0
  le := Nat.zero_le _

theorem length_long : long.name.length < MAXLINE := by
  show (List.replicate 4080 (97 : UInt8)).length < 4096
  rw [List.length_replicate]
  omega

/-- The request is read in two pieces. -/
def twoReads : List (SysAct Unit Unit) :=
  [.connect (), .select {3}, .accept 4 7, .csopen () long, .select {4}, .read [] noFiles 5, .write 4094,
    .sendmsg true, .next, .select {4}, .read [] noFiles 5]

theorem not_matched_twoReads :
    ∃ s, run (sysStep 3) (Sys.start {0, 1, 2} 3) twoReads = some s ∧ ¬ Matched s () := by
  have hrun : (run (sysStep 3) (Sys.start {0, 1, 2} 3) twoReads).map
      (fun s => ((s.session ()).served.length, (s.session ()).calls.length)) = some (2, 1) := by
    decide +kernel
  obtain ⟨s, hs, hlen⟩ := Option.map_eq_some_iff.mp hrun
  rw [Prod.mk.injEq] at hlen
  refine ⟨s, hs, ?_⟩
  intro hmatched
  have hle := hmatched.served.length_le
  rw [List.length_map, List.length_map] at hle
  omega

/-- The server logs a name of conversions. -/
def conversions : List (SysAct Unit Unit) :=
  [.connect (), .select {3}, .accept 4 7, .csopen () ⟨⟨ascii "%s%s%s%s", by decide⟩, 0, Nat.zero_le _⟩,
    .select {4}, .read [] noFiles 5, .write 23, .sendmsg false]

theorem not_matched_conversions :
    ∃ s, run (sysStep 3) (Sys.start {0, 1, 2} 3) conversions = some s ∧ ¬ Matched s () := by
  have hrun : (run (sysStep 3) (Sys.start {0, 1, 2} 3) conversions).map (fun s => s.server.pc) =
      some .died := by decide +kernel
  obtain ⟨s, hs, hdied⟩ := Option.map_eq_some_iff.mp hrun
  exact ⟨s, hs, fun hmatched => hmatched.alive hdied⟩

/-- The client has as many files as it can have. -/
def noRoom : List (SysAct Unit (List UInt8 × ℤ)) :=
  [.connect (), .select {3}, .accept 4 7, .csopen () openA, .select {4}, .read [] anyFile 5, .sendmsg true,
    .recv () (fun b => b.length) false]

theorem not_matched_noRoom :
    ∃ s, run (sysStep 3) (Sys.start {0, 1, 2} 3) noRoom = some s ∧ ¬ Matched s () := by
  have hrun : (run (sysStep 3) (Sys.start {0, 1, 2} 3) noRoom).map
      (fun s => match (s.session ()).down.recv.pc with
        | .dumped d => some d
        | _ => none) = some (some .statusZeroNoFd) := by decide +kernel
  obtain ⟨s, hs, hdump⟩ := Option.map_eq_some_iff.mp hrun
  refine ⟨s, hs, fun hmatched => ?_⟩
  split at hdump
  · rename_i d hpc
    exact hmatched.noDump d hpc
  · cases hdump

/-- One client too many for the descriptor sets of the server, which has 1024 files open. -/
def highFd : List (SysAct Unit Unit) := [.connect (), .select {3}, .accept 1024 7]

theorem not_matched_highFd :
    ∃ s, run (sysStep 3) (Sys.start ((Finset.range 1024).erase 3) 3) highFd = some s ∧ ¬ Matched s () := by
  have hrun : (run (sysStep 3) (Sys.start ((Finset.range 1024).erase 3) 3) highFd).map
      (fun s => s.server.pc) = some .died := by decide +kernel
  obtain ⟨s, hs, hdied⟩ := Option.map_eq_some_iff.mp hrun
  exact ⟨s, hs, fun hmatched => hmatched.alive hdied⟩

end Apue.OpenServer
