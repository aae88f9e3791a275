import Apue.Ipc.PopenTable

/-!
# What the caller of `my_popen` and `my_pclose` sees

In a run whose `my_pclose` calls are all `Sound`, no access goes behind `childpid`, an entry is the pid of
a child exactly for the descriptors of streams that `my_pclose` has not been called on, other streams are
refused, and each child is waited for by the `my_pclose` of its own stream (`popen_run`).

A call is not `Sound`, and breaks that, in three cases: the descriptor is `maxfd`, which `fd > maxfd` lets
through to `childpid[maxfd]`; `fclose` or `waitpid` fails, and the child is never waited for; or a stream
of the caller's own is on the descriptor of one of `my_popen`'s.
-/

namespace Apue.Popen
open Descriptors Transition

variable {F : Type*} {s s' : State F} {fp k : ℕ} {a : Act F} {past : List (Act F)}

/-- The child of a stream that `my_popen` returned. -/
def State.childOf (s : State F) (fp : ℕ) : Option ℕ := (s.streams[fp]?).bind Stream.child

/-- The condition on a call of `my_pclose`. -/
def Sound (s : State F) : Act F → Prop
  | .pclose fp e =>
    (s.childpid.isSome = true → s.fileno fp ≠ s.maxfd) ∧
      ((s.childOf fp).isSome = true → e.fclose = true ∧ e.waitpid.isSome = true) ∧
      ((s.childOf fp).isSome = false → ¬ s.Taken (s.fileno fp))
  | _ => True

instance : ∀ (s : State F) (a : Act F), Decidable (Sound s a)
  | _, .pclose .. => inferInstanceAs (Decidable (_ ∧ _))
  | _, .popen .. | _, .open .. | _, .dup .. | _, .close .. | _, .fdopen .. | _, .fclose .. => isTrue trivial

/-- `my_pclose` was called on the stream. -/
def Called (past : List (Act F)) (fp : ℕ) : Prop := ∃ e, Act.pclose fp e ∈ past

/-- What holds after the calls `past`. -/
structure Intact (past : List (Act F)) (s : State F) : Prop where
  inBounds : s.fault = false
  recorded : ∀ fp fd k b, s.streams[fp]? = some ⟨fd, some k, b⟩ → ¬ Called past fp →
    ∃ (t : ℕ → ℕ) (c : Child F), s.childpid = some t ∧ fd < s.maxfd ∧ s.children[k]? = some c ∧
      t fd = c.pid ∧ 0 < c.pid
  zero : ∀ (t : ℕ → ℕ) (fd : ℕ), s.childpid = some t →
    (∀ fp k b, s.streams[fp]? = some ⟨fd, some k, b⟩ → Called past fp) → t fd = 0
  others : ∀ fp e, (s.opened fp).isSome = true → s.childOf fp = none → Sound s (.pclose fp e) →
    s.myPclose fp e = (s, .error .EINVAL)
  waited : ∀ (fp fd k : ℕ) (b : Bool) (c : Child F), s.streams[fp]? = some ⟨fd, some k, b⟩ →
    s.children[k]? = some c → (Called past fp → c.waitedBy = [fp]) ∧ (¬ Called past fp → c.waitedBy = [])

/-! ### Calls that leave the streams there are alone -/

theorem getElem?_append_cases {A : Type*} {l l' : List A} {x : A} {i : ℕ} (h : (l ++ l')[i]? = some x) :
    l[i]? = some x ∨ (l.length ≤ i ∧ x ∈ l') := by
  by_cases hlt : i < l.length
  · rw [List.getElem?_append_left hlt] at h
    exact Or.inl h
  · rw [List.getElem?_append_right (by omega)] at h
    exact Or.inr ⟨by omega, List.mem_of_getElem? h⟩

/-- Open streams and children not waited for may have come, and nothing else has changed. -/
structure Grown (s s' : State F) : Prop where
  streams : ∃ sts, s'.streams = s.streams ++ sts ∧
    ∀ st ∈ sts, st.isOpen = true ∧ ∀ k, st.child = some k → s.children.length ≤ k
  children : ∃ cs, s'.children = s.children ++ cs ∧ ∀ c ∈ cs, c.waitedBy = []
  fault : s'.fault = s.fault

theorem Grown.refl (hstreams : s'.streams = s.streams) (hchildren : s'.children = s.children)
    (hfault : s'.fault = s.fault) : Grown s s' :=
  ⟨⟨[], by simp [hstreams]⟩, ⟨[], by simp [hchildren]⟩, hfault⟩

theorem Grown.stream (h : Grown s s') {st : Stream} (hst : s'.streams[fp]? = some st) :
    s.streams[fp]? = some st ∨
      (s.streams.length ≤ fp ∧ st.isOpen = true ∧ ∀ k, st.child = some k → s.children.length ≤ k) := by
  obtain ⟨sts, hsts, hnew⟩ := h.streams
  rw [hsts] at hst
  obtain hold | ⟨hle, hmem⟩ := getElem?_append_cases hst
  · exact Or.inl hold
  · exact Or.inr ⟨hle, hnew st hmem⟩

theorem Grown.child (h : Grown s s') {c : Child F} (hc : s'.children[k]? = some c) :
    s.children[k]? = some c ∨ (s.children.length ≤ k ∧ c.waitedBy = []) := by
  obtain ⟨cs, hcs, hnew⟩ := h.children
  rw [hcs] at hc
  obtain hold | ⟨hle, hmem⟩ := getElem?_append_cases hc
  · exact Or.inl hold
  · exact Or.inr ⟨hle, hnew c hmem⟩

theorem State.grown_finish {m : Mode} {pfd0 pfd1 pid : ℕ} (fdopen : Bool)
    (hlt : m.parentEnd pfd0 pfd1 < s.maxfd) :
    Grown s ((s.fork m pfd0 pfd1 pid).finish m pfd0 pfd1 pid s.children.length fdopen).1 := by
  have hchildren : ∃ cs, (s.fork m pfd0 pfd1 pid).children = s.children ++ cs ∧ ∀ c ∈ cs, c.waitedBy = [] :=
    ⟨_, rfl, by simp⟩
  unfold State.finish
  cases fdopen with
  | false => exact ⟨⟨[], by simp [State.closeFd, State.fork]⟩, hchildren, rfl⟩
  | true =>
    simp only [if_true, State.store]
    rw [if_pos (show m.parentEnd pfd0 pfd1 < ((s.fork m pfd0 pfd1 pid).closeFd _).maxfd from hlt)]
    exact ⟨⟨_, rfl, by simp⟩, hchildren, rfl⟩

theorem Grown.of_eq {s₀ : State F} (h : Grown s s') (hstreams : s.streams = s₀.streams)
    (hchildren : s.children = s₀.children) (hfault : s.fault = s₀.fault) : Grown s₀ s' := by
  obtain ⟨hs, hc, hf⟩ := h
  rw [hstreams, hchildren] at hs
  rw [hchildren] at hc
  exact ⟨hs, hc, hf.trans hfault⟩

theorem State.grown_allocTable (s : State F) (e : PopenEnv) : Grown s (s.allocTable e).1 := by
  unfold State.allocTable
  split
  · exact Grown.refl rfl rfl rfl
  · simp only
    split <;> exact Grown.refl rfl rfl rfl

theorem State.grown_myPopen (s : State F) (type : CStr) (e : PopenEnv) : Grown s (s.myPopen type e).1 := by
  unfold State.myPopen
  split
  · exact Grown.refl rfl rfl rfl
  · rename_i m hm
    have halloc := s.grown_allocTable e
    split
    · rename_i s₁ heq
      rwa [heq] at halloc
    · rename_i s₁ heq
      rw [heq] at halloc
      obtain ⟨-, -, hchildren, hstreams, -, hfault⟩ := State.allocTable_eq heq
      split
      · exact halloc
      · rename_i pfd0 pfd1 fds hpipe
        simp only
        split
        · exact Grown.refl hstreams hchildren hfault
        · rename_i hlim
          split
          · exact Grown.refl hstreams hchildren hfault
          · refine (State.grown_finish e.fdopen ?_).of_eq hstreams hchildren hfault
            cases m <;> simp only [Mode.parentEnd] <;> omega

/-! ### The run -/

theorem called_snoc : Called (past ++ [a]) fp ↔ Called past fp ∨ ∃ e, a = .pclose fp e := by
  simp only [Called, List.mem_append, List.mem_singleton, exists_or, eq_comm (a := a)]

/-- A stream closed is one that was called on, and the child of such a stream was waited for. -/
structure Kept (past : List (Act F)) (s : State F) : Prop where
  inv : Inv s
  fault : s.fault = false
  bound : ∀ fp, Called past fp → fp < s.streams.length
  closed : ∀ fp fd k b, s.streams[fp]? = some ⟨fd, some k, b⟩ → (Called past fp ↔ b = false)
  waited : ∀ (fp fd k : ℕ) (b : Bool) (c : Child F), s.streams[fp]? = some ⟨fd, some k, b⟩ →
    s.children[k]? = some c → c.waitedBy = if b = true then [] else [fp]

theorem Kept.grow {past' : List (Act F)} (h : Kept past s) (hgrown : Grown s s') (hinv : Inv s')
    (hcalls : ∀ fp, Called past' fp ↔ Called past fp) : Kept past' s' := by
  refine ⟨hinv, hgrown.fault.trans h.fault, fun fp hfp => ?_, fun fp fd k b hst => ?_,
    fun fp fd k b c hst hc => ?_⟩
  · have hlt := h.bound fp ((hcalls fp).mp hfp)
    obtain ⟨sts, hsts, -⟩ := hgrown.streams
    rw [hsts, List.length_append]
    omega
  · rw [hcalls]
    obtain hst | ⟨hle, hopen, -⟩ := hgrown.stream hst
    · exact h.closed fp fd k b hst
    · have hnot : ¬ Called past fp := fun hcall => by
        have hlt := h.bound fp hcall
        omega
      simp only at hopen
      simp [hnot, hopen]
  · obtain hst | ⟨-, hopen, hnew⟩ := hgrown.stream hst <;> obtain hc | ⟨hle, hw⟩ := hgrown.child hc
    · exact h.waited fp fd k b c hst hc
    · have hlt := h.inv.children.bound fp k ⟨_, hst, rfl⟩
      omega
    · have hlt := (List.getElem?_eq_some_iff.mp hc).1
      have hle := hnew k rfl
      omega
    · simp only at hopen
      simp [hopen, hw]

theorem State.stream_of_fclose {f fd : ℕ} {o : Option ℕ} {b : Bool}
    (h : (s.fclose fp).streams[f]? = some ⟨fd, o, b⟩) :
    (fd = s.fileno fp ∧ b = false ∧ ∃ b', s.streams[f]? = some ⟨fd, o, b'⟩) ∨
      (fd ≠ s.fileno fp ∧ s.streams[f]? = some ⟨fd, o, b⟩) := by
  unfold State.fclose at h
  rw [List.getElem?_map, Option.map_eq_some_iff] at h
  obtain ⟨⟨fd', o', b'⟩, hst, heq⟩ := h
  by_cases hfd : fd' = s.fileno fp
  · rw [if_pos hfd, Stream.mk.injEq] at heq
    obtain ⟨rfl, rfl, rfl⟩ := heq
    exact Or.inl ⟨hfd, rfl, b', hst⟩
  · rw [if_neg hfd, Stream.mk.injEq] at heq
    obtain ⟨rfl, rfl, rfl⟩ := heq
    exact Or.inr ⟨hfd, hst⟩

theorem Kept.fclose {past' : List (Act F)} (h : Kept past s) (hfd : ¬ s.Taken (s.fileno fp))
    (hcalls : ∀ f, Called past' f ↔ Called past f) : Kept past' (s.fclose fp) := by
  have hsame : ∀ {f fd k : ℕ} {b : Bool}, (s.fclose fp).streams[f]? = some ⟨fd, some k, b⟩ →
      s.streams[f]? = some ⟨fd, some k, b⟩ := by
    intro f fd k b hst
    obtain ⟨heq, rfl, b', hst⟩ | ⟨-, hst⟩ := State.stream_of_fclose hst
    · cases b' with
      | false => exact hst
      | true => exact absurd (heq ▸ State.taken_iff.mpr ⟨f, k, hst⟩) hfd
    · exact hst
  refine ⟨h.inv.forget_eq hfd ▸ h.inv.forget fp, h.fault, fun f hf => ?_, fun f fd k b hst => ?_,
    fun f fd k b c hst hc => h.waited f fd k b c (hsame hst) hc⟩
  · rw [State.fclose, List.length_map]
    exact h.bound f ((hcalls f).mp hf)
  · rw [hcalls]
    exact h.closed f fd k b (hsame hst)

theorem Kept.others (h : Kept past s) {e : PcloseEnv} (hopen : (s.opened fp).isSome = true)
    (hnone : s.childOf fp = none) (hsound : Sound s (.pclose fp e)) :
    s.myPclose fp e = (s, .error .EINVAL) := by
  obtain ⟨st, hst⟩ := Option.isSome_iff_exists.mp hopen
  obtain ⟨hmax, -, hfd⟩ := hsound
  rw [State.fileno_of_opened hst] at hmax hfd
  obtain ⟨-, heq⟩ | ⟨hsome, heq, -⟩ | ⟨f, k, c, hp, -⟩ := h.inv.myPclose_cases hst e
  · exact heq
  · exact absurd heq (hmax (Option.isSome_iff_ne_none.mpr hsome))
  · exact absurd (State.taken_iff.mpr ⟨f, k, hp⟩) (hfd (by rw [hnone]; rfl))

theorem Kept.popened (h : Kept past s) {fd : ℕ} {e : PcloseEnv} (hp : s.Popened fp fd k)
    (hsound : Sound s (.pclose fp e)) :
    ∃ (c : Child F) (stat : ℤ), s.children[k]? = some c ∧
      s.myPclose fp e = ((s.forget fp).reap fp k, .ok stat) := by
  have hst : s.opened fp = some ⟨fd, some k, true⟩ := State.opened_eq_some.mpr ⟨hp, rfl⟩
  obtain ⟨-, hok, -⟩ := hsound
  have hchild : s.childOf fp = some k := by
    rw [State.childOf, show s.streams[fp]? = _ from hp]
    rfl
  obtain ⟨hfclose, hwait⟩ := hok (by rw [hchild]; rfl)
  obtain ⟨hnot, -⟩ | ⟨-, heq, -⟩ | ⟨f, j, c, hf, hc, hend⟩ := h.inv.myPclose_cases hst e
  · exact absurd (State.taken_iff.mpr ⟨fp, k, hp⟩) hnot
  · obtain ⟨_, _, _, hlt, -⟩ := h.inv.table.recorded fp fd k hp
    simp only at heq
    omega
  · obtain rfl := h.inv.table.unique f fp _ _ _ hf hp
    obtain rfl : j = k := by simpa using Option.some.inj (hf.symm.trans hp)
    obtain ⟨hbad | hbad, -⟩ | ⟨stat, -, -, heq⟩ := hend
    · rw [hfclose] at hbad
      cases hbad
    · rw [hbad] at hwait
      cases hwait
    · exact ⟨c, stat, hc, heq⟩

theorem Kept.reap {past' : List (Act F)} {fd : ℕ} {c : Child F} (h : Kept past s) (hp : s.Popened fp fd k)
    (hinv : Inv ((s.forget fp).reap fp k)) (hc : s.children[k]? = some c)
    (hcalls : ∀ f, Called past' f ↔ Called past f ∨ f = fp) : Kept past' ((s.forget fp).reap fp k) := by
  have hfileno : s.fileno fp = fd := State.fileno_of_opened (State.opened_eq_some.mpr ⟨hp, rfl⟩)
  -- the other streams stay as they are: none of them is open on this descriptor
  have hcases : ∀ {f i j : ℕ} {b : Bool}, (s.forget fp).streams[f]? = some ⟨i, some j, b⟩ →
      (f = fp ∧ b = false) ∨ (f ≠ fp ∧ s.streams[f]? = some ⟨i, some j, b⟩) := by
    intro f i j b hst
    obtain ⟨heq, rfl, b', hst⟩ | ⟨hne, hst⟩ := State.stream_of_fclose hst
    · by_cases hf : f = fp
      · exact Or.inl ⟨hf, rfl⟩
      · cases b' with
        | false => exact Or.inr ⟨hf, hst⟩
        | true => exact absurd (h.inv.table.unique f fp _ j k hst ((heq.trans hfileno).symm ▸ hp)) hf
    · refine Or.inr ⟨fun hf => hne ?_, hst⟩
      subst hf
      have heq := Option.some.inj (hst.symm.trans hp)
      rw [Stream.mk.injEq] at heq
      exact heq.1.trans hfileno.symm
  refine ⟨hinv, h.fault, fun f hf => ?_, fun f i j b hst => ?_, fun f i j b c' hst hc' => ?_⟩
  · show f < (s.streams.map _).length
    rw [List.length_map]
    obtain hf | rfl := (hcalls f).mp hf
    · exact h.bound f hf
    · exact (List.getElem?_eq_some_iff.mp hp).1
  · rw [hcalls]
    obtain ⟨rfl, rfl⟩ | ⟨hf, hst⟩ := hcases hst
    · simp
    · rw [h.closed f i j b hst, or_iff_left hf]
  · have hfrom : s.From f j := by
      have hclosed : (s.forget fp).From f j := ⟨_, hst, rfl⟩
      exact State.from_fclose.mp hclosed
    obtain ⟨rfl, rfl⟩ | ⟨hf, hst⟩ := hcases hst
    · obtain rfl : j = k := by
        obtain ⟨st, hst', hj⟩ := hfrom
        obtain rfl := Option.some.inj (hst'.symm.trans hp)
        exact (Option.some.inj hj).symm
      have hself : ((s.forget f).reap f j).children[j]? = _ := State.children_reap_self hc
      obtain rfl := Option.some.inj (hself.symm.trans hc')
      simp [h.inv.children.notYet f fd j c hp hc]
    · have hj : j ≠ k := by
        rintro rfl
        exact hf (h.inv.children.child f fp j hfrom hp.from)
      rw [State.children_reap_of_ne hj] at hc'
      exact h.waited f i j b c' hst hc'

theorem Kept.step (h : Kept past s) (hsound : Sound s a) (hs : step s a = some s') :
    Kept (past ++ [a]) s' := by
  have hinv := step_inv s a s' h.inv hs
  have hcalls : ∀ {fp}, (∀ e, a ≠ .pclose fp e) → (Called (past ++ [a]) fp ↔ Called past fp) := by
    intro fp hne
    rw [called_snoc, or_iff_left]
    rintro ⟨e, he⟩
    exact hne e he
  cases a with
  | popen type e =>
    obtain ⟨-, hs⟩ := Option.ite_none_right_eq_some.mp hs
    obtain rfl := Option.some.inj hs
    exact h.grow (s.grown_myPopen type e) hinv fun fp => hcalls (by simp)
  | pclose fp e =>
    obtain ⟨⟨-, hopen⟩, hs⟩ := Option.ite_none_right_eq_some.mp hs
    obtain rfl := Option.some.inj hs
    have hcalls' : ∀ f, Called (past ++ [.pclose fp e]) f ↔ Called past f ∨ f = fp := by
      intro f
      rw [called_snoc]
      simp [eq_comm]
    obtain ⟨⟨fd, child, _⟩, hst⟩ := Option.isSome_iff_exists.mp hopen
    obtain ⟨hget, rfl⟩ := State.opened_eq_some.mp hst
    cases child with
    | none =>
      have hnone : s.childOf fp = none := by
        rw [State.childOf, hget]
        rfl
      rw [h.others hopen hnone hsound]
      refine ⟨h.inv, h.fault, fun f hf => ?_, fun f i j b hst' => ?_, h.waited⟩
      · obtain hf | rfl := (hcalls' f).mp hf
        · exact h.bound f hf
        · exact (List.getElem?_eq_some_iff.mp hget).1
      · rw [hcalls', or_iff_left]
        · exact h.closed f i j b hst'
        · rintro rfl
          simp [hget] at hst'
    | some k =>
      obtain ⟨c, stat, hc, heq⟩ := h.popened hget hsound
      rw [heq] at hinv ⊢
      exact h.reap hget hinv hc hcalls'
  | fclose fp =>
    obtain ⟨⟨-, -, hfd⟩, hs⟩ := Option.ite_none_right_eq_some.mp hs
    obtain rfl := Option.some.inj hs
    exact h.fclose hfd fun f => hcalls (by simp)
  | fdopen fd =>
    obtain ⟨-, hs⟩ := Option.ite_none_right_eq_some.mp hs
    obtain rfl := Option.some.inj hs
    exact h.grow ⟨⟨_, rfl, by simp⟩, ⟨[], by simp⟩, rfl⟩ hinv fun fp => hcalls (by simp)
  | «open» fd f | dup fd fd' | close fd =>
    obtain ⟨-, hs⟩ := Option.ite_none_right_eq_some.mp hs
    obtain rfl := Option.some.inj hs
    exact h.grow (Grown.refl rfl rfl rfl) hinv fun fp => hcalls (by simp)

theorem Kept.intact (h : Kept past s) : Intact past s := by
  refine ⟨h.fault, fun fp fd k b hst hnot => ?_, fun t fd ht hall => ?_, fun fp e => h.others,
    fun fp fd k b c hst hc => ?_⟩
  · cases b with
    | false => exact absurd ((h.closed fp fd k _ hst).mpr rfl) hnot
    | true => exact h.inv.table.recorded fp fd k hst
  · refine h.inv.table.zero t ht fd fun htaken => ?_
    obtain ⟨fp, k, hp⟩ := State.taken_iff.mp htaken
    have hfalse := (h.closed fp fd k true hp).mp (hall fp k true hp)
    cases hfalse
  · have hw := h.waited fp fd k b c hst hc
    rw [h.closed fp fd k b hst]
    cases b <;> simpa using hw

/-- When every call of `my_pclose` is sound, the caller of both functions finds table, streams and
children as it should after every run, whatever else fails. -/
theorem popen_run (fds : Table F) (streams : List ℕ) (as : List (Act F)) (s : State F)
    (hsound : Meets step Sound (start fds streams) as) (hrun : run step (start fds streams) as = some s) :
    Intact as s := by
  have hstart : Kept [] (start fds streams) := by
    have hchild : ∀ {fp fd k : ℕ} {b : Bool}, (start fds streams).streams[fp]? ≠ some ⟨fd, some k, b⟩ := by
      intro fp fd k b hst
      simp [start] at hst
    refine ⟨start_inv fds streams, rfl, fun fp hfp => ?_, fun fp fd k b hst => absurd hst hchild,
      fun fp fd k b c hst => absurd hst hchild⟩
    obtain ⟨e, he⟩ := hfp
    cases he
  exact (history_of_meets (fun past s a t h hC ht => h.step hC ht) hstart hsound hrun).intact

/-- The type "r". -/
def typeR : CStr := ⟨[114], by decide⟩

/-- Eight descriptors at most, a child with this pid, and no failing call. -/
def allSucceed (pid : ℕ) : PopenEnv where
  openMax := 8
  calloc := true
  limit := 8
  fork := some pid
  fdopen := true

/-- A process with its standard input and output and the descriptors `fds`. -/
def process (fds : List ℕ) : Table Unit := fun fd => if fd < 2 ∨ fd ∈ fds then some () else none

/-- A stream from `my_popen` and one of the caller's own, each passed to `my_pclose`. -/
def twoStreams : List (Act Unit) :=
  [.popen typeR (allSucceed 7), .fdopen 0, .pclose 1 ⟨true, none⟩, .pclose 0 ⟨true, some 0⟩]

theorem popen_run_twoStreams : ∃ s, run step (start (process []) []) twoStreams = some s ∧
    Intact twoStreams s :=
  ⟨_, rfl, popen_run (process []) [] twoStreams _ (by decide) rfl⟩

/-- A stream on descriptor 8, from before the limit was lowered, passed to `my_pclose` after a first
`my_popen`. -/
theorem pclose_passes_maxfd :
    (run step (start (process [8]) [8])
      [.popen typeR (allSucceed 7), .pclose 0 ⟨true, none⟩]).map State.fault = some true := by
  decide

end Apue.Popen
