import Apue.Ipc.Popen

/-!
# The table of `my_popen` and `my_pclose`

`Inv` holds in every run: `childpid` has the pid of its child for every open stream of `my_popen` and 0
elsewhere, no two of these streams share a descriptor, their descriptors are open, and no child is waited
for twice. `Inv.myPclose_cases` lists what `my_pclose` of an open stream does in such a state.
-/

namespace Apue.Popen
open Descriptors Transition

variable {F : Type*} {s s' : State F} {fp fp' fd fd' k k' pid : ℕ}

theorem getElem?_snoc {A : Type*} {l : List A} {a b : A} {i : ℕ} :
    (l ++ [a])[i]? = some b ↔ l[i]? = some b ∨ (i = l.length ∧ a = b) := by
  rcases Nat.lt_trichotomy i l.length with hlt | rfl | hgt
  · rw [List.getElem?_append_left hlt]
    exact ⟨Or.inl, fun h => h.resolve_right fun h => by omega⟩
  · simp
  · rw [List.getElem?_eq_none (by simp; omega), List.getElem?_eq_none (by omega)]
    constructor
    · intro h
      cases h
    · rintro (h | h)
      · cases h
      · omega

/-! ### The invariant -/

/-- The stream `fp`, open or not, is the one that `my_popen` returned with the child `k`. -/
def State.From (s : State F) (fp k : ℕ) : Prop := ∃ st, s.streams[fp]? = some st ∧ st.child = some k

/-- `childpid` has the pids of the children whose streams are open. -/
structure TableOk (s : State F) : Prop where
  recorded : ∀ fp fd k, s.Popened fp fd k → ∃ (t : ℕ → ℕ) (c : Child F), s.childpid = some t ∧
    fd < s.maxfd ∧ s.children[k]? = some c ∧ t fd = c.pid ∧ 0 < c.pid
  zero : ∀ t, s.childpid = some t → ∀ fd, ¬ s.Taken fd → t fd = 0
  unique : ∀ fp fp' fd k k', s.Popened fp fd k → s.Popened fp' fd k' → fp = fp'

/-- The descriptors of these streams are open, and pipes are numbered as they come. -/
structure FdsOk (s : State F) : Prop where
  isOpen : ∀ fd, s.Taken fd → s.fds fd ≠ none
  fresh : ∀ fd n, s.fds fd = some (.pipeR n) ∨ s.fds fd = some (.pipeW n) → n < s.pipes

/-- A child belongs to one stream at most, is waited for once at most and not while its stream is open;
the pids of those not waited for differ. -/
structure ChildrenOk (s : State F) : Prop where
  child : ∀ fp fp' k, s.From fp k → s.From fp' k → fp = fp'
  bound : ∀ fp k, s.From fp k → k < s.children.length
  once : ∀ (k : ℕ) (c : Child F), s.children[k]? = some c → c.waitedBy.length ≤ 1
  notYet : ∀ (fp fd k : ℕ) (c : Child F), s.Popened fp fd k → s.children[k]? = some c → c.waitedBy = []
  pids : ∀ (k k' : ℕ) (c c' : Child F), s.children[k]? = some c → s.children[k']? = some c' →
    c.waitedBy = [] → c'.waitedBy = [] → c.pid = c'.pid → k = k'

structure Inv (s : State F) : Prop where
  table : TableOk s
  fds : FdsOk s
  children : ChildrenOk s

theorem State.Popened.from (h : s.Popened fp fd k) : s.From fp k := ⟨_, h, rfl⟩

theorem State.taken_iff : s.Taken fd ↔ ∃ fp k, s.Popened fp fd k := by
  unfold State.Taken State.Popened
  constructor
  · rintro ⟨⟨fd', child, isOpen⟩, hmem, rfl, hchild, rfl⟩
    obtain ⟨k, rfl⟩ := Option.isSome_iff_exists.mp hchild
    obtain ⟨fp, hfp⟩ := List.mem_iff_getElem?.mp hmem
    exact ⟨fp, k, hfp⟩
  · rintro ⟨fp, k, hfp⟩
    exact ⟨_, List.mem_of_getElem? hfp, rfl, rfl, rfl⟩

/-! ### Descriptors -/

theorem Inv.setFds (h : Inv s) {fds : Table (File F)} {pipes : ℕ} (hkeep : ∀ fd, s.Taken fd → fds fd ≠ none)
    (hfresh : ∀ fd n, fds fd = some (.pipeR n) ∨ fds fd = some (.pipeW n) → n < pipes) :
    Inv { s with fds := fds, pipes := pipes } :=
  ⟨⟨h.table.recorded, h.table.zero, h.table.unique⟩, ⟨hkeep, hfresh⟩, ⟨h.children.child, h.children.bound,
    h.children.once, h.children.notYet, h.children.pids⟩⟩

theorem Inv.close (h : Inv s) (hfd : ¬ s.Taken fd) : Inv (s.closeFd fd) := by
  refine h.setFds (fun i hi => ?_) fun i n hi => ?_
  · have hne : i ≠ fd := fun heq => hfd (heq ▸ hi)
    rw [Table.close_of_ne _ hne]
    exact h.fds.isOpen i hi
  · by_cases hne : i = fd
    · subst hne
      simp at hi
    · rw [Table.close_of_ne _ hne] at hi
      exact h.fds.fresh i n hi

theorem Inv.put (h : Inv s) (hfd : ¬ s.Taken fd) {f : File F} {pipes : ℕ} (hpipes : s.pipes ≤ pipes)
    (hf : ∀ n, f = .pipeR n ∨ f = .pipeW n → n < pipes) :
    Inv { s with fds := s.fds.put fd f, pipes := pipes } := by
  refine h.setFds (fun i hi => ?_) fun i n hi => ?_
  · have hne : i ≠ fd := fun heq => hfd (heq ▸ hi)
    rw [Table.put_of_ne _ hne]
    exact h.fds.isOpen i hi
  · by_cases hne : i = fd
    · subst hne
      simp only [Table.put_self, Option.some.injEq] at hi
      exact hf n hi
    · rw [Table.put_of_ne _ hne] at hi
      have hlt := h.fds.fresh i n hi
      omega

/-! ### The table -/

theorem State.not_popened (h : Inv s) (hnone : s.childpid = none) : ¬ s.Popened fp fd k := by
  intro hp
  obtain ⟨t, _, ht, -⟩ := h.table.recorded fp fd k hp
  rw [hnone] at ht
  cases ht

theorem Inv.setTable (h : Inv s) (hnone : s.childpid = none) (maxfd : ℕ) {t : Option (ℕ → ℕ)}
    (ht : ∀ u, t = some u → ∀ i, u i = 0) : Inv { s with childpid := t, maxfd := maxfd } := by
  refine ⟨⟨fun fp fd k hp => ?_, fun u hu fd _ => ht u hu fd, h.table.unique⟩,
    ⟨h.fds.isOpen, h.fds.fresh⟩, ⟨h.children.child, h.children.bound, h.children.once,
      h.children.notYet, h.children.pids⟩⟩
  exact (State.not_popened h hnone hp).elim

theorem Inv.allocTable (h : Inv s) (e : PopenEnv) : Inv (s.allocTable e).1 := by
  unfold State.allocTable
  split
  · exact h
  · rename_i hnone
    simp only
    split
    · exact h.setTable hnone e.openMax fun u hu i => by rw [← Option.some.inj hu]
    · have hsame := h.setTable (t := none) hnone e.openMax (by simp)
      rw [← hnone] at hsame
      exact hsame

/-! ### Children and streams -/

theorem Inv.fork (h : Inv s) {c : Child F} (hc : c.waitedBy = []) (hpid : s.Fresh c.pid) :
    Inv { s with children := s.children ++ [c] } := by
  refine ⟨⟨fun fp fd k hp => ?_, h.table.zero, h.table.unique⟩, ⟨h.fds.isOpen, h.fds.fresh⟩,
    ⟨h.children.child, fun fp k hfrom => ?_, fun k c' hc' => ?_, fun fp fd k c' hp hc' => ?_,
      fun k k' c₁ c₂ h₁ h₂ hw₁ hw₂ heq => ?_⟩⟩
  · obtain ⟨t, c', ht, hlt, hc', hpids⟩ := h.table.recorded fp fd k hp
    exact ⟨t, c', ht, hlt, getElem?_snoc.mpr (Or.inl hc'), hpids⟩
  · have hlt := h.children.bound fp k hfrom
    rw [List.length_append, List.length_singleton]
    omega
  · obtain hc' | ⟨-, rfl⟩ := getElem?_snoc.mp hc'
    · exact h.children.once k c' hc'
    · simp [hc]
  · obtain hc' | ⟨-, rfl⟩ := getElem?_snoc.mp hc'
    · exact h.children.notYet fp fd k c' hp hc'
    · exact hc
  · obtain h₁ | ⟨rfl, rfl⟩ := getElem?_snoc.mp h₁ <;> obtain h₂ | ⟨rfl, rfl⟩ := getElem?_snoc.mp h₂
    · exact h.children.pids k k' c₁ c₂ h₁ h₂ hw₁ hw₂ heq
    · exact absurd heq (hpid.2 c₁ (List.mem_of_getElem? h₁) hw₁)
    · exact absurd heq.symm (hpid.2 c₂ (List.mem_of_getElem? h₂) hw₂)
    · rfl

theorem State.popened_snoc {st : Stream} :
    ({ s with streams := s.streams ++ [st] } : State F).Popened fp fd k ↔
      s.Popened fp fd k ∨ (fp = s.streams.length ∧ st = ⟨fd, some k, true⟩) := getElem?_snoc

theorem State.from_snoc {st : Stream} :
    ({ s with streams := s.streams ++ [st] } : State F).From fp k ↔
      s.From fp k ∨ (fp = s.streams.length ∧ st.child = some k) := by
  unfold State.From
  simp only [getElem?_snoc]
  constructor
  · rintro ⟨st', h | ⟨hfp, rfl⟩, hchild⟩
    · exact Or.inl ⟨st', h, hchild⟩
    · exact Or.inr ⟨hfp, hchild⟩
  · rintro (⟨st', h, hchild⟩ | ⟨hfp, hchild⟩)
    · exact ⟨st', Or.inl h, hchild⟩
    · exact ⟨st, Or.inr ⟨hfp, rfl⟩, hchild⟩

theorem Inv.record (h : Inv s) {t : ℕ → ℕ} {c : Child F} (ht : s.childpid = some t)
    (hc : s.children[k]? = some c) (hw : c.waitedBy = []) (hpos : 0 < c.pid) (hnew : ∀ fp, ¬ s.From fp k)
    (hfd : ¬ s.Taken fd) (hopen : s.fds fd ≠ none) (hlt : fd < s.maxfd) :
    Inv (State.store { s with streams := s.streams ++ [⟨fd, some k, true⟩] } fd c.pid) := by
  rw [State.store, if_pos hlt, ht, Option.map_some]
  have hpop : ∀ {fp i j}, ({ s with streams := s.streams ++ [⟨fd, some k, true⟩] } : State F).Popened fp i j →
      s.Popened fp i j ∨ (fp = s.streams.length ∧ i = fd ∧ j = k) := by
    intro fp i j hp
    obtain hp | ⟨hfp, heq⟩ := State.popened_snoc.mp hp
    · exact Or.inl hp
    · simp only [Stream.mk.injEq, Option.some.injEq, and_true] at heq
      exact Or.inr ⟨hfp, heq.1.symm, heq.2.symm⟩
  have hne : ∀ {fp i j}, s.Popened fp i j → i ≠ fd := by
    intro fp i j hp heq
    exact hfd (State.taken_iff.mpr ⟨fp, j, heq ▸ hp⟩)
  have htaken : ∀ {i}, s.Taken i → ({ s with streams := s.streams ++ [⟨fd, some k, true⟩] } : State F).Taken i := by
    intro i hi
    obtain ⟨fp, j, hp⟩ := State.taken_iff.mp hi
    exact State.taken_iff.mpr ⟨fp, j, State.popened_snoc.mpr (Or.inl hp)⟩
  have hself : ({ s with streams := s.streams ++ [⟨fd, some k, true⟩] } : State F).Taken fd :=
    State.taken_iff.mpr ⟨_, k, State.popened_snoc.mpr (Or.inr ⟨rfl, rfl⟩)⟩
  refine ⟨⟨fun fp i j hp => ?_, fun u hu i hi => ?_, fun fp fp' i j j' hp hp' => ?_⟩,
    ⟨fun i hi => ?_, h.fds.fresh⟩, ⟨fun fp fp' j hf hf' => ?_, fun fp j hf => ?_,
      h.children.once, fun fp i j c' hp hc' => ?_, h.children.pids⟩⟩
  · obtain hp' | ⟨-, rfl, rfl⟩ := hpop hp
    · obtain ⟨u, c', hu, hlt', hc', hpid, hpos'⟩ := h.table.recorded fp i j hp'
      obtain rfl : t = u := Option.some.inj (ht.symm.trans hu)
      refine ⟨_, c', rfl, hlt', hc', ?_, hpos'⟩
      rw [Function.update_of_ne (hne hp'), hpid]
    · exact ⟨_, c, rfl, hlt, hc, Function.update_self .., hpos⟩
  · obtain rfl := Option.some.inj hu
    have hne' : i ≠ fd := fun heq => hi (heq ▸ hself)
    rw [Function.update_of_ne hne']
    exact h.table.zero t ht i fun hi' => hi (htaken hi')
  · obtain hp | ⟨rfl, hi, -⟩ := hpop hp <;> obtain hp' | ⟨rfl, hi', -⟩ := hpop hp'
    · exact h.table.unique fp fp' i j j' hp hp'
    · exact absurd hi' (hne hp)
    · exact absurd hi (hne hp')
    · rfl
  · obtain ⟨fp, j, hp⟩ := State.taken_iff.mp hi
    obtain hp | ⟨-, rfl, -⟩ := hpop hp
    · exact h.fds.isOpen i (State.taken_iff.mpr ⟨fp, j, hp⟩)
    · exact hopen
  · obtain hf | ⟨rfl, hk⟩ := State.from_snoc.mp hf <;> obtain hf' | ⟨rfl, hk'⟩ := State.from_snoc.mp hf'
    · exact h.children.child fp fp' j hf hf'
    · exact absurd (Option.some.inj hk' ▸ hf) (hnew fp)
    · exact absurd (Option.some.inj hk ▸ hf') (hnew fp')
    · rfl
  · obtain hf | ⟨-, hk⟩ := State.from_snoc.mp hf
    · exact h.children.bound fp j hf
    · obtain rfl := Option.some.inj hk
      exact (List.getElem?_eq_some_iff.mp hc).1
  · obtain hp | ⟨-, -, rfl⟩ := hpop hp
    · exact h.children.notYet fp i j c' hp hc'
    · exact Option.some.inj (hc.symm.trans hc') ▸ hw

theorem Inv.fdopen (h : Inv s) (fd : ℕ) : Inv { s with streams := s.streams ++ [⟨fd, none, true⟩] } := by
  have hpop : ∀ {fp i j}, ({ s with streams := s.streams ++ [⟨fd, none, true⟩] } : State F).Popened fp i j ↔
      s.Popened fp i j := by
    intro fp i j
    rw [State.popened_snoc]
    simp
  have hfrom : ∀ {fp j}, ({ s with streams := s.streams ++ [⟨fd, none, true⟩] } : State F).From fp j ↔
      s.From fp j := by
    intro fp j
    rw [State.from_snoc]
    simp
  have htaken : ∀ {i}, ({ s with streams := s.streams ++ [⟨fd, none, true⟩] } : State F).Taken i ↔
      s.Taken i := by
    intro i
    simp only [State.taken_iff, hpop]
  refine ⟨⟨?_, ?_, ?_⟩, ⟨?_, h.fds.fresh⟩, ⟨?_, ?_, h.children.once, ?_, h.children.pids⟩⟩
  · exact fun fp i j hp => h.table.recorded fp i j (hpop.mp hp)
  · exact fun t ht i hi => h.table.zero t ht i fun hi' => hi (htaken.mpr hi')
  · exact fun fp fp' i j j' hp hp' => h.table.unique fp fp' i j j' (hpop.mp hp) (hpop.mp hp')
  · exact fun i hi => h.fds.isOpen i (htaken.mp hi)
  · exact fun fp fp' j hf hf' => h.children.child fp fp' j (hfrom.mp hf) (hfrom.mp hf')
  · exact fun fp j hf => h.children.bound fp j (hfrom.mp hf)
  · exact fun fp i j c hp hc => h.children.notYet fp i j c (hpop.mp hp) hc

/-! ### Closing a stream -/

theorem State.popened_fclose : (s.fclose fp).Popened fp' fd k ↔ fd ≠ s.fileno fp ∧ s.Popened fp' fd k := by
  unfold State.Popened State.fclose
  rw [List.getElem?_map, Option.map_eq_some_iff]
  constructor
  · rintro ⟨st, hst, heq⟩
    by_cases hfd : st.fd = s.fileno fp
    · simp [hfd] at heq
    · rw [if_neg hfd] at heq
      subst heq
      exact ⟨hfd, hst⟩
  · rintro ⟨hfd, hst⟩
    exact ⟨_, hst, if_neg hfd⟩

theorem State.from_fclose : (s.fclose fp).From fp' k ↔ s.From fp' k := by
  unfold State.From State.fclose
  simp only [List.getElem?_map, Option.map_eq_some_iff]
  constructor
  · rintro ⟨_, ⟨st, hst, rfl⟩, hk⟩
    refine ⟨st, hst, ?_⟩
    split at hk <;> exact hk
  · rintro ⟨st, hst, hk⟩
    refine ⟨_, ⟨st, hst, rfl⟩, ?_⟩
    split <;> exact hk

/-- The stream closed and its entry of the table set to 0. -/
def State.forget (s : State F) (fp : ℕ) : State F :=
  State.fclose { s with childpid := s.childpid.map fun t => Function.update t (s.fileno fp) 0 } fp

theorem State.popened_forget : (s.forget fp).Popened fp' fd k ↔ fd ≠ s.fileno fp ∧ s.Popened fp' fd k :=
  State.popened_fclose

theorem Inv.forget (h : Inv s) (fp : ℕ) : Inv (s.forget fp) := by
  have hpop : ∀ {fp' i j}, (s.forget fp).Popened fp' i j → i ≠ s.fileno fp ∧ s.Popened fp' i j :=
    fun hp => State.popened_forget.mp hp
  have hfrom : ∀ {fp' j}, (s.forget fp).From fp' j ↔ s.From fp' j := State.from_fclose
  refine ⟨⟨?_, ?_, ?_⟩, ⟨?_, ?_⟩, ⟨?_, ?_, h.children.once, ?_, h.children.pids⟩⟩
  · intro fp' i j hp
    obtain ⟨hne, hp⟩ := hpop hp
    obtain ⟨t, c, ht, hlt, hc, hpid, hpos⟩ := h.table.recorded fp' i j hp
    refine ⟨Function.update t (s.fileno fp) 0, c, ?_, hlt, hc, ?_, hpos⟩
    · show s.childpid.map _ = _
      rw [ht, Option.map_some]
    · rw [Function.update_of_ne hne, hpid]
  · intro u hu i hi
    obtain ⟨t, ht, rfl⟩ := Option.map_eq_some_iff.mp (show s.childpid.map _ = some u from hu)
    by_cases hne : i = s.fileno fp
    · rw [hne, Function.update_self]
    · rw [Function.update_of_ne hne]
      refine h.table.zero t ht i fun htaken => hi ?_
      obtain ⟨fp', j, hp⟩ := State.taken_iff.mp htaken
      exact State.taken_iff.mpr ⟨fp', j, State.popened_forget.mpr ⟨hne, hp⟩⟩
  · exact fun fp₁ fp₂ i j j' h₁ h₂ => h.table.unique fp₁ fp₂ i j j' (hpop h₁).2 (hpop h₂).2
  · intro i hi
    obtain ⟨fp', j, hp⟩ := State.taken_iff.mp hi
    obtain ⟨hne, hp⟩ := hpop hp
    show s.fds.close (s.fileno fp) i ≠ none
    rw [Table.close_of_ne _ hne]
    exact h.fds.isOpen i (State.taken_iff.mpr ⟨fp', j, hp⟩)
  · intro i n hi
    change s.fds.close (s.fileno fp) i = _ ∨ s.fds.close (s.fileno fp) i = _ at hi
    by_cases hne : i = s.fileno fp
    · rw [hne, Table.close_self] at hi
      simp at hi
    · rw [Table.close_of_ne _ hne] at hi
      exact h.fds.fresh i n hi
  · exact fun fp₁ fp₂ j h₁ h₂ => h.children.child fp₁ fp₂ j (hfrom.mp h₁) (hfrom.mp h₂)
  · exact fun fp' j hf => h.children.bound fp' j (hfrom.mp hf)
  · exact fun fp' i j c hp hc => h.children.notYet fp' i j c (hpop hp).2 hc

theorem Inv.forget_eq (h : Inv s) (hfd : ¬ s.Taken (s.fileno fp)) : s.forget fp = s.fclose fp := by
  unfold State.forget
  congr 1
  cases ht : s.childpid with
  | none => rw [Option.map_none, ← ht]
  | some t =>
    have hzero := h.table.zero t ht _ hfd
    rw [Option.map_some, ← hzero, Function.update_eq_self, ← ht]

theorem State.children_reap_of_ne {j : ℕ} (hj : j ≠ k) : (s.reap fp k).children[j]? = s.children[j]? := by
  show (s.children.modify k _)[j]? = s.children[j]?
  rw [List.getElem?_modify]
  simp [Ne.symm hj]

theorem State.children_reap_self {c : Child F} (hc : s.children[k]? = some c) :
    (s.reap fp k).children[k]? = some { c with waitedBy := c.waitedBy ++ [fp] } := by
  show (s.children.modify k _)[k]? = _
  rw [List.getElem?_modify, hc]
  simp

theorem Inv.reap (h : Inv s) {c : Child F} (hclosed : ∀ fp fd, ¬ s.Popened fp fd k)
    (hc : s.children[k]? = some c) (hyet : c.waitedBy = []) : Inv (s.reap fp k) := by
  have hne : ∀ {fp' i j}, s.Popened fp' i j → j ≠ k := by
    rintro fp' i j hp rfl
    exact hclosed fp' i hp
  have hget : ∀ {j : ℕ} {c' : Child F}, (s.reap fp k).children[j]? = some c' →
      (j = k ∧ c'.waitedBy = [fp]) ∨ (j ≠ k ∧ s.children[j]? = some c') := by
    intro j c' hc'
    by_cases hj : j = k
    · subst hj
      rw [State.children_reap_self hc, Option.some.injEq] at hc'
      subst hc'
      exact Or.inl ⟨rfl, by simp [hyet]⟩
    · rw [State.children_reap_of_ne hj] at hc'
      exact Or.inr ⟨hj, hc'⟩
  refine ⟨⟨fun fp' i j hp => ?_, h.table.zero, h.table.unique⟩, ⟨h.fds.isOpen, h.fds.fresh⟩,
    ⟨h.children.child, fun fp' j hf => ?_, fun j c' hc' => ?_, fun fp' i j c' hp hc' => ?_,
      fun j j' c₁ c₂ h₁ h₂ hw₁ hw₂ heq => ?_⟩⟩
  · obtain ⟨t, c', ht, hlt, hc', hpids⟩ := h.table.recorded fp' i j hp
    exact ⟨t, c', ht, hlt, (State.children_reap_of_ne (hne hp)).trans hc', hpids⟩
  · show j < (s.children.modify k _).length
    rw [List.length_modify]
    exact h.children.bound fp' j hf
  · obtain ⟨-, hw⟩ | ⟨-, hc'⟩ := hget hc'
    · simp [hw]
    · exact h.children.once j c' hc'
  · obtain ⟨rfl, -⟩ | ⟨-, hc'⟩ := hget hc'
    · exact absurd rfl (hne hp)
    · exact h.children.notYet fp' i j c' hp hc'
  · obtain ⟨-, hw⟩ | ⟨-, h₁⟩ := hget h₁
    · simp [hw] at hw₁
    · obtain ⟨-, hw⟩ | ⟨-, h₂⟩ := hget h₂
      · simp [hw] at hw₂
      · exact h.children.pids j j' c₁ c₂ h₁ h₂ hw₁ hw₂ heq

/-! ### The two functions -/

theorem Inv.not_taken (h : Inv s) (hfd : s.fds fd = none) : ¬ s.Taken fd := fun ht => h.fds.isOpen fd ht hfd

theorem Inv.pipe (h : Inv s) {lim pfd0 pfd1 : ℕ} {fds : Table (File F)}
    (hpipe : s.fds.pipe lim (.pipeR s.pipes) (.pipeW s.pipes) = some (pfd0, pfd1, fds)) :
    Inv { s with fds := fds, pipes := s.pipes + 1 } := by
  obtain ⟨hfree0, hfree1, -, -, rfl, -⟩ := Table.pipe_eq_some hpipe
  have h0 := h.put (h.not_taken hfree0) (f := .pipeR s.pipes) (Nat.le_succ s.pipes) (by simp)
  exact h0.put (h.not_taken hfree1) (f := .pipeW s.pipes) le_rfl (by simp)

theorem Inv.ends (h : Inv s) {lim pfd0 pfd1 : ℕ} {fds : Table (File F)} (m : Mode)
    (hpipe : s.fds.pipe lim (.pipeR s.pipes) (.pipeW s.pipes) = some (pfd0, pfd1, fds)) :
    ¬ s.Taken (m.childEnd pfd0 pfd1) ∧ ¬ s.Taken (m.parentEnd pfd0 pfd1) ∧
      fds.close (m.childEnd pfd0 pfd1) (m.parentEnd pfd0 pfd1) ≠ none := by
  obtain ⟨hfree0, hfree1, hlt, -, rfl, -⟩ := Table.pipe_eq_some hpipe
  have h0 := h.not_taken hfree0
  have h1 := h.not_taken hfree1
  cases m with
  | r =>
    refine ⟨h1, h0, ?_⟩
    show Table.close _ pfd1 pfd0 ≠ none
    rw [Table.close_of_ne _ (by omega), Table.put_of_ne _ (by omega), Table.put_self]
    simp
  | w =>
    refine ⟨h0, h1, ?_⟩
    show Table.close _ pfd0 pfd1 ≠ none
    rw [Table.close_of_ne _ (by omega), Table.put_self]
    simp

theorem Inv.finish (h : Inv s) {t : ℕ → ℕ} {m : Mode} {pfd0 pfd1 : ℕ} (fdopen : Bool)
    (ht : s.childpid = some t) (hpid : s.Fresh pid) (hchild : ¬ s.Taken (m.childEnd pfd0 pfd1))
    (hparent : ¬ s.Taken (m.parentEnd pfd0 pfd1))
    (hopen : s.fds.close (m.childEnd pfd0 pfd1) (m.parentEnd pfd0 pfd1) ≠ none)
    (hlt : m.parentEnd pfd0 pfd1 < s.maxfd) :
    Inv ((s.fork m pfd0 pfd1 pid).finish m pfd0 pfd1 pid s.children.length fdopen).1 := by
  have hfork : Inv (s.fork m pfd0 pfd1 pid) := h.fork rfl hpid
  have hclose := hfork.close hchild
  unfold State.finish
  cases fdopen with
  | false => exact hclose
  | true =>
    have hlast : (s.fork m pfd0 pfd1 pid).children[s.children.length]? =
        some ⟨pid, s.childFds m pfd0 pfd1, []⟩ := getElem?_snoc.mpr (Or.inr ⟨rfl, rfl⟩)
    refine hclose.record ht hlast rfl hpid.1 (fun fp hf => ?_) hparent hopen hlt
    have hbound := h.children.bound fp _ hf
    omega

theorem State.allocTable_eq {e : PopenEnv} (h : s.allocTable e = (s', true)) :
    (∃ t, s'.childpid = some t) ∧ s'.fds = s.fds ∧ s'.children = s.children ∧ s'.streams = s.streams ∧
      s'.pipes = s.pipes ∧ s'.fault = s.fault := by
  unfold State.allocTable at h
  split at h
  · rename_i t ht
    simp only [Prod.mk.injEq, and_true] at h
    subst h
    exact ⟨⟨t, ht⟩, rfl, rfl, rfl, rfl, rfl⟩
  · simp only at h
    split at h
    · simp only [Prod.mk.injEq, and_true] at h
      subst h
      exact ⟨⟨_, rfl⟩, rfl, rfl, rfl, rfl, rfl⟩
    · simp at h

theorem Inv.myPopen (h : Inv s) (type : CStr) (e : PopenEnv) (hfork : ∀ pid ∈ e.fork, s.Fresh pid) :
    Inv (s.myPopen type e).1 := by
  unfold State.myPopen
  split
  · exact h
  · rename_i m hm
    have h₁ := h.allocTable e
    split
    · rename_i s₁ halloc
      rwa [halloc] at h₁
    · rename_i s₁ halloc
      rw [halloc] at h₁
      obtain ⟨⟨t, ht⟩, -, hchildren, -⟩ := State.allocTable_eq halloc
      split
      · exact h₁
      · rename_i pfd0 pfd1 fds hpipe
        have h₂ := h₁.pipe hpipe
        obtain ⟨hchild, hparent, hopen⟩ := h₁.ends m hpipe
        simp only
        split
        · obtain ⟨h0, h1, -⟩ := h₁.ends .w hpipe
          exact (h₂.close h0).close h1
        · rename_i hlim
          split
          · exact h₂
          · rename_i pid hpid
            have hfresh : s₁.Fresh pid := by
              unfold State.Fresh
              rw [hchildren]
              exact hfork pid hpid
            refine h₂.finish e.fdopen ht hfresh hchild hparent hopen ?_
            cases m <;> simp only [Mode.parentEnd] <;> omega

theorem State.opened_eq_some {st : Stream} :
    s.opened fp = some st ↔ s.streams[fp]? = some st ∧ st.isOpen = true := by
  unfold State.opened
  rw [Option.filter_eq_some_iff]

theorem State.fileno_of_opened {st : Stream} (h : s.opened fp = some st) : s.fileno fp = st.fd := by
  rw [State.fileno, (State.opened_eq_some.mp h).1]
  rfl

theorem Inv.waitable (h : Inv s) {c : Child F} (hc : s.children[k]? = some c) (hyet : c.waitedBy = []) :
    s.waitable c.pid = some k := by
  obtain ⟨hlt, hget⟩ := List.getElem?_eq_some_iff.mp hc
  refine List.findIdx?_eq_some_iff_getElem.mpr ⟨hlt, ?_, fun j hj => ?_⟩
  · simp [hget, hyet]
  · simp only [decide_eq_true_eq, not_and]
    intro hpid hw
    have heq := h.children.pids j k _ c (List.getElem?_eq_getElem (by omega)) hc hw hyet hpid
    omega

/-- What `my_pclose` of an open stream does: nothing, or an access behind the table, or it forgets an entry
of the table and waits for the child that was there. -/
theorem Inv.myPclose_cases (h : Inv s) {st : Stream} (hst : s.opened fp = some st) (e : PcloseEnv) :
    (¬ s.Taken st.fd ∧ s.myPclose fp e = (s, .error .EINVAL)) ∨
    (s.childpid ≠ none ∧ st.fd = s.maxfd ∧ s.myPclose fp e = ({ s with fault := true }, .error .sys)) ∨
    ∃ f k c, s.Popened f st.fd k ∧ s.children[k]? = some c ∧
      (((e.fclose = false ∨ e.waitpid = none) ∧ s.myPclose fp e = (s.forget fp, .error .sys)) ∨
        ∃ stat, e.fclose = true ∧ e.waitpid = some stat ∧
          s.myPclose fp e = ((s.forget fp).reap fp k, .ok stat)) := by
  have hfileno := State.fileno_of_opened hst
  cases ht : s.childpid with
  | none =>
    refine Or.inl ⟨fun htaken => ?_, by simp only [State.myPclose, ht]⟩
    obtain ⟨f, k, hp⟩ := State.taken_iff.mp htaken
    exact State.not_popened h ht hp
  | some t =>
    simp only [State.myPclose, ht, hfileno]
    by_cases hgt : st.fd > s.maxfd
    · rw [if_pos hgt]
      refine Or.inl ⟨fun htaken => ?_, rfl⟩
      obtain ⟨f, k, hp⟩ := State.taken_iff.mp htaken
      obtain ⟨_, _, _, hlt, -⟩ := h.table.recorded f st.fd k hp
      omega
    rw [if_neg hgt]
    by_cases heq : st.fd = s.maxfd
    · rw [if_pos heq]
      exact Or.inr (Or.inl ⟨by simp, heq, rfl⟩)
    rw [if_neg heq]
    by_cases hzero : t st.fd = 0
    · rw [if_pos hzero]
      refine Or.inl ⟨fun htaken => ?_, rfl⟩
      obtain ⟨f, k, hp⟩ := State.taken_iff.mp htaken
      obtain ⟨u, c, hu, -, -, hpid, hpos⟩ := h.table.recorded f st.fd k hp
      obtain rfl : t = u := Option.some.inj (ht.symm.trans hu)
      omega
    rw [if_neg hzero]
    have htaken : s.Taken st.fd := by
      by_contra hnot
      exact hzero (h.table.zero t ht st.fd hnot)
    obtain ⟨f, k, hp⟩ := State.taken_iff.mp htaken
    obtain ⟨u, c, hu, hlt, hc, hpid, -⟩ := h.table.recorded f st.fd k hp
    obtain rfl : t = u := Option.some.inj (ht.symm.trans hu)
    have hforget : (s.store st.fd 0).fclose fp = s.forget fp := by
      rw [State.store, if_pos hlt, State.forget, hfileno]
    have hwait : (s.forget fp).waitable (t st.fd) = some k := by
      rw [hpid]
      exact h.waitable hc (h.children.notYet f st.fd k c hp hc)
    refine Or.inr (Or.inr ⟨f, k, c, hp, hc, ?_⟩)
    rw [hforget, hwait]
    cases hfclose : e.fclose with
    | false => exact Or.inl ⟨Or.inl rfl, rfl⟩
    | true =>
      cases hwaitpid : e.waitpid with
      | none => exact Or.inl ⟨Or.inr rfl, rfl⟩
      | some stat => exact Or.inr ⟨stat, rfl, rfl, rfl⟩

theorem Inv.myPclose (h : Inv s) {st : Stream} (hst : s.opened fp = some st) (e : PcloseEnv) :
    Inv (s.myPclose fp e).1 := by
  obtain ⟨-, heq⟩ | ⟨-, -, heq⟩ | ⟨f, k, c, hp, hc, ⟨-, heq⟩ | ⟨_, -, -, heq⟩⟩ := h.myPclose_cases hst e <;>
    rw [heq]
  · exact h
  · exact ⟨⟨h.table.recorded, h.table.zero, h.table.unique⟩, ⟨h.fds.isOpen, h.fds.fresh⟩,
      ⟨h.children.child, h.children.bound, h.children.once, h.children.notYet, h.children.pids⟩⟩
  · exact h.forget fp
  · refine (h.forget fp).reap (fun f' fd' hp' => ?_) hc (h.children.notYet f st.fd k c hp hc)
    obtain ⟨hne, hp'⟩ := State.popened_forget.mp hp'
    obtain rfl := h.children.child f f' k hp.from hp'.from
    have heq := Option.some.inj (hp.symm.trans hp')
    rw [Stream.mk.injEq] at heq
    exact hne (heq.1.symm.trans (State.fileno_of_opened hst).symm)

theorem step_inv (s : State F) (a : Act F) (s' : State F) (h : Inv s) (hs : step s a = some s') : Inv s' := by
  cases a with
  | popen type e =>
    obtain ⟨⟨-, hfork⟩, hs⟩ := Option.ite_none_right_eq_some.mp hs
    exact Option.some.inj hs ▸ h.myPopen type e hfork
  | pclose fp e =>
    obtain ⟨⟨-, hopen⟩, hs⟩ := Option.ite_none_right_eq_some.mp hs
    obtain ⟨st, hst⟩ := Option.isSome_iff_exists.mp hopen
    exact Option.some.inj hs ▸ h.myPclose hst e
  | «open» fd f =>
    obtain ⟨⟨-, hfd⟩, hs⟩ := Option.ite_none_right_eq_some.mp hs
    exact Option.some.inj hs ▸ h.put hfd le_rfl (by simp)
  | dup fd fd' =>
    obtain ⟨⟨-, hfd⟩, hs⟩ := Option.ite_none_right_eq_some.mp hs
    obtain rfl := Option.some.inj hs
    cases hf : s.fds fd with
    | none =>
      simp only [Table.dup2, hf]
      exact h
    | some f =>
      simp only [Table.dup2, hf]
      refine h.put hfd le_rfl fun n hn => h.fds.fresh fd n ?_
      obtain rfl | rfl := hn
      · exact Or.inl hf
      · exact Or.inr hf
  | close fd =>
    obtain ⟨⟨-, hfd⟩, hs⟩ := Option.ite_none_right_eq_some.mp hs
    exact Option.some.inj hs ▸ h.close hfd
  | fdopen fd =>
    obtain ⟨-, hs⟩ := Option.ite_none_right_eq_some.mp hs
    exact Option.some.inj hs ▸ h.fdopen fd
  | fclose fp =>
    obtain ⟨⟨-, -, hfd⟩, hs⟩ := Option.ite_none_right_eq_some.mp hs
    exact Option.some.inj hs ▸ h.forget_eq hfd ▸ h.forget fp

theorem start_inv (fds : Table F) (streams : List ℕ) : Inv (start fds streams) := by
  have hfrom : ∀ {fp k}, ¬ (start fds streams).From fp k := by
    rintro fp k ⟨st, hst, hk⟩
    obtain ⟨fd, -, rfl⟩ := List.mem_map.mp (List.mem_of_getElem? hst)
    cases hk
  have htaken : ∀ {fd}, ¬ (start fds streams).Taken fd := by
    intro fd hfd
    obtain ⟨fp, k, hp⟩ := State.taken_iff.mp hfd
    exact hfrom hp.from
  refine ⟨⟨?_, ?_, ?_⟩, ⟨?_, ?_⟩, ⟨?_, ?_, ?_, ?_, ?_⟩⟩
  · exact fun fp fd k hp => (hfrom hp.from).elim
  · simp [start]
  · exact fun fp _ _ k _ hp => (hfrom hp.from).elim
  · exact fun fd hfd => (htaken hfd).elim
  · intro fd n hn
    simp [start] at hn
  · exact fun fp fp' k hf => (hfrom hf).elim
  · exact fun fp k hf => (hfrom hf).elim
  all_goals simp [start]

end Apue.Popen
