import Mathlib.Data.Finset.Basic
import Mathlib.Data.Finset.Lattice.Lemmas
import Apue.OpenServer.ClientTable
import Apue.OpenServer.Request

/-!
# The main loop of the open server (Chapter-17/open-2/17-29.c)

`loop` keeps the descriptors it waits for in `allset`, the clients in the client table, and the bounds
`maxfd` and `maxi`. A turn is a `select`, then either one `serv_accept` or a scan over the slots up to
`maxi`, which reads from every client in `rset`: at the end of file the client is deleted and closed,
otherwise `handle_request` opens a descriptor, sends it and closes it again.

What the kernel decides is in the actions: which of the watched descriptors are ready, the number of an
accepted or opened descriptor (one that is not open), what a read returns. `opened` are the descriptors
the process has open. `served` logs from whom the scan has read since the last `select`. The calls that
end the process on failure succeed.
-/

namespace Apue.OpenServer
open Transition Slots Clients

variable {F : Type*}

def FD_SETSIZE : ℕ := 1024

inductive Pc where
  | select
  | accept
  | scan (i : ℕ)
  /-- `log_quit`, or `client[i]` outside of the array. -/
  | died
  deriving DecidableEq

structure Server where
  clients : Clients
  allset : Finset ℕ
  rset : Finset ℕ
  maxfd : ℕ
  maxi : ℤ
  globals : Globals
  opened : Finset ℕ
  served : Finset ℕ
  pc : Pc

/-- After `serv_listen`; `initial` are the descriptors open before. -/
def Server.start (initial : Finset ℕ) (listenfd : ℕ) : Server where
  clients := Clients.start
  allset := {listenfd}
  rset := ∅
  maxfd := listenfd
  maxi := -1
  globals := Globals.start
  opened := insert listenfd initial
  served := ∅
  pc := .select

/-- What the scan finds in slot `i`. -/
inductive Visit where
  | left
  | outside
  | skip
  | ready (c : Client)

def Server.visit (s : Server) (i : ℕ) : Visit :=
  if i ≤ s.maxi then
    match s.clients.array[i]? with
    | none => .outside
    | some none => .skip
    | some (some c) => if c.fd ∈ s.rset then .ready c else .skip
  else .left

inductive LoopAct (F : Type*) where
  | select (rset : Finset ℕ)
  | accept (clifd : ℕ) (uid : UInt32)
  /-- A slot without anything to read, or the end of the scan. -/
  | next
  | eof
  /-- `open` returns the descriptor `newfd`, if it succeeds. -/
  | request (bytes stale : List UInt8) (env : Env F) (newfd : ℕ)

def loopStep (listenfd : ℕ) (s : Server) : LoopAct F → Option Server
  | .select rset =>
    if s.pc = .select ∧ rset ⊆ s.allset ∧ ∀ fd ∈ rset, fd ≤ s.maxfd then
      some { s with rset, served := ∅, pc := if listenfd ∈ rset then .accept else .scan 0 }
    else none
  | .accept clifd uid =>
    if s.pc = .accept ∧ clifd ∉ s.opened ∧ clifd < FD_SETSIZE then
      let (i, clients) := clientAdd s.clients clifd uid
      some { s with
        clients
        opened := insert clifd s.opened
        allset := insert clifd s.allset
        maxfd := if clifd > s.maxfd then clifd else s.maxfd
        maxi := if i > s.maxi then i else s.maxi
        pc := .select }
    else none
  | .next =>
    match s.pc with
    | .scan i =>
      match s.visit i with
      | .left => some { s with pc := .select }
      | .outside => some { s with pc := .died }
      | .skip => some { s with pc := .scan (i + 1) }
      | .ready _ => none
    | _ => none
  | .eof =>
    match s.pc with
    | .scan i =>
      match s.visit i with
      | .ready c =>
        match clientDel s.clients c.fd with
        | none => some { s with pc := .died }
        | some clients =>
          some { s with
            clients
            allset := s.allset.erase c.fd
            opened := s.opened.erase c.fd
            served := insert c.fd s.served
            pc := .scan (i + 1) }
      | _ => none
    | _ => none
  | .request bytes stale env newfd =>
    match s.pc with
    | .scan i =>
      match s.visit i with
      | .ready c =>
        if 1 ≤ bytes.length ∧ bytes.length ≤ MAXLINE then
          match handleRequest env s.globals (bytes ++ stale) bytes.length c.uid with
          | (.sendErr _ _, globals) =>
            some { s with globals, served := insert c.fd s.served, pc := .scan (i + 1) }
          | (.sendFd _, globals) =>
            if newfd ∉ s.opened then
              some { s with
                globals
                -- `open`, and `close` after `send_fd`
                opened := (insert newfd s.opened).erase newfd
                served := insert c.fd s.served
                pc := .scan (i + 1) }
            else none
        else none
      | _ => none
    | _ => none

/-! ### The bookkeeping -/

/-- The slots, the descriptor sets and the bounds fit together. -/
structure Books (initial : Finset ℕ) (listenfd : ℕ) (slots : ℕ → Option Client)
    (allset opened : Finset ℕ) (maxfd : ℕ) (maxi : ℤ) : Prop where
  mem_allset : ∀ fd, fd ∈ allset ↔ fd = listenfd ∨ ∃ i c, slots i = some c ∧ c.fd = fd
  uniq : ∀ i j c c', slots i = some c → slots j = some c' → c.fd = c'.fd → i = j
  listen : ∀ i c, slots i = some c → c.fd ≠ listenfd
  le_maxi : ∀ i c, slots i = some c → i ≤ maxi
  le_maxfd : ∀ fd ∈ allset, fd ≤ maxfd
  opened : opened = initial ∪ allset
  fresh : Disjoint initial allset

section books
variable {initial : Finset ℕ} {listenfd : ℕ} {slots : ℕ → Option Client} {allset opened : Finset ℕ}
  {maxfd : ℕ} {maxi : ℤ} {i : ℕ}

theorem Books.start (h : listenfd ∉ initial) :
    Books initial listenfd (fun _ => none) {listenfd} (insert listenfd initial) listenfd (-1) where
  mem_allset := by simp
  uniq := by simp
  listen := by simp
  le_maxi := by simp
  le_maxfd := by simp
  opened := by rw [Finset.union_comm, ← Finset.insert_eq]
  fresh := Finset.disjoint_singleton_right.mpr h

theorem Books.mem_opened (h : Books initial listenfd slots allset opened maxfd maxi) {fd : ℕ}
    (hfd : fd ∈ allset) : fd ∈ opened := by
  rw [h.opened]
  exact Finset.mem_union_right _ hfd

theorem Books.add (h : Books initial listenfd slots allset opened maxfd maxi) (hi : slots i = none)
    {clifd : ℕ} (hfd : clifd ∉ opened) (uid : UInt32) :
    Books initial listenfd (Function.update slots i (some ⟨clifd, uid⟩)) (insert clifd allset)
      (insert clifd opened) (if clifd > maxfd then clifd else maxfd) (if i > maxi then i else maxi) := by
  have hnew : clifd ∉ allset := fun hmem => hfd (h.mem_opened hmem)
  -- the other slots are not about the new descriptor
  have hold : ∀ j c, slots j = some c → c.fd ≠ clifd := by
    intro j c hj hc
    exact hnew ((h.mem_allset clifd).mpr (Or.inr ⟨j, c, hj, hc⟩))
  have hcases : ∀ j c, Function.update slots i (some ⟨clifd, uid⟩) j = some c →
      (j = i ∧ c = ⟨clifd, uid⟩) ∨ (j ≠ i ∧ slots j = some c) := by
    intro j c hj
    by_cases hji : j = i
    · rw [hji, Function.update_self, Option.some.injEq] at hj
      exact Or.inl ⟨hji, hj.symm⟩
    · rw [Function.update_of_ne hji] at hj
      exact Or.inr ⟨hji, hj⟩
  refine ⟨?_, ?_, ?_, ?_, ?_, ?_, ?_⟩
  · intro fd
    rw [Finset.mem_insert, h.mem_allset]
    constructor
    · rintro (rfl | rfl | ⟨j, c, hj, hc⟩)
      · exact Or.inr ⟨i, _, Function.update_self .., rfl⟩
      · exact Or.inl rfl
      · have hji : j ≠ i := by
          intro hji
          rw [hji, hi] at hj
          exact absurd hj (by simp)
        exact Or.inr ⟨j, c, by rw [Function.update_of_ne hji, hj], hc⟩
    · rintro (rfl | ⟨j, c, hj, hc⟩)
      · exact Or.inr (Or.inl rfl)
      · rcases hcases j c hj with ⟨-, rfl⟩ | ⟨-, hj'⟩
        · exact Or.inl hc.symm
        · exact Or.inr (Or.inr ⟨j, c, hj', hc⟩)
  · intro j k c c' hj hk hcc
    rcases hcases j c hj with ⟨rfl, rfl⟩ | ⟨-, hj'⟩
    · rcases hcases k c' hk with ⟨rfl, -⟩ | ⟨-, hk'⟩
      · rfl
      · exact absurd hcc.symm (hold k c' hk')
    · rcases hcases k c' hk with ⟨-, rfl⟩ | ⟨-, hk'⟩
      · exact absurd hcc (hold j c hj')
      · exact h.uniq j k c c' hj' hk' hcc
  · intro j c hj
    rcases hcases j c hj with ⟨-, rfl⟩ | ⟨-, hj'⟩
    · intro hlisten
      exact hnew ((h.mem_allset clifd).mpr (Or.inl hlisten))
    · exact h.listen j c hj'
  · intro j c hj
    rcases hcases j c hj with ⟨rfl, -⟩ | ⟨-, hj'⟩
    · split <;> omega
    · have hle := h.le_maxi j c hj'
      split <;> omega
  · intro fd hmem
    rcases Finset.mem_insert.mp hmem with rfl | hmem
    · split <;> omega
    · have hle := h.le_maxfd fd hmem
      split <;> omega
  · rw [h.opened, Finset.union_insert]
  · rw [Finset.disjoint_insert_right]
    refine ⟨fun hmem => hfd ?_, h.fresh⟩
    rw [h.opened]
    exact Finset.mem_union_left _ hmem

theorem Books.del (h : Books initial listenfd slots allset opened maxfd maxi) {c : Client}
    (hi : slots i = some c) :
    Books initial listenfd (Function.update slots i none) (allset.erase c.fd) (opened.erase c.fd)
      maxfd maxi := by
  have hcases : ∀ j c', Function.update slots i none j = some c' → j ≠ i ∧ slots j = some c' := by
    intro j c' hj
    by_cases hji : j = i
    · rw [hji, Function.update_self] at hj
      exact absurd hj (by simp)
    · rw [Function.update_of_ne hji] at hj
      exact ⟨hji, hj⟩
  refine ⟨?_, ?_, ?_, ?_, ?_, ?_, ?_⟩
  · intro fd
    rw [Finset.mem_erase, h.mem_allset]
    constructor
    · rintro ⟨hne, rfl | ⟨j, c', hj, hc'⟩⟩
      · exact Or.inl rfl
      · have hji : j ≠ i := by
          intro hji
          rw [hji, hi, Option.some.injEq] at hj
          exact hne (by rw [← hc', ← hj])
        exact Or.inr ⟨j, c', by rw [Function.update_of_ne hji, hj], hc'⟩
    · rintro (rfl | ⟨j, c', hj, hc'⟩)
      · exact ⟨(h.listen i c hi).symm, Or.inl rfl⟩
      · obtain ⟨hji, hj'⟩ := hcases j c' hj
        refine ⟨?_, Or.inr ⟨j, c', hj', hc'⟩⟩
        intro hfd
        exact hji (h.uniq j i c' c hj' hi (hc'.trans hfd))
  · intro j k c₁ c₂ hj hk hcc
    exact h.uniq j k c₁ c₂ (hcases j c₁ hj).2 (hcases k c₂ hk).2 hcc
  · intro j c' hj
    exact h.listen j c' (hcases j c' hj).2
  · intro j c' hj
    exact h.le_maxi j c' (hcases j c' hj).2
  · intro fd hmem
    exact h.le_maxfd fd (Finset.mem_of_mem_erase hmem)
  · have hmem : c.fd ∈ allset := (h.mem_allset c.fd).mpr (Or.inr ⟨i, c, hi, rfl⟩)
    have hnot : c.fd ∉ initial := fun hini => Finset.disjoint_left.mp h.fresh hini hmem
    rw [h.opened, Finset.erase_union_distrib, Finset.erase_eq_of_notMem hnot]
  · exact Finset.disjoint_of_subset_right (Finset.erase_subset _ _) h.fresh

end books

/-! ### Every run -/

section run
variable {initial : Finset ℕ} {listenfd : ℕ} {s s' : Server}

/-- The clients by slots. -/
def Server.slots (s : Server) : ℕ → Option Client := slot s.clients.array

/-- Nobody in `rset` is passed over: by the slot `i` of the scan, or, when it has come to its end, at
all. -/
inductive Scanned (listenfd : ℕ) (s : Server) : Prop where
  | select (hpc : s.pc = .select) (h : listenfd ∈ s.rset ∨ s.rset ⊆ s.served)
  | accept (hpc : s.pc = .accept) (h : listenfd ∈ s.rset)
  | scan (i : ℕ) (hpc : s.pc = .scan i)
      (h : ∀ fd ∈ s.rset, fd ∈ s.served ∨ ∃ j c, i ≤ j ∧ s.slots j = some c ∧ c.fd = fd)

structure LoopInv (initial : Finset ℕ) (listenfd : ℕ) (s : Server) : Prop where
  books : Books initial listenfd s.slots s.allset s.opened s.maxfd s.maxi
  inside : s.maxi < s.clients.client_size
  scanned : Scanned listenfd s

theorem start_loopInv (h : listenfd ∉ initial) :
    LoopInv initial listenfd (Server.start initial listenfd) where
  books := by
    have hslots : (Server.start initial listenfd).slots = fun _ => none := slot_start
    rw [hslots]
    exact Books.start h
  inside := show (-1 : ℤ) < 0 by decide
  scanned := .select rfl (Or.inr (Finset.Subset.refl _))

theorem select_inv {rset : Finset ℕ} (h : LoopInv initial listenfd s)
    (hs : loopStep listenfd s (.select rset : LoopAct F) = some s') : LoopInv initial listenfd s' := by
  unfold loopStep at hs
  obtain ⟨⟨-, hsub, -⟩, hs⟩ := Option.ite_none_right_eq_some.mp hs
  obtain rfl := Option.some.inj hs
  refine ⟨h.books, h.inside, ?_⟩
  by_cases hlisten : listenfd ∈ rset
  · exact .accept (if_pos hlisten) hlisten
  · refine .scan 0 (if_neg hlisten) ?_
    intro fd hfd
    rcases (h.books.mem_allset fd).mp (hsub hfd) with rfl | ⟨i, c, hi, hc⟩
    · exact absurd hfd hlisten
    · exact Or.inr ⟨i, c, Nat.zero_le i, hi, hc⟩

theorem accept_inv {clifd : ℕ} {uid : UInt32} (h : LoopInv initial listenfd s)
    (hs : loopStep listenfd s (.accept clifd uid : LoopAct F) = some s') : LoopInv initial listenfd s' := by
  unfold loopStep at hs
  obtain ⟨⟨hpc, hfd, -⟩, hs⟩ := Option.ite_none_right_eq_some.mp hs
  obtain ⟨i, t, hadd, hlt, hle, hfree, hslots⟩ := clientAdd_spec s.clients clifd uid
  rw [hadd] at hs
  obtain rfl := Option.some.inj hs
  refine ⟨?_, ?_, ?_⟩
  · show Books initial listenfd (slot t.array) _ _ _ _
    rw [hslots]
    exact h.books.add hfree hfd uid
  · show (if (i : ℤ) > s.maxi then (i : ℤ) else s.maxi) < t.client_size
    have hinside := h.inside
    split <;> omega
  · refine .select rfl (Or.inl ?_)
    cases h.scanned with
    | select hpc' _ => exact absurd (hpc.symm.trans hpc') (by simp)
    | accept _ hlisten => exact hlisten
    | scan i hpc' _ => exact absurd (hpc.symm.trans hpc') (by simp)

theorem LoopInv.visit (h : LoopInv initial listenfd s) (i : ℕ) :
    (s.visit i = .left ∧ s.maxi < i) ∨
      (s.visit i = .skip ∧ ∀ c, s.slots i = some c → c.fd ∉ s.rset) ∨
      ∃ c, s.visit i = .ready c ∧ s.slots i = some c ∧ c.fd ∈ s.rset := by
  unfold Server.visit
  by_cases hi : (i : ℤ) ≤ s.maxi
  · have hlt : i < s.clients.array.length := by
      have hinside := h.inside
      rw [Clients.length_array]
      omega
    have hget := List.getElem?_eq_getElem hlt
    have hslot : s.slots i = s.clients.array[i] := slot_of_getElem? hget
    rw [if_pos hi, hget, hslot]
    cases s.clients.array[i] with
    | none => exact Or.inr (Or.inl ⟨rfl, by simp⟩)
    | some c =>
      by_cases hready : c.fd ∈ s.rset
      · exact Or.inr (Or.inr ⟨c, if_pos hready, rfl, hready⟩)
      · refine Or.inr (Or.inl ⟨if_neg hready, ?_⟩)
        intro c' hc'
        rw [← Option.some.inj hc']
        exact hready
  · rw [if_neg hi]
    exact Or.inl ⟨rfl, by omega⟩

theorem LoopInv.rest (h : LoopInv initial listenfd s) {i : ℕ} (hpc : s.pc = .scan i) :
    ∀ fd ∈ s.rset, fd ∈ s.served ∨ (∃ c, s.slots i = some c ∧ c.fd = fd) ∨
      ∃ j c, i + 1 ≤ j ∧ s.slots j = some c ∧ c.fd = fd := by
  intro fd hfd
  cases h.scanned with
  | select hpc' _ => exact absurd (hpc.symm.trans hpc') (by simp)
  | accept hpc' _ => exact absurd (hpc.symm.trans hpc') (by simp)
  | scan k hpc' hrest =>
    obtain rfl : i = k := Pc.scan.inj (hpc.symm.trans hpc')
    rcases hrest fd hfd with hserved | ⟨j, c, hij, hj, hc⟩
    · exact Or.inl hserved
    · rcases Nat.eq_or_lt_of_le hij with rfl | hlt
      · exact Or.inr (Or.inl ⟨c, hj, hc⟩)
      · exact Or.inr (Or.inr ⟨j, c, hlt, hj, hc⟩)

theorem LoopInv.rest_served (h : LoopInv initial listenfd s) {i : ℕ} (hpc : s.pc = .scan i) {c : Client}
    (hc : s.slots i = some c) :
    ∀ fd ∈ s.rset, fd ∈ insert c.fd s.served ∨ ∃ j c', i + 1 ≤ j ∧ s.slots j = some c' ∧ c'.fd = fd := by
  intro fd hfd
  rcases h.rest hpc fd hfd with hserved | ⟨c', hc', rfl⟩ | hlater
  · exact Or.inl (Finset.mem_insert_of_mem hserved)
  · rw [hc, Option.some.injEq] at hc'
    rw [hc']
    exact Or.inl (Finset.mem_insert_self _ _)
  · exact Or.inr hlater

theorem next_inv (h : LoopInv initial listenfd s)
    (hs : loopStep listenfd s (.next : LoopAct F) = some s') : LoopInv initial listenfd s' := by
  unfold loopStep at hs
  cases hpc : s.pc with
  | select => simp [hpc] at hs
  | accept => simp [hpc] at hs
  | died => simp [hpc] at hs
  | scan i =>
    simp only [hpc] at hs
    rcases h.visit i with ⟨hvisit, hi⟩ | ⟨hvisit, hskip⟩ | ⟨c, hvisit, -⟩
    · -- behind the last occupied slot
      rw [hvisit] at hs
      obtain rfl := Option.some.inj hs
      refine ⟨h.books, h.inside, .select rfl (Or.inr ?_)⟩
      intro fd hfd
      rcases h.rest hpc fd hfd with hserved | ⟨c, hc, -⟩ | ⟨j, c, hij, hj, -⟩
      · exact hserved
      · have hle := h.books.le_maxi i c hc
        omega
      · have hle := h.books.le_maxi j c hj
        omega
    · rw [hvisit] at hs
      obtain rfl := Option.some.inj hs
      refine ⟨h.books, h.inside, .scan (i + 1) rfl ?_⟩
      intro fd hfd
      rcases h.rest hpc fd hfd with hserved | ⟨c, hc, rfl⟩ | hlater
      · exact Or.inl hserved
      · exact absurd hfd (hskip c hc)
      · exact Or.inr hlater
    · rw [hvisit] at hs
      exact absurd hs (by simp)

theorem eof_inv (h : LoopInv initial listenfd s)
    (hs : loopStep listenfd s (.eof : LoopAct F) = some s') : LoopInv initial listenfd s' := by
  unfold loopStep at hs
  cases hpc : s.pc with
  | select => simp [hpc] at hs
  | accept => simp [hpc] at hs
  | died => simp [hpc] at hs
  | scan i =>
    simp only [hpc] at hs
    rcases h.visit i with ⟨hvisit, -⟩ | ⟨hvisit, -⟩ | ⟨c, hvisit, hc, -⟩
    · simp [hvisit] at hs
    · simp [hvisit] at hs
    · obtain ⟨t, hdel, hsize, hslots⟩ := clientDel_spec hc fun j c' hj hfd =>
        h.books.uniq j i c' c hj hc hfd
      simp only [hvisit, hdel] at hs
      obtain rfl := Option.some.inj hs
      refine ⟨?_, hsize ▸ h.inside, .scan (i + 1) rfl ?_⟩
      · show Books initial listenfd (slot t.array) _ _ _ _
        rw [hslots]
        exact h.books.del hc
      · intro fd hfd
        show fd ∈ insert c.fd s.served ∨ ∃ j c', i + 1 ≤ j ∧ slot t.array j = some c' ∧ c'.fd = fd
        rw [hslots]
        rcases h.rest_served hpc hc fd hfd with hserved | ⟨j, c', hij, hj, hc'⟩
        · exact Or.inl hserved
        · refine Or.inr ⟨j, c', hij, ?_, hc'⟩
          rw [Function.update_of_ne (by omega)]
          exact hj

theorem request_eq_some {bytes stale : List UInt8} {env : Env F} {newfd : ℕ}
    (hs : loopStep listenfd s (.request bytes stale env newfd) = some s') :
    ∃ i c, s.pc = .scan i ∧ s.visit i = .ready c ∧ 1 ≤ bytes.length ∧
      s' = { s with
        globals := (handleRequest env s.globals (bytes ++ stale) bytes.length c.uid).2
        served := insert c.fd s.served
        pc := .scan (i + 1) } := by
  unfold loopStep at hs
  cases hpc : s.pc with
  | select => simp [hpc] at hs
  | accept => simp [hpc] at hs
  | died => simp [hpc] at hs
  | scan i =>
    simp only [hpc] at hs
    cases hvisit : s.visit i with
    | left => simp [hvisit] at hs
    | outside => simp [hvisit] at hs
    | skip => simp [hvisit] at hs
    | ready c =>
      simp only [hvisit] at hs
      obtain ⟨⟨hpos, -⟩, hs⟩ := Option.ite_none_right_eq_some.mp hs
      refine ⟨i, c, rfl, hvisit, hpos, ?_⟩
      split at hs
      · rename_i hreply
        rw [hreply]
        exact (Option.some.inj hs).symm
      · rename_i hreply
        obtain ⟨hnew, hs⟩ := Option.ite_none_right_eq_some.mp hs
        rw [Finset.erase_insert hnew] at hs
        rw [hreply]
        exact (Option.some.inj hs).symm

theorem globals_eq {a : LoopAct F}
    (hs : loopStep listenfd s a = some s')
    (ha : ∀ bytes stale env newfd, a ≠ .request bytes stale env newfd) : s'.globals = s.globals := by
  cases a with
  | request bytes stale env newfd => exact absurd rfl (ha bytes stale env newfd)
  | select rset =>
    unfold loopStep at hs
    obtain rfl := Option.some.inj (Option.ite_none_right_eq_some.mp hs).2
    rfl
  | accept clifd uid =>
    unfold loopStep at hs
    obtain rfl := Option.some.inj (Option.ite_none_right_eq_some.mp hs).2
    rfl
  | next =>
    simp only [loopStep] at hs
    cases hpc : s.pc with
    | scan i =>
      simp only [hpc] at hs
      cases hvisit : s.visit i <;> simp only [hvisit] at hs <;> cases hs <;> rfl
    | select => simp [hpc] at hs
    | accept => simp [hpc] at hs
    | died => simp [hpc] at hs
  | eof =>
    simp only [loopStep] at hs
    cases hpc : s.pc with
    | scan i =>
      simp only [hpc] at hs
      cases hvisit : s.visit i with
      | ready cl =>
        simp only [hvisit] at hs
        cases hdel : clientDel s.clients cl.fd <;> simp only [hdel] at hs <;> cases hs <;> rfl
      | left => simp [hvisit] at hs
      | outside => simp [hvisit] at hs
      | skip => simp [hvisit] at hs
    | select => simp [hpc] at hs
    | accept => simp [hpc] at hs
    | died => simp [hpc] at hs

theorem request_inv {bytes stale : List UInt8} {env : Env F} {newfd : ℕ}
    (h : LoopInv initial listenfd s)
    (hs : loopStep listenfd s (.request bytes stale env newfd) = some s') :
    LoopInv initial listenfd s' := by
  obtain ⟨i, c, hpc, hready, -, rfl⟩ := request_eq_some hs
  rcases h.visit i with ⟨hvisit, -⟩ | ⟨hvisit, -⟩ | ⟨c', hvisit, hc, -⟩
  · exact absurd (hready.symm.trans hvisit) (by simp)
  · exact absurd (hready.symm.trans hvisit) (by simp)
  · obtain rfl : c = c' := Visit.ready.inj (hready.symm.trans hvisit)
    exact ⟨h.books, h.inside, .scan (i + 1) rfl (h.rest_served hpc hc)⟩

theorem loopStep_inv (s : Server) (a : LoopAct F) (s' : Server) (h : LoopInv initial listenfd s)
    (hs : loopStep listenfd s a = some s') : LoopInv initial listenfd s' := by
  cases a with
  | select rset => exact select_inv h hs
  | accept clifd uid => exact accept_inv h hs
  | next => exact next_inv h hs
  | eof => exact eof_inv h hs
  | request bytes stale env newfd => exact request_inv h hs

theorem LoopInv.alive (h : LoopInv initial listenfd s) : s.pc ≠ .died := by
  intro hdied
  cases h.scanned with
  | select hpc _ => exact absurd (hdied.symm.trans hpc) (by simp)
  | accept hpc _ => exact absurd (hdied.symm.trans hpc) (by simp)
  | scan i hpc _ => exact absurd (hdied.symm.trans hpc) (by simp)

theorem LoopInv.progress (h : LoopInv initial listenfd s) {i : ℕ} (hpc : s.pc = .scan i) :
    ∃ (a : LoopAct F) (s' : Server), loopStep listenfd s a = some s' := by
  rcases h.visit i with ⟨hvisit, -⟩ | ⟨hvisit, -⟩ | ⟨c, hvisit, hc, -⟩
  · exact ⟨.next, _, by simp only [loopStep, hpc, hvisit]; rfl⟩
  · exact ⟨.next, _, by simp only [loopStep, hpc, hvisit]; rfl⟩
  · obtain ⟨t, hdel, -⟩ := clientDel_spec hc fun j c' hj hfd =>
      h.books.uniq j i c' c hj hc hfd
    exact ⟨.eof, _, by simp only [loopStep, hpc, hvisit, hdel]; rfl⟩

end run

/-- There is one file, and every name opens it. -/
def oneFile : Env Unit := ⟨fun _ _ => .ok (), fun _ => CStr.empty⟩

/-- Two clients connect; in one scan the first one leaves and the second one has a file opened; a third
one takes the slot and the descriptor of the first. -/
def twoAndOne : List (LoopAct Unit) :=
  [.select {3}, .accept 4 7, .select {3}, .accept 5 8, .select {4, 5}, .eof,
    .request (CS_OPEN.bytes ++ ascii " f 0" ++ [0]) [] oneFile 6, .next, .select {3, 5}, .accept 4 9]

end Apue.OpenServer
