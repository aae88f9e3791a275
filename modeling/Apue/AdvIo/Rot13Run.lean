import Apue.AdvIo.Rot13
import Apue.Lib.Threads

/-!
# The asynchronous filter refines the synchronous one

`BufOk` lists the five situations a buffer and its operation can be in. A byte that was read is carried
by some buffer until the write it is in has finished (`Buf.Carries`); from then on the output file has
its translation (`Inv.written`), whatever order the operations finish in and whatever gaps the file has
meanwhile. When the loop is left no buffer is in use, so every byte has landed (`rot13_run`).
-/

namespace Apue.Rot13
open File Threads Transition

variable {input : List UInt8} {s s' : State} {i j : Fin NBUF} {b : Buf} {a : Aio} {k n o : ℕ}

/-! ### The synchronous filter -/

theorem syncLoop_eq (tr : UInt8 → UInt8) (rest out : List UInt8) :
    syncLoop tr rest out = out ++ rest.map tr := by
  induction rest, out using syncLoop.induct tr with
  | case1 rest out hlen ih =>
    rw [syncLoop, if_pos hlen, ih]
    have hsplit : pread rest 0 BSZ ++ rest.drop (pread rest 0 BSZ).length = rest := by
      have htake : pread rest 0 BSZ = rest.take (min BSZ rest.length) := by
        rw [pread, List.drop_zero, List.take_eq_take_min]
      rw [length_pread, Nat.sub_zero, htake, List.take_append_drop]
    rw [List.append_assoc, ← List.map_append, hsplit]
  | case2 rest out hlen =>
    rw [syncLoop, if_neg hlen]
    have hnil : rest = [] := by
      rw [length_pread] at hlen
      have hzero : rest.length = 0 := by
        unfold BSZ at hlen
        omega
      exact List.length_eq_zero_iff.mp hzero
    simp [hnil]

/-! ### The invariant -/

/-- A buffer and what the kernel knows of its operation. -/
inductive BufOk (input : List UInt8) : Buf → Aio → Prop where
  | unused {last aiocb data} : BufOk input ⟨.UNUSED, last, aiocb, data⟩ .none
  | reading {last o data} (ho : o < input.length) (hlast : last = true ∨ o + BSZ ≤ input.length) :
      BufOk input ⟨.READ_PENDING, last, ⟨.ifd, o, BSZ⟩, data⟩ .reading
  | hasRead {last o n data} (ho : o < input.length) (hlast : last = true ∨ o + BSZ ≤ input.length)
      (hn : n = (pread input o BSZ).length) (hdata : data.take n = pread input o BSZ) :
      BufOk input ⟨.READ_PENDING, last, ⟨.ifd, o, BSZ⟩, data⟩ (.done n)
  | writing {last o n data} (ho : o < input.length) (hn : n = (pread input o BSZ).length)
      (hdata : data.take n = (pread input o BSZ).map translate) :
      BufOk input ⟨.WRITE_PENDING, last, ⟨.ofd, o, n⟩, data⟩ .writing
  | hasWritten {last o n data} : BufOk input ⟨.WRITE_PENDING, last, ⟨.ofd, o, n⟩, data⟩ (.done n)

/-- The byte at `k` is still on its way through this buffer. -/
def Buf.Carries (b : Buf) (a : Aio) (k : ℕ) : Prop :=
  (b.op = .READ_PENDING ∨ a = .writing) ∧ b.aiocb.aioOffset ≤ k ∧ k < b.aiocb.aioOffset + BSZ

/-- The byte at `k` was read and is on its way through no buffer. -/
def Landed (input : List UInt8) (s : State) (k : ℕ) : Prop :=
  k < s.off ∧ k < input.length ∧ ∀ i, ¬ (s.bufs i).Carries (s.aio i) k

def Buf.used (b : Buf) : ℕ := if b.op = .UNUSED then 0 else 1

/-- The bookkeeping: `numop` counts the buffers in use and `aiolist` points to them. -/
structure Counted (s : State) : Prop where
  numop : s.numop = (Finset.univ.filter fun i => (s.bufs i).op ≠ .UNUSED).card
  aiolist : ∀ i, s.aiolist i ≠ none ↔ (s.bufs i).op ≠ .UNUSED

structure Inv (input : List UInt8) (s : State) : Prop where
  bufs : ∀ i, BufOk input (s.bufs i) (s.aio i)
  listed : ∀ i, s.aiolist i = if (s.bufs i).op = .UNUSED then none else some i
  numop : s.numop = (∑ i, (s.bufs i).used : ℕ)
  length : s.out.length ≤ input.length
  written : Agrees s.out (fun k => (input.map translate)[k]?) (Landed input s)
  noExit : ∀ e, s.pc ≠ .exit e
  suspend : s.pc = .suspend → s.numop ≠ 0
  left : s.pc = .left → s.numop = 0 ∧ input.length ≤ s.off

theorem start_inv (input : List UInt8) : Inv input start := by
  constructor
  case bufs => exact fun i => BufOk.unused
  case listed => exact fun i => rfl
  case numop => rfl
  case length => exact Nat.zero_le _
  case written => exact fun k hk => absurd hk.1 (Nat.not_lt_zero k)
  case noExit => exact fun e he => Pc.noConfusion he
  case suspend => exact fun he => Pc.noConfusion he
  case left => exact fun he => Pc.noConfusion he

theorem Inv.counted (h : Inv input s) : Counted s := by
  constructor
  · rw [h.numop, Finset.card_filter]
    congr 1
    refine Finset.sum_congr rfl fun i _ => ?_
    by_cases hop : (s.bufs i).op = .UNUSED <;> simp [Buf.used, hop]
  · intro i
    rw [h.listed]
    by_cases hop : (s.bufs i).op = .UNUSED <;> simp [hop]

/-! ### A buffer changes -/

theorem Inv.put (h : Inv input s) (i : Fin NBUF) (hbufs : s'.bufs = Function.update s.bufs i b)
    (haio : s'.aio = Function.update s.aio i a) (hb : BufOk input b a)
    (hlist : s'.aiolist = Function.update s.aiolist i (if b.op = .UNUSED then none else some i))
    (hnumop : s'.numop + (s.bufs i).used = s.numop + b.used)
    (hlength : s'.out.length ≤ input.length)
    (hwritten : Agrees s'.out (fun k => (input.map translate)[k]?) (Landed input s'))
    (hnoExit : ∀ e, s'.pc ≠ .exit e) (hsuspend : s'.pc = .suspend → s'.numop ≠ 0)
    (hleft : s'.pc = .left → s'.numop = 0 ∧ input.length ≤ s'.off) : Inv input s' := by
  refine ⟨fun j => ?_, fun j => ?_, ?_, hlength, hwritten, hnoExit, hsuspend, hleft⟩
  · rw [hbufs, haio]
    by_cases hj : j = i
    · subst hj
      simpa using hb
    · simpa [Function.update_of_ne hj] using h.bufs j
  · rw [hbufs, hlist]
    by_cases hj : j = i
    · subst hj
      simp
    · simpa [Function.update_of_ne hj] using h.listed j
  · have hsum := sum_update s.bufs i b Buf.used
    have hnum := h.numop
    rw [hbufs]
    omega

theorem carries_of_ne (hbufs : s'.bufs = Function.update s.bufs i b)
    (haio : s'.aio = Function.update s.aio i a) (hj : j ≠ i) :
    (s'.bufs j).Carries (s'.aio j) k ↔ (s.bufs j).Carries (s.aio j) k := by
  rw [hbufs, haio, Function.update_of_ne hj, Function.update_of_ne hj]

theorem Landed.of_put (h : Landed input s' k) (hbufs : s'.bufs = Function.update s.bufs i b)
    (haio : s'.aio = Function.update s.aio i a) (hoff : s'.off = s.off)
    (hsame : (s.bufs i).Carries (s.aio i) k → b.Carries a k) : Landed input s k := by
  refine ⟨hoff ▸ h.1, h.2.1, fun j hj => ?_⟩
  by_cases hji : j = i
  · subst hji
    refine h.2.2 j ?_
    rw [hbufs, haio, Function.update_self, Function.update_self]
    exact hsame hj
  · exact h.2.2 j ((carries_of_ne hbufs haio hji).mpr hj)

theorem after_cases (i : Fin NBUF) : (∃ j, State.after i = .scan j) ∨ State.after i = .check := by
  unfold State.after
  split
  · exact Or.inl ⟨_, rfl⟩
  · exact Or.inr rfl

theorem after_ne_suspend (i : Fin NBUF) : State.after i ≠ .suspend := by
  rcases after_cases i with ⟨j, h⟩ | h <;> simp [h]

theorem after_ne_left (i : Fin NBUF) : State.after i ≠ .left := by
  rcases after_cases i with ⟨j, h⟩ | h <;> simp [h]

theorem after_ne_exit (i : Fin NBUF) (e : Exit) : State.after i ≠ .exit e := by
  rcases after_cases i with ⟨j, h⟩ | h <;> simp [h]

theorem Inv.skip (h : Inv input s) (i : Fin NBUF) : Inv input { s with pc := State.after i } :=
  ⟨h.bufs, h.listed, h.numop, h.length, h.written, after_ne_exit i,
    fun he => absurd he (after_ne_suspend i), fun he => absurd he (after_ne_left i)⟩

theorem Inv.startRead (h : Inv input s) (hop : (s.bufs i).op = .UNUSED) (hoff : s.off < input.length) :
    Inv input (s.startRead input.length i) := by
  refine h.put i rfl rfl (.reading hoff ?_) rfl ?_ h.length ?_ (after_ne_exit i)
    (fun he => absurd he (after_ne_suspend i)) (fun he => absurd he (after_ne_left i))
  · rcases Nat.lt_or_ge input.length (s.off + BSZ) with hlt | hge
    · left
      simp [Nat.le_of_lt hlt]
    · exact Or.inr hge
  · simp [State.startRead, Buf.used, hop]
  · refine h.written.mono fun k hk => ?_
    have hnot : k < s.off := by
      by_contra hge
      refine hk.2.2 i ?_
      simp only [State.startRead, Function.update_self, Buf.Carries, true_or, true_and]
      exact ⟨Nat.le_of_not_lt hge, hk.1⟩
    refine ⟨hnot, hk.2.1, fun j hj => ?_⟩
    by_cases hji : j = i
    · subst hji
      have hok := h.bufs j
      generalize s.bufs j = b at hok hop hj
      generalize s.aio j = a at hok hj
      cases hok <;> simp_all [Buf.Carries]
    · exact hk.2.2 j ((carries_of_ne rfl rfl hji).mpr hj)

theorem Inv.startWrite (h : Inv input s) (hop : (s.bufs i).op = .READ_PENDING)
    (haio : s.aio i = .done n) : Inv input (s.startWrite i n) := by
  have hok := h.bufs i
  refine h.put i rfl rfl ?_ ?_ ?_ h.length ?_ (after_ne_exit i)
    (fun he => absurd he (after_ne_suspend i)) (fun he => absurd he (after_ne_left i))
  · rw [haio] at hok
    generalize s.bufs i = b at hok hop
    cases hok with
    | hasRead ho hlast hn hdata =>
      refine .writing ho hn ?_
      rw [hdata, List.take_append_of_le_length (by simp [hn]), List.take_of_length_le (by simp [hn])]
    | hasWritten => simp at hop
  · have hlisted := h.listed i
    rw [hop] at hlisted
    simp only [State.startWrite, reduceCtorEq, if_false] at hlisted ⊢
    rw [← hlisted, Function.update_eq_self]
  · simp [State.startWrite, Buf.used, hop]
  · refine h.written.mono fun k hk => hk.of_put rfl rfl rfl fun hc => ?_
    exact ⟨Or.inr rfl, hc.2⟩

theorem Inv.release (h : Inv input s) (hop : (s.bufs i).op = .WRITE_PENDING)
    (haio : s.aio i = .done n) : Inv input (s.release i) := by
  refine h.put i rfl rfl .unused (by simp [State.release]) ?_ h.length ?_ (after_ne_exit i)
    (fun he => absurd he (after_ne_suspend i)) (fun he => absurd he (after_ne_left i))
  · simp [State.release, Buf.used, hop]
  · refine h.written.mono fun k hk => hk.of_put rfl rfl rfl fun hc => ?_
    rw [haio] at hc
    simp [Buf.Carries, hop] at hc

theorem BufOk.full (h : BufOk input b (.done n)) (hop : b.op = .READ_PENDING) :
    ¬ (n ≠ BSZ ∧ b.last = false) := by
  rintro ⟨hn, hlast⟩
  cases h with
  | hasRead ho hlast' hlen hdata =>
    rw [length_pread] at hlen
    rcases hlast' with hlast' | hle
    · exact absurd (hlast.symm.trans hlast') Bool.false_ne_true
    · omega
  | hasWritten => exact absurd hop (by simp)

theorem BufOk.wrote (h : BufOk input b (.done n)) (hop : b.op = .WRITE_PENDING) :
    ¬ n ≠ b.aiocb.aioNbytes := by
  cases h with
  | hasRead => exact absurd hop (by simp)
  | hasWritten => simp

theorem BufOk.op_of_none (h : BufOk input b .none) : b.op = .UNUSED := by
  cases h
  rfl

theorem Inv.scan (h : Inv input s) (i : Fin NBUF) : Inv input (s.scan input.length i) := by
  have hok := h.bufs i
  unfold State.scan
  cases hop : (s.bufs i).op <;> cases haio : s.aio i <;> rw [haio] at hok <;> simp only
  case UNUSED.none | UNUSED.reading | UNUSED.writing | UNUSED.done =>
    split
    · rename_i hoff
      exact h.startRead hop hoff
    · exact h.skip i
  case READ_PENDING.reading | READ_PENDING.writing | WRITE_PENDING.reading | WRITE_PENDING.writing =>
    exact h.skip i
  case READ_PENDING.none | WRITE_PENDING.none =>
    exact absurd (hop.symm.trans hok.op_of_none) (by decide)
  case READ_PENDING.done =>
    rw [if_neg (hok.full hop)]
    exact h.startWrite hop haio
  case WRITE_PENDING.done =>
    rw [if_neg (hok.wrote hop)]
    exact h.release hop haio

theorem Inv.complete (h : Inv input s) (hs : s.complete input i = some s') : Inv input s' := by
  have hok := h.bufs i
  unfold State.complete at hs
  cases haio : s.aio i with
  | none | done n => simp [haio] at hs
  | reading =>
    rw [haio] at hok
    generalize hb : s.bufs i = b at hok hs
    cases hok with
    | reading ho hlast =>
      simp only [haio, Option.some.injEq] at hs
      subst hs
      refine h.put i rfl rfl (.hasRead ho hlast rfl ?_) ?_ ?_ h.length ?_ h.noExit h.suspend h.left
      · simp
      · have hlisted := h.listed i
        rw [hb] at hlisted
        simp only [reduceCtorEq, if_false] at hlisted ⊢
        rw [← hlisted, Function.update_eq_self]
      · simp [Buf.used, hb]
      · refine h.written.mono fun k hk => hk.of_put rfl rfl rfl fun hc => ?_
        rw [hb] at hc
        exact ⟨Or.inl rfl, hc.2⟩
  | writing =>
    rw [haio] at hok
    generalize hb : s.bufs i = b at hok hs
    cases hok with
    | @writing last o n data ho hn hdata =>
      simp only [haio, Option.some.injEq] at hs
      subst hs
      have hlen := length_pread input o BSZ
      refine h.put (b := s.bufs i) i (by simp) rfl (by rw [hb]; exact .hasWritten) ?_ rfl ?_ ?_ h.noExit
        h.suspend h.left
      · rw [← h.listed, Function.update_eq_self]
      · refine length_pwrite_le 0 s.out _ o h.length ?_
        rw [hdata, List.length_map]
        omega
      · have hbytes : ∀ k < (data.take n).length, (data.take n)[k]? = (input.map translate)[o + k]? := by
          intro k hk
          rw [hdata, List.length_map, hlen] at hk
          rw [hdata, List.getElem?_map, List.getElem?_map, getElem?_pread input o BSZ k (by omega)]
        refine (h.written.pwrite 0 hbytes).mono fun k hk => ?_
        by_cases hin : o ≤ k ∧ k < o + BSZ
        · right
          have hk' := hk.2.1
          rw [hdata, List.length_map, hlen]
          omega
        · left
          refine hk.of_put (i := i) (b := s.bufs i) (by simp) rfl rfl fun hc => ?_
          rw [hb] at hc
          exact absurd hc.2 hin

theorem step_inv (s : State) (a : Act) (s' : State) (h : Inv input s) (hs : step input s a = some s') :
    Inv input s' := by
  cases a with
  | complete i => exact h.complete hs
  | main =>
    unfold step at hs
    cases hpc : s.pc with
    | scan i =>
      simp only [hpc, Option.some.injEq] at hs
      exact hs ▸ h.scan i
    | check =>
      simp only [hpc] at hs
      split at hs
      · rename_i hnum
        obtain rfl := Option.some.inj hs
        by_cases hoff : s.off ≥ input.length
        · simp only [if_pos hoff]
          exact ⟨h.bufs, h.listed, h.numop, h.length, h.written, fun e => by simp, fun he => by simp at he,
            fun _ => ⟨hnum, hoff⟩⟩
        · simp only [if_neg hoff]
          exact ⟨h.bufs, h.listed, h.numop, h.length, h.written, fun e => by simp, fun he => by simp at he,
            fun he => by simp at he⟩
      · rename_i hnum
        obtain rfl := Option.some.inj hs
        exact ⟨h.bufs, h.listed, h.numop, h.length, h.written, fun e => by simp, fun _ => hnum,
          fun he => by simp at he⟩
    | suspend =>
      simp only [hpc] at hs
      obtain ⟨-, hs⟩ := Option.ite_none_right_eq_some.mp hs
      obtain rfl := Option.some.inj hs
      exact ⟨h.bufs, h.listed, h.numop, h.length, h.written, fun e => by simp, fun he => by simp at he,
        fun he => by simp at he⟩
    | left => simp [hpc] at hs
    | exit e => exact absurd hpc (h.noExit e)

/-! ### Every run -/

theorem Inv.idle (h : Inv input s) (hnum : s.numop = 0) (i : Fin NBUF) :
    (s.bufs i).op = .UNUSED ∧ s.aio i = .none := by
  have hsum := h.numop
  have hle := le_sum (fun i => (s.bufs i).used) i
  have hop : (s.bufs i).op = .UNUSED := by
    by_contra hop
    simp only [Buf.used, if_neg hop] at hle hsum
    omega
  have hok := h.bufs i
  generalize s.bufs i = b at hok hop
  generalize s.aio i = a at hok
  cases hok with
  | unused => exact ⟨rfl, rfl⟩
  | reading | hasRead | writing | hasWritten => exact absurd hop (by simp)

theorem Inv.left_out (h : Inv input s) (hpc : s.pc = .left) : s.out = input.map translate := by
  obtain ⟨hnum, hoff⟩ := h.left hpc
  refine Agrees.eq (h.written.mono fun k hk => ?_) (by simpa using h.length)
  rw [List.length_map] at hk
  refine ⟨by omega, hk, fun i hi => ?_⟩
  obtain ⟨hop, haio⟩ := h.idle hnum i
  rw [Buf.Carries, hop, haio] at hi
  simp at hi

theorem Inv.progress (h : Inv input s) (hpc : s.pc ≠ .left) : ∃ a s', step input s a = some s' := by
  cases hp : s.pc with
  | scan i => exact ⟨.main, _, by rw [step, hp]⟩
  | check =>
    by_cases hnum : s.numop = 0
    · exact ⟨.main, _, by simp only [step, hp, if_pos hnum]; rfl⟩
    · exact ⟨.main, _, by simp only [step, hp, if_neg hnum]; rfl⟩
  | suspend =>
    -- some buffer is in use; its operation is finished or can finish
    have hused : ∃ i, (s.bufs i).op ≠ .UNUSED := by
      by_contra hall
      push Not at hall
      refine h.suspend hp ?_
      rw [h.numop]
      simp [Buf.used, hall]
    obtain ⟨i, hop⟩ := hused
    have hlisted := h.listed i
    rw [if_neg hop] at hlisted
    have hok := h.bufs i
    cases haio : s.aio i with
    | none => exact absurd (haio ▸ hok).op_of_none hop
    | reading => exact ⟨.complete i, _, by simp only [step, State.complete, haio]; rfl⟩
    | writing =>
      rw [haio] at hok
      generalize hb : s.bufs i = b at hok
      cases hok with
      | writing => exact ⟨.complete i, _, by simp only [step, State.complete, haio, hb]; rfl⟩
    | done n =>
      have hready : s.Ready := ⟨i, i, hlisted, by simp [haio], by simp [haio]⟩
      exact ⟨.main, _, by simp only [step, hp, if_pos hready]; rfl⟩
  | left => exact absurd hp hpc
  | exit e => exact absurd hp (h.noExit e)

/-- **The asynchronous filter does what the synchronous one does.** In every run, `numop` and `aiolist`
tell the buffers in use, no error exit is taken and something can always happen until the loop is left;
and when it is, nothing is outstanding and the output is that of the synchronous loop. -/
theorem rot13_run (input : List UInt8) {s : State} (h : Reaches (step input) start s) :
    Counted s ∧ (∀ e, s.pc ≠ .exit e) ∧ (s.pc ≠ .left → ∃ a s', step input s a = some s') ∧
      (s.pc = .left → (∀ i, (s.bufs i).op = .UNUSED ∧ s.aio i = .none) ∧
        s.out = input.map translate ∧ s.out = syncMain translate input) := by
  have hinv : Inv input s := h.invariant step_inv (start_inv input)
  refine ⟨hinv.counted, hinv.noExit, hinv.progress, fun hleft => ?_⟩
  have hout := hinv.left_out hleft
  refine ⟨fun i => hinv.idle (hinv.left hleft).1 i, hout, ?_⟩
  rw [hout, syncMain, syncLoop_eq, List.nil_append]

/-- One block of letters and one letter more. -/
def twoLines : List UInt8 := List.replicate BSZ 72 ++ [105]

/-- Both blocks are under way together, and each time it is the second one that finishes first. -/
def twoBlocks : List Act :=
  let first : Fin NBUF := ⟨0, Nat.succ_pos 7⟩
  let second : Fin NBUF := ⟨1, Nat.succ_lt_succ (Nat.succ_pos 6)⟩
  List.replicate 9 .main ++ .complete second :: .complete first ::
    List.replicate 10 .main ++ .complete second :: .complete first ::
    List.replicate 10 .main

theorem rot13_run_twoBlocks : ∃ s, run (step twoLines) start twoBlocks = some s ∧
    s.pc = .left ∧ s.out = List.replicate BSZ 85 ++ [118] ∧ s.out = syncMain translate twoLines := by
  have hrun : (run (step twoLines) start twoBlocks).map State.pc = some .left := by decide +kernel
  obtain ⟨s, hs, hleft⟩ := Option.map_eq_some_iff.mp hrun
  obtain ⟨-, hout, hsync⟩ := (rot13_run twoLines ⟨twoBlocks, hs⟩).2.2.2 hleft
  refine ⟨s, hs, hleft, ?_, hsync⟩
  rw [hout, twoLines, List.map_append, List.map_replicate]
  rfl

end Apue.Rot13
