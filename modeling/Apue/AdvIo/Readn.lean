import Apue.Lib.Memory
import Mathlib.Algebra.BigOperators.Group.List.Basic
import Mathlib.Algebra.GroupWithZero.Nat

/-!
# `readn` and `writen` (Chapter-14/14-24.c)

Both are one loop (`loop`) over a call that moves a piece of what it is asked for: `size_t` is `UInt64` and
`ssize_t` is `Int64`. What a call answers is chosen by the file, in any state `F` it has.

`loop_moved` says what the loop has done when it ends, whatever the calls answer. The return value is the number
of bytes as an `ssize_t`, so from 2^63 bytes on it is a negative number. `readn_writen` puts the two together
through a `Pipe`.
-/

namespace Apue.Readn
open Memory

/-- A call with its answers: an error, or a piece `x` of at most `nleft` bytes that it moves. `put` is what it
does to the memory. -/
structure Io (F X : Type*) where
  size : X → ℕ
  call : F → (ℕ → UInt8) → (ptr : ℕ) → (nleft : UInt64) → Option { x : X // size x ≤ nleft.toNat } × F
  put : (ℕ → UInt8) → ℕ → X → ℕ → UInt8

/-- The variables of the loop, and what the calls work on. -/
structure State (F : Type*) where
  nleft : UInt64
  ptr : ℕ
  file : F
  mem : ℕ → UInt8

/-- What a call of `readn` or `writen` leaves behind. -/
structure Result (F : Type*) where
  ret : Int64
  file : F
  mem : ℕ → UInt8

variable {F X : Type*}

theorem toNat_sub_ofNat {nleft : UInt64} {k : ℕ} (hk : k ≤ nleft.toNat) :
    (nleft - UInt64.ofNat k).toNat = nleft.toNat - k := by
  have hof : (UInt64.ofNat k).toNat = k := UInt64.toNat_ofNat_of_lt' (Nat.lt_of_le_of_lt hk nleft.toNat_lt)
  rw [UInt64.toNat_sub_of_le, hof]
  rwa [UInt64.le_iff_toNat_le, hof]

namespace State

/-- After the call has moved `x`: `nleft -= size; ptr += size`. -/
def moved (io : Io F X) (s : State F) (x : X) (file : F) : State F where
  nleft := s.nleft - UInt64.ofNat (io.size x)
  ptr := s.ptr + io.size x
  file := file
  mem := io.put s.mem s.ptr x

end State

/-- `while (nleft > 0)`. -/
def loop (io : Io F X) (n : UInt64) (s : State F) : Result F :=
  if 0 < s.nleft then
    match io.call s.file s.mem s.ptr s.nleft with
    | (none, file) => ⟨if s.nleft = n then -1 else (n - s.nleft).toInt64, file, s.mem⟩
    | (some x, file) =>
      if io.size x.1 = 0 then ⟨(n - s.nleft).toInt64, file, s.mem⟩
      else loop io n (s.moved io x.1 file)
  else ⟨(n - s.nleft).toInt64, s.file, s.mem⟩
termination_by s.nleft.toNat
decreasing_by
  have _ := x.2
  rw [State.moved, toNat_sub_ofNat x.2]
  omega

/-- A `read` that is asked for `nleft` bytes and stores what it gets. -/
def reader (read : F → (nleft : UInt64) → Option { c : List UInt8 // c.length ≤ nleft.toNat } × F) :
    Io F (List UInt8) where
  size := List.length
  call := fun f _ _ nleft => read f nleft
  put := store

/-- A `write` of `nleft` bytes from `ptr` on, which takes the first ones of them. -/
def writer (write : F → (bytes : List UInt8) → Option { k : ℕ // k ≤ bytes.length } × F) : Io F ℕ where
  size := id
  call := fun f mem ptr nleft =>
    ((write f (load mem ptr nleft.toNat)).1.map fun k => ⟨k.1, k.2.trans_eq (length_load mem ptr nleft.toNat)⟩,
      (write f (load mem ptr nleft.toNat)).2)
  put := fun mem _ _ => mem

def readn (read : F → (nleft : UInt64) → Option { c : List UInt8 // c.length ≤ nleft.toNat } × F)
    (file : F) (mem : ℕ → UInt8) (ptr : ℕ) (n : UInt64) : Result F :=
  loop (reader read) n ⟨n, ptr, file, mem⟩

def writen (write : F → (bytes : List UInt8) → Option { k : ℕ // k ≤ bytes.length } × F)
    (file : F) (mem : ℕ → UInt8) (ptr : ℕ) (n : UInt64) : Result F :=
  loop (writer write) n ⟨n, ptr, file, mem⟩

/-! ### What the loop has done -/

/-- Calls that each move something: every one asks for what is left, behind what the one before has moved. -/
inductive Moved (io : Io F X) : State F → List X → State F → Prop
  | nil (s : State F) : Moved io s [] s
  | cons {s t : State F} {x : { x : X // io.size x ≤ s.nleft.toNat }} {xs : List X} {file : F}
    (hcall : io.call s.file s.mem s.ptr s.nleft = (some x, file)) (hpos : 0 < io.size x.1)
    (hrest : Moved io (s.moved io x.1 file) xs t) : Moved io s (x.1 :: xs) t

/-- The end of the loop in the state `s`: all bytes are in, or one more call fails or moves nothing. -/
inductive Ends (io : Io F X) (n : UInt64) (s : State F) : Result F → Prop
  | full (hnleft : s.nleft = 0) : Ends io n s ⟨Int64.ofNat n.toNat, s.file, s.mem⟩
  | failed {file : F} (hnleft : 0 < s.nleft) (hcall : io.call s.file s.mem s.ptr s.nleft = (none, file)) :
    Ends io n s ⟨if s.nleft = n then -1 else Int64.ofNat (n.toNat - s.nleft.toNat), file, s.mem⟩
  | eof {x : { x : X // io.size x ≤ s.nleft.toNat }} {file : F} (hnleft : 0 < s.nleft)
    (hcall : io.call s.file s.mem s.ptr s.nleft = (some x, file)) (hzero : io.size x.1 = 0) :
    Ends io n s ⟨Int64.ofNat (n.toNat - s.nleft.toNat), file, s.mem⟩

section spec
variable {io : Io F X} {n : UInt64} {s t : State F} {xs : List X}

theorem toInt64_sub (h : s.nleft ≤ n) : (n - s.nleft).toInt64 = Int64.ofNat (n.toNat - s.nleft.toNat) := by
  rw [← UInt64.toNat_sub_of_le _ _ h]
  exact congrArg UInt64.toInt64 UInt64.ofNat_toNat.symm

theorem loop_moved (io : Io F X) (n : UInt64) (s : State F) (hs : s.nleft ≤ n) :
    ∃ xs t, Moved io s xs t ∧ Ends io n t (loop io n s) := by
  fun_induction loop io n s with
  | case1 s hnleft file hcall =>
    rw [toInt64_sub hs]
    exact ⟨[], s, .nil s, .failed hnleft hcall⟩
  | case2 s hnleft x file hcall hzero =>
    rw [toInt64_sub hs]
    exact ⟨[], s, .nil s, .eof hnleft hcall hzero⟩
  | case3 s hnleft x file hcall hzero ih =>
    have hle : (s.moved io x.1 file).nleft ≤ n := by
      rw [UInt64.le_iff_toNat_le] at hs ⊢
      rw [State.moved, toNat_sub_ofNat x.2]
      omega
    obtain ⟨xs, t, hmoved, hends⟩ := ih hle
    exact ⟨x.1 :: xs, t, .cons hcall (Nat.pos_of_ne_zero hzero) hmoved, hends⟩
  | case4 s hnleft =>
    have hzero : s.nleft = 0 := by
      rw [UInt64.lt_iff_toNat_lt] at hnleft
      exact UInt64.toNat_inj.1 (Nat.eq_zero_of_not_pos hnleft)
    refine ⟨[], s, .nil s, ?_⟩
    rw [toInt64_sub hs, hzero]
    exact .full hzero

/-- The bytes of some pieces. -/
def total (io : Io F X) (xs : List X) : ℕ := (xs.map io.size).sum

theorem Moved.total (h : Moved io s xs t) :
    t.ptr = s.ptr + total io xs ∧ t.nleft.toNat + total io xs = s.nleft.toNat := by
  induction h with
  | nil s => exact ⟨rfl, rfl⟩
  | @cons s t x xs file hcall hpos hrest ih =>
    obtain ⟨hptr, hnleft⟩ := ih
    rw [State.moved, toNat_sub_ofNat x.2] at hnleft
    have hle := x.2
    have htotal : Readn.total io (x.1 :: xs) = io.size x.1 + Readn.total io xs := by simp [Readn.total]
    rw [htotal]
    refine ⟨hptr.trans (Nat.add_assoc ..), ?_⟩
    omega

/-- The very first call fails. -/
def FirstFails (io : Io F X) (s : State F) : Prop := 0 < s.nleft ∧ (io.call s.file s.mem s.ptr s.nleft).1 = none

/-- A call in the state `s` has moved the pieces `xs`, come to `t` and returned `r`. -/
structure Right (io : Io F X) (s : State F) (xs : List X) (t : State F) (r : Result F) : Prop where
  moved : Moved io s xs t
  ends : Ends io s.nleft t r
  within : total io xs ≤ s.nleft.toNat
  failed : FirstFails io s → r.ret = -1
  ret : ¬ FirstFails io s → r.ret = Int64.ofNat (total io xs)
  number : ¬ FirstFails io s → total io xs < 2 ^ 63 → r.ret.toInt = total io xs

theorem Moved.eq_nil (h : Moved io s xs t) (hnleft : t.nleft = s.nleft) : xs = [] ∧ t = s := by
  cases h with
  | nil => exact ⟨rfl, rfl⟩
  | @cons _ _ x xs file hcall hpos hrest =>
    have hle := hrest.total.2
    have hx := x.2
    rw [hnleft, State.moved, toNat_sub_ofNat hx] at hle
    omega

theorem FirstFails.eq_nil (hfirst : FirstFails io s) (h : Moved io s xs t) : xs = [] ∧ t = s := by
  cases h with
  | nil => exact ⟨rfl, rfl⟩
  | cons hcall hpos hrest =>
    have hnone := hfirst.2
    rw [hcall] at hnone
    cases hnone

theorem Ends.mem {r : Result F} (hends : Ends io n t r) : r.mem = t.mem := by
  cases hends <;> rfl

theorem Ends.ret {r : Result F} (hends : Ends io s.nleft t r) (hmoved : Moved io s xs t) :
    (FirstFails io s → r.ret = -1) ∧ (¬ FirstFails io s → r.ret = Int64.ofNat (total io xs)) := by
  have htotal := hmoved.total.2
  cases hends with
  | full hnleft =>
    have hzero : t.nleft.toNat = 0 := by rw [hnleft]; rfl
    constructor
    · intro hfirst
      obtain ⟨-, rfl⟩ := hfirst.eq_nil hmoved
      have hpos := hfirst.1
      rw [hnleft] at hpos
      exact absurd hpos (UInt64.lt_irrefl 0)
    · intro _
      exact congrArg Int64.ofNat (by omega)
  | failed hnleft hcall =>
    constructor
    · intro hfirst
      obtain ⟨-, rfl⟩ := hfirst.eq_nil hmoved
      exact if_pos rfl
    · intro hfirst
      have hne : t.nleft ≠ s.nleft := by
        intro heq
        obtain ⟨-, rfl⟩ := hmoved.eq_nil heq
        exact hfirst ⟨hnleft, by rw [hcall]⟩
      rw [if_neg hne]
      exact congrArg Int64.ofNat (by omega)
  | eof hnleft hcall hzero =>
    constructor
    · intro hfirst
      obtain ⟨-, rfl⟩ := hfirst.eq_nil hmoved
      have hnone := hfirst.2
      rw [hcall] at hnone
      cases hnone
    · intro _
      exact congrArg Int64.ofNat (by omega)

theorem loop_right (io : Io F X) (s : State F) : ∃ xs t, Right io s xs t (loop io s.nleft s) := by
  obtain ⟨xs, t, hmoved, hends⟩ := loop_moved io s.nleft s (UInt64.le_refl _)
  have htotal := hmoved.total.2
  have hret := hends.ret hmoved
  refine ⟨xs, t, hmoved, hends, by omega, hret.1, hret.2, fun hfirst hlt => ?_⟩
  rw [hret.2 hfirst, Int64.toInt_ofNat_of_lt hlt]

theorem Ends.all {r : Result F} (hends : Ends io n t r) (hnext : 0 < t.nleft →
    ∃ x file, io.call t.file t.mem t.ptr t.nleft = (some x, file) ∧ 0 < io.size x.1) :
    t.nleft = 0 ∧ r = ⟨Int64.ofNat n.toNat, t.file, t.mem⟩ := by
  cases hends with
  | full hnleft => exact ⟨hnleft, rfl⟩
  | failed hnleft hcall =>
    obtain ⟨x, file, hsome, -⟩ := hnext hnleft
    rw [hcall] at hsome
    cases hsome
  | eof hnleft hcall hzero =>
    obtain ⟨x, file, hsome, hpos⟩ := hnext hnleft
    rw [hcall] at hsome
    obtain rfl := Option.some.inj (Prod.mk.inj hsome).1
    omega

end spec

/-! ### Both of them -/

theorem Moved.store {read : F → (nleft : UInt64) → Option { c : List UInt8 // c.length ≤ nleft.toNat } × F}
    {s t : State F} {cs : List (List UInt8)} (h : Moved (reader read) s cs t) :
    t.mem = Memory.store s.mem s.ptr cs.flatten := by
  induction h with
  | nil s => rw [List.flatten_nil, store_nil]
  | cons hcall hpos hrest ih =>
    rw [ih, List.flatten_cons]
    exact store_store ..

theorem Moved.mem {write : F → (bytes : List UInt8) → Option { k : ℕ // k ≤ bytes.length } × F}
    {s t : State F} {ks : List ℕ} (h : Moved (writer write) s ks t) : t.mem = s.mem := by
  induction h with
  | nil s => rfl
  | cons hcall hpos hrest ih => exact ih

/-- A pipe: what is in it, and calls that always take or deliver something. How much that is depends on its
state. -/
structure Pipe (P : Type*) where
  content : P → List UInt8
  write : P → (bytes : List UInt8) → Option { k : ℕ // k ≤ bytes.length } × P
  read : P → (nleft : UInt64) → Option { c : List UInt8 // c.length ≤ nleft.toNat } × P
  write_spec : ∀ p bytes, bytes ≠ [] → ∃ k p', write p bytes = (some k, p') ∧ 0 < k.1 ∧
    content p' = content p ++ bytes.take k.1
  read_spec : ∀ p nleft, 0 < nleft → content p ≠ [] → ∃ c p', read p nleft = (some c, p') ∧ 0 < c.1.length ∧
    content p = c.1 ++ content p'

namespace Pipe
variable {P : Type*} (pipe : Pipe P)

theorem call_write {nleft : UInt64} (p : P) (mem : ℕ → UInt8) (ptr : ℕ) (hpos : 0 < nleft) :
    ∃ k p', (writer pipe.write).call p mem ptr nleft = (some k, p') ∧ 0 < k.1 ∧
      pipe.content p' = pipe.content p ++ load mem ptr k.1 := by
  have hne : load mem ptr nleft.toNat ≠ [] := by
    intro hnil
    have hlen := length_load mem ptr nleft.toNat
    rw [hnil, List.length_nil] at hlen
    exact absurd hlen (Nat.ne_of_lt (UInt64.lt_iff_toNat_lt.1 hpos))
  obtain ⟨k, p', hwrite, hk, hcontent⟩ := pipe.write_spec p _ hne
  refine ⟨⟨k.1, k.2.trans_eq (length_load mem ptr nleft.toNat)⟩, p', by simp [writer, hwrite], hk, ?_⟩
  rw [hcontent, take_load _ _ _ _ (k.2.trans_eq (length_load mem ptr nleft.toNat))]

theorem content_moved_write {s t : State P} {ks : List ℕ} (h : Moved (writer pipe.write) s ks t) :
    pipe.content t.file = pipe.content s.file ++ load s.mem s.ptr ks.sum := by
  induction h with
  | nil s => simp
  | @cons s t k ks file hcall hpos hrest ih =>
    have hnleft : 0 < s.nleft := UInt64.lt_iff_toNat_lt.2 (Nat.lt_of_lt_of_le hpos k.2)
    obtain ⟨k', p', hcall', -, hcontent⟩ := pipe.call_write s.file s.mem s.ptr hnleft
    rw [hcall] at hcall'
    obtain ⟨hk, rfl⟩ := Prod.mk.inj hcall'
    obtain rfl := Option.some.inj hk
    rw [ih, List.sum_cons, load_add, ← List.append_assoc, ← hcontent]
    rfl

theorem call_read {nleft : UInt64} (p : P) (mem : ℕ → UInt8) (ptr : ℕ) (hpos : 0 < nleft)
    (hlen : nleft.toNat ≤ (pipe.content p).length) :
    ∃ c p', (reader pipe.read).call p mem ptr nleft = (some c, p') ∧ 0 < c.1.length ∧
      pipe.content p = c.1 ++ pipe.content p' := by
  have hne : pipe.content p ≠ [] := by
    intro hnil
    rw [hnil] at hlen
    exact absurd hlen (Nat.not_le_of_lt (UInt64.lt_iff_toNat_lt.1 hpos))
  exact pipe.read_spec p nleft hpos hne

theorem content_moved_read {s t : State P} {cs : List (List UInt8)} (h : Moved (reader pipe.read) s cs t)
    (hlen : s.nleft.toNat ≤ (pipe.content s.file).length) :
    pipe.content s.file = cs.flatten ++ pipe.content t.file := by
  induction h with
  | nil s => simp
  | @cons s t c cs file hcall hpos hrest ih =>
    have hnleft : 0 < s.nleft := UInt64.lt_iff_toNat_lt.2 (Nat.lt_of_lt_of_le hpos c.2)
    obtain ⟨c', p', hcall', -, hcontent⟩ := pipe.call_read s.file s.mem s.ptr hnleft hlen
    rw [hcall] at hcall'
    obtain ⟨hc, rfl⟩ := Prod.mk.inj hcall'
    obtain rfl := Option.some.inj hc
    have hlength := congrArg List.length hcontent
    rw [List.length_append] at hlength
    have hle : (s.moved (reader pipe.read) c.1 file).nleft.toNat ≤ (pipe.content file).length := by
      rw [State.moved, toNat_sub_ofNat c.2]
      simp only [reader]
      omega
    have hfile : pipe.content file = cs.flatten ++ pipe.content t.file := ih hle
    rw [hcontent, hfile, List.flatten_cons, List.append_assoc]

theorem content_writen (p : P) (mem : ℕ → UInt8) (ptr : ℕ) (n : UInt64) :
    (writen pipe.write p mem ptr n).ret = Int64.ofNat n.toNat ∧
      pipe.content (writen pipe.write p mem ptr n).file = pipe.content p ++ load mem ptr n.toNat := by
  obtain ⟨ks, t, hmoved, hends⟩ := loop_moved (writer pipe.write) n ⟨n, ptr, p, mem⟩ (UInt64.le_refl _)
  obtain ⟨hnleft, hresult⟩ := hends.all fun hpos => by
    obtain ⟨k, p', hcall, hk, -⟩ := pipe.call_write t.file t.mem t.ptr hpos
    exact ⟨k, p', hcall, hk⟩
  have htotal := hmoved.total.2
  have hsum : ks.sum = n.toNat := by simpa [hnleft, total, writer] using htotal
  have hcontent := pipe.content_moved_write hmoved
  rw [writen, hresult]
  exact ⟨rfl, by rw [hcontent, hsum]⟩

theorem readn_content (p : P) (mem : ℕ → UInt8) (ptr : ℕ) (n : UInt64) (hn : n.toNat ≤ (pipe.content p).length) :
    (readn pipe.read p mem ptr n).ret = Int64.ofNat n.toNat ∧
      (readn pipe.read p mem ptr n).mem = store mem ptr ((pipe.content p).take n.toNat) ∧
      pipe.content (readn pipe.read p mem ptr n).file = (pipe.content p).drop n.toNat := by
  obtain ⟨cs, t, hmoved, hends⟩ := loop_moved (reader pipe.read) n ⟨n, ptr, p, mem⟩ (UInt64.le_refl _)
  have htotal := hmoved.total.2
  have hcontent := pipe.content_moved_read hmoved hn
  have hlen : total (reader pipe.read) cs = cs.flatten.length := (List.length_flatten ..).symm
  have hlength := congrArg List.length hcontent
  rw [List.length_append] at hlength
  obtain ⟨hnleft, hresult⟩ := hends.all fun hpos => by
    obtain ⟨c, p', hcall, hc, -⟩ := pipe.call_read t.file t.mem t.ptr hpos (by simp only at *; omega)
    exact ⟨c, p', hcall, hc⟩
  have hall : cs.flatten.length = n.toNat := by simpa [hnleft, hlen] using htotal
  simp only at hcontent
  rw [readn, hresult, hcontent, List.take_left' hall, List.drop_left' hall]
  exact ⟨rfl, hmoved.store, rfl⟩

end Pipe

/-- Both of them with any answers, and one after the other through a pipe. -/
theorem readn_writen {F' P : Type*}
    (read : F → (nleft : UInt64) → Option { c : List UInt8 // c.length ≤ nleft.toNat } × F)
    (write : F' → (bytes : List UInt8) → Option { k : ℕ // k ≤ bytes.length } × F') (file : F) (file' : F')
    (pipe : Pipe P) (p : P) (mem mem' : ℕ → UInt8) (ptr ptr' : ℕ) (n : UInt64) :
    (∃ cs t, Right (reader read) ⟨n, ptr, file, mem⟩ cs t (readn read file mem ptr n) ∧
      (readn read file mem ptr n).mem = store mem ptr cs.flatten ∧ cs.flatten.length ≤ n.toNat) ∧
    (∃ ks t, Right (writer write) ⟨n, ptr, file', mem⟩ ks t (writen write file' mem ptr n) ∧
      (writen write file' mem ptr n).mem = mem) ∧
    (pipe.content p = [] →
      (writen pipe.write p mem ptr n).ret = Int64.ofNat n.toNat ∧
      let r := readn pipe.read (writen pipe.write p mem ptr n).file mem' ptr' n
      r.ret = Int64.ofNat n.toNat ∧ load r.mem ptr' n.toNat = load mem ptr n.toNat ∧ pipe.content r.file = []) := by
  refine ⟨?_, ?_, fun hp => ?_⟩
  · obtain ⟨cs, t, h⟩ := loop_right (reader read) ⟨n, ptr, file, mem⟩
    refine ⟨cs, t, h, ?_, ?_⟩
    · have hmem : (readn read file mem ptr n).mem = t.mem := h.ends.mem
      rw [hmem, h.moved.store]
    · rw [List.length_flatten]
      exact h.within
  · obtain ⟨ks, t, h⟩ := loop_right (writer write) ⟨n, ptr, file', mem⟩
    refine ⟨ks, t, h, ?_⟩
    have hmem : (writen write file' mem ptr n).mem = t.mem := h.ends.mem
    rw [hmem, h.moved.mem]
  · obtain ⟨hret, hcontent⟩ := pipe.content_writen p mem ptr n
    rw [hp, List.nil_append] at hcontent
    have hlen : (pipe.content (writen pipe.write p mem ptr n).file).length = n.toNat := by
      rw [hcontent, length_load]
    obtain ⟨hret', hmem, hrest⟩ := pipe.readn_content _ mem' ptr' n (Nat.le_of_eq hlen.symm)
    refine ⟨hret, hret', ?_, ?_⟩
    · rw [hmem, ← hlen, List.take_length, load_store, hcontent, length_load]
    · rw [hrest, ← hlen, List.drop_length]

/-- A pipe that moves one byte at a time. -/
def bytewise : Pipe (List UInt8) where
  content := id
  write := fun p bytes => match bytes with
    | [] => (some ⟨0, Nat.zero_le _⟩, p)
    | b :: _ => (some ⟨1, Nat.succ_le_succ (Nat.zero_le _)⟩, p ++ [b])
  read := fun p nleft =>
    if hpos : 0 < nleft then
      (some ⟨p.take 1, Nat.le_trans (List.length_take_le 1 p) (UInt64.lt_iff_toNat_lt.1 hpos)⟩, p.drop 1)
    else (none, p)
  write_spec := fun p bytes hne => by
    cases bytes with
    | nil => exact absurd rfl hne
    | cons b bytes => exact ⟨_, _, rfl, Nat.one_pos, rfl⟩
  read_spec := fun p nleft hpos hne => by
    refine ⟨_, _, dif_pos hpos, ?_, (List.take_append_drop 1 p).symm⟩
    cases p with
    | nil => exact absurd rfl hne
    | cons b p => exact Nat.one_pos

/-- Two bytes, one after the other. -/
theorem readn_writen_bytewise :
    load (readn bytewise.read (writen bytewise.write [] (store (fun _ => 0) 100 [104, 105]) 100 2).file
      (fun _ => 0) 0 2).mem 0 2 = [104, 105] :=
  ((readn_writen bytewise.read bytewise.write [] [] bytewise [] (store (fun _ => 0) 100 [104, 105]) (fun _ => 0)
    100 0 2).2.2 rfl).2.2.1

/-- At most 2^62 bytes at a time, and never an error. -/
def halves (_ : Unit) (nleft : UInt64) : Option { c : List UInt8 // c.length ≤ nleft.toNat } × Unit :=
  (some ⟨List.replicate (min (2 ^ 62) nleft.toNat) 0, by rw [List.length_replicate]; exact Nat.min_le_right ..⟩, ())

/-- 2^63 bytes are in, and `readn` returns a negative number. -/
theorem readn_negative : ∃ cs t, Moved (reader halves) ⟨UInt64.ofNat (2 ^ 63), 0, (), fun _ => 0⟩ cs t ∧
    cs.flatten.length = 2 ^ 63 ∧ (readn halves () (fun _ => 0) 0 (UInt64.ofNat (2 ^ 63))).ret.toInt = -2 ^ 63 := by
  have hn : (UInt64.ofNat (2 ^ 63)).toNat = 2 ^ 63 := UInt64.toNat_ofNat_of_lt' (by decide)
  obtain ⟨cs, t, hmoved, hends⟩ := loop_moved (reader halves) (UInt64.ofNat (2 ^ 63))
    ⟨UInt64.ofNat (2 ^ 63), 0, (), fun _ => 0⟩ (UInt64.le_refl _)
  obtain ⟨hnleft, hresult⟩ := hends.all fun hpos => by
    have hpos' : 0 < t.nleft.toNat := UInt64.lt_iff_toNat_lt.1 hpos
    refine ⟨_, _, rfl, ?_⟩
    simp only [reader, List.length_replicate]
    omega
  have htotal := hmoved.total.2
  rw [hnleft] at htotal
  refine ⟨cs, t, hmoved, ?_, ?_⟩
  · rw [List.length_flatten]
    exact ((Nat.zero_add _).symm.trans htotal).trans hn
  · rw [readn, hresult, hn, Int64.toInt_ofNat']
    rfl

end Apue.Readn
