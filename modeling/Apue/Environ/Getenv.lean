import Apue.Lib.CString
import Mathlib.Data.Int.Notation

/-!
# Three versions of getenv (Chapter-12/12-11.c, 12-12.c, 12-13.c)

All three search `environ` in the same way: with `len = strlen(name)`, an `int`, for the first entry that agrees
with the name in `len` bytes and has a `=` at index `len`. They put the text behind it into a static
buffer, into one of the caller, and into one from `malloc`. `getenv_iff` says when the result is what it
should be: `getenv_3` leaves it to the memory that `malloc` returns whether a text of 4095 bytes or more ends.
-/

namespace Apue.Environ

def MAXSTRINGSZ : ℕ := 4096

def ENOENT : ℤ := 2
def ENOSPC : ℤ := 28

/-- `MAXSTRINGSZ` bytes. -/
structure Buf where
  bytes : List UInt8
  size : bytes.length = MAXSTRINGSZ

/-- `strncpy(buf, v, MAXSTRINGSZ-1)`. -/
def Buf.copy (buf : Buf) (v : CStr) : Buf where
  bytes := CStr.strncpy buf.bytes v (MAXSTRINGSZ - 1)
  size := by rw [CStr.length_strncpy v (by rw [buf.size]; exact Nat.sub_le _ _), buf.size]

/-- `static char envbuf[MAXSTRINGSZ]`, whose last byte is never written. -/
structure Envbuf extends Buf where
  last : bytes[MAXSTRINGSZ - 1]? = some 0

def Envbuf.start : Envbuf where
  bytes := List.replicate MAXSTRINGSZ 0
  size := List.length_replicate
  last := by rw [List.getElem?_replicate_of_lt (by decide)]

def Envbuf.copy (envbuf : Envbuf) (v : CStr) : Envbuf where
  toBuf := envbuf.toBuf.copy v
  last := (CStr.getElem?_strncpy _ _ le_rfl).trans envbuf.last

/-! ### The search -/

section search
variable (outside : CStr → ℤ → CStr)

/-- The text at `&s[i]`; `outside` is what there is at an `i` that is no index into `s`. -/
def textAt (s : CStr) (i : ℤ) : CStr := if 0 ≤ i ∧ i ≤ s.length then s.drop i.toNat else outside s i

/-- The test of an entry: `strncmp(name, e, len) == 0 && e[len] == '='`. -/
def Accepts (name : CStr) (len : Int32) (e : CStr) : Prop :=
  CStr.SameUpTo (len.toInt % 2 ^ 64).toNat name e ∧ (textAt outside e len.toInt).bytes.head? = some 61

instance (name : CStr) (len : Int32) (e : CStr) : Decidable (Accepts outside name len e) :=
  inferInstanceAs (Decidable (_ ∧ _))

/-- The loop: the text at `&environ[i][len+1]`. -/
def search (name : CStr) (len : Int32) : List CStr → Option CStr
  | [] => none
  | e :: environ =>
    if Accepts outside name len e then some (textAt outside e (len + 1).toInt) else search name len environ

def found (environ : List CStr) (name : CStr) : Option CStr :=
  search outside name (Int32.ofNat name.length) environ

end search

/-! ### The three functions -/

section functions
variable (outside : CStr → ℤ → CStr) (environ : List CStr) (name : CStr)

/-- `getenv_1`: `envbuf` as it is then, or null. -/
def getenv_1 (envbuf : Envbuf) : Option Envbuf := (found outside environ name).map envbuf.copy

/-- Whether `init_done` has been used, and how often the calling thread holds `env_mutex`. -/
structure Lock where
  init_done : Bool
  depth : ℕ
  fresh : init_done = false → depth = 0

/-- `pthread_once(&init_done, thread_init)` and `pthread_mutex_lock(&env_mutex)`. -/
def Lock.enter (l : Lock) : Lock := ⟨true, (if l.init_done then l.depth else 0) + 1, by simp⟩

/-- `pthread_mutex_unlock(&env_mutex)`. -/
def Lock.unlock (l : Lock) : Lock := ⟨l.init_done, l.depth - 1, fun h => by rw [l.fresh h]⟩

/-- What a call of `getenv_2` returns, the memory at `buf`, how many bytes were written there, and the mutex. -/
structure Result where
  ret : ℤ
  buf : List UInt8
  wrote : ℕ
  lock : Lock

def getenv_2 (buf : List UInt8) (buflen : Int32) (l : Lock) : Result :=
  let l := l.enter
  match found outside environ name with
  | some v =>
    let olen := Int32.ofNat v.length
    if olen ≥ buflen then ⟨ENOSPC, buf, 0, l.unlock⟩
    else ⟨0, CStr.strcpy buf v, v.length + 1, l.unlock⟩
  | none => ⟨ENOENT, buf, 0, l.unlock⟩

/-- `getenv_3`, with what `pthread_getspecific` and `malloc` return, and how often the thread holds the mutex:
the buffer it returns, or null, and the mutex. -/
def getenv_3 (specific malloc : Option Buf) (depth : ℕ) : Option Buf × ℕ :=
  let depth := depth + 1
  match specific.or malloc with
  | none => (none, depth - 1)
  | some env_buf =>
    match found outside environ name with
    | some v => (some (env_buf.copy v), depth - 1)
    | none => (none, depth - 1)

end functions

/-! ### What they should do -/

section spec
variable (environ : List CStr) (name : CStr)

/-- The text after the `=` in the first entry that starts with the name and a `=`. -/
def value : Option CStr :=
  environ.findSome? fun e => if name.bytes ++ [61] <+: e.bytes then some (e.drop (name.length + 1)) else none

/-- A null pointer where there is no such entry, and the first `MAXSTRINGSZ-1` bytes of the text where there
is one. -/
structure Returns (ret : Option Buf) : Prop where
  null : ret = none ↔ value environ name = none
  text : ∀ v b, value environ name = some v → ret = some b → CStr.Holds b.bytes (v.take (MAXSTRINGSZ - 1))

/-- What `getenv_2` should do with a buffer of `buflen` bytes. -/
structure Fills (buf : List UInt8) (buflen : Int32) (l : Lock) (r : Result) : Prop where
  enoent : r.ret = ENOENT ↔ value environ name = none
  enospc : r.ret = ENOSPC ↔ ∃ v, value environ name = some v ∧ buflen.toInt ≤ v.length
  untouched : r.ret = ENOENT ∨ r.ret = ENOSPC → r.buf = buf ∧ r.wrote = 0
  text : r.ret ≠ ENOENT → r.ret ≠ ENOSPC →
    r.ret = 0 ∧ (∀ v, value environ name = some v → CStr.Holds r.buf v) ∧ (r.wrote : ℤ) ≤ buflen.toInt
  released : r.lock.depth = l.depth

variable (outside : CStr → ℤ → CStr)

/-- The search finds the right text, as far as `getenv_1` and `getenv_3` copy it. -/
def SameText : Prop :=
  (found outside environ name).map (CStr.take (MAXSTRINGSZ - 1)) =
    (value environ name).map (CStr.take (MAXSTRINGSZ - 1))

/-- The text is shorter than the buffer by more than a byte, or the last byte of the buffer is null. -/
def Ends (buf : Buf) : Prop :=
  ∀ v, found outside environ name = some v →
    v.length < MAXSTRINGSZ - 1 ∨ buf.bytes[MAXSTRINGSZ - 1]? = some 0

/-- The search finds the right text, or one that `olen` says is too long where the right one is too; and
`olen` is not wrapped around below `buflen`. -/
def Fits (buflen : Int32) : Prop :=
  match found outside environ name, value environ name with
  | none, none => True
  | some u, some v =>
    if buflen ≤ Int32.ofNat u.length then buflen.toInt ≤ v.length else u = v ∧ u.length < buflen.toInt
  | _, _ => False

end spec

variable {outside : CStr → ℤ → CStr} {environ : List CStr} {name : CStr}

/-! ### The search finds the right entry -/

theorem textAt_natCast {s : CStr} {n : ℕ} (h : n ≤ s.length) : textAt outside s n = s.drop n := by
  rw [textAt, if_pos ⟨Int.natCast_nonneg n, by exact_mod_cast h⟩, Int.toNat_natCast]

theorem sameUpTo_length {s t : CStr} : CStr.SameUpTo s.length s t ↔ s.bytes <+: t.bytes := by
  have hs : (s.bytes ++ [0]).take s.length = s.bytes := List.take_left
  unfold CStr.SameUpTo
  rw [hs]
  by_cases hle : s.length ≤ t.length
  · have ht : (t.bytes ++ [0]).take s.length = t.bytes.take s.length := List.take_append_of_le_length hle
    rw [ht]
    exact List.prefix_iff_eq_take.symm
  · refine iff_of_false (fun heq => s.noNul ?_) fun hpre => hle hpre.length_le
    have hall : (t.bytes ++ [0]).take s.length = t.bytes ++ [0] := by
      refine List.take_of_length_le ?_
      rw [List.length_append, List.length_singleton]
      exact Nat.lt_of_not_le hle
    rw [heq, hall]
    exact List.mem_append_right _ (List.mem_singleton.mpr rfl)

theorem accepts_iff (hname : name.length < 2 ^ 31) (e : CStr) :
    Accepts outside name (Int32.ofNat name.length) e ↔ name.bytes ++ [61] <+: e.bytes := by
  have hlen : (Int32.ofNat name.length).toInt = name.length := Int32.toInt_ofNat_of_lt hname
  have hn : ((name.length : ℤ) % 2 ^ 64).toNat = name.length := by omega
  unfold Accepts
  rw [hlen, hn, sameUpTo_length]
  constructor
  · rintro ⟨⟨rest, hrest⟩, hhead⟩
    have hle : name.length ≤ e.length := by
      show name.bytes.length ≤ e.bytes.length
      rw [← hrest, List.length_append]
      exact Nat.le_add_right _ _
    have hdrop : (e.drop name.length).bytes = rest := by
      show e.bytes.drop name.bytes.length = rest
      rw [← hrest, List.drop_left]
    rw [textAt_natCast hle, hdrop] at hhead
    obtain ⟨tail, rfl⟩ := List.head?_eq_some_iff.mp hhead
    exact ⟨tail, by rw [← hrest, List.append_assoc, List.singleton_append]⟩
  · rintro ⟨tail, htail⟩
    rw [List.append_assoc, List.singleton_append] at htail
    have hle : name.length ≤ e.length := by
      show name.bytes.length ≤ e.bytes.length
      rw [← htail, List.length_append]
      exact Nat.le_add_right _ _
    refine ⟨⟨_, htail⟩, ?_⟩
    rw [textAt_natCast hle]
    show (e.bytes.drop name.bytes.length).head? = some 61
    rw [← htail, List.drop_left, List.head?_cons]

theorem found_eq_value (environ : List CStr) (hname : name.length + 1 < 2 ^ 31) :
    found outside environ name = value environ name := by
  have hnext : (Int32.ofNat name.length + 1).toInt = (name.length + 1 : ℕ) := by
    rw [← Int32.toInt_ofNat_of_lt hname, Int32.ofNat_add]
    rfl
  unfold found value
  induction environ with
  | nil => rfl
  | cons e environ ih =>
    rw [search, List.findSome?_cons, ih]
    by_cases he : name.bytes ++ [61] <+: e.bytes
    · have hle : name.length + 1 ≤ e.length := by
        have hle := he.length_le
        rwa [List.length_append, List.length_singleton] at hle
      rw [if_pos ((accepts_iff (by omega) e).mpr he), if_pos he, hnext, textAt_natCast hle]
    · rw [if_neg (mt (accepts_iff (by omega) e).mp he), if_neg he]

/-! ### When the three functions do what they should -/

theorem Buf.holds_copy (buf : Buf) (u v : CStr) :
    CStr.Holds (buf.copy u).bytes (v.take (MAXSTRINGSZ - 1)) ↔
      v.take (MAXSTRINGSZ - 1) = u.take (MAXSTRINGSZ - 1) ∧
        (u.length < MAXSTRINGSZ - 1 ∨ buf.bytes[MAXSTRINGSZ - 1]? = some 0) := by
  refine CStr.holds_strncpy ?_ ?_
  · rw [buf.size]
    decide
  · rw [CStr.length_take]
    exact Nat.min_le_left _ _

theorem returns_iff (buf : Buf) : Returns environ name ((found outside environ name).map buf.copy) ↔
    SameText environ name outside ∧ Ends environ name outside buf := by
  unfold SameText Ends
  cases hfound : found outside environ name with
  | none =>
    cases hvalue : value environ name with
    | none =>
      refine iff_of_true ⟨iff_of_true rfl hvalue, fun v b _ hb => ?_⟩ ⟨rfl, fun v hv => ?_⟩
      · cases hb
      · cases hv
    | some v =>
      refine iff_of_false (fun h => ?_) fun h => ?_
      · have hnone := h.null.mp rfl
        rw [hvalue] at hnone
        cases hnone
      · cases h.1
  | some u =>
    cases hvalue : value environ name with
    | none =>
      refine iff_of_false (fun h => ?_) fun h => ?_
      · cases h.null.mpr hvalue
      · cases h.1
    | some v =>
      simp only [Option.map_some, Option.some.injEq, forall_eq']
      rw [eq_comm, ← buf.holds_copy u v]
      constructor
      · intro h
        exact h.text v _ hvalue rfl
      · intro h
        refine ⟨by simp [hvalue], fun v' b hv' hb => ?_⟩
        obtain rfl := Option.some.inj (hvalue.symm.trans hv')
        obtain rfl := Option.some.inj hb
        exact h

theorem getenv_1_iff (envbuf : Envbuf) :
    Returns environ name ((getenv_1 outside environ name envbuf).map Envbuf.toBuf) ↔
      SameText environ name outside := by
  have hret : (getenv_1 outside environ name envbuf).map Envbuf.toBuf =
      (found outside environ name).map envbuf.toBuf.copy := Option.map_map ..
  rw [hret, returns_iff]
  exact and_iff_left fun v _ => .inr envbuf.last

theorem getenv_3_iff (specific : Option Buf) (mem : Buf) (depth : ℕ) :
    Returns environ name (getenv_3 outside environ name specific (some mem) depth).1 ↔
      SameText environ name outside ∧ Ends environ name outside (specific.getD mem) := by
  have hbuf : specific.or (some mem) = some (specific.getD mem) := by
    cases specific with
    | none => rfl
    | some b => rfl
  have hret : (getenv_3 outside environ name specific (some mem) depth).1 =
      (found outside environ name).map (specific.getD mem).copy := by
    unfold getenv_3
    simp only [hbuf]
    cases found outside environ name with
    | none => rfl
    | some v => rfl
  rw [hret, returns_iff]

theorem Lock.depth_unlock_enter (l : Lock) : l.enter.unlock.depth = l.depth := by
  show (if l.init_done then l.depth else 0) + 1 - 1 = l.depth
  cases hdone : l.init_done with
  | true => simp
  | false => simp [l.fresh hdone]

theorem getenv_2_depth (buf : List UInt8) (buflen : Int32) (l : Lock) :
    (getenv_2 outside environ name buf buflen l).lock.depth = l.depth := by
  have hdepth := l.depth_unlock_enter
  unfold getenv_2
  split
  · simp only
    split
    · exact hdepth
    · exact hdepth
  · exact hdepth

theorem getenv_2_iff (buf : List UInt8) (buflen : Int32) (l : Lock) :
    Fills environ name buf buflen l (getenv_2 outside environ name buf buflen l) ↔
      Fits environ name outside buflen := by
  have hdepth := l.depth_unlock_enter
  have hne : ENOENT ≠ ENOSPC ∧ ENOENT ≠ 0 ∧ ENOSPC ≠ 0 := by decide
  unfold getenv_2 Fits
  cases hfound : found outside environ name with
  | none =>
    cases hvalue : value environ name with
    | none =>
      refine iff_of_true ⟨iff_of_true rfl hvalue, ?_, fun _ => ⟨rfl, rfl⟩, fun h => absurd rfl h, hdepth⟩ trivial
      refine iff_of_false hne.1 ?_
      simp [hvalue]
    | some v =>
      refine iff_of_false (fun h => ?_) not_false
      have hnone := h.enoent.mp rfl
      rw [hvalue] at hnone
      cases hnone
  | some u =>
    simp only
    cases hvalue : value environ name with
    | none =>
      refine iff_of_false (fun h => ?_) not_false
      have hret := h.enoent.mpr hvalue
      split at hret
      · exact hne.1 hret.symm
      · exact hne.2.1 hret.symm
    | some v =>
      by_cases hlen : buflen ≤ Int32.ofNat u.length
      · rw [if_pos hlen]
        simp only [if_pos (show Int32.ofNat u.length ≥ buflen from hlen)]
        constructor
        · intro h
          obtain ⟨v', hv', hle⟩ := h.enospc.mp rfl
          obtain rfl := Option.some.inj (hvalue.symm.trans hv')
          exact hle
        · intro hle
          refine ⟨iff_of_false hne.1.symm (by simp [hvalue]), iff_of_true rfl ⟨v, hvalue, hle⟩,
            fun _ => ⟨rfl, rfl⟩, fun _ h => absurd rfl h, hdepth⟩
      · rw [if_neg hlen]
        simp only [if_neg (show ¬ Int32.ofNat u.length ≥ buflen from hlen)]
        constructor
        · intro h
          obtain ⟨-, htext, hwrote⟩ := h.text hne.2.1.symm hne.2.2.symm
          refine ⟨(CStr.holds_strcpy buf u).unique (htext v hvalue), ?_⟩
          have hwrote : ((u.length + 1 : ℕ) : ℤ) ≤ buflen.toInt := hwrote
          omega
        · rintro ⟨rfl, hlt⟩
          refine ⟨iff_of_false hne.2.1.symm (by simp [hvalue]), iff_of_false hne.2.2.symm ?_,
            fun h => ?_, fun _ _ => ⟨rfl, fun v' hv' => ?_, ?_⟩, hdepth⟩
          · rintro ⟨v', hv', hle⟩
            obtain rfl := Option.some.inj (hvalue.symm.trans hv')
            omega
          · obtain h | h := h
            · exact absurd h.symm hne.2.1
            · exact absurd h.symm hne.2.2
          · obtain rfl := Option.some.inj (hvalue.symm.trans hv')
            exact CStr.holds_strcpy buf u
          · show ((u.length + 1 : ℕ) : ℤ) ≤ buflen.toInt
            omega

/-- For every environment, name, buffer and memory from `malloc`: when the three functions do what they
should. The search is right for any name that is not as long as an `int` can say, and `getenv_2` releases the
mutex in any case. -/
theorem getenv_iff (outside : CStr → ℤ → CStr) (environ : List CStr) (name : CStr) (envbuf : Envbuf)
    (buf : List UInt8) (buflen : Int32) (l : Lock) (specific : Option Buf) (mem : Buf) (depth : ℕ) :
    (Returns environ name ((getenv_1 outside environ name envbuf).map Envbuf.toBuf) ↔
      SameText environ name outside) ∧
    (Fills environ name buf buflen l (getenv_2 outside environ name buf buflen l) ↔
      Fits environ name outside buflen) ∧
    (Returns environ name (getenv_3 outside environ name specific (some mem) depth).1 ↔
      SameText environ name outside ∧ Ends environ name outside (specific.getD mem)) ∧
    (name.length + 1 < 2 ^ 31 → found outside environ name = value environ name) ∧
    (getenv_2 outside environ name buf buflen l).lock.depth = l.depth :=
  ⟨getenv_1_iff envbuf, getenv_2_iff buf buflen l, getenv_3_iff specific mem depth, found_eq_value environ,
    getenv_2_depth buf buflen l⟩

/-- `A=` and as many bytes as `strncpy` copies. -/
def full : CStr where
  bytes := 65 :: 61 :: List.replicate 4095 97
  noNul h := by
    obtain h | h | h := (List.mem_cons.mp h).imp_right List.mem_cons.mp
    · exact absurd h (by decide)
    · exact absurd h (by decide)
    · exact absurd (List.eq_of_mem_replicate h) (by decide)

/-- Memory without a null byte. -/
def dirty : Buf := ⟨List.replicate MAXSTRINGSZ 255, List.length_replicate⟩

/-- The value is there, and what `getenv_3` returns for it is no string. -/
theorem getenv_3_endless : value [full] ⟨[65], by decide⟩ = some (full.drop 2) ∧
    ¬ Returns [full] ⟨[65], by decide⟩
      (getenv_3 (fun _ _ => CStr.empty) [full] ⟨[65], by decide⟩ none (some dirty) 0).1 := by
  have hvalue : value [full] ⟨[65], by decide⟩ = some (full.drop 2) := rfl
  refine ⟨hvalue, fun h => ?_⟩
  have hends := ((getenv_3_iff none dirty 0).mp h).2 (full.drop 2)
    ((found_eq_value _ (by decide)).trans hvalue)
  obtain hlt | hlast := hends
  · have hlength : (full.drop 2).length = 4095 := List.length_replicate
    rw [hlength] at hlt
    exact absurd hlt (by decide)
  · have hbyte : dirty.bytes[MAXSTRINGSZ - 1]? = some 255 := List.getElem?_replicate_of_lt (by decide)
    change dirty.bytes[MAXSTRINGSZ - 1]? = some 0 at hlast
    rw [hbyte] at hlast
    cases hlast

end Apue.Environ
