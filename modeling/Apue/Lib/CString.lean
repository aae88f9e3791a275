import Mathlib.Data.List.Basic
import Mathlib.Data.List.TakeWhile
import Mathlib.Data.Nat.Digits.Defs

/-!
# C strings

A C string is the bytes in front of its null byte. `CStr` carries the proof that there is no null byte
among them, so whatever is put together from C strings is one again: `ofBuf` (the string at the start of
a buffer), `append`, `take` (what `snprintf` keeps) and `padLeft` (a field width). `ascii` turns text
into bytes, `decimal` is the `%d` of a number and `number` reads one back.
-/

/-- The bytes of a text. -/
def ascii (s : String) : List UInt8 := s.toList.map fun c => UInt8.ofNat c.toNat

structure CStr where
  bytes : List UInt8
  noNul : 0 ∉ bytes
  deriving DecidableEq

namespace CStr

@[ext] theorem ext {s t : CStr} (h : s.bytes = t.bytes) : s = t := by
  cases s
  cases t
  cases h
  rfl

def length (s : CStr) : ℕ := s.bytes.length

/-- The empty string. -/
def empty : CStr := ⟨[], List.not_mem_nil⟩

/-- The string at the start of a buffer. -/
def ofBuf (buf : List UInt8) : CStr where
  bytes := buf.takeWhile (· ≠ 0)
  noNul := fun h => by simpa using List.mem_takeWhile_imp h

def append (s t : CStr) : CStr where
  bytes := s.bytes ++ t.bytes
  noNul := fun h => (List.mem_append.mp h).elim s.noNul t.noNul

instance : Append CStr := ⟨append⟩

/-- The first `n` bytes. -/
def take (n : ℕ) (s : CStr) : CStr where
  bytes := s.bytes.take n
  noNul := fun h => s.noNul (List.mem_of_mem_take h)

/-- Without the first `n` bytes. -/
def drop (n : ℕ) (s : CStr) : CStr where
  bytes := s.bytes.drop n
  noNul := fun h => s.noNul (List.mem_of_mem_drop h)

/-- Blanks in front, up to the width `n`. -/
def padLeft (n : ℕ) (s : CStr) : CStr where
  bytes := List.replicate (n - s.length) 32 ++ s.bytes
  noNul := fun h => (List.mem_append.mp h).elim
    (fun h => absurd (List.eq_of_mem_replicate h) (by decide)) s.noNul

@[simp] theorem bytes_append (s t : CStr) : (s ++ t).bytes = s.bytes ++ t.bytes := rfl

theorem length_take (n : ℕ) (s : CStr) : (s.take n).length = min n s.length := List.length_take

theorem bytes_ofBuf {buf : List UInt8} (h : 0 ∉ buf) : (ofBuf buf).bytes = buf := by
  refine List.takeWhile_eq_self_iff.mpr fun c hc => ?_
  have hne : c ≠ 0 := fun hc0 => h (hc0 ▸ hc)
  simpa using hne

/-- What comes behind a null byte does not matter. -/
theorem ofBuf_append (s : List UInt8) (t u : List UInt8) : ofBuf (s ++ 0 :: t) = ofBuf (s ++ 0 :: u) := by
  ext1
  induction s with
  | nil => rfl
  | cons c s ih =>
    simp only [ofBuf, List.cons_append, List.takeWhile_cons] at ih ⊢
    rw [ih]

/-- Of a buffer cut off after `s` nothing but `s` counts. -/
theorem take_ofBuf (s t : List UInt8) : (ofBuf (s ++ t)).take s.length = ofBuf s := by
  ext1
  show ((s ++ t).takeWhile (· ≠ 0)).take s.length = s.takeWhile (· ≠ 0)
  induction s with
  | nil => rfl
  | cons c s ih =>
    by_cases hc : c = 0
    · simp [hc]
    · rw [List.cons_append, List.takeWhile_cons_of_pos (by simpa using hc),
        List.takeWhile_cons_of_pos (by simpa using hc), List.length_cons, List.take_succ_cons, ih]

theorem ofBuf_bytes (s : CStr) (t : List UInt8) : ofBuf (s.bytes ++ 0 :: t) = s := by
  ext1
  have hne : ∀ c ∈ s.bytes, decide (c ≠ 0) = true := by
    intro c hc
    have hc0 : c ≠ 0 := fun h => s.noNul (h ▸ hc)
    simpa using hc0
  show (s.bytes ++ 0 :: t).takeWhile (· ≠ 0) = s.bytes
  rw [List.takeWhile_append_of_pos hne, List.takeWhile_cons_of_neg (by decide), List.append_nil]

/-! ### Comparing and copying -/

/-- `strncmp(s, t, n) == 0`. -/
def SameUpTo (n : ℕ) (s t : CStr) : Prop := (s.bytes ++ [0]).take n = (t.bytes ++ [0]).take n

instance (n : ℕ) (s t : CStr) : Decidable (SameUpTo n s t) := inferInstanceAs (Decidable (_ = _))

/-- The memory at `dst` after `strcpy(dst, s)`. -/
def strcpy (dst : List UInt8) (s : CStr) : List UInt8 := s.bytes ++ 0 :: dst.drop (s.length + 1)

/-- The memory at `dst` after `strncpy(dst, s, n)`. -/
def strncpy (dst : List UInt8) (s : CStr) (n : ℕ) : List UInt8 :=
  s.bytes.take n ++ List.replicate (n - s.length) 0 ++ dst.drop n

/-- The memory starts with the string and its null byte. -/
def Holds (buf : List UInt8) (s : CStr) : Prop := s.bytes ++ [0] <+: buf

instance (buf : List UInt8) (s : CStr) : Decidable (Holds buf s) := inferInstanceAs (Decidable (_ <+: _))

theorem Holds.ofBuf {buf : List UInt8} {s : CStr} (h : Holds buf s) : CStr.ofBuf buf = s := by
  obtain ⟨tail, rfl⟩ := h
  rw [List.append_assoc, List.singleton_append, ofBuf_bytes]

theorem holds_strcpy (dst : List UInt8) (s : CStr) : Holds (strcpy dst s) s :=
  ⟨dst.drop (s.length + 1), by rw [strcpy, List.append_assoc, List.singleton_append]⟩

theorem length_strcpy {dst : List UInt8} {s : CStr} (h : s.length < dst.length) :
    (strcpy dst s).length = dst.length := by
  have hlen : s.bytes.length = s.length := rfl
  rw [strcpy, List.length_append, List.length_cons, List.length_drop, hlen]
  omega

/-- `strcpy` writes the null byte, and nothing behind it. -/
theorem getElem?_strcpy (dst : List UInt8) (s : CStr) {i : ℕ} (h : s.length ≤ i) :
    (strcpy dst s)[i]? = if i = s.length then some 0 else dst[i]? := by
  have hlen : s.bytes.length = s.length := rfl
  rw [strcpy, List.getElem?_append_right (by omega), hlen]
  split
  · rename_i hi
    rw [hi, Nat.sub_self, List.getElem?_cons_zero]
  · obtain ⟨k, rfl⟩ : ∃ k, i = s.length + 1 + k := ⟨i - (s.length + 1), by omega⟩
    have hsub : s.length + 1 + k - s.length = k + 1 := by omega
    rw [hsub, List.getElem?_cons_succ, List.getElem?_drop]

theorem length_strncpy {dst : List UInt8} (s : CStr) {n : ℕ} (h : n ≤ dst.length) :
    (strncpy dst s n).length = dst.length := by
  have htake : (s.bytes.take n).length = min n s.length := List.length_take
  rw [strncpy, List.length_append, List.length_append, List.length_replicate, List.length_drop, htake]
  omega

theorem getElem?_strncpy (dst : List UInt8) (s : CStr) {n i : ℕ} (h : n ≤ i) : (strncpy dst s n)[i]? = dst[i]? := by
  have hlen : (s.bytes.take n ++ List.replicate (n - s.length) 0).length = n := by
    have htake : (s.bytes.take n).length = min n s.length := List.length_take
    rw [List.length_append, List.length_replicate, htake]
    omega
  rw [strncpy, List.getElem?_append_right (by omega), hlen, List.getElem?_drop]
  congr 1
  omega

theorem Holds.unique {buf : List UInt8} {s t : CStr} (h : Holds buf s) (h' : Holds buf t) : s = t :=
  h.ofBuf.symm.trans h'.ofBuf

/-- What `strncpy` leaves is the start of the text, with a null byte behind it if `strncpy` had one left or
there was one already. -/
theorem holds_strncpy {dst : List UInt8} {s t : CStr} {n : ℕ} (hn : n < dst.length) (ht : t.length ≤ n) :
    Holds (strncpy dst s n) t ↔ t = s.take n ∧ (s.length < n ∨ dst[n]? = some 0) := by
  have hdrop : dst.drop n = dst[n] :: dst.drop (n + 1) := List.drop_eq_getElem_cons hn
  by_cases hlt : s.length < n
  · have hbuf : Holds (strncpy dst s n) (s.take n) := by
      obtain ⟨k, hk⟩ : ∃ k, n - s.length = k + 1 := ⟨n - s.length - 1, by omega⟩
      exact ⟨List.replicate k 0 ++ dst.drop n, by simp [strncpy, take, hk, List.replicate_succ]⟩
    constructor
    · intro h
      exact ⟨h.unique hbuf, .inl hlt⟩
    · rintro ⟨rfl, -⟩
      exact hbuf
  · have hbuf : strncpy dst s n = (s.take n).bytes ++ dst[n] :: dst.drop (n + 1) := by
      rw [strncpy, Nat.sub_eq_zero_of_le (Nat.not_lt.mp hlt), List.replicate_zero, List.append_nil, hdrop]
      rfl
    have hlen : (s.take n).length = n := by
      rw [length_take]
      omega
    rw [List.getElem?_eq_getElem hn, Option.some.injEq]
    constructor
    · intro h
      by_cases hx : dst[n] = 0
      · refine ⟨h.unique ?_, .inr hx⟩
        rw [hbuf, hx]
        exact ⟨dst.drop (n + 1), by simp⟩
      · -- the null byte of `t` would have to be among bytes that are not null
        exfalso
        have hmem : (0 : UInt8) ∈ (s.take n).bytes ++ [dst[n]] := by
          have hpre : t.bytes ++ [0] <+: (s.take n).bytes ++ [dst[n]] := by
            refine List.prefix_of_prefix_length_le h ⟨dst.drop (n + 1), by rw [hbuf]; simp⟩ ?_
            have hlen' : (s.take n).bytes.length = n := hlen
            have ht' : t.bytes.length ≤ n := ht
            rw [List.length_append, List.length_append, List.length_singleton, List.length_singleton, hlen']
            omega
          exact hpre.subset (List.mem_append_right _ (List.mem_singleton.mpr rfl))
        obtain hmem | hmem := List.mem_append.mp hmem
        · exact (s.take n).noNul hmem
        · exact hx (List.mem_singleton.mp hmem).symm
    · rintro ⟨rfl, hx⟩
      have hx : dst[n] = 0 := hx.resolve_left hlt
      rw [hbuf, hx]
      exact ⟨dst.drop (n + 1), by simp⟩

/-! ### Numbers -/

/-- The digits of a number. -/
def digitBytes (n : ℕ) : List UInt8 := (Nat.toDigits 10 n).map fun c => UInt8.ofNat c.toNat

theorem toNat_of_isDigit {c : Char} (h : c.isDigit = true) :
    48 ≤ (UInt8.ofNat c.toNat).toNat ∧ (UInt8.ofNat c.toNat).toNat ≤ 57 ∧
      (UInt8.ofNat c.toNat).toNat = c.toNat := by
  simp only [Char.isDigit, Bool.and_eq_true, decide_eq_true_eq, UInt32.le_iff_toNat_le] at h
  change 48 ≤ c.toNat ∧ c.toNat ≤ 57 at h
  rw [UInt8.toNat_ofNat', Nat.mod_eq_of_lt (by omega)]
  omega

theorem toNat_digitBytes {n : ℕ} {b : UInt8} (h : b ∈ digitBytes n) : 48 ≤ b.toNat ∧ b.toNat ≤ 57 := by
  obtain ⟨c, hc, rfl⟩ := List.mem_map.mp h
  have hdigit := toNat_of_isDigit (Nat.isDigit_of_mem_toDigits (by decide) (by decide) hc)
  exact ⟨hdigit.1, hdigit.2.1⟩

theorem foldl_digitBytes (n : ℕ) : (digitBytes n).foldl (fun m b => 10 * m + (b.toNat - 48)) 0 = n := by
  have hfold : (digitBytes n).foldl (fun m b => 10 * m + (b.toNat - 48)) 0 =
      (Nat.toDigits 10 n).foldl (fun m c => 10 * m + (c.toNat - '0'.toNat)) 0 := by
    rw [digitBytes, List.foldl_map]
    refine List.foldl_ext _ _ _ ?_
    intro m c hc
    rw [(toNat_of_isDigit (Nat.isDigit_of_mem_toDigits (by decide) (by decide) hc)).2.2]
    rfl
  rw [hfold, ← Nat.ofDigitChars_eq_foldl, Nat.ofDigitChars_toDigits (by decide) (by decide)]

theorem digitBytes_ne_nil (n : ℕ) : digitBytes n ≠ [] := by
  intro h
  exact Nat.toDigits_ne_nil (List.map_eq_nil_iff.mp h)

/-- The number that a text of decimal digits stands for. -/
def number (text : List UInt8) : Option ℕ :=
  if text ≠ [] ∧ text.all fun b => 48 ≤ b.toNat && b.toNat ≤ 57 then
    some (text.foldl (fun m b => 10 * m + (b.toNat - 48)) 0)
  else none

theorem number_digitBytes (n : ℕ) : number (digitBytes n) = some n := by
  have hall : (digitBytes n).all (fun b => 48 ≤ b.toNat && b.toNat ≤ 57) = true := by
    rw [List.all_eq_true]
    intro b hb
    simpa using toNat_digitBytes hb
  rw [number, if_pos ⟨digitBytes_ne_nil n, hall⟩, foldl_digitBytes]

theorem foldl_dropLast_digitBytes (n : ℕ) :
    (digitBytes n).dropLast.foldl (fun m b => 10 * m + (b.toNat - 48)) 0 = n / 10 := by
  have hsplit := List.dropLast_append_getLast (digitBytes_ne_nil n)
  have hlast := toNat_digitBytes (List.getLast_mem (digitBytes_ne_nil n))
  have hall := foldl_digitBytes n
  rw [← hsplit, List.foldl_append, List.foldl_cons, List.foldl_nil] at hall
  omega

theorem number_dropLast_digitBytes (n : ℕ) : number (digitBytes n).dropLast ≠ some n := by
  unfold number
  split
  · rename_i hdigits
    rw [foldl_dropLast_digitBytes, Ne, Option.some.injEq]
    intro htenth
    obtain rfl : n = 0 := by omega
    exact hdigits.1 rfl
  · simp

theorem length_digitBytes_le {n k : ℕ} (hk : 0 < k) (h : n < 10 ^ k) : (digitBytes n).length ≤ k := by
  rw [digitBytes, List.length_map]
  exact Nat.toDigits_length 10 n k hk h

def digits (n : ℕ) : CStr where
  bytes := digitBytes n
  noNul := by
    intro h
    have hdigit := toNat_digitBytes h
    have hzero : (0 : UInt8).toNat = 0 := rfl
    omega

/-- `%d`. -/
def decimal (n : ℤ) : CStr :=
  if n < 0 then ⟨[45], by decide⟩ ++ digits n.natAbs else digits n.natAbs

theorem decimal_natCast (n : ℕ) : decimal n = digits n := by
  unfold decimal
  rw [if_neg (by omega), Int.natAbs_natCast]

end CStr
