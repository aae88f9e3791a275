import Apue.Lib.CString
import Mathlib.Data.Int.Notation

/-!
# Lines and numbers of a byte stream

* `fgets`: one line of a stream, or as much of it as fits; `fgets_eq_some` says what it returns.
* `scanInt`: what the conversion `%d` of `scanf` reads, and `scanInt_decimal`: it reads back what `%d` of
  `printf` wrote. `atol` and `atoi` do the same.
* `toInt`: a number as an `int` of 32 bits.
-/

namespace Stdio

/-! ### Lines -/

/-- At most `n` bytes, up to and with a newline, and what is behind them. -/
def takeLine : ℕ → List UInt8 → List UInt8 × List UInt8
  | 0, s => ([], s)
  | _ + 1, [] => ([], [])
  | n + 1, c :: s => if c = 10 then ([c], s) else (c :: (takeLine n s).1, (takeLine n s).2)

/-- What `fgets` stores in a buffer of `size` bytes, in front of the null byte, and the rest of the
stream; `none` at its end. -/
def fgets (size : ℕ) (s : List UInt8) : Option (List UInt8 × List UInt8) :=
  if s = [] then none else some (takeLine (size - 1) s)

theorem takeLine_append (n : ℕ) (s : List UInt8) : (takeLine n s).1 ++ (takeLine n s).2 = s := by
  induction n generalizing s with
  | zero => rfl
  | succ n ih =>
    cases s with
    | nil => rfl
    | cons c s =>
      unfold takeLine
      split
      · rfl
      · rw [List.cons_append, ih]

theorem length_takeLine (n : ℕ) (s : List UInt8) : (takeLine n s).1.length ≤ n := by
  induction n generalizing s with
  | zero => exact Nat.zero_le _
  | succ n ih =>
    cases s with
    | nil => exact Nat.zero_le _
    | cons c s =>
      unfold takeLine
      split
      · rw [List.length_singleton]
        omega
      · have hle := ih s
        rw [List.length_cons]
        omega

theorem takeLine_ne_nil {n : ℕ} {s : List UInt8} (hs : s ≠ []) : (takeLine (n + 1) s).1 ≠ [] := by
  cases s with
  | nil => exact absurd rfl hs
  | cons c s =>
    unfold takeLine
    split <;> simp

theorem fgets_eq_none {size : ℕ} {s : List UInt8} : fgets size s = none ↔ s = [] := by
  unfold fgets
  split <;> simp [*]

theorem fgets_eq_some {size : ℕ} {s line rest : List UInt8} (hsize : 2 ≤ size)
    (h : fgets size s = some (line, rest)) : line ++ rest = s ∧ line ≠ [] ∧ line.length < size := by
  obtain ⟨n, rfl⟩ : ∃ n, size = n + 2 := ⟨size - 2, by omega⟩
  unfold fgets at h
  split at h
  · cases h
  · rename_i hs
    obtain ⟨rfl, rfl⟩ := Prod.mk.inj (Option.some.inj h)
    have hle := length_takeLine (n + 1) s
    exact ⟨takeLine_append (n + 1) s, takeLine_ne_nil hs, Nat.lt_succ_of_le hle⟩

/-! ### Numbers -/

def isSpace (c : UInt8) : Bool := c = 32 || (9 ≤ c && c ≤ 13)

def isDigit (c : UInt8) : Bool := 48 ≤ c && c ≤ 57

/-- A number as an `int`. -/
def toInt (n : ℤ) : ℤ := Int.bmod n (2 ^ 32)

/-- The digits at the start of a text, as a `long`, which ends at its bounds. -/
def scanDigits (neg : Bool) (s : List UInt8) : Option (ℤ × List UInt8) :=
  match CStr.number (s.takeWhile isDigit) with
  | none => none
  | some n =>
    some (if neg then max (-2 ^ 63) (-(n : ℤ)) else min (2 ^ 63 - 1) (n : ℤ), s.dropWhile isDigit)

/-- White space, a sign or none, and digits. -/
def scanLong (s : List UInt8) : Option (ℤ × List UInt8) :=
  match s.dropWhile isSpace with
  | 45 :: t => scanDigits true t
  | 43 :: t => scanDigits false t
  | t => scanDigits false t

/-- `%d`. -/
def scanInt (s : List UInt8) : Option (ℤ × List UInt8) := (scanLong s).map fun x => (toInt x.1, x.2)

def atol (s : List UInt8) : ℤ := (scanLong s).elim 0 Prod.fst

/-- `atoi` keeps the low 32 bits of the `long`. -/
def atoi (s : List UInt8) : ℤ := toInt (atol s)

theorem toInt_bounds (n : ℤ) : -2 ^ 31 ≤ toInt n ∧ toInt n < 2 ^ 31 :=
  ⟨Int.le_bmod (by decide), Int.bmod_lt (by decide)⟩

theorem toInt_eq {n : ℤ} (h : -2 ^ 31 ≤ n) (h' : n < 2 ^ 31) : toInt n = n :=
  Int.bmod_eq_of_le h h'

theorem isDigit_of_mem {n : ℕ} {c : UInt8} (h : c ∈ CStr.digitBytes n) : isDigit c = true := by
  have hc := CStr.toNat_digitBytes h
  simp only [isDigit, Bool.and_eq_true, decide_eq_true_eq, UInt8.le_iff_toNat_le]
  exact hc

theorem scanDigits_digitBytes (neg : Bool) {n : ℕ} (hn : n < 2 ^ 63) {t : List UInt8}
    (ht : ∀ c ∈ t.head?, isDigit c = false) :
    scanDigits neg (CStr.digitBytes n ++ t) = some (if neg then -(n : ℤ) else n, t) := by
  have hall : ∀ c ∈ CStr.digitBytes n, isDigit c = true := fun c => isDigit_of_mem
  have htake : t.takeWhile isDigit = [] ∧ t.dropWhile isDigit = t := by
    cases t with
    | nil => exact ⟨rfl, rfl⟩
    | cons c t =>
      have hc := ht c rfl
      exact ⟨List.takeWhile_cons_of_neg (by simp [hc]), List.dropWhile_cons_of_neg (by simp [hc])⟩
  rw [scanDigits, List.takeWhile_append_of_pos hall, List.dropWhile_append_of_pos hall, htake.1, htake.2,
    List.append_nil, CStr.number_digitBytes]
  simp only
  cases neg with
  | true =>
    simp only [if_true]
    rw [max_eq_right (by omega)]
  | false =>
    simp only [Bool.false_eq_true, if_false]
    rw [min_eq_right (by omega)]

theorem scanLong_decimal {ws t : List UInt8} {n : ℤ} (hws : ∀ c ∈ ws, isSpace c = true)
    (hn : -2 ^ 63 < n) (hn' : n < 2 ^ 63) (ht : ∀ c ∈ t.head?, isDigit c = false) :
    scanLong (ws ++ ((CStr.decimal n).bytes ++ t)) = some (n, t) := by
  unfold scanLong
  rw [List.dropWhile_append_of_pos hws]
  by_cases hneg : n < 0
  · have htext : (CStr.decimal n).bytes = 45 :: CStr.digitBytes n.natAbs := by
      rw [CStr.decimal, if_pos hneg]
      rfl
    rw [htext, List.cons_append, List.dropWhile_cons_of_neg (by decide)]
    show scanDigits true _ = _
    rw [scanDigits_digitBytes true (by omega) ht, if_pos rfl]
    congr 2
    omega
  · have htext : (CStr.decimal n).bytes = CStr.digitBytes n.natAbs := by
      rw [CStr.decimal, if_neg hneg]
      rfl
    rw [htext]
    -- the text starts with a digit, which is neither white space nor a sign
    obtain ⟨d, ds, hds⟩ := List.exists_cons_of_ne_nil (CStr.digitBytes_ne_nil n.natAbs)
    have hd := CStr.toNat_digitBytes (n := n.natAbs) (b := d) (by rw [hds]; exact List.mem_cons_self)
    have hscan := scanDigits_digitBytes false (n := n.natAbs) (by omega) ht
    rw [hds, List.cons_append] at hscan ⊢
    have hne : ∀ c : UInt8, c.toNat < 48 → d ≠ c := by
      rintro c hc rfl
      omega
    have hspace : isSpace d = false := by
      simp only [isSpace, hne 32 (by decide), Bool.or_eq_false_iff, Bool.and_eq_false_iff, decide_false,
        decide_eq_false_iff_not, UInt8.le_iff_toNat_le, true_and]
      right
      show ¬ d.toNat ≤ 13
      omega
    rw [List.dropWhile_cons_of_neg (by simp [hspace])]
    split
    · rename_i heq
      exact absurd (List.cons.inj heq).1 (hne 45 (by decide))
    · rename_i heq
      exact absurd (List.cons.inj heq).1 (hne 43 (by decide))
    · simp only [Bool.false_eq_true, if_false] at hscan
      rw [hscan]
      congr 2
      omega

theorem scanInt_decimal {ws t : List UInt8} {n : ℤ} (hws : ∀ c ∈ ws, isSpace c = true)
    (hn : -2 ^ 31 ≤ n) (hn' : n < 2 ^ 31) (ht : ∀ c ∈ t.head?, isDigit c = false) :
    scanInt (ws ++ ((CStr.decimal n).bytes ++ t)) = some (n, t) := by
  rw [scanInt, scanLong_decimal hws (by omega) (by omega) ht, Option.map_some, toInt_eq hn hn']

theorem atol_digits (ws : List UInt8) (hws : ∀ c ∈ ws, isSpace c = true) {n : ℕ} (hn : n < 2 ^ 63) :
    atol (ws ++ CStr.digitBytes n) = n := by
  have hscan := scanLong_decimal hws (n := n) (t := []) (by omega) (by omega) (by simp)
  rw [List.append_nil, CStr.decimal_natCast] at hscan
  rw [atol, show ws ++ CStr.digitBytes n = ws ++ (CStr.digits n).bytes from rfl, hscan]
  rfl

theorem atoi_digits {n : ℕ} (hn : n < 2 ^ 31) : atoi (CStr.digitBytes n) = n := by
  have hatol := atol_digits [] (by simp) (n := n) (by omega)
  rw [List.nil_append] at hatol
  rw [atoi, hatol, toInt_eq (by omega) (by omega)]

end Stdio
