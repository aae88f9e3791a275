import Apue.Lib.Stdio

/-!
# The index file, byte by byte (db/db.c)

A chain pointer is a number in `PTR_SZ` characters. An index record is a chain pointer, the length of the rest in
`IDXLEN_SZ` characters, and the rest: the key, the offset and the length of the data record, with `SEP` between them
and a newline at the end.

`parse_text`: what `_db_writeidx` has written, `_db_readidx` reads.
-/

namespace Apue.Db
open Stdio

def IDXLEN_SZ : ℕ := 4
def SEP : UInt8 := 58
def SPACE : UInt8 := 32
def NEWLINE : UInt8 := 10
def PTR_SZ : ℕ := 7
def PTR_MAX : ℕ := 9999999
def NHASH_DEF : ℕ := 137
def FREE_OFF : ℕ := 0
def HASH_OFF : ℕ := PTR_SZ
def IDXLEN_MIN : ℕ := 6
def IDXLEN_MAX : ℕ := 1024
def DATLEN_MIN : ℕ := 2
def DATLEN_MAX : ℕ := 1024

/-- `%*lld`: at least `w` characters. -/
def field (w n : ℕ) : List UInt8 := ((CStr.digits n).padLeft w).bytes

/-- `c * i` for the i-th character, which is signed. -/
def hashTerm (c : UInt8) (i : ℕ) : ℤ := (if c.toNat < 128 then (c.toNat : ℤ) else c.toNat - 256) * i

/-- The sum of `_db_hash` from the i-th character on. -/
def hashSum : ℕ → List UInt8 → ℤ
  | _, [] => 0
  | i, c :: s => hashTerm c i + hashSum (i + 1) s

/-- `hval` is an unsigned long. -/
def _db_hash (key : CStr) : Fin NHASH_DEF :=
  ⟨(hashSum 1 key.bytes % 2 ^ 64).toNat % NHASH_DEF, Nat.mod_lt _ (by decide)⟩

/-- `"%s%c%lld%c%ld\n"`. -/
def text (key : CStr) (datoff datlen : ℕ) : List UInt8 :=
  key.bytes ++ SEP :: (CStr.digitBytes datoff ++ SEP :: (CStr.digitBytes datlen ++ [NEWLINE]))

/-- `strchr(s, SEP)`: what is in front of the separator and what is behind it. -/
def cut (s : List UInt8) : Option (List UInt8 × List UInt8) :=
  match s.dropWhile (· ≠ SEP) with
  | [] => none
  | _ :: rest => some (s.takeWhile (· ≠ SEP), rest)

/-- The key, and the offset and the length of the data record, if `_db_readidx` takes the text for a record. -/
def parse (buf : List UInt8) : Option (CStr × ℕ × ℕ) :=
  if buf.getLast? = some NEWLINE then
    let s := CStr.ofBuf buf.dropLast
    match cut s.bytes with
    | none => none
    | some (key, rest) =>
      match cut rest with
      | none => none
      | some (ptr1, ptr2) =>
        if (cut ptr2).isSome then none
        else if atol ptr1 < 0 then none
        else if 0 < atol ptr2 ∧ atol ptr2 ≤ DATLEN_MAX then
          some (CStr.ofBuf key, (atol ptr1).toNat, (atol ptr2).toNat)
        else none
  else none

/-! ### Pointers and numbers -/

variable {w n : ℕ}

theorem length_field (hw : 0 < w) (hn : n < 10 ^ w) : (field w n).length = w := by
  have hle := CStr.length_digitBytes_le hw hn
  show (List.replicate (w - (CStr.digitBytes n).length) 32 ++ CStr.digitBytes n).length = w
  rw [List.length_append, List.length_replicate]
  omega

theorem atol_field (w : ℕ) (hn : n < 2 ^ 63) : atol (field w n) = n := by
  have hblanks : ∀ c ∈ List.replicate (w - (CStr.digitBytes n).length) (32 : UInt8), isSpace c = true := by
    intro c hc
    rw [List.eq_of_mem_replicate hc]
    rfl
  exact atol_digits _ hblanks hn

theorem atol_digitBytes (hn : n < 2 ^ 63) : atol (CStr.digitBytes n) = n := atol_digits [] (by simp) hn

theorem length_ptr (h : n ≤ PTR_MAX) : (field PTR_SZ n).length = PTR_SZ :=
  length_field (by decide) (Nat.lt_succ_of_le h)

/-! ### Records -/

theorem sep_notMem_digits (n : ℕ) : SEP ∉ CStr.digitBytes n := by
  intro h
  exact absurd (CStr.toNat_digitBytes h) (by decide)

theorem cut_append {s t : List UInt8} (hs : SEP ∉ s) : cut (s ++ SEP :: t) = some (s, t) := by
  have hall : ∀ c ∈ s, decide (c ≠ SEP) = true := fun c hc => decide_eq_true fun h => hs (h ▸ hc)
  unfold cut
  rw [List.dropWhile_append_of_pos hall, List.takeWhile_append_of_pos hall, List.dropWhile_cons_of_neg (by simp),
    List.takeWhile_cons_of_neg (by simp), List.append_nil]

theorem cut_eq_none {s : List UInt8} (hs : SEP ∉ s) : cut s = none := by
  have hall : ∀ c ∈ s, decide (c ≠ SEP) = true := fun c hc => decide_eq_true fun h => hs (h ▸ hc)
  unfold cut
  rw [List.dropWhile_eq_nil_iff.mpr hall]

theorem length_text (key : CStr) (datoff datlen : ℕ) : (text key datoff datlen).length =
    key.length + (CStr.digitBytes datoff).length + (CStr.digitBytes datlen).length + 3 := by
  simp only [text, CStr.length, List.length_append, List.length_cons, List.length_nil]
  omega

theorem parse_text {key : CStr} {datoff datlen : ℕ} (hkey : SEP ∉ key.bytes) (hdatoff : datoff < 2 ^ 63)
    (hpos : 0 < datlen) (hmax : datlen ≤ DATLEN_MAX) : parse (text key datoff datlen) = some (key, datoff, datlen) := by
  have hzero (n : ℕ) : (0 : UInt8) ∉ CStr.digitBytes n := fun h => absurd (CStr.toNat_digitBytes h) (by decide)
  have hdatlen : datlen < 2 ^ 63 := hmax.trans_lt (by decide)
  have hsplit : text key datoff datlen =
      (key.bytes ++ SEP :: (CStr.digitBytes datoff ++ SEP :: CStr.digitBytes datlen)) ++ [NEWLINE] := by
    simp [text]
  have hnul : (0 : UInt8) ∉ key.bytes ++ SEP :: (CStr.digitBytes datoff ++ SEP :: CStr.digitBytes datlen) := by
    simp only [List.mem_append, List.mem_cons, not_or]
    exact ⟨key.noNul, by decide, hzero _, by decide, hzero _⟩
  have hkey' : CStr.ofBuf key.bytes = key := CStr.ext (CStr.bytes_ofBuf key.noNul)
  unfold parse
  rw [hsplit, List.getLast?_concat, if_pos rfl, List.dropLast_concat]
  simp only [CStr.bytes_ofBuf hnul, cut_append hkey, cut_append (sep_notMem_digits datoff),
    cut_eq_none (sep_notMem_digits datlen), atol_digitBytes hdatoff, atol_digitBytes hdatlen, hkey']
  have hlen : (0 : ℤ) < (datlen : ℤ) ∧ (datlen : ℤ) ≤ (DATLEN_MAX : ℤ) :=
    ⟨Int.natCast_pos.mpr hpos, Int.ofNat_le.mpr hmax⟩
  simp only [Option.isSome_none, Bool.false_eq_true, if_false, Int.toNat_natCast, if_pos hlen,
    if_neg (Int.not_lt.mpr (Int.natCast_nonneg datoff))]

end Apue.Db
