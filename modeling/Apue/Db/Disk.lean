import Apue.Db.Calls

/-!
# What the two files hold (db/db.c)

`Disk`: the index records in the order of the file, each with its place and its sizes, which never change, and for
the offset of each its key, its data and the pointer there. The free list and the hash chains start at pointers in
front of the records, so a pointer is always at an offset. `Stores`: the bytes of the two files are such a disk.

The reading functions return what the disk has at the offset. A pointer, a record and the data of a record are written
over with the same sizes, a new record goes behind the last one: what is written there is changed, and nothing else.
-/

namespace Apue.Db

/-! ### Places -/

/-- The place of a record: the lengths are those of the key and of the data with the newline. -/
structure Slot where
  off : ℕ
  datoff : ℕ
  keylen : ℕ
  datlen : ℕ

/-- The length of the line of the record. -/
def Slot.idxlen (s : Slot) : ℕ :=
  s.keylen + (CStr.digitBytes s.datoff).length + (CStr.digitBytes s.datlen).length + 3

def Slot.size (s : Slot) : ℕ := PTR_SZ + IDXLEN_SZ + s.idxlen

structure Slot.Fits (s : Slot) : Prop where
  idxlen_min : IDXLEN_MIN ≤ s.idxlen
  idxlen_max : s.idxlen ≤ IDXLEN_MAX
  datoff_lt : s.datoff < 2 ^ 63
  datlen_min : DATLEN_MIN ≤ s.datlen
  datlen_max : s.datlen ≤ DATLEN_MAX

/-- Where the first record is. -/
def start : ℕ := (NHASH_DEF + 1) * PTR_SZ + 1

/-- In both files one record begins where the one before ends. -/
def Tiled : ℕ → ℕ → List Slot → ℕ → ℕ → Prop
  | off, datoff, [], off', datoff' => off = off' ∧ datoff = datoff'
  | off, datoff, s :: l, off', datoff' =>
    s.off = off ∧ s.datoff = datoff ∧ Tiled (off + s.size) (datoff + s.datlen) l off' datoff'

/-- The two do not meet. -/
def Slot.Apart (s t : Slot) : Prop :=
  (s.off + s.size ≤ t.off ∧ s.datoff + s.datlen ≤ t.datoff) ∨
    (t.off + t.size ≤ s.off ∧ t.datoff + t.datlen ≤ s.datoff)

section Tiled
variable {l l' : List Slot} {s t : Slot} {off datoff off' datoff' : ℕ}

theorem mem_snoc : t ∈ l ++ [s] ↔ t ∈ l ∨ t = s := by
  rw [List.mem_append, List.mem_singleton]

theorem tiled_append : Tiled off datoff (l ++ s :: l') off' datoff' ↔
    Tiled off datoff l s.off s.datoff ∧ Tiled s.off s.datoff (s :: l') off' datoff' := by
  induction l generalizing off datoff with
  | nil =>
    constructor
    · rintro ⟨rfl, rfl, h⟩
      exact ⟨⟨rfl, rfl⟩, rfl, rfl, h⟩
    · rintro ⟨⟨rfl, rfl⟩, h⟩
      exact h
  | cons t l ih =>
    rw [List.cons_append, Tiled, Tiled, ih]
    tauto

theorem Tiled.le (h : Tiled off datoff l off' datoff') : off ≤ off' ∧ datoff ≤ datoff' := by
  induction l generalizing off datoff with
  | nil => exact ⟨h.1.le, h.2.le⟩
  | cons t l ih =>
    have := ih h.2.2
    omega

theorem Tiled.length_le (h : Tiled off datoff l off' datoff') : off + l.length ≤ off' := by
  induction l generalizing off datoff with
  | nil => exact h.1.le
  | cons t l ih =>
    have := ih h.2.2
    simp only [Slot.size, IDXLEN_SZ] at this
    rw [List.length_cons]
    omega

theorem Tiled.dat_le (h : Tiled off datoff l off' datoff') (hfits : ∀ s ∈ l, s.Fits) :
    datoff' ≤ datoff + DATLEN_MAX * (off' - off) := by
  induction l generalizing off datoff with
  | nil => exact h.2.symm.le.trans (Nat.le_add_right ..)
  | cons t l ih =>
    obtain ⟨ht, hl⟩ := List.forall_mem_cons.mp hfits
    have hrest := ih h.2.2 hl
    have hle := (Tiled.le h.2.2).1
    have hmax := ht.datlen_max
    simp only [Slot.size, IDXLEN_SZ] at hrest hle
    unfold DATLEN_MAX at hrest hmax ⊢
    omega

theorem Tiled.within (h : Tiled off datoff l off' datoff') (hs : s ∈ l) :
    off ≤ s.off ∧ s.off + s.size ≤ off' ∧ datoff ≤ s.datoff ∧ s.datoff + s.datlen ≤ datoff' := by
  obtain ⟨pre, post, rfl⟩ := List.append_of_mem hs
  obtain ⟨hpre, -, -, hpost⟩ := tiled_append.mp h
  have := hpre.le
  have := hpost.le
  omega

theorem Tiled.apart (h : Tiled off datoff l off' datoff') (hs : s ∈ l) (ht : t ∈ l) (hne : s ≠ t) : s.Apart t := by
  induction l generalizing off datoff with
  | nil => exact absurd hs List.not_mem_nil
  | cons u l ih =>
    obtain ⟨rfl, rfl, hrest⟩ := h
    rcases List.mem_cons.mp hs with hsu | hsl <;> rcases List.mem_cons.mp ht with htu | htl
    · exact absurd (hsu.trans htu.symm) hne
    · have hbehind := hrest.within htl
      subst hsu
      exact .inl ⟨hbehind.1, hbehind.2.2.1⟩
    · have hbehind := hrest.within hsl
      subst htu
      exact .inr ⟨hbehind.1, hbehind.2.2.1⟩
    · exact ih hrest hsl htl

theorem Tiled.snoc (h : Tiled off datoff l s.off s.datoff) :
    Tiled off datoff (l ++ [s]) (s.off + s.size) (s.datoff + s.datlen) :=
  tiled_append.mpr ⟨h, rfl, rfl, rfl, rfl⟩

theorem Slot.size_pos (s : Slot) : PTR_SZ < s.size := by
  simp only [Slot.size, IDXLEN_SZ]
  omega

theorem Tiled.nodup (h : Tiled off datoff l off' datoff') : l.Nodup := by
  induction l generalizing off datoff with
  | nil => exact List.nodup_nil
  | cons t l ih =>
    refine List.nodup_cons.mpr ⟨fun ht => ?_, ih h.2.2⟩
    obtain ⟨rfl, -, hrest⟩ := h
    have := hrest.within ht
    simp only [Slot.size, IDXLEN_SZ] at this
    omega

theorem Tiled.unique {m m' n n' : ℕ} (h : Tiled off datoff l m n) (h' : Tiled off datoff l m' n') :
    m' = m ∧ n' = n := by
  induction l generalizing off datoff with
  | nil => exact ⟨h'.1.symm.trans h.1, h'.2.symm.trans h.2⟩
  | cons t l ih => exact ih h.2.2 h'.2.2

theorem Tiled.eq_of_off (h : Tiled off datoff l off' datoff') (hs : s ∈ l) (ht : t ∈ l) (hoff : s.off = t.off) :
    s = t := by
  by_contra hne
  have := s.size_pos
  have := t.size_pos
  rcases h.apart hs ht hne with hapart | hapart
  · omega
  · omega

end Tiled

/-! ### The disk -/

structure Disk where
  slots : List Slot
  next : ℕ → Option ℕ
  key : ℕ → CStr
  data : ℕ → CStr

def Disk.empty : Disk := ⟨[], fun _ => none, fun _ => .empty, fun _ => .empty⟩

/-- The number that stands for the pointer at an offset. -/
def Disk.ptr (d : Disk) (o : ℕ) : ℕ := (d.next o).getD 0

/-- Where the i-th list starts: the free list first, then the hash chains. -/
def cell (i : Fin (NHASH_DEF + 1)) : ℕ := i.val * PTR_SZ

/-- There is a pointer at this offset. -/
def Disk.Cell (d : Disk) (o : ℕ) : Prop := (∃ i, o = cell i) ∨ ∃ s ∈ d.slots, o = s.off

def Disk.line (d : Disk) (s : Slot) : List UInt8 := text (d.key s.off) s.datoff s.datlen

structure Stores (idx dat : List UInt8) (d : Disk) : Prop where
  tiled : Tiled start 0 d.slots idx.length dat.length
  fits : ∀ s ∈ d.slots, s.Fits
  head : ∀ i, File.Has idx (cell i) (field PTR_SZ (d.ptr (cell i)))
  slot : ∀ s ∈ d.slots, File.Has idx s.off (record (d.ptr s.off) (d.line s))
  data : ∀ s ∈ d.slots, File.Has dat s.datoff ((d.data s.off).bytes ++ [NEWLINE])
  key : ∀ s ∈ d.slots, (d.key s.off).length = s.keylen ∧ SEP ∉ (d.key s.off).bytes
  datlen : ∀ s ∈ d.slots, (d.data s.off).length + 1 = s.datlen
  next : ∀ o p, d.next o = some p → 0 < p ∧ p ≤ PTR_MAX

/-! ### Sizes -/

section Sizes
variable {idx dat : List UInt8} {d : Disk} {s : Slot} {o : ℕ}

theorem cell_lt (i : Fin (NHASH_DEF + 1)) : cell i + PTR_SZ < start := by
  have := i.isLt
  simp only [cell, start, NHASH_DEF, PTR_SZ] at *
  omega

theorem cell_injective : Function.Injective cell := by
  intro i j h
  simp only [cell, PTR_SZ] at h
  ext
  omega

theorem length_field_len {n : ℕ} (h : n ≤ IDXLEN_MAX) : (field IDXLEN_SZ n).length = IDXLEN_SZ := by
  refine length_field (by decide) ?_
  simp only [IDXLEN_MAX, IDXLEN_SZ] at *
  omega

theorem length_line {key : CStr} (h : key.length = s.keylen) : (text key s.datoff s.datlen).length = s.idxlen := by
  rw [length_text, h, Slot.idxlen]

theorem length_data {data : CStr} {n : ℕ} (h : data.length + 1 = n) : (data.bytes ++ [NEWLINE]).length = n := by
  rw [List.length_append, List.length_singleton]
  exact h

theorem length_record {key : CStr} {p : ℕ} (hs : s.Fits) (hkey : key.length = s.keylen) (hp : p ≤ PTR_MAX) :
    (record p (text key s.datoff s.datlen)).length = s.size := by
  have hline := length_line hkey
  rw [record, List.length_append, List.length_append, length_ptr hp, hline, length_field_len hs.idxlen_max,
    Slot.size]

theorem Stores.ptr_le (h : Stores idx dat d) (o : ℕ) : d.ptr o ≤ PTR_MAX := by
  unfold Disk.ptr
  cases hp : d.next o with
  | none => exact Nat.zero_le _
  | some p => exact (h.next o p hp).2

theorem Stores.start_le (h : Stores idx dat d) (hs : s ∈ d.slots) : start ≤ s.off := (h.tiled.within hs).1

theorem Stores.off_ne (h : Stores idx dat d) (hs : s ∈ d.slots) : (s.off : ℤ) ≠ 0 := by
  have := h.start_le hs
  have hstart : 0 < start := by decide
  omega

theorem Stores.cell_le (h : Stores idx dat d) (hc : d.Cell o) : o + PTR_SZ ≤ idx.length := by
  rcases hc with ⟨i, rfl⟩ | ⟨s, hs, rfl⟩
  · have := cell_lt i
    have := h.tiled.le
    omega
  · have := h.tiled.within hs
    have := s.size_pos
    omega

theorem Stores.cell_apart (h : Stores idx dat d) {o' : ℕ} (hc : d.Cell o) (hc' : d.Cell o') (hne : o ≠ o') :
    o + PTR_SZ ≤ o' ∨ o' + PTR_SZ ≤ o := by
  rcases hc with ⟨i, rfl⟩ | ⟨s, hs, rfl⟩ <;> rcases hc' with ⟨j, rfl⟩ | ⟨t, ht, rfl⟩
  · have hij : i.val ≠ j.val := fun hij => hne (by rw [Fin.ext hij])
    simp only [cell, PTR_SZ]
    omega
  · have := cell_lt i
    have := h.start_le ht
    omega
  · have := cell_lt j
    have := h.start_le hs
    omega
  · have hst : s ≠ t := fun hst => hne (by rw [hst])
    have := s.size_pos
    have := t.size_pos
    rcases h.tiled.apart hs ht hst with hapart | hapart
    · omega
    · omega

end Sizes

end Apue.Db
