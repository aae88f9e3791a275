import Apue.Db.Disk

/-!
# Reading and writing the disk (db/db.c)

The `Stores.read…` lemmas say what the reading functions return on a disk, `Stores.pwrite_…` what becomes of the disk
when a pointer, a record or the data of a record are written over, and `Stores.append` when a record is added.
-/

namespace Apue.Db

variable {idx dat : List UInt8} {d : Disk} {s : Slot} {db : DB} {o : ℕ}

/-! ### Reading -/

theorem Stores.pointer (h : Stores idx dat d) (hc : d.Cell o) : File.Has idx o (field PTR_SZ (d.ptr o)) := by
  rcases hc with ⟨i, rfl⟩ | ⟨s, hs, rfl⟩
  · exact h.head i
  · have hrec := h.slot s hs
    rw [record, List.append_assoc, File.has_append] at hrec
    exact hrec.1

theorem Stores.readptr (h : Stores db.idx db.dat d) (hc : d.Cell o) :
    _db_readptr db o = some ((d.ptr o : ℤ), { db with pos := o + PTR_SZ }) := by
  have hread := (h.pointer hc).pread
  rw [length_ptr (h.ptr_le o)] at hread
  unfold _db_readptr
  rw [if_neg (Int.not_lt.mpr (Int.natCast_nonneg o)), Int.toNat_natCast, hread]
  simp only [length_ptr (h.ptr_le o), if_true, atol_field PTR_SZ ((h.ptr_le o).trans_lt (by decide))]

/-- With this record in its buffers. -/
def DB.at (db : DB) (d : Disk) (s : Slot) : DB :=
  { db with pos := s.off + s.size, idxbuf := d.key s.off, idxoff := s.off, idxlen := s.idxlen, datoff := s.datoff,
            datlen := s.datlen, ptrval := d.ptr s.off }

theorem Stores.readidx (h : Stores db.idx db.dat d) (hs : s ∈ d.slots) (hoff : o = s.off ∨ o = 0 ∧ db.pos = s.off) :
    _db_readidx db o = some ((d.ptr s.off : ℤ), db.at d s) := by
  have hfits := h.fits s hs
  have hkey := h.key s hs
  have hptr := h.ptr_le s.off
  have hline : (d.line s).length = s.idxlen := length_line hkey.1
  have hrec := h.slot s hs
  rw [record, File.has_append, hline, List.length_append, length_ptr hptr,
    length_field_len hfits.idxlen_max] at hrec
  obtain ⟨hfront, hback⟩ := hrec
  have hfrontlen : (field PTR_SZ (d.ptr s.off) ++ field IDXLEN_SZ s.idxlen).length = PTR_SZ + IDXLEN_SZ := by
    rw [List.length_append, length_ptr hptr, length_field_len hfits.idxlen_max]
  have hfront := hfront.pread
  rw [hfrontlen] at hfront
  have hback := hback.pread
  rw [hline] at hback
  have hidxoff : (if (o : ℤ) = 0 then db.pos else (o : ℤ).toNat) = s.off := by
    rcases hoff with rfl | ⟨rfl, hpos⟩
    · have := h.start_le hs
      have hstart : 0 < start := by decide
      rw [if_neg (by omega), Int.toNat_natCast]
    · exact hpos
  have hparse : parse (d.line s) = some (d.key s.off, s.datoff, s.datlen) :=
    parse_text hkey.2 hfits.datoff_lt (Nat.lt_of_lt_of_le (by decide) hfits.datlen_min) hfits.datlen_max
  have htake : (field PTR_SZ (d.ptr s.off) ++ field IDXLEN_SZ s.idxlen).take PTR_SZ = field PTR_SZ (d.ptr s.off) :=
    List.take_left' (length_ptr hptr)
  have hdrop : (field PTR_SZ (d.ptr s.off) ++ field IDXLEN_SZ s.idxlen).drop PTR_SZ = field IDXLEN_SZ s.idxlen :=
    List.drop_left' (length_ptr hptr)
  have hrange : (IDXLEN_MIN : ℤ) ≤ (s.idxlen : ℤ) ∧ (s.idxlen : ℤ) ≤ (IDXLEN_MAX : ℤ) :=
    ⟨Int.ofNat_le.mpr hfits.idxlen_min, Int.ofNat_le.mpr hfits.idxlen_max⟩
  unfold _db_readidx
  rw [if_neg (Int.not_lt.mpr (Int.natCast_nonneg o))]
  simp only [hidxoff, hfront, hfrontlen, if_true, htake, hdrop, atol_field PTR_SZ (hptr.trans_lt (by decide)),
    atol_field IDXLEN_SZ (hfits.idxlen_max.trans_lt (by decide))]
  simp only [if_pos hrange, Int.toNat_natCast, hback, hline, hparse, if_true]
  rw [DB.at, Slot.size, Nat.add_assoc]

theorem readidx_eof (hpos : db.pos = db.idx.length) : _db_readidx db 0 = some (-1, { db with idxoff := db.pos }) := by
  have hread : File.pread db.idx db.pos (PTR_SZ + IDXLEN_SZ) = [] := by
    rw [File.pread, hpos, List.drop_length, List.take_nil]
  unfold _db_readidx
  rw [if_neg (by decide)]
  simp only [if_true, hread, List.length_nil, true_and]
  rfl

theorem Stores.readdat (h : Stores db.idx db.dat d) (hs : s ∈ d.slots) (hoff : db.datoff = s.datoff)
    (hlen : db.datlen = s.datlen) : _db_readdat db = some (d.data s.off, { db with datbuf := d.data s.off }) := by
  have hdat := length_data (h.datlen s hs)
  have hread := (h.data s hs).pread
  rw [hdat] at hread
  have hbuf : CStr.ofBuf (d.data s.off).bytes = d.data s.off := CStr.ext (CStr.bytes_ofBuf (d.data s.off).noNul)
  unfold _db_readdat
  simp only [hoff, hlen, hread, hdat, List.getLast?_concat, and_self, if_true, List.dropLast_concat, hbuf]

/-! ### Writing -/

theorem ptr_update (d : Disk) (o : ℕ) (p : Option ℕ) (o' : ℕ) :
    Disk.ptr { d with next := Function.update d.next o p } o' = if o' = o then p.getD 0 else d.ptr o' := by
  simp only [Disk.ptr, Function.update_apply]
  split <;> rfl

theorem Stores.getD_le {p : Option ℕ} (hp : ∀ q, p = some q → 0 < q ∧ q ≤ PTR_MAX) : p.getD 0 ≤ PTR_MAX := by
  cases p with
  | none => exact Nat.zero_le _
  | some q => exact (hp q rfl).2

theorem Stores.next_update (h : Stores idx dat d) {p : Option ℕ} (hp : ∀ q, p = some q → 0 < q ∧ q ≤ PTR_MAX) :
    ∀ o' q, Function.update d.next o p o' = some q → 0 < q ∧ q ≤ PTR_MAX := by
  intro o' q
  rw [Function.update_apply]
  split
  · exact hp q
  · exact h.next o' q

theorem Stores.pwrite_ptr (h : Stores idx dat d) (hc : d.Cell o) {p : Option ℕ}
    (hp : ∀ q, p = some q → 0 < q ∧ q ≤ PTR_MAX) :
    Stores (File.pwrite 0 idx o (field PTR_SZ (p.getD 0))) dat { d with next := Function.update d.next o p } := by
  have hlen : (field PTR_SZ (p.getD 0)).length = PTR_SZ := length_ptr (Stores.getD_le hp)
  have hsize : (File.pwrite 0 idx o (field PTR_SZ (p.getD 0))).length = idx.length := by
    have := h.cell_le hc
    rw [File.length_pwrite 0 (by omega), hlen]
    omega
  have hcells : ∀ o', d.Cell o' → File.Has (File.pwrite 0 idx o (field PTR_SZ (p.getD 0))) o'
      (field PTR_SZ (Disk.ptr { d with next := Function.update d.next o p } o')) := by
    intro o' hc'
    rw [ptr_update]
    by_cases ho : o' = o
    · rw [if_pos ho, ho]
      exact File.has_pwrite 0
    · rw [if_neg ho]
      refine (h.pointer hc').pwrite 0 ?_
      rw [length_ptr (h.ptr_le o'), hlen]
      exact h.cell_apart hc' hc ho
  refine ⟨by rw [hsize]; exact h.tiled, h.fits, fun i => hcells (cell i) (.inl ⟨i, rfl⟩), ?_, h.data, h.key, h.datlen,
    h.next_update hp⟩
  intro s hs
  have hrec := h.slot s hs
  rw [record, List.append_assoc, File.has_append, length_ptr (h.ptr_le s.off)] at hrec
  rw [record, List.append_assoc, File.has_append]
  refine ⟨hcells s.off (.inr ⟨s, hs, rfl⟩), ?_⟩
  have hptr : Disk.ptr { d with next := Function.update d.next o p } s.off ≤ PTR_MAX := by
    rw [ptr_update]
    split
    · exact Stores.getD_le hp
    · exact h.ptr_le s.off
  rw [length_ptr hptr]
  -- behind the pointer nothing is touched: another pointer is in front of the record, or behind all of it
  refine hrec.2.pwrite 0 ?_
  have hback : (field IDXLEN_SZ (d.line s).length ++ d.line s).length = s.size - PTR_SZ := by
    have hline : (d.line s).length = s.idxlen := length_line (h.key s hs).1
    rw [List.length_append, hline, length_field_len (h.fits s hs).idxlen_max, Slot.size]
    omega
  have := s.size_pos
  rw [hlen, hback]
  rcases hc with ⟨i, rfl⟩ | ⟨t, ht, rfl⟩
  · have := cell_lt i
    have := h.start_le hs
    omega
  · by_cases hst : s = t
    · subst hst
      omega
    · have := t.size_pos
      rcases h.tiled.apart hs ht hst with hapart | hapart
      · omega
      · omega

theorem Stores.pwrite_record (h : Stores idx dat d) (hs : s ∈ d.slots) {key : CStr} {p : Option ℕ}
    (hkey : key.length = s.keylen) (hsep : SEP ∉ key.bytes) (hp : ∀ q, p = some q → 0 < q ∧ q ≤ PTR_MAX) :
    Stores (File.pwrite 0 idx s.off (record (p.getD 0) (text key s.datoff s.datlen))) dat
      { d with next := Function.update d.next s.off p, key := Function.update d.key s.off key } := by
  have hlen : (record (p.getD 0) (text key s.datoff s.datlen)).length = s.size :=
    length_record (h.fits s hs) hkey (Stores.getD_le hp)
  have hwithin := h.tiled.within hs
  have hsize : (File.pwrite 0 idx s.off (record (p.getD 0) (text key s.datoff s.datlen))).length = idx.length := by
    rw [File.length_pwrite 0 (by omega), hlen]
    omega
  refine ⟨by rw [hsize]; exact h.tiled, h.fits, ?_, ?_, h.data, ?_, h.datlen, h.next_update hp⟩
  · intro i
    have := cell_lt i
    have hne : cell i ≠ s.off := by omega
    simp only [Disk.ptr, Function.update_of_ne hne]
    refine (h.head i).pwrite 0 ?_
    rw [length_ptr (h.ptr_le _)]
    omega
  · intro t ht
    by_cases hst : t = s
    · subst hst
      simp only [Disk.ptr, Disk.line, Function.update_self]
      exact File.has_pwrite 0
    · have hne : t.off ≠ s.off := fun hoff => hst (h.tiled.eq_of_off ht hs hoff)
      simp only [Disk.ptr, Disk.line, Function.update_of_ne hne]
      refine (h.slot t ht).pwrite 0 ?_
      have hrec : (record (d.ptr t.off) (d.line t)).length = t.size :=
        length_record (h.fits t ht) (h.key t ht).1 (h.ptr_le _)
      rw [hrec, hlen]
      rcases h.tiled.apart ht hs hst with hapart | hapart
      · exact .inl hapart.1
      · exact .inr hapart.1
  · intro t ht
    by_cases hst : t = s
    · subst hst
      simp only [Function.update_self]
      exact ⟨hkey, hsep⟩
    · simp only [Function.update_of_ne fun hoff => hst (h.tiled.eq_of_off ht hs hoff)]
      exact h.key t ht

theorem Stores.pwrite_data (h : Stores idx dat d) (hs : s ∈ d.slots) {data : CStr}
    (hdata : data.length + 1 = s.datlen) :
    Stores idx (File.pwrite 0 dat s.datoff (data.bytes ++ [NEWLINE]))
      { d with data := Function.update d.data s.off data } := by
  have hlen := length_data hdata
  have hwithin := h.tiled.within hs
  have hsize : (File.pwrite 0 dat s.datoff (data.bytes ++ [NEWLINE])).length = dat.length := by
    rw [File.length_pwrite 0 (by omega), hlen]
    omega
  refine ⟨by rw [hsize]; exact h.tiled, h.fits, h.head, h.slot, ?_, h.key, ?_, h.next⟩
  · intro t ht
    by_cases hst : t = s
    · subst hst
      simp only [Function.update_self]
      exact File.has_pwrite 0
    · simp only [Function.update_of_ne fun hoff => hst (h.tiled.eq_of_off ht hs hoff)]
      refine (h.data t ht).pwrite 0 ?_
      rw [hlen, length_data (h.datlen t ht)]
      rcases h.tiled.apart ht hs hst with hapart | hapart
      · exact .inl hapart.2
      · exact .inr hapart.2
  · intro t ht
    by_cases hst : t = s
    · subst hst
      simp only [Function.update_self]
      exact hdata
    · simp only [Function.update_of_ne fun hoff => hst (h.tiled.eq_of_off ht hs hoff)]
      exact h.datlen t ht

theorem Stores.append (h : Stores idx dat d) (hoff : s.off = idx.length) (hdatoff : s.datoff = dat.length)
    (hfits : s.Fits) {key data : CStr} {p : Option ℕ} (hkey : key.length = s.keylen) (hsep : SEP ∉ key.bytes)
    (hdata : data.length + 1 = s.datlen) (hp : ∀ q, p = some q → 0 < q ∧ q ≤ PTR_MAX) :
    Stores (File.pwrite 0 idx s.off (record (p.getD 0) (text key s.datoff s.datlen)))
      (File.pwrite 0 dat s.datoff (data.bytes ++ [NEWLINE]))
      ⟨d.slots ++ [s], Function.update d.next s.off p, Function.update d.key s.off key,
        Function.update d.data s.off data⟩ := by
  have hlen : (record (p.getD 0) (text key s.datoff s.datlen)).length = s.size :=
    length_record hfits hkey (Stores.getD_le hp)
  have hdatlen := length_data hdata
  have hold : ∀ t ∈ d.slots, t.off + t.size ≤ s.off ∧ t.datoff + t.datlen ≤ s.datoff ∧ t.off ≠ s.off := by
    intro t ht
    have := h.tiled.within ht
    have := t.size_pos
    omega
  refine ⟨?_, ?_, ?_, ?_, ?_, ?_, ?_, h.next_update hp⟩
  · rw [File.length_pwrite 0 hoff.le, File.length_pwrite 0 hdatoff.le, hlen, hdatlen, ← hoff, ← hdatoff,
      Nat.max_eq_right (Nat.le_add_right ..), Nat.max_eq_right (Nat.le_add_right ..)]
    refine Tiled.snoc ?_
    rw [hoff, hdatoff]
    exact h.tiled
  · intro t ht
    rcases mem_snoc.mp ht with ht | rfl
    · exact h.fits t ht
    · exact hfits
  · intro i
    have := cell_lt i
    have := h.tiled.le
    have hne : cell i ≠ s.off := by omega
    simp only [Disk.ptr, Function.update_of_ne hne]
    refine (h.head i).pwrite 0 ?_
    rw [length_ptr (h.ptr_le _)]
    omega
  · intro t ht
    rcases mem_snoc.mp ht with ht | rfl
    · have hne := (hold t ht).2.2
      simp only [Disk.ptr, Disk.line, Function.update_of_ne hne]
      refine (h.slot t ht).pwrite 0 (.inl ?_)
      have hrec : (record (d.ptr t.off) (d.line t)).length = t.size :=
        length_record (h.fits t ht) (h.key t ht).1 (h.ptr_le _)
      rw [hrec]
      exact (hold t ht).1
    · simp only [Disk.ptr, Disk.line, Function.update_self]
      exact File.has_pwrite 0
  · intro t ht
    rcases mem_snoc.mp ht with ht | rfl
    · simp only [Function.update_of_ne (hold t ht).2.2]
      refine (h.data t ht).pwrite 0 (.inl ?_)
      rw [length_data (h.datlen t ht)]
      exact (hold t ht).2.1
    · simp only [Function.update_self]
      exact File.has_pwrite 0
  · intro t ht
    rcases mem_snoc.mp ht with ht | rfl
    · simp only [Function.update_of_ne (hold t ht).2.2]
      exact h.key t ht
    · simp only [Function.update_self]
      exact ⟨hkey, hsep⟩
  · intro t ht
    rcases mem_snoc.mp ht with ht | rfl
    · simp only [Function.update_of_ne (hold t ht).2.2]
      exact h.datlen t ht
    · simp only [Function.update_self]
      exact hdata

/-! ### The writing functions -/

/-- All but the index file, its offset and its buffer. -/
structure Kept (db db' : DB) : Prop where
  dat : db'.dat = db.dat
  datoff : db'.datoff = db.datoff
  datlen : db'.datlen = db.datlen
  ptroff : db'.ptroff = db.ptroff
  chainoff : db'.chainoff = db.chainoff

theorem writeptr_eq {p : ℕ} (hp : p ≤ PTR_MAX) : ∃ db', _db_writeptr db o p = some db' ∧
    db'.idx = File.pwrite 0 db.idx o (field PTR_SZ p) ∧ Kept db db' ∧ db'.idxoff = db.idxoff ∧
    db'.ptrval = db.ptrval := by
  have hrange : ¬((p : ℤ) < 0 ∨ (PTR_MAX : ℤ) < (p : ℤ)) := by omega
  unfold _db_writeptr
  rw [if_neg hrange, if_neg (Int.not_lt.mpr (Int.natCast_nonneg o)), Int.toNat_natCast, Int.toNat_natCast]
  exact ⟨_, rfl, rfl, ⟨rfl, rfl, rfl, rfl, rfl⟩, rfl, rfl⟩

theorem writeidx_eq {key : CStr} {p : ℕ} (hp : p ≤ PTR_MAX) (whence : Whence)
    (hmin : IDXLEN_MIN ≤ (text key db.datoff db.datlen).length)
    (hmax : (text key db.datoff db.datlen).length ≤ IDXLEN_MAX) : ∃ db', _db_writeidx text db key o whence p = some db' ∧
    db'.idx = File.pwrite 0 db.idx (lseek db.idx o whence) (record p (text key db.datoff db.datlen)) ∧ Kept db db' ∧
    db'.idxoff = lseek db.idx o whence := by
  have hrange : ¬((p : ℤ) < 0 ∨ (PTR_MAX : ℤ) < (p : ℤ)) := by omega
  have hlen : ¬((text key db.datoff db.datlen).length < IDXLEN_MIN ∨
      IDXLEN_MAX < (text key db.datoff db.datlen).length) := by omega
  unfold _db_writeidx
  rw [if_neg hrange]
  simp only [if_neg hlen, Int.toNat_natCast]
  exact ⟨_, rfl, rfl, ⟨rfl, rfl, rfl, rfl, rfl⟩, rfl⟩

theorem Stores.writeptr (h : Stores db.idx db.dat d) (hc : d.Cell o) {p : Option ℕ}
    (hp : ∀ q, p = some q → 0 < q ∧ q ≤ PTR_MAX) : ∃ db', _db_writeptr db o (p.getD 0 : ℕ) = some db' ∧
    Stores db'.idx db'.dat { d with next := Function.update d.next o p } ∧ Kept db db' ∧ db'.idxoff = db.idxoff ∧
    db'.ptrval = db.ptrval := by
  obtain ⟨db', hrun, hidx, hkept, hrest⟩ := @writeptr_eq db o (p.getD 0) (Stores.getD_le hp)
  refine ⟨db', hrun, ?_, hkept, hrest⟩
  rw [hidx, hkept.dat]
  exact h.pwrite_ptr hc hp

theorem Stores.writeidx (h : Stores db.idx db.dat d) (hs : s ∈ d.slots) (key : CStr) {p : Option ℕ}
    (hdatoff : db.datoff = s.datoff) (hdatlen : db.datlen = s.datlen) (hkey : key.length = s.keylen)
    (hsep : SEP ∉ key.bytes) (hp : ∀ q, p = some q → 0 < q ∧ q ≤ PTR_MAX) :
    ∃ db', _db_writeidx text db key s.off .SET (p.getD 0 : ℕ) = some db' ∧ Stores db'.idx db'.dat
      { d with next := Function.update d.next s.off p, key := Function.update d.key s.off key } ∧ Kept db db' ∧
      db'.idxoff = s.off := by
  have hfits := h.fits s hs
  have hlen := length_line hkey
  rw [← hdatoff, ← hdatlen] at hlen
  obtain ⟨db', hrun, hidx, hkept, hidxoff⟩ := @writeidx_eq db s.off key (p.getD 0) (Stores.getD_le hp) .SET
    (hlen ▸ hfits.idxlen_min) (hlen ▸ hfits.idxlen_max)
  refine ⟨db', hrun, ?_, hkept, hidxoff⟩
  rw [hidx, hkept.dat, hdatoff, hdatlen]
  exact h.pwrite_record hs hkey hsep hp

/-! ### A new database -/

theorem length_zeros (n : ℕ) : (List.replicate n (field PTR_SZ 0)).flatten.length = n * PTR_SZ := by
  rw [List.length_flatten, List.map_replicate, List.sum_replicate_nat, length_ptr (Nat.zero_le _)]

theorem length_init : init.length = start := by
  rw [init, List.length_append, length_zeros]
  rfl

theorem has_init (i : Fin (NHASH_DEF + 1)) : File.Has init (cell i) (field PTR_SZ 0) := by
  have hsplit : List.replicate (NHASH_DEF + 1) (field PTR_SZ 0) =
      List.replicate i.val (field PTR_SZ 0) ++
        field PTR_SZ 0 :: List.replicate (NHASH_DEF - i.val) (field PTR_SZ 0) := by
    rw [← List.replicate_succ, ← List.replicate_add]
    congr 1
    omega
  have hhas : File.Has init 0 init := fun k _ => by rw [Nat.zero_add]
  rw [init, hsplit, List.flatten_append, List.flatten_cons, List.append_assoc, List.append_assoc, File.has_append,
    File.has_append, length_zeros] at hhas
  rw [init, hsplit, List.flatten_append, List.flatten_cons, List.append_assoc, List.append_assoc]
  rw [Nat.zero_add] at hhas
  exact hhas.2.1

theorem stores_init : Stores init [] .empty where
  tiled := ⟨length_init.symm, rfl⟩
  fits := fun _ hs => absurd hs List.not_mem_nil
  head := has_init
  slot := fun _ hs => absurd hs List.not_mem_nil
  data := fun _ hs => absurd hs List.not_mem_nil
  key := fun _ hs => absurd hs List.not_mem_nil
  datlen := fun _ hs => absurd hs List.not_mem_nil
  next := fun _ _ h => absurd h (by simp [Disk.empty])

end Apue.Db
