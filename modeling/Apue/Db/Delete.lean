import Apue.Db.Walk

/-!
# Finding and deleting (db/db.c)

`Rep db m`: the files of the database bind the keys as `m` does. `Rep.fetch` and `Rep.delete`: the calls return what `m`
says, and a deleted record goes blank to the free list (`Stores.dodelete`).
-/

namespace Apue.Db

structure Holds (db : DB) (d : Disk) (lists : Fin (NHASH_DEF + 1) → List ℕ) (m : CStr → Option CStr) : Prop where
  stores : Stores db.idx db.dat d
  chained : Chained d lists []
  maps : Maps d lists m

def Rep (db : DB) (m : CStr → Option CStr) : Prop := ∃ d lists, Holds db d lists m

variable {db : DB} {d : Disk} {lists : Fin (NHASH_DEF + 1) → List ℕ} {out : List ℕ} {m : CStr → Option CStr}
  {key : CStr} {s : Slot} {c : ℕ}

/-! ### Finding -/

/-- The record is the one in the buffers. -/
structure DB.Is (db : DB) (d : Disk) (s : Slot) : Prop where
  idxbuf : db.idxbuf = d.key s.off
  idxoff : db.idxoff = s.off
  datoff : db.datoff = s.datoff
  datlen : db.datlen = s.datlen
  ptrval : db.ptrval = d.ptr s.off

theorem Chained.length_le (h : Chained d lists out) {idx dat : List UInt8} (hst : Stores idx dat d)
    (i : Fin (NHASH_DEF + 1)) : (lists i).length ≤ idx.length := by
  have hsub : lists i ⊆ List.range idx.length := by
    intro o ho
    obtain ⟨s, hs, rfl⟩ := h.slot i o ho
    have := hst.tiled.within hs
    have := s.size_pos
    rw [List.mem_range]
    omega
  have hle := ((h.nodup i).subperm hsub).length_le
  rwa [List.length_range] at hle

theorem chainoff_eq (key : CStr) : (_db_hash key).val * PTR_SZ + HASH_OFF = cell (chainOf key) := by
  rw [cell, chainOf, Fin.val_succ, HASH_OFF]
  ring

theorem Stores.find_and_lock (h : Stores db.idx db.dat d) (hC : Chained d lists out) (key : CStr) :
    (∃ db', _db_find_and_lock db key = some (-1, db') ∧ db'.idx = db.idx ∧ db'.dat = db.dat ∧
      db'.chainoff = cell (chainOf key) ∧ ∀ o ∈ lists (chainOf key), d.key o ≠ key) ∨
    ∃ db' c s, _db_find_and_lock db key = some (0, db') ∧ db'.idx = db.idx ∧ db'.dat = db.dat ∧
      db'.chainoff = cell (chainOf key) ∧ PointsTo lists (chainOf key) c s.off ∧ s ∈ d.slots ∧ d.key s.off = key ∧
      db'.ptroff = (c : ℕ) ∧ db'.Is d s := by
  have hchain := (hC.chain (chainOf key)).2
  have hn : (lists (chainOf key)).length < db.idx.length + 1 := Nat.lt_succ_of_le (hC.length_le h _)
  obtain ⟨db1, hdb1⟩ : ∃ db1 : DB, db1 = { db with pos := cell (chainOf key) + PTR_SZ, ptroff := cell (chainOf key),
                                                   chainoff := cell (chainOf key) } := ⟨_, rfl⟩
  have h1 : Stores db1.idx db1.dat d := by rw [hdb1]; exact h
  have hidx : db1.idx = db.idx := by rw [hdb1]
  have hdat : db1.dat = db.dat := by rw [hdb1]
  have hchainoff : db1.chainoff = cell (chainOf key) := by rw [hdb1]
  have hstart : _db_find_and_lock db key = (find_loop key (db1.idx.length + 1) (d.ptr (cell (chainOf key))) db1).bind
      fun x => some (if x.1 = 0 then -1 else 0, x.2) := by
    have hread := @Stores.readptr d { db with chainoff := cell (chainOf key), ptroff := cell (chainOf key) } _ h
      (.inl ⟨chainOf key, rfl⟩)
    unfold _db_find_and_lock
    simp only [chainoff_eq, hread, Option.bind_eq_bind, Option.bind_some]
    rw [← hdb1, hidx]
  rw [hidx] at hstart
  rcases h1.find key (hC.slot (chainOf key)) hchain hn (by rw [hdb1]) with
    ⟨db', hrun, hsame, hnot⟩ | ⟨pre, c, s, post, hsplit, hs, hkey, hrun⟩
  · refine .inl ⟨db', ?_, hsame.idx.trans hidx, hsame.dat.trans hdat, hsame.chainoff.trans hchainoff, hnot⟩
    rw [hstart, Disk.ptr, hrun, Option.bind_some]
    rfl
  · refine .inr ⟨{ db1.at d s with ptroff := c }, c, s, ?_, hidx, hdat, hchainoff, ⟨pre, post, hsplit⟩, hs, hkey, rfl,
      rfl, rfl, rfl, rfl, rfl⟩
    rw [hstart, Disk.ptr, hrun, Option.bind_some]
    simp only [if_neg (h.off_ne hs)]

theorem Stores.readptr_chain (h : Stores db.idx db.dat d) (hchainoff : db.chainoff = cell (chainOf key)) :
    _db_readptr db db.chainoff =
      some ((d.ptr (cell (chainOf key)) : ℤ), { db with pos := cell (chainOf key) + PTR_SZ }) := by
  rw [show (db.chainoff : ℤ) = (cell (chainOf key) : ℕ) by rw [hchainoff]]
  exact h.readptr (.inl ⟨chainOf key, rfl⟩)

theorem Rep.fetch (h : Rep db m) (key : CStr) :
    ∃ db', db_fetch db key = some (m key, db') ∧ db'.idx = db.idx ∧ db'.dat = db.dat := by
  obtain ⟨d, lists, hst, hC, hm⟩ := h
  rcases hst.find_and_lock hC key with ⟨db', hrun, hidx, hdat, -, hnot⟩ |
    ⟨db', c, s, hrun, hidx, hdat, -, hpt, hs, hkey, -, hat⟩
  · refine ⟨db', ?_, hidx, hdat⟩
    unfold db_fetch
    rw [hrun, hm.none_iff.mpr hnot]
    rfl
  · have hst' : Stores db'.idx db'.dat d := by rw [hidx, hdat]; exact hst
    have hread := hst'.readdat hs hat.datoff hat.datlen
    have hval : m key = some (d.data s.off) := (hm key _).mpr ⟨s.off, hpt.mem, hkey, rfl⟩
    refine ⟨{ db' with datbuf := d.data s.off }, ?_, hidx, hdat⟩
    unfold db_fetch
    rw [hrun, hval]
    simp only [Option.bind_eq_bind, Option.bind_some, hread]
    rfl

/-! ### Deleting -/

theorem length_blanks (n : ℕ) : (blanks n).length = n := List.length_replicate

theorem blank_blanks (n : ℕ) : Blank (blanks n) := fun _ hc => List.eq_of_mem_replicate hc

theorem sep_notMem_blanks (n : ℕ) : SEP ∉ (blanks n).bytes := fun h =>
  absurd (blank_blanks n SEP h) (by decide)

/-- What becomes of the disk when a record goes to the free list. -/
def Disk.free (d : Disk) (c : ℕ) (s : Slot) : Disk :=
  ((d.unlink c s.off).setdata s.off (blanks (s.datlen - 1))).push 0 s.off (blanks s.keylen)

def freed (lists : Fin (NHASH_DEF + 1) → List ℕ) (o : ℕ) : Fin (NHASH_DEF + 1) → List ℕ :=
  Function.update (fun j => (lists j).erase o) 0 (o :: (lists 0).erase o)

theorem Chained.free (h : Chained d lists []) {i : Fin (NHASH_DEF + 1)} (hpt : PointsTo lists i c s.off) :
    Chained (d.free c s) (freed lists s.off) [] := by
  have hunlink := (h.unlink hpt).setdata (o := s.off) (v := blanks (s.datlen - 1)) fun _ => blank_blanks _
  refine hunlink.push (fun g hg => absurd hg (Fin.succ_ne_zero g).symm) fun _ => ⟨blank_blanks _, ?_⟩
  simp only [Disk.setdata, Function.update_self]
  exact blank_blanks _

theorem Disk.free_eq (d : Disk) (hco : c ≠ s.off) (hc0 : c ≠ cell 0) : d.free c s =
    ⟨d.slots, Function.update (Function.update (Function.update d.next s.off (d.next (cell 0))) (cell 0) (some s.off)) c
      (d.next s.off), Function.update d.key s.off (blanks s.keylen),
      Function.update d.data s.off (blanks (s.datlen - 1))⟩ := by
  simp only [Disk.free, Disk.push, Disk.setdata, Disk.unlink, Function.update_of_ne hc0.symm]
  rw [Function.update_comm hco, Function.update_comm hc0]

theorem Chained.cell (h : Chained d lists out) {i : Fin (NHASH_DEF + 1)} (hc : c ∈ cell i :: lists i) : d.Cell c := by
  rcases List.mem_cons.mp hc with rfl | hc
  · exact .inl ⟨i, rfl⟩
  · obtain ⟨s, hs, rfl⟩ := h.slot i c hc
    exact .inr ⟨s, hs, rfl⟩

theorem Stores.dodelete (h : Stores db.idx db.dat d) (hC : Chained d lists []) {i : Fin (NHASH_DEF + 1)} (hi : i ≠ 0)
    (hpt : PointsTo lists i c s.off) (hs : s ∈ d.slots) (hptroff : db.ptroff = c) (hat : db.Is d s) :
    ∃ db', _db_dodelete text db = some db' ∧ Stores db'.idx db'.dat (d.free c s) ∧ db'.chainoff = db.chainoff := by
  have hblanks : (blanks (s.datlen - 1)).length + 1 = s.datlen := by
    have := (h.fits s hs).datlen_min
    rw [length_blanks]
    simp only [DATLEN_MIN] at this
    omega
  have hoff : 0 < s.off ∧ s.off ≤ PTR_MAX := h.next c s.off (hC.next_eq hpt)
  -- the data go blank
  obtain ⟨db1, hdb1⟩ : ∃ db1, db1 = _db_writedat
    { db with idxbuf := blanks db.idxbuf.length, datbuf := blanks (db.datlen - 1) } (blanks (db.datlen - 1)) db.datoff
    .SET := ⟨_, rfl⟩
  have hidxbuf1 : db1.idxbuf = blanks s.keylen := by
    rw [hdb1, ← (h.key s hs).1, ← hat.idxbuf]
    rfl
  have hptrval1 : db1.ptrval = d.ptr s.off := by rw [hdb1]; exact hat.ptrval
  have h1 : Stores db1.idx db1.dat (d.setdata s.off (blanks (s.datlen - 1))) := by
    rw [hdb1, hat.datlen, hat.datoff]
    exact h.pwrite_data hs hblanks
  -- the record gets the pointer to the first free one
  have hread := h1.readptr (o := Db.cell 0) (.inl ⟨0, rfl⟩)
  obtain ⟨db2, hdb2⟩ : ∃ db2 : DB, db2 = { db1 with pos := Db.cell 0 + PTR_SZ } := ⟨_, rfl⟩
  rw [← hdb2] at hread
  have h2 : Stores db2.idx db2.dat (d.setdata s.off (blanks (s.datlen - 1))) := by
    rw [hdb2]
    exact h1
  obtain ⟨db3, hrun3, h3, hkept3, hidxoff3⟩ := h2.writeidx (p := d.next (Db.cell 0)) hs (blanks s.keylen)
    (by rw [hdb2, hdb1]; exact hat.datoff) (by rw [hdb2, hdb1, hat.datlen]; exact hblanks) (length_blanks _)
    (sep_notMem_blanks _) (h.next (Db.cell 0))
  -- it becomes the first free one
  obtain ⟨db4, hrun4, h4, hkept4, -, -⟩ := h3.writeptr (o := Db.cell 0) (p := some s.off) (.inl ⟨0, rfl⟩)
    fun q hq => Option.some.inj hq ▸ hoff
  -- its chain goes on behind it
  have hcell : d.Cell c := hC.cell hpt.pointer_mem
  obtain ⟨db5, hrun5, h5, hkept5, -, -⟩ := h4.writeptr (o := c) (p := d.next s.off) hcell (h.next s.off)
  refine ⟨db5, ?_, ?_, ?_⟩
  · unfold _db_dodelete
    have hidxbuf2 : db2.idxbuf = blanks s.keylen := by rw [hdb2]; exact hidxbuf1
    have hidxoff2 : db2.idxoff = s.off := by rw [hdb2, hdb1]; exact hat.idxoff
    have hptrval2 : db2.ptrval = (d.next s.off).getD 0 := by rw [hdb2]; exact hptrval1
    have hptroff4 : db4.ptroff = c := by
      rw [hkept4.ptroff, hkept3.ptroff, hdb2, hdb1]
      exact hptroff
    have hread' : _db_readptr db1 (FREE_OFF : ℕ) = some ((((d.next (Db.cell 0)).getD 0 : ℕ) : ℤ), db2) := hread
    simp only [Option.bind_eq_bind]
    rw [← hdb1, hread', Option.bind_some, hidxbuf2, hidxoff2, hrun3, Option.bind_some, hidxoff3,
      show _db_writeptr db3 (FREE_OFF : ℕ) (s.off : ℕ) = some db4 from hrun4, Option.bind_some, hptroff4, hptrval2,
      hrun5]
  · have hc0 : c ≠ Db.cell 0 := fun hc => hC.notMem hpt.pointer_mem hi.symm (hc ▸ List.mem_cons_self)
    rw [Disk.free_eq d (hC.pointer_ne hpt) hc0]
    exact h5
  · rw [hkept5.chainoff, hkept4.chainoff, hkept3.chainoff, hdb2, hdb1]
    rfl

theorem chainOf_ne (k : CStr) : chainOf k ≠ 0 := Fin.succ_ne_zero _

theorem Holds.dodelete (h : Holds db d lists m) (hpt : PointsTo lists (chainOf key) c s.off) (hs : s ∈ d.slots)
    (hkey : d.key s.off = key) (hptroff : db.ptroff = c) (hat : db.Is d s) :
    ∃ db', _db_dodelete text db = some db' ∧ Holds db' (d.free c s) (freed lists s.off) (Function.update m key none) ∧
      db'.chainoff = db.chainoff := by
  obtain ⟨db', hrun, hst, hchainoff⟩ := h.stores.dodelete h.chained (chainOf_ne key) hpt hs hptroff hat
  refine ⟨db', hrun, ⟨hst, h.chained.free hpt, ?_⟩, hchainoff⟩
  subst hkey
  refine h.maps.erase h.chained hpt.mem (fun k o' => ?_) (fun o' ho' => ?_) fun o' ho' => ?_
  · rw [freed, Function.update_of_ne (chainOf_ne k)]
    exact h.chained.mem_erase
  · exact Function.update_of_ne ho' ..
  · exact Function.update_of_ne ho' ..

theorem Holds.same_size {db' : DB} {d' : Disk} {lists' : Fin (NHASH_DEF + 1) → List ℕ} {m' : CStr → Option CStr}
    (h : Holds db d lists m) (h' : Holds db' d' lists' m') (hslots : d'.slots = d.slots) :
    db'.idx.length = db.idx.length ∧ db'.dat.length = db.dat.length :=
  h.stores.tiled.unique (hslots ▸ h'.stores.tiled)

theorem Rep.delete (h : Rep db m) (key : CStr) :
    ∃ db', db_delete text db key = some (if m key = none then -1 else 0, db') ∧ Rep db' (Function.update m key none) ∧
      db'.idx.length = db.idx.length ∧ db'.dat.length = db.dat.length := by
  obtain ⟨d, lists, hh⟩ := h
  rcases hh.stores.find_and_lock hh.chained key with ⟨db', hrun, hidx, hdat, -, hnot⟩ |
    ⟨db', c, s, hrun, hidx, hdat, -, hpt, hs, hkey, hptroff, hat⟩
  · have hnone := hh.maps.none_iff.mpr hnot
    have hsame : Function.update m key none = m := by rw [← hnone, Function.update_eq_self]
    refine ⟨db', ?_, ⟨d, lists, ?_⟩, by rw [hidx], by rw [hdat]⟩
    · unfold db_delete
      rw [hrun, if_pos hnone]
      rfl
    · rw [hsame]
      exact ⟨by rw [hidx, hdat]; exact hh.stores, hh.chained, hh.maps⟩
  · have hh' : Holds db' d lists m := ⟨by rw [hidx, hdat]; exact hh.stores, hh.chained, hh.maps⟩
    obtain ⟨db'', hdel, hholds, -⟩ := hh'.dodelete hpt hs hkey hptroff hat
    have hsome : m key ≠ none := fun hnone => hh.maps.none_iff.mp hnone s.off hpt.mem hkey
    refine ⟨db'', ?_, ⟨_, _, hholds⟩, hh.same_size hholds rfl⟩
    unfold db_delete
    rw [hrun, if_neg hsome]
    simp only [Option.bind_eq_bind, Option.bind_some, if_true, hdel]

end Apue.Db
