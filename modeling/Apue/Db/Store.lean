import Apue.Db.Delete

/-!
# Storing (db/db.c)

`Rep.store`: `db_store` returns what `stored` says, and the files bind the keys as it says, whichever way it goes: with
a record of the right sizes from the free list (`Holds.reuse`), with a new one (`Holds.append`), or with the data of the
old one written over.
-/

namespace Apue.Db

/-- What `db_store` is for: the return value, and what the keys are bound to then. -/
def stored (m : CStr → Option CStr) (key data : CStr) (flag : ℤ) : ℤ × (CStr → Option CStr) :=
  if flag ≠ DB_INSERT ∧ flag ≠ DB_REPLACE ∧ flag ≠ DB_STORE then (-1, m)
  else if m key = none then
    if flag = DB_REPLACE then (-1, m) else (0, Function.update m key (some data))
  else if flag = DB_INSERT then (1, m)
  else (0, Function.update m key (some data))

/-- What the database can take: a key without the separator, and sizes for which `db_store` does not give up. -/
structure DB.Takes (db : DB) (key data : CStr) : Prop where
  sep : SEP ∉ key.bytes
  datlen_min : DATLEN_MIN ≤ data.length + 1
  datlen_max : data.length + 1 ≤ DATLEN_MAX
  idxlen_min : IDXLEN_MIN ≤ (text key db.dat.length (data.length + 1)).length
  idxlen_max : (text key db.dat.length (data.length + 1)).length ≤ IDXLEN_MAX
  room : db.idx.length ≤ PTR_MAX

variable {db : DB} {d : Disk} {lists : Fin (NHASH_DEF + 1) → List ℕ} {m : CStr → Option CStr} {key data : CStr}
  {s : Slot} {c : ℕ}

theorem DB.Takes.congr {db' : DB} (ht : db.Takes key data) (hidx : db'.idx.length = db.idx.length)
    (hdat : db'.dat.length = db.dat.length) : db'.Takes key data := by
  refine ⟨ht.sep, ht.datlen_min, ht.datlen_max, ?_, ?_, ?_⟩
  · rw [hdat]
    exact ht.idxlen_min
  · rw [hdat]
    exact ht.idxlen_max
  · rw [hidx]
    exact ht.room

/-! ### A new record -/

theorem Holds.append (h : Holds db d lists m) (ht : db.Takes key data) (hk : m key = none)
    (hchainoff : db.chainoff = cell (chainOf key)) :
    ∃ db', append db key data (d.ptr (cell (chainOf key)) : ℕ) = some db' ∧
      Rep db' (Function.update m key (some data)) := by
  obtain ⟨s, hs⟩ : ∃ s : Slot, s = ⟨db.idx.length, db.dat.length, key.length, data.length + 1⟩ := ⟨_, rfl⟩
  have hoff : s.off = db.idx.length := by rw [hs]
  have hdatoff : s.datoff = db.dat.length := by rw [hs]
  have hkeylen : key.length = s.keylen := by rw [hs]
  have hdatlen : data.length + 1 = s.datlen := by rw [hs]
  have hlen : (text key db.dat.length (data.length + 1)).length = s.idxlen := by
    rw [← hdatoff, hdatlen]
    exact length_line hkeylen
  have hlong : s.datoff < 2 ^ 63 := by
    have hle := h.stores.tiled.dat_le h.stores.fits
    have hroom := ht.room
    unfold DATLEN_MAX at hle
    unfold PTR_MAX at hroom
    omega
  have hfits : s.Fits :=
    ⟨hlen ▸ ht.idxlen_min, hlen ▸ ht.idxlen_max, hlong, hdatlen ▸ ht.datlen_min, hdatlen ▸ ht.datlen_max⟩
  have hstart : start ≤ s.off := hoff ▸ h.stores.tiled.le.1
  have hnew : ∀ t ∈ d.slots, t.off ≠ s.off := by
    intro t ht
    have := h.stores.tiled.within ht
    have := t.size_pos
    omega
  -- both records behind the last ones
  obtain ⟨db1, hdb1⟩ : ∃ db1, db1 = _db_writedat db data 0 .END := ⟨_, rfl⟩
  have hidx1 : db1.idx = db.idx := by rw [hdb1]; rfl
  have hdat1 : db1.dat = File.pwrite 0 db.dat s.datoff (data.bytes ++ [NEWLINE]) := by rw [hdb1, hdatoff]; rfl
  have hdatoff1 : db1.datoff = s.datoff := by rw [hdb1, hdatoff]; rfl
  have hdatlen1 : db1.datlen = s.datlen := by rw [hdb1]; exact hdatlen
  have hlen1 : (text key db1.datoff db1.datlen).length = s.idxlen := by
    rw [hdatoff1, hdatlen1]
    exact length_line hkeylen
  obtain ⟨db2, hrun2, hidx2, hkept2, hidxoff2⟩ := @writeidx_eq db1 0 key (d.ptr (cell (chainOf key)))
    (h.stores.ptr_le _) .END (hlen1 ▸ hfits.idxlen_min) (hlen1 ▸ hfits.idxlen_max)
  have hend : lseek db1.idx 0 .END = s.off := by rw [hidx1, hoff]; rfl
  have h2 := h.stores.append (p := d.next (cell (chainOf key))) hoff hdatoff hfits hkeylen ht.sep hdatlen
    (h.stores.next _)
  have h2 : Stores db2.idx db2.dat ⟨d.slots ++ [s], Function.update d.next s.off (d.next (cell (chainOf key))),
      Function.update d.key s.off key, Function.update d.data s.off data⟩ := by
    rw [hidx2, hkept2.dat, hdat1, hend, hidx1, hdatoff1, hdatlen1]
    exact h2
  -- the new one to the front of the chain
  obtain ⟨db3, hrun3, h3, -, -, -⟩ := h2.writeptr (o := cell (chainOf key)) (p := some s.off) (.inl ⟨chainOf key, rfl⟩)
    fun q hq => Option.some.inj hq ▸ ⟨Nat.lt_of_lt_of_le (by decide) hstart, hoff ▸ ht.room⟩
  have hC := (h.chained.addslot hstart hnew).setdata (o := s.off) (v := data) fun hmem => by
    obtain ⟨t, ht, hto⟩ := h.chained.slot 0 s.off hmem
    exact absurd hto (hnew t ht)
  have hm : Maps ((d.addslot s).setdata s.off data) lists m := by
    refine h.maps.congr (fun k => rfl) fun k o ho => ⟨rfl, ?_⟩
    obtain ⟨t, ht, rfl⟩ := h.chained.slot (chainOf k) o ho
    exact Function.update_of_ne (hnew t ht) ..
  refine ⟨db3, ?_, ((d.addslot s).setdata s.off data).push (chainOf key) s.off key, _, h3, hC.push_chain hm hk, ?_⟩
  · unfold Db.append
    simp only [Option.bind_eq_bind]
    rw [← hdb1, show _db_writeidx text db1 key (0 : ℕ) .END (d.ptr (cell (chainOf key)) : ℕ) = some db2 from hrun2,
      Option.bind_some, hkept2.chainoff, hidxoff2, hend,
      show db1.chainoff = cell (chainOf key) by rw [hdb1]; exact hchainoff]
    exact hrun3
  · have hmaps := Maps.push hC hm hk
    simp only [Disk.setdata, Function.update_self] at hmaps ⊢
    exact hmaps

/-! ### A free record -/

theorem Stores.findfree_call (h : Stores db.idx db.dat d) (hC : Chained d lists []) (keylen datlen : ℕ) :
    (∃ db', _db_findfree db keylen datlen = some (-1, db') ∧ SameFiles db db') ∨
    ∃ db' c s, _db_findfree db keylen datlen = some (0, db') ∧ PointsTo lists 0 c s.off ∧ s ∈ d.slots ∧
      s.keylen = keylen ∧ s.datlen = datlen ∧ Stores db'.idx db'.dat (d.unlink c s.off) ∧ db'.idxoff = s.off ∧
      db'.datoff = s.datoff ∧ db'.chainoff = db.chainoff := by
  obtain ⟨db1, hdb1⟩ : ∃ db1 : DB, db1 = { db with pos := cell 0 + PTR_SZ } := ⟨_, rfl⟩
  have hidx1 : db1.idx = db.idx := by rw [hdb1]
  have hdat1 : db1.dat = db.dat := by rw [hdb1]
  have hchainoff1 : db1.chainoff = db.chainoff := by rw [hdb1]
  have h1 : Stores db1.idx db1.dat d := by rw [hidx1, hdat1]; exact h
  have hread : _db_readptr db (FREE_OFF : ℕ) = some ((d.ptr (cell 0) : ℤ), db1) := by
    rw [hdb1]
    exact h.readptr (.inl ⟨0, rfl⟩)
  have hn : (lists 0).length < db1.idx.length + 1 := Nat.lt_succ_of_le (hidx1 ▸ hC.length_le h 0)
  have hwalk := h1.findfree (c := cell 0) keylen datlen (hC.slot 0) (hC.chain 0).2 hn
  rcases hwalk with ⟨c', db', hrun, hsame⟩ | ⟨pre, c, s, post, hsplit, hs, hkeylen, hdatlen, hrun⟩
  · refine .inl ⟨db', ?_, ⟨hsame.idx.trans hidx1, hsame.dat.trans hdat1, hsame.chainoff.trans hchainoff1⟩⟩
    unfold _db_findfree
    simp only [Option.bind_eq_bind]
    rw [hread, Option.bind_some, show findfree_loop keylen datlen (db1.idx.length + 1) (FREE_OFF : ℕ)
      (d.ptr (cell 0) : ℕ) db1 = some (0, c', db') from hrun]
    rfl
  · have hpt : PointsTo lists 0 c s.off := ⟨pre, post, hsplit⟩
    have hat : Stores (db1.at d s).idx (db1.at d s).dat d := h1
    obtain ⟨db', hwrite, h', hkept, hidxoff, -⟩ := hat.writeptr (o := c) (p := d.next s.off) (hC.cell hpt.pointer_mem)
      (h.next s.off)
    refine .inr ⟨db', c, s, ?_, hpt, hs, hkeylen, hdatlen, h', hidxoff, hkept.datoff, hkept.chainoff.trans hchainoff1⟩
    unfold _db_findfree
    simp only [Option.bind_eq_bind]
    rw [hread, Option.bind_some, show findfree_loop keylen datlen (db1.idx.length + 1) (FREE_OFF : ℕ)
      (d.ptr (cell 0) : ℕ) db1 = some ((s.off : ℤ), (c : ℤ), db1.at d s) from hrun]
    simp only [Option.bind_some, if_neg (h.off_ne hs)]
    rw [show _db_writeptr (db1.at d s) (c : ℕ) (db1.at d s).ptrval = some db' from hwrite]
    rfl

theorem Holds.reuse {db' : DB} {p : Option ℕ} (h : Holds db d lists m) (hk : m key = none) (hsep : SEP ∉ key.bytes)
    (hpt : PointsTo lists 0 c s.off) (hs : s ∈ d.slots) (hkeylen : s.keylen = key.length)
    (hdatlen : s.datlen = data.length + 1) (hst : Stores db'.idx db'.dat (d.unlink c s.off))
    (hidxoff : db'.idxoff = s.off) (hdatoff : db'.datoff = s.datoff) (hchainoff : db'.chainoff = cell (chainOf key))
    (hp : p = d.next (cell (chainOf key))) :
    ∃ db'', (do
        let db := _db_writedat db' data db'.datoff .SET
        let db ← _db_writeidx text db key db.idxoff .SET (p.getD 0 : ℕ)
        let db ← _db_writeptr db db.chainoff db.idxoff
        some ((0 : ℤ), db)) = some (0, db'') ∧ Rep db'' (Function.update m key (some data)) := by
  have hoff : 0 < s.off ∧ s.off ≤ PTR_MAX := h.stores.next c s.off (h.chained.next_eq hpt)
  have hhead : (d.unlink c s.off).next (cell (chainOf key)) = p := by
    have hne : cell (chainOf key) ≠ c := fun hc =>
      h.chained.notMem hpt.pointer_mem (chainOf_ne key) (hc ▸ List.mem_cons_self)
    rw [hp]
    exact Function.update_of_ne hne ..
  obtain ⟨db1, hdb1⟩ : ∃ db1, db1 = _db_writedat db' data db'.datoff .SET := ⟨_, rfl⟩
  have h1 : Stores db1.idx db1.dat ((d.unlink c s.off).setdata s.off data) := by
    rw [hdb1, hdatoff]
    exact hst.pwrite_data hs hdatlen.symm
  have hidxoff1 : db1.idxoff = s.off := by rw [hdb1]; exact hidxoff
  obtain ⟨db2, hrun2, h2, hkept2, hidxoff2⟩ := h1.writeidx (p := p) hs key (by rw [hdb1]; exact hdatoff)
    (by rw [hdb1]; exact hdatlen.symm) hkeylen.symm hsep (hp ▸ h.stores.next _)
  obtain ⟨db3, hrun3, h3, -, -, -⟩ := h2.writeptr (o := cell (chainOf key)) (p := some s.off) (.inl ⟨chainOf key, rfl⟩)
    fun q hq => Option.some.inj hq ▸ hoff
  have hC := (h.chained.unlink hpt).setdata (o := s.off) (v := data) fun hmem =>
    absurd rfl (h.chained.mem_erase.mp hmem).2
  have hchains : ∀ k, s.off ∉ lists (chainOf k) := fun k hmem =>
    chainOf_ne k (h.chained.apart _ _ s.off hmem hpt.mem)
  have hm : Maps ((d.unlink c s.off).setdata s.off data) (fun j => (lists j).erase s.off) m := by
    refine h.maps.congr (fun k => List.erase_of_not_mem (hchains k)) fun k o ho => ⟨rfl, ?_⟩
    have hne : o ≠ s.off := fun hoo => hchains k (hoo ▸ ho)
    exact Function.update_of_ne hne ..
  refine ⟨db3, ?_, ((d.unlink c s.off).setdata s.off data).push (chainOf key) s.off key, _, ?_, hC.push_chain hm hk, ?_⟩
  · simp only [Option.bind_eq_bind]
    rw [← hdb1, hidxoff1, hrun2, Option.bind_some, hkept2.chainoff, hidxoff2,
      show db1.chainoff = cell (chainOf key) by rw [hdb1]; exact hchainoff,
      show _db_writeptr db2 (cell (chainOf key) : ℕ) (s.off : ℕ) = some db3 from hrun3]
    rfl
  · rw [Disk.push, show ((d.unlink c s.off).setdata s.off data).next (cell (chainOf key)) = p from hhead]
    exact h3
  · have hmaps := Maps.push hC hm hk
    simp only [Disk.setdata, Function.update_self] at hmaps ⊢
    exact hmaps

/-! ### The call -/

theorem Rep.store (h : Rep db m) (ht : db.Takes key data) (flag : ℤ) :
    ∃ db', db_store text db key data flag = some ((stored m key data flag).1, db') ∧ Rep db' (stored m key data flag).2 := by
  unfold db_store stored
  have hlen : ¬(data.length + 1 < DATLEN_MIN ∨ DATLEN_MAX < data.length + 1) := by
    have := ht.datlen_min
    have := ht.datlen_max
    omega
  by_cases hflag : flag ≠ DB_INSERT ∧ flag ≠ DB_REPLACE ∧ flag ≠ DB_STORE
  · simp only [if_pos hflag]
    exact ⟨db, rfl, h⟩
  simp only [if_neg hflag, if_neg hlen, Option.bind_eq_bind]
  obtain ⟨d, lists, hh⟩ := h
  rcases hh.stores.find_and_lock hh.chained key with ⟨db1, hrun, hidx, hdat, hchainoff, hnot⟩ |
    ⟨db1, c, s, hrun, hidx, hdat, hchainoff, hpt, hs, hkey, hptroff, hat⟩
  · have hnone := hh.maps.none_iff.mpr hnot
    have hh1 : Holds db1 d lists m := ⟨by rw [hidx, hdat]; exact hh.stores, hh.chained, hh.maps⟩
    simp only [hrun, Option.bind_some, if_pos hnone]
    rw [if_pos (by decide)]
    by_cases hreplace : flag = DB_REPLACE
    · simp only [if_pos hreplace]
      exact ⟨db1, rfl, d, lists, hh1⟩
    simp only [if_neg hreplace]
    obtain ⟨db2, hdb2⟩ : ∃ db2 : DB, db2 = { db1 with pos := cell (chainOf key) + PTR_SZ } := ⟨_, rfl⟩
    have hread : _db_readptr db1 db1.chainoff = some ((d.ptr (cell (chainOf key)) : ℤ), db2) := by
      rw [hdb2]
      exact hh1.stores.readptr_chain hchainoff
    have hh2 : Holds db2 d lists m := ⟨by rw [hdb2]; exact hh1.stores, hh.chained, hh.maps⟩
    have hchainoff2 : db2.chainoff = cell (chainOf key) := by rw [hdb2]; exact hchainoff
    simp only [hread, Option.bind_some]
    rcases hh2.stores.findfree_call hh2.chained key.length (data.length + 1) with ⟨db3, hfree, hsame⟩ |
      ⟨db3, c, s, hfree, hpt, hs, hkeylen, hdatlen, hst, hidxoff, hdatoff, hchainoff3⟩
    · have hh3 : Holds db3 d lists m := ⟨by rw [hsame.idx, hsame.dat]; exact hh2.stores, hh.chained, hh.maps⟩
      have ht3 : db3.Takes key data := by
        refine ht.congr ?_ ?_
        · rw [hsame.idx, hdb2, hidx]
        · rw [hsame.dat, hdb2, hdat]
      obtain ⟨db4, happend, hrep⟩ := hh3.append ht3 hnone (hsame.chainoff.trans hchainoff2)
      refine ⟨db4, ?_, hrep⟩
      simp only [hfree, Option.bind_some]
      rw [if_pos (by decide), happend]
      rfl
    · obtain ⟨db4, hrun4, hrep⟩ := hh2.reuse hnone ht.sep hpt hs hkeylen hdatlen hst hidxoff hdatoff
        (hchainoff3.trans hchainoff2) rfl
      refine ⟨db4, ?_, hrep⟩
      simp only [hfree, Option.bind_some]
      rw [if_neg (by decide)]
      exact hrun4
  · have hsome : m key ≠ none := fun hnone => hh.maps.none_iff.mp hnone s.off hpt.mem hkey
    have hh1 : Holds db1 d lists m := ⟨by rw [hidx, hdat]; exact hh.stores, hh.chained, hh.maps⟩
    simp only [hrun, Option.bind_some, if_neg hsome]
    rw [if_neg (by decide)]
    by_cases hinsert : flag = DB_INSERT
    · simp only [if_pos hinsert]
      exact ⟨db1, rfl, d, lists, hh1⟩
    simp only [if_neg hinsert]
    by_cases hsize : data.length + 1 = db1.datlen
    · -- the data are written over
      have hst : Stores (_db_writedat db1 data db1.datoff .SET).idx (_db_writedat db1 data db1.datoff .SET).dat
          (d.setdata s.off data) := by
        rw [hat.datoff]
        exact hh1.stores.pwrite_data hs (hsize.trans hat.datlen)
      refine ⟨_, by rw [if_neg (not_not.mpr hsize)], d.setdata s.off data, lists, hst, ?_, ?_⟩
      · exact hh.chained.setdata fun hmem => absurd (hh.chained.apart _ _ s.off hmem hpt.mem) (chainOf_ne key).symm
      · subst hkey
        exact hh.maps.setdata hh.chained hpt.mem
    · -- the old record is deleted, and there is a new one
      obtain ⟨db2, hdel, hh2, hchainoff2⟩ := hh1.dodelete hpt hs hkey hptroff hat
      have hsizes := hh1.same_size hh2 rfl
      rw [hidx, hdat] at hsizes
      obtain ⟨db3, hdb3⟩ : ∃ db3 : DB, db3 = { db2 with pos := cell (chainOf key) + PTR_SZ } := ⟨_, rfl⟩
      have hread : _db_readptr db2 db2.chainoff = some (((d.free c s).ptr (cell (chainOf key)) : ℤ), db3) := by
        rw [hdb3]
        exact hh2.stores.readptr_chain (hchainoff2.trans hchainoff)
      have hh3 : Holds db3 (d.free c s) (freed lists s.off) (Function.update m key none) :=
        ⟨by rw [hdb3]; exact hh2.stores, hh2.chained, hh2.maps⟩
      have ht3 : db3.Takes key data := by
        refine ht.congr ?_ ?_
        · rw [hdb3, hsizes.1]
        · rw [hdb3, hsizes.2]
      obtain ⟨db4, happend, hrep⟩ := hh3.append ht3 (Function.update_self ..)
        (by rw [hdb3]; exact hchainoff2.trans hchainoff)
      refine ⟨db4, ?_, by rwa [Function.update_idem] at hrep⟩
      rw [if_pos hsize, hdel, Option.bind_some, hread]
      simp only [Option.bind_some, happend]

end Apue.Db
