import Apue.Db.Store

/-!
# Going through the records (db/db.c)

`Rep.nextrec`: after `db_rewind` the calls of `db_nextrec` return every binding once, but for blank keys, which are
those of deleted records, and then null pointers. `Rep.files`: the two files have nothing but what is bound, and blanks.
-/

namespace Apue.Db

variable {db : DB} {d : Disk} {lists : Fin (NHASH_DEF + 1) → List ℕ} {m : CStr → Option CStr} {s : Slot}

/-- The next records are these. -/
structure Reading (db : DB) (d : Disk) (rest : List Slot) : Prop where
  stores : Stores db.idx db.dat d
  tiled : ∃ datoff, Tiled db.pos datoff rest db.idx.length db.dat.length
  mem : ∀ s ∈ rest, s ∈ d.slots

def bindings (d : Disk) (l : List Slot) : List (CStr × CStr) :=
  (l.filter fun s => ¬Blank (d.key s.off)).map fun s => (d.key s.off, d.data s.off)

theorem Reading.at {rest : List Slot} (h : Reading db d (s :: rest)) :
    _db_readidx db 0 = some ((d.ptr s.off : ℤ), db.at d s) ∧ Reading (db.at d s) d rest := by
  obtain ⟨datoff, hoff, -, hrest⟩ := h.tiled
  constructor
  · exact h.stores.readidx (h.mem s List.mem_cons_self) (o := 0) (.inr ⟨rfl, hoff.symm⟩)
  · refine ⟨h.stores, ⟨datoff + s.datlen, ?_⟩, fun t ht => h.mem t (List.mem_cons_of_mem s ht)⟩
    rw [← hoff] at hrest
    exact hrest

theorem Reading.loop {rest : List Slot} {n : ℕ} (h : Reading db d rest) (hn : rest.length < n) :
    (bindings d rest = [] ∧ ∃ db', nextrec_loop n db = some (false, db') ∧ db'.idx = db.idx ∧ db'.dat = db.dat ∧
      Reading db' d []) ∨
    ∃ s post db', nextrec_loop n db = some (true, db') ∧ db'.idx = db.idx ∧ db'.dat = db.dat ∧ Reading db' d post ∧
      s ∈ d.slots ∧ db'.Is d s ∧ bindings d rest = (d.key s.off, d.data s.off) :: bindings d post := by
  induction rest generalizing db n with
  | nil =>
    obtain ⟨n, rfl⟩ : ∃ n', n = n' + 1 := ⟨n - 1, by simp at hn; omega⟩
    obtain ⟨datoff, hpos, -⟩ := id h.tiled
    refine .inl ⟨rfl, { db with idxoff := db.pos }, ?_, rfl, rfl, h.stores, h.tiled, h.mem⟩
    unfold nextrec_loop
    simp only [readidx_eof hpos, Option.bind_eq_bind, Option.bind_some]
    rfl
  | cons s rest ih =>
    obtain ⟨n, rfl⟩ : ∃ n', n = n' + 1 := ⟨n - 1, by simp at hn; omega⟩
    obtain ⟨hread, hrest⟩ := h.at
    have hpos : ¬(d.ptr s.off : ℤ) < 0 := Int.not_lt.mpr (Int.natCast_nonneg _)
    by_cases hblank : Blank (d.key s.off)
    · have hstep : nextrec_loop (n + 1) db = nextrec_loop n (db.at d s) := by
        conv_lhs => unfold nextrec_loop
        simp only [hread, Option.bind_eq_bind, Option.bind_some, if_neg hpos]
        rw [if_pos (show Blank (db.at d s).idxbuf from hblank)]
      have hskip : bindings d (s :: rest) = bindings d rest := by
        unfold bindings
        rw [List.filter_cons_of_neg (by simpa using hblank)]
      rw [hstep, hskip]
      exact ih hrest (Nat.lt_of_succ_lt_succ hn)
    · refine .inr ⟨s, rest, db.at d s, ?_, rfl, rfl, hrest, h.mem s List.mem_cons_self, ⟨rfl, rfl, rfl, rfl, rfl⟩, ?_⟩
      · unfold nextrec_loop
        simp only [hread, Option.bind_eq_bind, Option.bind_some, if_neg hpos]
        rw [if_neg (show ¬Blank (db.at d s).idxbuf from hblank)]
      · unfold bindings
        rw [List.filter_cons_of_pos (by simpa using hblank), List.map_cons]

theorem Reading.length_le {rest : List Slot} (h : Reading db d rest) : rest.length ≤ db.idx.length := by
  obtain ⟨datoff, htiled⟩ := h.tiled
  have := htiled.length_le
  omega

theorem Reading.nextrec {rest : List Slot} (h : Reading db d rest) :
    ∃ db' post, db_nextrec db = some ((bindings d rest).head?, db') ∧ db'.idx = db.idx ∧ db'.dat = db.dat ∧
      Reading db' d post ∧ bindings d post = (bindings d rest).tail := by
  rcases h.loop (Nat.lt_succ_of_le h.length_le) with ⟨hnil, db', hrun, hidx, hdat, hend⟩ |
    ⟨s, post, db', hrun, hidx, hdat, hpost, hs, hat, hcons⟩
  · refine ⟨db', [], ?_, hidx, hdat, hend, by rw [hnil]; rfl⟩
    unfold db_nextrec
    rw [hrun, hnil]
    rfl
  · have hread := hpost.stores.readdat hs hat.datoff hat.datlen
    refine ⟨{ db' with datbuf := d.data s.off }, post, ?_, hidx, hdat, ⟨hpost.stores, hpost.tiled, hpost.mem⟩,
      by rw [hcons]; rfl⟩
    unfold db_nextrec
    rw [hrun, hcons]
    simp only [Option.bind_eq_bind, Option.bind_some, if_true, hread, hat.idxbuf, List.head?_cons]

/-- So many calls of `db_nextrec`. -/
def nextrecs : ℕ → DB → Option (List (Option (CStr × CStr)) × DB)
  | 0, db => some ([], db)
  | n + 1, db => do
    let (ptr, db) ← db_nextrec db
    let (ptrs, db) ← nextrecs n db
    some (ptr :: ptrs, db)

theorem Reading.nextrecs {rest : List Slot} (h : Reading db d rest) (n : ℕ) :
    ∃ db', nextrecs n db = some ((List.range n).map fun i => (bindings d rest)[i]?, db') ∧ db'.idx = db.idx ∧
      db'.dat = db.dat := by
  induction n generalizing db rest with
  | zero => exact ⟨db, rfl, rfl, rfl⟩
  | succ n ih =>
    obtain ⟨db₁, post, hrun, hidx, hdat, hpost, htail⟩ := h.nextrec
    obtain ⟨db₂, hrest, hidx', hdat'⟩ := ih hpost
    refine ⟨db₂, ?_, hidx'.trans hidx, hdat'.trans hdat⟩
    unfold Db.nextrecs
    simp only [hrun, hrest, Option.bind_eq_bind, Option.bind_some, htail, List.range_succ_eq_map, List.map_cons,
      List.map_map, List.head?_eq_getElem?]
    congr 3
    refine List.map_congr_left fun i _ => ?_
    simp

/-! ### What the records are -/

theorem Holds.live (h : Holds db d lists m) (hs : s ∈ d.slots) (hblank : ¬Blank (d.key s.off)) :
    s.off ∈ lists (chainOf (d.key s.off)) := by
  obtain ⟨i, hi⟩ := (h.chained.cover s hs).resolve_left List.not_mem_nil
  cases i using Fin.cases with
  | zero => exact absurd (h.chained.blank s.off hi).1 hblank
  | succ g =>
    rw [chainOf, h.chained.hash g s.off hi]
    exact hi

theorem Holds.mem_bindings (h : Holds db d lists m) {k v : CStr} :
    (k, v) ∈ bindings d d.slots ↔ m k = some v ∧ ¬Blank k := by
  simp only [bindings, List.mem_map, List.mem_filter, decide_eq_true_eq, Prod.mk.injEq]
  constructor
  · rintro ⟨s, ⟨hs, hblank⟩, rfl, rfl⟩
    exact ⟨(h.maps _ _).mpr ⟨s.off, h.live hs hblank, rfl, rfl⟩, hblank⟩
  · rintro ⟨hm, hblank⟩
    obtain ⟨o, ho, rfl, rfl⟩ := (h.maps k v).mp hm
    obtain ⟨s, hs, rfl⟩ := h.chained.slot _ o ho
    exact ⟨s, ⟨hs, hblank⟩, rfl, rfl⟩

theorem Holds.nodup_bindings (h : Holds db d lists m) : ((bindings d d.slots).map Prod.fst).Nodup := by
  unfold bindings
  rw [List.map_map]
  refine List.Nodup.map_on ?_ (h.stores.tiled.nodup.filter _)
  intro s hs t ht hkey
  simp only [List.mem_filter, decide_eq_true_eq] at hs ht
  have hkey : d.key s.off = d.key t.off := hkey
  have hmem := h.live ht.1 ht.2
  rw [← hkey] at hmem
  exact h.stores.tiled.eq_of_off hs.1 ht.1 (h.chained.unique _ s.off (h.live hs.1 hs.2) t.off hmem hkey)

theorem Rep.nextrec (h : Rep db m) : ∃ l : List (CStr × CStr), (l.map Prod.fst).Nodup ∧
    (∀ k v, (k, v) ∈ l ↔ m k = some v ∧ ¬Blank k) ∧
    ∀ n, ∃ db', nextrecs n (db_rewind db) = some ((List.range n).map fun i => l[i]?, db') ∧ db'.idx = db.idx ∧
      db'.dat = db.dat := by
  obtain ⟨d, lists, hh⟩ := h
  have hreading : Reading (db_rewind db) d d.slots := ⟨hh.stores, ⟨0, hh.stores.tiled⟩, fun _ hs => hs⟩
  exact ⟨bindings d d.slots, hh.nodup_bindings, fun _ _ => hh.mem_bindings, hreading.nextrecs⟩

/-! ### What the files have -/

structure Entry where
  ptr : ℕ
  key : CStr
  datoff : ℕ
  data : CStr

def Entry.idx (e : Entry) : List UInt8 := record e.ptr (text e.key e.datoff (e.data.length + 1))

def Entry.dat (e : Entry) : List UInt8 := e.data.bytes ++ [NEWLINE]

def Disk.entry (d : Disk) (s : Slot) : Entry := ⟨d.ptr s.off, d.key s.off, s.datoff, d.data s.off⟩

theorem drop_eq_append {file bytes : List UInt8} {off : ℕ} (h : File.Has file off bytes) :
    file.drop off = bytes ++ file.drop (off + bytes.length) := by
  conv_lhs => rw [← List.take_append_drop bytes.length (file.drop off)]
  rw [show (file.drop off).take bytes.length = bytes from h.pread, List.drop_drop]

theorem Stores.entries {idx dat : List UInt8} (h : Stores idx dat d) {l : List Slot} (hl : ∀ s ∈ l, s ∈ d.slots)
    {off datoff : ℕ} (htiled : Tiled off datoff l idx.length dat.length) :
    idx.drop off = l.flatMap (fun s => (d.entry s).idx) ∧ dat.drop datoff = l.flatMap fun s => (d.entry s).dat := by
  induction l generalizing off datoff with
  | nil =>
    obtain ⟨rfl, rfl⟩ := htiled
    exact ⟨List.drop_length, List.drop_length⟩
  | cons s l ih =>
    obtain ⟨rfl, rfl, htiled⟩ := htiled
    have hs := hl s List.mem_cons_self
    have hrest := ih (fun t ht => hl t (List.mem_cons_of_mem s ht)) htiled
    have hdatlen := h.datlen s hs
    have hidxlen : (record (d.ptr s.off) (d.line s)).length = s.size :=
      length_record (h.fits s hs) (h.key s hs).1 (h.ptr_le s.off)
    have hline : (d.entry s).idx = record (d.ptr s.off) (d.line s) := by
      unfold Entry.idx Disk.entry Disk.line
      rw [hdatlen]
    constructor
    · rw [drop_eq_append (h.slot s hs), hidxlen, hrest.1, List.flatMap_cons, hline]
    · rw [drop_eq_append (h.data s hs), length_data hdatlen, hrest.2, List.flatMap_cons]
      rfl

theorem Rep.files (h : Rep db m) : ∃ l : List Entry, db.idx.drop start = l.flatMap Entry.idx ∧
    db.dat = l.flatMap Entry.dat ∧ ∀ e ∈ l, m e.key = some e.data ∨ Blank e.key ∧ Blank e.data := by
  obtain ⟨d, lists, hh⟩ := h
  have hentries := hh.stores.entries (fun _ hs => hs) hh.stores.tiled
  refine ⟨d.slots.map d.entry, ?_, ?_, ?_⟩
  · rw [List.flatMap_map]
    exact hentries.1
  · rw [List.flatMap_map]
    exact hentries.2
  · intro e he
    obtain ⟨s, hs, rfl⟩ := List.mem_map.mp he
    obtain ⟨i, hi⟩ := (hh.chained.cover s hs).resolve_left List.not_mem_nil
    cases i using Fin.cases with
    | zero => exact .inr (hh.chained.blank s.off hi)
    | succ g =>
      refine .inl ((hh.maps _ _).mpr ⟨s.off, ?_, rfl, rfl⟩)
      rw [chainOf, show _db_hash (d.entry s).key = g from hh.chained.hash g s.off hi]
      exact hi

end Apue.Db
