import Apue.Db.Access
import Apue.Db.Chains

/-!
# Walking a list (db/db.c)

Both loops go from record to record until one is what they look for, and know then where the pointer to it is. On a
chain that ends they end.
-/

namespace Apue.Db

/-- The files, and the hash chain that is locked. -/
structure SameFiles (db db' : DB) : Prop where
  idx : db'.idx = db.idx
  dat : db'.dat = db.dat
  chainoff : db'.chainoff = db.chainoff

section loops
variable {d : Disk} {db : DB} {n c : ℕ} {p : Option ℕ} {l : List ℕ}

theorem Stores.find (h : Stores db.idx db.dat d) (key : CStr) (hl : ∀ o ∈ l, ∃ s ∈ d.slots, s.off = o)
    (hchain : Linked.Chain d.next p l) (hn : l.length < n) (hc : db.ptroff = c) :
    (∃ db', find_loop key n (p.getD 0 : ℕ) db = some (0, db') ∧ SameFiles db db' ∧ ∀ o ∈ l, d.key o ≠ key) ∨
    ∃ pre, ∃ c' : ℕ, ∃ s post, c :: l = pre ++ c' :: s.off :: post ∧ s ∈ d.slots ∧ d.key s.off = key ∧
      find_loop key n (p.getD 0 : ℕ) db = some ((s.off : ℤ), { db.at d s with ptroff := c' }) := by
  induction l generalizing p c n db with
  | nil =>
    obtain ⟨n, rfl⟩ : ∃ n', n = n' + 1 := ⟨n - 1, by simp at hn; omega⟩
    obtain rfl : p = none := hchain
    exact .inl ⟨db, rfl, ⟨rfl, rfl, rfl⟩, fun o ho => absurd ho List.not_mem_nil⟩
  | cons o l ih =>
    obtain ⟨n, rfl⟩ : ∃ n', n = n' + 1 := ⟨n - 1, by simp at hn; omega⟩
    obtain ⟨rfl, hchain⟩ := hchain
    obtain ⟨s, hs, rfl⟩ := hl o List.mem_cons_self
    have hne := h.off_ne hs
    have hread := h.readidx hs (.inl rfl)
    by_cases hk : d.key s.off = key
    · refine .inr ⟨[], c, s, l, rfl, hs, hk, ?_⟩
      unfold find_loop
      simp only [Option.getD_some, if_neg hne, hread, Option.bind_eq_bind, Option.bind_some]
      rw [if_pos (show (db.at d s).idxbuf = key from hk)]
      simp only [DB.at, hc]
    · have hstep : find_loop key (n + 1) (s.off : ℤ) db =
          find_loop key n (d.ptr s.off : ℕ) { db.at d s with ptroff := s.off } := by
        conv_lhs => unfold find_loop
        simp only [if_neg hne, hread, Option.bind_eq_bind, Option.bind_some]
        rw [if_neg (show ¬(db.at d s).idxbuf = key from hk)]
      have hrest := @ih { db.at d s with ptroff := s.off } n s.off (d.next s.off) h
        (fun o ho => hl o (List.mem_cons_of_mem _ ho)) hchain (Nat.lt_of_succ_lt_succ hn) rfl
      simp only [Option.getD_some, hstep]
      rcases hrest with ⟨db', hrun, hsame, hnot⟩ | ⟨pre, c', t, post, hsplit, ht, hkey, hrun⟩
      · refine .inl ⟨db', hrun, ⟨hsame.idx, hsame.dat, hsame.chainoff⟩, fun o ho => ?_⟩
        rcases List.mem_cons.mp ho with rfl | ho
        · exact hk
        · exact hnot o ho
      · exact .inr ⟨c :: pre, c', t, post, by rw [hsplit]; rfl, ht, hkey, hrun⟩

theorem Stores.findfree (h : Stores db.idx db.dat d) (keylen datlen : ℕ) (hl : ∀ o ∈ l, ∃ s ∈ d.slots, s.off = o)
    (hchain : Linked.Chain d.next p l) (hn : l.length < n) :
    (∃ (c' : ℤ) (db' : DB), findfree_loop keylen datlen n c (p.getD 0 : ℕ) db = some (0, c', db') ∧ SameFiles db db') ∨
    ∃ pre, ∃ c' : ℕ, ∃ s post, c :: l = pre ++ c' :: s.off :: post ∧ s ∈ d.slots ∧ s.keylen = keylen ∧
      s.datlen = datlen ∧ findfree_loop keylen datlen n c (p.getD 0 : ℕ) db = some ((s.off : ℤ), (c' : ℤ), db.at d s) := by
  induction l generalizing p c n db with
  | nil =>
    obtain ⟨n, rfl⟩ : ∃ n', n = n' + 1 := ⟨n - 1, by simp at hn; omega⟩
    obtain rfl : p = none := hchain
    exact .inl ⟨c, db, rfl, ⟨rfl, rfl, rfl⟩⟩
  | cons o l ih =>
    obtain ⟨n, rfl⟩ : ∃ n', n = n' + 1 := ⟨n - 1, by simp at hn; omega⟩
    obtain ⟨rfl, hchain⟩ := hchain
    obtain ⟨s, hs, rfl⟩ := hl o List.mem_cons_self
    have hne := h.off_ne hs
    have hread := h.readidx hs (.inl rfl)
    have hlook : (db.at d s).idxbuf.length = keylen ∧ (db.at d s).datlen = datlen ↔
        s.keylen = keylen ∧ s.datlen = datlen := by
      rw [show (db.at d s).idxbuf.length = s.keylen from (h.key s hs).1]
      rfl
    by_cases hfit : s.keylen = keylen ∧ s.datlen = datlen
    · refine .inr ⟨[], c, s, l, rfl, hs, hfit.1, hfit.2, ?_⟩
      unfold findfree_loop
      simp only [Option.getD_some, if_neg hne, hread, Option.bind_eq_bind, Option.bind_some]
      rw [if_pos (hlook.mpr hfit)]
    · have hstep : findfree_loop keylen datlen (n + 1) c (s.off : ℤ) db =
          findfree_loop keylen datlen n (s.off : ℤ) (d.ptr s.off : ℕ) (db.at d s) := by
        conv_lhs => unfold findfree_loop
        simp only [if_neg hne, hread, Option.bind_eq_bind, Option.bind_some]
        rw [if_neg fun hat => hfit (hlook.mp hat)]
      have hrest := @ih (db.at d s) n s.off (d.next s.off) h (fun o ho => hl o (List.mem_cons_of_mem _ ho)) hchain
        (Nat.lt_of_succ_lt_succ hn)
      simp only [Option.getD_some, hstep]
      rcases hrest with ⟨c', db', hrun, hsame⟩ | ⟨pre, c', t, post, hsplit, ht, hkeylen, hdatlen, hrun⟩
      · exact .inl ⟨c', db', hrun, ⟨hsame.idx, hsame.dat, hsame.chainoff⟩⟩
      · exact .inr ⟨c :: pre, c', t, post, by rw [hsplit]; rfl, ht, hkeylen, hdatlen, hrun⟩

end loops

end Apue.Db
