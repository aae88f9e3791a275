import Apue.Terminal.Ttyname

/-!
# `ttyname`: the search

What each function does to the buffer and to the list, up to the search of one directory (`searchdir_ok`).

* `Buffer`, `Prefixed`: the buffer keeps its last null byte, and starts with the directory while its entries are
  looked at.
* `Queue`: the list in memory, with the directories in it.
-/

namespace Apue.Ttyname
open Linked Levels

variable {fs : Fs} {fdstat : Stat} {s s' : State} {dirname path name : CStr} {entries : List Name}

theorem ok_bind {α β : Type} (a : α) (f : α → Except Stuck β) : (Except.ok a >>= f) = f a := rfl

/-! ### The buffer -/

structure Buffer (s : State) : Prop where
  length : s.pathname.length = POSIX_PATH_MAX + 1
  last : s.pathname[POSIX_PATH_MAX]? = some 0

/-- The buffer starts with the bytes of `pre`. -/
structure Prefixed (s : State) (pre : CStr) : Prop extends Buffer s where
  take : s.pathname.take pre.length = pre.bytes

theorem Prefixed.of_pathname {pre : CStr} (h : Prefixed s pre) (heq : s'.pathname = s.pathname) : Prefixed s' pre :=
  ⟨⟨heq ▸ h.length, heq ▸ h.last⟩, heq ▸ h.take⟩

theorem Buffer.nil (h : Buffer s) : Prefixed s .empty := { h with take := rfl }

theorem text_of_holds {pre str : CStr} {rest : List UInt8} (h : CStr.Holds rest str)
    (hpathname : s.pathname = pre.bytes ++ rest) : s.text = pre ++ str := by
  refine CStr.Holds.ofBuf ?_
  obtain ⟨tail, rfl⟩ := h
  exact ⟨tail, by rw [hpathname, CStr.bytes_append]; simp⟩

theorem length_append (a b : CStr) : (a ++ b).length = a.length + b.length := List.length_append

theorem strcpyAt_ok {pre str : CStr} (h : Prefixed s pre) (hlen : pre.length + str.length ≤ POSIX_PATH_MAX) :
    ∃ pathname, s.strcpyAt pre.length str = .ok { s with pathname := pathname } ∧
      Prefixed { s with pathname := pathname } (pre ++ str) ∧
      State.text { s with pathname := pathname } = pre ++ str := by
  have hlength := h.length
  have hlt : pre.length + str.length < s.pathname.length := by omega
  have hdrop : (s.pathname.drop pre.length).length = s.pathname.length - pre.length := List.length_drop
  have hpre : pre.bytes.length = pre.length := rfl
  refine ⟨_, if_pos hlt, ⟨⟨?_, ?_⟩, ?_⟩, ?_⟩
  · rw [h.take, List.length_append, CStr.length_strcpy (by omega), hdrop]
    omega
  · rw [h.take, List.getElem?_append_right (by omega), CStr.getElem?_strcpy _ _ (by omega)]
    split
    · rfl
    · rw [List.getElem?_drop, ← h.last]
      congr 1
      omega
  · rw [h.take, CStr.strcpy, ← List.append_assoc]
    exact List.take_left' rfl
  · refine text_of_holds (CStr.holds_strcpy (s.pathname.drop pre.length) str) ?_
    rw [h.take]

theorem strncpyAt_ok {pre : CStr} (str : CStr) (h : Prefixed s pre) (hlen : pre.length < POSIX_PATH_MAX) :
    ∃ pathname, s.strncpyAt pre.length str = .ok { s with pathname := pathname } ∧
      Prefixed { s with pathname := pathname } pre ∧
      State.text { s with pathname := pathname } = pre ++ str.take (POSIX_PATH_MAX - pre.length) := by
  have hlength := h.length
  have hdrop : (s.pathname.drop pre.length).length = s.pathname.length - pre.length := List.length_drop
  have hpre : pre.bytes.length = pre.length := rfl
  have hlast : (s.pathname.drop pre.length)[POSIX_PATH_MAX - pre.length]? = some 0 := by
    rw [List.getElem?_drop, ← h.last]
    congr 1
    omega
  refine ⟨_, if_pos ⟨Nat.le_of_lt hlen, by omega⟩, ⟨⟨?_, ?_⟩, ?_⟩, ?_⟩
  · rw [h.take, List.length_append, CStr.length_strncpy str (by omega), hdrop]
    omega
  · rw [h.take, List.getElem?_append_right (by omega), hpre, CStr.getElem?_strncpy _ _ (Nat.le_refl _), hlast]
  · rw [h.take]
    exact List.take_left' rfl
  · refine text_of_holds ?_ (by rw [h.take])
    have hle : (str.take (POSIX_PATH_MAX - pre.length)).length ≤ POSIX_PATH_MAX - pre.length := by
      rw [CStr.length_take]
      exact Nat.min_le_left ..
    exact (CStr.holds_strncpy (by omega) hle).2 ⟨rfl, .inr hlast⟩

/-! ### The path of an entry -/

theorem length_join (dirname name : CStr) : (join dirname name).length = dirname.length + 1 + name.length := by
  rw [join, length_append, length_append]
  rfl

theorem take_of_length_le {n : ℕ} (h : name.length ≤ n) : name.take n = name :=
  CStr.ext (List.take_of_length_le h)

theorem IsDot.take {n : ℕ} (h : IsDot name) (hn : 0 < n) : IsDot (name.take n) := by
  obtain ⟨k, rfl⟩ : ∃ k, n = k + 1 := ⟨n - 1, by omega⟩
  obtain h | h := h
  · exact .inl (by simp [CStr.take, h])
  · cases k with
    | zero => exact .inl (by simp [CStr.take, h])
    | succ k => exact .inr (by simp [CStr.take, h])

theorem endsInDot_iff {path : CStr} (front : List UInt8) (a b c : UInt8) (h : path.bytes = front ++ [a, b, c]) :
    EndsInDot path ↔ c = 46 ∧ (b = 47 ∨ (b = 46 ∧ a = 47)) := by
  have hlen : path.length = front.length + 3 := by
    rw [CStr.length, h, List.length_append]
    rfl
  have hget (k : ℕ) : path.bytes.getD (front.length + k) 0 = [a, b, c].getD k 0 := by
    rw [h, List.getD_eq_getElem?_getD, List.getElem?_append_right (Nat.le_add_right ..), Nat.add_sub_cancel_left,
      List.getD_eq_getElem?_getD]
  unfold EndsInDot
  rw [hlen]
  exact iff_of_eq (congrArg₂ And (congrArg (· = 46) (hget 2)) (congrArg₂ Or (congrArg (· = 47) (hget 1))
    (congrArg₂ And (congrArg (· = 46) (hget 1)) (congrArg (· = 47) (hget 0)))))

theorem bytes_join (dirname name : CStr) : (join dirname name).bytes = dirname.bytes ++ 47 :: name.bytes := by
  have hslash : slash.bytes = [47] := rfl
  rw [join, CStr.bytes_append, CStr.bytes_append, hslash, List.append_assoc]
  rfl

theorem endsInDot_join (h : IsDot name) (hne : dirname.bytes ≠ []) : EndsInDot (join dirname name) := by
  obtain ⟨front, a, hdirname⟩ := (List.eq_nil_or_concat' dirname.bytes).resolve_left hne
  obtain hname | hname := h
  · refine (endsInDot_iff front a 47 46 ?_).2 ⟨rfl, .inl rfl⟩
    rw [bytes_join, hname, hdirname]
    simp
  · refine (endsInDot_iff dirname.bytes 47 46 46 ?_).2 ⟨rfl, .inr ⟨rfl, rfl⟩⟩
    rw [bytes_join, hname]

theorem not_endsInDot_join (e : Name) (h : ¬ IsDot e.text) (hne : dirname.bytes ≠ []) :
    ¬ EndsInDot (join dirname e.text) := by
  obtain ⟨front, a, hdirname⟩ := (List.eq_nil_or_concat' dirname.bytes).resolve_left hne
  have hslash := e.noSlash
  intro hends
  obtain ⟨x, c, hc⟩ := (List.eq_nil_or_concat' e.text.bytes).resolve_left e.nonempty
  obtain rfl | ⟨y, b, rfl⟩ := List.eq_nil_or_concat' x
  · -- one byte
    obtain ⟨rfl, -⟩ := (endsInDot_iff front a 47 c (by rw [bytes_join, hc, hdirname]; simp)).1 hends
    exact h (.inl hc)
  obtain rfl | ⟨z, a', rfl⟩ := List.eq_nil_or_concat' y
  · -- two bytes
    obtain ⟨rfl, rfl | ⟨rfl, -⟩⟩ := (endsInDot_iff dirname.bytes 47 b c (by rw [bytes_join, hc]; simp)).1 hends
    · exact hslash (by rw [hc]; simp)
    · exact h (.inr hc)
  · have hbytes : (join dirname e.text).bytes = (dirname.bytes ++ 47 :: z) ++ [a', b, c] := by
      rw [bytes_join, hc]
      simp
    obtain ⟨-, rfl | ⟨-, rfl⟩⟩ := (endsInDot_iff _ a' b c hbytes).1 hends
    · exact hslash (by rw [hc]; simp)
    · exact hslash (by rw [hc]; simp)

/-! ### The list -/

def State.next (s : State) (a : ℕ) : Option ℕ := (s.mem a).bind Devdir.d_next

def State.nameAt (s : State) (a : ℕ) : Option CStr := (s.mem a).map Devdir.d_name

/-- The nodes `l` are the list, and all there are; `names` are in it. -/
structure Queue (s : State) (l : List ℕ) (names : List CStr) : Prop where
  chain : Chain s.next s.head l
  tail : s.tail = l.getLast?
  names : l.map s.nameAt = names.map some
  only : ∀ a, a ∉ l → s.mem a = none
  lt : ∀ a ∈ l, a < s.brk

section queue
variable {l : List ℕ} {names : List CStr} {a : ℕ}

theorem Queue.pathname (h : Queue s l names) (pathname : List UInt8) : Queue { s with pathname := pathname } l names :=
  ⟨h.chain, h.tail, h.names, h.only, h.lt⟩

theorem Queue.mem (h : Queue s l names) (ha : a ∈ l) : ∃ d, s.mem a = some d := by
  have hmem : s.nameAt a ∈ names.map some := h.names ▸ List.mem_map_of_mem ha
  obtain ⟨name, -, hname⟩ := List.mem_map.1 hmem
  obtain ⟨d, hd, -⟩ := Option.map_eq_some_iff.1 hname.symm
  exact ⟨d, hd⟩

theorem Queue.ne_brk (h : Queue s l names) (ha : a ∈ l) : a ≠ s.brk := Nat.ne_of_lt (h.lt a ha)

theorem deref_of_mem {d : Devdir} (h : s.mem a = some d) : s.deref a = .ok d := by
  rw [State.deref, h]

theorem add_of_tail_none (hdot : ¬ EndsInDot path) (hfd : path ≠ devFd) (htail : s.tail = none) :
    add s path = .ok { s with
      head := some s.brk
      tail := some s.brk
      mem := Function.update s.mem s.brk (some ⟨none, path⟩)
      brk := s.brk + 1 } := by
  simp only [add, hdot, hfd, if_false, htail]
  rfl

/-- A node for the name behind the node `a`, which holds `d`. -/
def State.snoc (s : State) (a : ℕ) (d : Devdir) (path : CStr) : State := { s with
  mem := Function.update (Function.update s.mem s.brk (some ⟨none, path⟩)) a (some { d with d_next := some s.brk })
  tail := some s.brk
  brk := s.brk + 1 }

section snoc
variable {b : ℕ} {d : Devdir}

theorem add_of_tail_some (hdot : ¬ EndsInDot path) (hfd : path ≠ devFd) (htail : s.tail = some a)
    (ha : a ≠ s.brk) (hd : s.mem a = some d) : add s path = .ok (s.snoc a d path) := by
  have hd' : Function.update s.mem s.brk (some ⟨none, path⟩) a = some d := by rw [Function.update_of_ne ha, hd]
  simp only [add, hdot, hfd, if_false, htail, State.deref, hd']
  rfl

theorem next_snoc (ha : a ≠ s.brk) :
    (s.snoc a d path).next = Function.update (Function.update s.next s.brk none) a (some s.brk) := by
  funext b
  by_cases hb : b = a
  · simp [State.next, State.snoc, hb]
  · by_cases hb' : b = s.brk
    · simp [State.next, State.snoc, hb', ha.symm]
    · simp [State.next, State.snoc, hb, hb']

theorem nameAt_snoc_of_ne (hd : s.mem a = some d) (hb : b ≠ s.brk) : (s.snoc a d path).nameAt b = s.nameAt b := by
  by_cases hba : b = a
  · simp [State.nameAt, State.snoc, hba, hd]
  · simp [State.nameAt, State.snoc, hba, hb]

theorem nameAt_snoc_self (ha : a ≠ s.brk) : (s.snoc a d path).nameAt s.brk = some path := by
  simp [State.nameAt, State.snoc, ha.symm]

end snoc

theorem Queue.lt_snoc (h : Queue s l names) : ∀ b ∈ l ++ [s.brk], b < s.brk + 1 := by
  intro b hb
  obtain hb | hb := List.mem_append.1 hb
  · exact Nat.lt_succ_of_lt (h.lt b hb)
  · exact List.mem_singleton.1 hb ▸ Nat.lt_succ_self _

theorem Queue.add (h : Queue s l names) (hdot : ¬ EndsInDot path) (hfd : path ≠ devFd) :
    ∃ s', add s path = .ok s' ∧ s'.pathname = s.pathname ∧ Queue s' (l ++ [s.brk]) (names ++ [path]) := by
  obtain rfl | ⟨front, last, rfl⟩ := List.eq_nil_or_concat' l
  · refine ⟨_, add_of_tail_none hdot hfd h.tail, rfl, ⟨⟨rfl, ?_⟩, rfl, ?_, fun b hb => ?_, h.lt_snoc⟩⟩
    · simp [State.next]
    · have hnil : names = [] := List.map_eq_nil_iff.1 h.names.symm
      simp [State.nameAt, hnil]
    · have hne : b ≠ s.brk := fun heq => hb (List.mem_singleton.2 heq)
      exact (Function.update_of_ne hne ..).trans (h.only b List.not_mem_nil)
  · have hlast : last ∈ front ++ [last] := List.mem_append_right _ (List.mem_singleton.2 rfl)
    have htail : s.tail = some last := h.tail.trans List.getLast?_concat
    have hne := h.ne_brk hlast
    obtain ⟨d, hd⟩ := h.mem hlast
    refine ⟨_, add_of_tail_some hdot hfd htail hne hd, rfl, ⟨?_, by simp [State.snoc], ?_, fun b hb => ?_, h.lt_snoc⟩⟩
    · have hnot : s.brk ∉ front ++ [last] := fun hmem => h.ne_brk hmem rfl
      rw [next_snoc hne, List.append_assoc]
      exact (h.chain.update_notMem hnot).snoc hnot (Function.update_self ..)
    · have hsame : (front ++ [last]).map (s.snoc last d path).nameAt = (front ++ [last]).map s.nameAt :=
        List.map_congr_left fun b hb => nameAt_snoc_of_ne hd (h.ne_brk hb)
      rw [List.map_append, hsame, h.names, List.map_append, List.map_singleton, nameAt_snoc_self hne]
      rfl
    · rw [List.mem_append, List.mem_singleton, not_or] at hb
      have hblast : b ≠ last := fun heq => hb.1 (heq ▸ hlast)
      refine (Function.update_of_ne hblast ..).trans ((Function.update_of_ne hb.2 ..).trans ?_)
      exact h.only b hb.1

theorem Queue.next_eq {pre post : List ℕ} {d : Devdir} (h : Queue s (pre ++ a :: post) names) (hd : s.mem a = some d) :
    d.d_next = post.head? := by
  have hlink := h.chain.next_eq
  rwa [State.next, hd] at hlink

end queue

/-! ### A directory -/

/-- The loop over a directory is right for the entries with these paths, when `names` were in the list before. -/
def Reads (fs : Fs) (fdstat : Stat) (paths : List CStr) (l : List ℕ) (names : List CStr)
    (r : Except Stuck (State × Option CStr)) : Prop :=
  ∃ s' l' added, r = .ok (s', fs.findIn fdstat paths) ∧ Buffer s' ∧ Queue s' (l ++ l') (names ++ added) ∧
    (fs.findIn fdstat paths = none → added = fs.dirsIn paths)

section reads
variable {l : List ℕ} {names paths : List CStr} {r : Except Stuck (State × Option CStr)}

theorem Reads.skip (h : Reads fs fdstat paths l names r) (hdir : ¬ (fs.IsDir path ∧ Searched path))
    (hmatches : ¬ (¬ IsStdio path ∧ fs.Matches fdstat path)) : Reads fs fdstat (path :: paths) l names r := by
  have hfind : fs.findIn fdstat (path :: paths) = fs.findIn fdstat paths :=
    List.find?_cons_of_neg (by simpa using hmatches)
  have hdirs : fs.dirsIn (path :: paths) = fs.dirsIn paths := List.filter_cons_of_neg (by simpa using hdir)
  rwa [Reads, hfind, hdirs]

theorem Reads.dir {a : ℕ} (h : Reads fs fdstat paths (l ++ [a]) (names ++ [path]) r)
    (hdir : fs.IsDir path ∧ Searched path) (hmatches : ¬ fs.Matches fdstat path) :
    Reads fs fdstat (path :: paths) l names r := by
  obtain ⟨s', l', added, rfl, hbuffer, hqueue, hadded⟩ := h
  have hfind : fs.findIn fdstat (path :: paths) = fs.findIn fdstat paths :=
    List.find?_cons_of_neg (by simp [hmatches])
  have hdirs : fs.dirsIn (path :: paths) = path :: fs.dirsIn paths := List.filter_cons_of_pos (by simpa using hdir)
  refine ⟨s', a :: l', path :: added, by rw [hfind], hbuffer, ?_, fun hnone => ?_⟩
  · rwa [List.append_assoc, List.append_assoc] at hqueue
  · rw [hdirs, hadded (hfind ▸ hnone)]

theorem add_of_endsInDot (h : EndsInDot path) : add s path = .ok s := by
  simp only [add, h, if_true]
  rfl

theorem add_devFd (hdot : ¬ EndsInDot devFd) : add s devFd = .ok s := by
  simp only [add, hdot, if_true, if_false]
  rfl

/-- What the loop does with the path in the buffer, before the `next` entries. -/
def visit (fs : Fs) (fdstat : Stat) (next : State → Except Stuck (State × Option CStr)) (s : State) :
    Except Stuck (State × Option CStr) :=
  if IsStdio s.text then next s
  else
    match fs.stat s.text with
    | none => next s
    | some devstat =>
      if devstat.type = .dir then add s s.text >>= next
      else if devstat.ino = fdstat.ino ∧ devstat.dev = fdstat.dev then .ok (s, some s.text)
      else next s

theorem readLoop_cons (devlen : ℕ) (e : Name) (rest : List Name) (s : State) :
    readLoop fs fdstat devlen (e :: rest) s =
      s.strncpyAt devlen e.text >>= visit fs fdstat (readLoop fs fdstat devlen rest) := rfl

section visit
variable {next : State → Except Stuck (State × Option CStr)}

theorem visit_dot (hdot : IsDot name) (hne : dirname.bytes ≠ []) (htext : s.text = join dirname name) :
    visit fs fdstat next s = next s := by
  unfold visit
  rw [htext]
  split
  · rfl
  · split
    · rfl
    · rename_i devstat hstat
      rw [if_pos (fs.dots dirname name devstat hdot hstat), add_of_endsInDot (endsInDot_join hdot hne), ok_bind]

theorem Reads.visit (htext : s.text = path) (hnot : ¬ EndsInDot path) (hs : Buffer s) (hqueue : Queue s l names)
    (hnext : ∀ {s' l' names'}, s'.pathname = s.pathname → Queue s' l' names' →
      Reads fs fdstat paths l' names' (next s')) :
    Reads fs fdstat (path :: paths) l names (visit fs fdstat next s) := by
  have hrest := hnext rfl hqueue
  unfold Ttyname.visit
  rw [htext]
  split
  · rename_i hstdio
    exact hrest.skip (fun h => h.2.2 hstdio) fun h => h.1 hstdio
  rename_i hstdio
  split
  · rename_i hstat
    exact hrest.skip (fun h => by simp [Fs.IsDir, hstat] at h) fun h => by simp [Fs.Matches, hstat] at h
  rename_i devstat hstat
  split
  · rename_i htype
    have hisdir : fs.IsDir path := by simp [Fs.IsDir, hstat, htype]
    have hmatches : ¬ fs.Matches fdstat path := by simp [Fs.Matches, hstat, htype]
    by_cases hfd : path = devFd
    · subst hfd
      rw [add_devFd hnot, ok_bind]
      exact hrest.skip (fun h => h.2.1 rfl) fun h => hmatches h.2
    · obtain ⟨s', hadd, hpathname, hqueue'⟩ := hqueue.add hnot hfd
      rw [hadd, ok_bind]
      exact (hnext hpathname hqueue').dir ⟨hisdir, hfd, hstdio⟩ hmatches
  rename_i htype
  split
  · rename_i hsame
    have hmatches : fs.Matches fdstat path := by simp [Fs.Matches, hstat, htype, hsame]
    have hfind : fs.findIn fdstat (path :: paths) = some path :=
      List.find?_cons_of_pos (by simp [hstdio, hmatches])
    refine ⟨s, [], [], by rw [hfind], hs, by rwa [List.append_nil, List.append_nil], fun hnone => ?_⟩
    rw [hfind] at hnone
    cases hnone
  · rename_i hother
    refine hrest.skip (fun h => by simp [Fs.IsDir, hstat, htype] at h) fun h => ?_
    simp [Fs.Matches, hstat, htype] at h
    exact hother h.2

end visit

theorem pathsOf_dot {e : Name} {rest : List Name} (h : IsDot e.text) :
    pathsOf dirname (e :: rest) = pathsOf dirname rest := by
  rw [pathsOf, List.filter_cons_of_neg (by simpa using h)]
  rfl

theorem pathsOf_cons {e : Name} {rest : List Name} (h : ¬ IsDot e.text) :
    pathsOf dirname (e :: rest) = join dirname e.text :: pathsOf dirname rest := by
  rw [pathsOf, List.filter_cons_of_pos (by simpa using h)]
  rfl

theorem readLoop_ok {entries : List Name} (hdir : dirname.length + 1 < POSIX_PATH_MAX) (hne : dirname.bytes ≠ [])
    (hentry : ∀ path ∈ pathsOf dirname entries, path.length < POSIX_PATH_MAX)
    (hs : Prefixed s (dirname ++ slash)) (hqueue : Queue s l names) :
    Reads fs fdstat (pathsOf dirname entries) l names
      (readLoop fs fdstat (dirname ++ slash).length entries s) := by
  induction entries generalizing s l names with
  | nil => exact ⟨s, [], [], rfl, hs.toBuffer, by rwa [List.append_nil, List.append_nil], fun _ => rfl⟩
  | cons e rest ih =>
    have hlen : (dirname ++ slash).length = dirname.length + 1 := length_append ..
    obtain ⟨pathname, hstrncpy, hs₁, htext⟩ := strncpyAt_ok e.text hs (by omega)
    have hqueue₁ := hqueue.pathname pathname
    have htext : State.text { s with pathname := pathname } =
        join dirname (e.text.take (POSIX_PATH_MAX - (dirname ++ slash).length)) := htext
    rw [readLoop_cons, hstrncpy, ok_bind]
    by_cases hdot : IsDot e.text
    · -- even when it is cut off
      have hpart : IsDot (e.text.take (POSIX_PATH_MAX - (dirname ++ slash).length)) := hdot.take (by omega)
      rw [pathsOf_dot hdot] at hentry ⊢
      rw [visit_dot hpart hne htext]
      exact ih hentry hs₁ hqueue₁
    · rw [pathsOf_cons hdot] at hentry ⊢
      have hpath := hentry _ (List.mem_cons_self ..)
      rw [length_join] at hpath
      rw [take_of_length_le (by omega)] at htext
      refine .visit htext (not_endsInDot_join e hdot hne) hs₁.toBuffer hqueue₁ fun hpathname hqueue₂ => ?_
      exact ih (fun path hmem => hentry path (List.mem_cons_of_mem _ hmem)) (hs₁.of_pathname hpathname) hqueue₂

theorem searchdir_ok (hs : Buffer s) (hqueue : Queue s l names) (hdir : dirname.length + 1 < POSIX_PATH_MAX)
    (hne : dirname.bytes ≠ []) (hentry : ∀ path ∈ fs.paths dirname, path.length < POSIX_PATH_MAX) :
    Reads fs fdstat (fs.paths dirname) l names (searchdir fs fdstat s dirname) := by
  have hempty : CStr.empty ++ dirname = dirname := CStr.ext rfl
  have hzero : CStr.empty.length = 0 := rfl
  obtain ⟨pathname, hstrcpy, hs₁, htext⟩ := @strcpyAt_ok s .empty dirname hs.nil (by omega)
  rw [hempty] at hs₁ htext
  rw [hzero] at hstrcpy
  have hqueue₁ := hqueue.pathname pathname
  unfold searchdir Fs.paths at *
  rw [hstrcpy, ok_bind]
  generalize { s with pathname := pathname } = s₁ at *
  cases hopen : fs.opendir dirname with
  | none =>
    exact ⟨s₁, [], [], rfl, hs₁.toBuffer, by rwa [List.append_nil, List.append_nil], fun _ => rfl⟩
  | some entries =>
    have hslash : slash.length = 1 := rfl
    obtain ⟨pathname', hstrcat, hs₂, htext'⟩ := @strcpyAt_ok s₁ dirname slash hs₁ (by omega)
    rw [hopen] at hentry
    simp only [htext]
    rw [hstrcat, ok_bind, htext']
    exact readLoop_ok hdir hne hentry hs₂ (hqueue₁.pathname pathname')

end reads

end Apue.Ttyname
