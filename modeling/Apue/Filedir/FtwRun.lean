import Apue.Filedir.Ftw
import Mathlib.Data.List.Nodup

/-!
# Every walk

* `Walks`: a call on a path does what `visit` does, and keeps the path in the memory.
* `readdirs_ok`, `dopath_step`, `dopath_ok`: one directory, one level, all levels.
* `mem_files`, `order_files`: the files of the walk.
* `myftw_run`: any function. `main_counts`: the one that counts.
-/

namespace Apue.Ftw

variable {σ : Type}

/-! ### The path in the memory -/

section memory
variable {buf : List UInt8} {path : CStr}

theorem length_append (a b : CStr) : (a ++ b).length = a.length + b.length := List.length_append

theorem append_assoc (a b c : CStr) : a ++ b ++ c = a ++ (b ++ c) := CStr.ext (List.append_assoc ..)

theorem string_of_holds (h : CStr.Holds buf path) : string buf = some path := by
  have hnul : 0 ∈ buf := h.subset (by simp)
  rw [string, if_pos hnul, h.ofBuf]

theorem strcpyAt_ok (name : CStr) (h : path.bytes <+: buf) (hroom : path.length + name.length < buf.length) :
    ∃ buf', strcpyAt buf path.length name = some buf' ∧ CStr.Holds buf' (path ++ name) ∧ buf'.length = buf.length := by
  have htake : buf.take path.length = path.bytes := (List.prefix_iff_eq_take.mp h).symm
  refine ⟨_, if_pos hroom, ?_, ?_⟩
  · obtain ⟨rest, hrest⟩ := CStr.holds_strcpy (buf.drop path.length) name
    rw [htake, ← hrest]
    exact ⟨rest, by simp⟩
  · have hdrop : (buf.drop path.length).length = buf.length - path.length := List.length_drop
    rw [List.length_append, CStr.length_strcpy (by omega), hdrop, List.length_take]
    omega

theorem set_behind (front rest : List UInt8) (c d : UInt8) :
    (front ++ c :: rest).set front.length d = front ++ d :: rest := by
  rw [List.set_append_right _ _ (Nat.le_refl _), Nat.sub_self, List.set_cons_zero]

theorem slash_ok (h : CStr.Holds buf path) (hroom : path.length + 1 < buf.length) :
    ∃ buf₁ buf₂, put buf path.length SLASH = some buf₁ ∧ put buf₁ (path.length + 1) 0 = some buf₂ ∧
      CStr.Holds buf₂ (path ++ slash) ∧ buf₂.length = buf.length := by
  obtain ⟨rest, rfl⟩ := h
  cases rest with
  | nil =>
    rw [List.append_nil, List.length_append] at hroom
    exact absurd hroom (Nat.lt_irrefl _)
  | cons c rest =>
    refine ⟨_, _, if_pos (by omega), if_pos (by rw [List.length_set]; exact hroom), ⟨rest, ?_⟩, ?_⟩
    · have hslash : (path.bytes ++ [0] ++ c :: rest).set path.length SLASH = (path ++ slash).bytes ++ c :: rest := by
        rw [List.append_assoc]
        exact (set_behind path.bytes (c :: rest) 0 SLASH).trans (List.append_cons ..)
      have hlen : path.length + 1 = (path ++ slash).bytes.length := by rw [CStr.bytes_append, List.length_append]; rfl
      rw [hslash, hlen, set_behind, List.append_assoc]
      rfl
    · rw [List.length_set, List.length_set]

theorem cut_ok (h : (path ++ slash).bytes <+: buf) :
    ∃ buf', put buf path.length 0 = some buf' ∧ CStr.Holds buf' path ∧ buf'.length = buf.length := by
  obtain ⟨rest, rfl⟩ := h
  have hbuf : (path ++ slash).bytes ++ rest = path.bytes ++ SLASH :: rest := (List.append_cons ..).symm
  rw [hbuf]
  refine ⟨_, if_pos ?_, ⟨rest, ?_⟩, List.length_set⟩
  · rw [List.length_append, List.length_cons]
    exact Nat.lt_add_of_pos_right (Nat.succ_pos _)
  · rw [List.append_assoc]
    exact (set_behind path.bytes rest SLASH 0).symm

theorem length_slash : slash.length = 1 := by decide

end memory

/-! ### One directory -/

/-- What a call on `path` leaves of the memory. -/
structure Kept (path : CStr) (buf buf' : List UInt8) : Prop where
  path : path.bytes <+: buf'
  length : buf.length ≤ buf'.length

/-- The call does what `visit` does. -/
def Walks (func : σ → Call → σ × ℤ) (rec : List UInt8 → σ → Option (List UInt8 × σ × ℤ)) (path : CStr)
    (calls : List Call) : Prop :=
  ∀ buf a, CStr.Holds buf path → NAME_MAX < buf.length →
    ∃ buf', rec buf a = some (buf', visit func calls a) ∧ Kept path buf buf'

section walk
variable {fs : Fs} {heap : ℕ → UInt8} {func : σ → Call → σ × ℤ}

theorem some_bind {α β : Type} (a : α) (f : α → Option β) : (some a >>= f) = f a := rfl

theorem visit_singleton (c : Call) (a : σ) : visit func [c] a = func a c := by
  unfold visit
  split
  · rfl
  · rename_i hzero
    exact Prod.ext rfl (not_not.mp hzero).symm

theorem visit_append (l l' : List Call) (a : σ) :
    visit func (l ++ l') a = if (visit func l a).2 ≠ 0 then visit func l a else visit func l' (visit func l a).1 := by
  induction l generalizing a with
  | nil => simp [visit]
  | cons c l ih =>
    simp only [List.cons_append, visit]
    by_cases hret : (func a c).2 ≠ 0
    · simp [hret]
    · simp only [if_neg hret, ih]

theorem Kept.trans {path path' : CStr} {buf buf' buf'' : List UInt8} (h : Kept path buf buf')
    (h' : Kept path' buf' buf'') : Kept path' buf buf'' := ⟨h'.path, h.length.trans h'.length⟩

theorem Kept.front {path name : CStr} {buf buf' : List UInt8} (h : Kept (path ++ name) buf buf') : Kept path buf buf' :=
  ⟨(List.prefix_append path.bytes name.bytes).trans h.path, h.length⟩

theorem readdirs_ok {rec : List UInt8 → σ → Option (List UInt8 × σ × ℤ)} {dirname : CStr} {below : CStr → List Call}
    {entries : List CStr} (hrec : ∀ name, Walks func rec (dirname ++ name) (below name))
    (hnames : ∀ name ∈ entries, name.length ≤ NAME_MAX) {buf : List UInt8} (hbuf : dirname.bytes <+: buf)
    (hroom : dirname.length + NAME_MAX < buf.length) (a : σ) :
    ∃ buf', readdirs rec dirname.length entries buf a =
        some (buf', visit func ((entries.filter fun name => ¬(name = dot ∨ name = dotdot)).flatMap below) a) ∧
      Kept dirname buf buf' := by
  induction entries generalizing buf a with
  | nil => exact ⟨buf, rfl, hbuf, Nat.le_refl _⟩
  | cons d_name entries ih =>
    have hnext : ∀ name ∈ entries, name.length ≤ NAME_MAX := fun name hname =>
      hnames name (List.mem_cons_of_mem _ hname)
    unfold readdirs
    by_cases hdot : d_name = dot ∨ d_name = dotdot
    · have hskip : ¬decide (¬(d_name = dot ∨ d_name = dotdot)) = true := fun h => of_decide_eq_true h hdot
      rw [if_pos hdot, List.filter_cons, if_neg hskip]
      exact ih hnext hbuf hroom a
    · rw [if_neg hdot, List.filter_cons, if_pos (decide_eq_true hdot), List.flatMap_cons, visit_append]
      have hname := hnames d_name List.mem_cons_self
      obtain ⟨buf₁, hcpy, hholds, hlen⟩ := strcpyAt_ok d_name hbuf (by omega)
      obtain ⟨buf₂, hcall, hkept⟩ := hrec d_name buf₁ a hholds (by omega)
      have hkept : Kept dirname buf buf₂ := ⟨hkept.front.path, hlen.symm.le.trans hkept.length⟩
      rw [hcpy, some_bind, hcall, some_bind]
      dsimp only
      split
      · exact ⟨buf₂, rfl, hkept⟩
      · obtain ⟨buf₃, hrest, hkept'⟩ :=
          ih hnext hkept.path (hroom.trans_le hkept.length) (visit func (below d_name) a).1
        exact ⟨buf₃, hrest, hkept.trans hkept'⟩

theorem length_realloc (heap : ℕ → UInt8) {buf : List UInt8} {size : ℕ} (h : buf.length ≤ size) :
    (realloc heap buf size).length = size := by
  rw [realloc, List.length_append, List.length_take, List.length_map, List.length_range]
  omega

theorem realloc_holds {buf : List UInt8} {path : CStr} (h : CStr.Holds buf path) :
    CStr.Holds (realloc heap buf (buf.length * 2)) path := by
  rw [realloc, List.take_of_length_le (by omega)]
  exact h.trans (List.prefix_append ..)

theorem grow_ok (heap : ℕ → UInt8) {buf : List UInt8} {path : CStr} (h : CStr.Holds buf path)
    (hlen : NAME_MAX < buf.length) :
    ∃ buf', (if path.length + NAME_MAX + 2 > buf.length then realloc heap buf (buf.length * 2) else buf) = buf' ∧
      CStr.Holds buf' path ∧ buf.length ≤ buf'.length ∧ path.length + NAME_MAX + 2 ≤ buf'.length := by
  refine ⟨_, rfl, ?_⟩
  split
  · have hpath : path.length + 1 ≤ buf.length := by
      have hle := h.length_le
      rwa [List.length_append] at hle
    have hsize := length_realloc heap (show buf.length ≤ buf.length * 2 by omega)
    exact ⟨realloc_holds h, by omega, by omega⟩
  · exact ⟨h, Nat.le_refl _, by omega⟩

theorem dopath_step {fuel : ℕ} {path : CStr}
    (hrec : fs.lstat path ≠ none → ∀ name, Walks func (dopath fs heap func fuel) (path ++ slash ++ name)
      (calls fs fuel (path ++ slash ++ name))) :
    Walks func (dopath fs heap func (fuel + 1)) path (calls fs (fuel + 1) path) := by
  intro buf a hbuf hlen
  have hkept : Kept path buf buf := ⟨(List.prefix_append ..).trans hbuf, Nat.le_refl _⟩
  unfold dopath calls
  rw [string_of_holds hbuf, some_bind]
  cases hstat : fs.lstat path with
  | none =>
    refine ⟨buf, ?_, hkept⟩
    rw [visit_singleton]
  | some st_mode =>
    dsimp only
    by_cases hdir : S_ISDIR st_mode = false
    · refine ⟨buf, ?_, hkept⟩
      rw [if_pos hdir, if_pos hdir, visit_singleton]
    rw [if_neg hdir, if_neg hdir, visit]
    by_cases hret : (func a ⟨path, some st_mode, .FTW_D⟩).2 ≠ 0
    · refine ⟨buf, ?_, hkept⟩
      rw [if_pos hret, if_pos hret]
    rw [if_neg hret, if_neg hret]
    obtain ⟨buf₀, hgrow, hbuf₀, hle, hroom⟩ := grow_ok heap hbuf hlen
    obtain ⟨buf₁, buf₂, hput, hput', hbuf₂, hlen₂⟩ := slash_ok hbuf₀ (by omega)
    rw [hgrow, hput, some_bind, hput', some_bind, string_of_holds hbuf₂, some_bind]
    have hdirname : (path ++ slash).bytes <+: buf₂ := (List.prefix_append ..).trans hbuf₂
    have hkept₂ : Kept path buf buf₂ := Kept.front ⟨hdirname, by omega⟩
    cases hopen : fs.opendir (path ++ slash) with
    | none =>
      refine ⟨buf₂, ?_, hkept₂⟩
      rw [visit_singleton]
    | some entries =>
      have hn : (path ++ slash).length = path.length + 1 := by rw [length_append, length_slash]
      obtain ⟨buf₃, hread, hkept₃⟩ := readdirs_ok (hrec (by rw [hstat]; exact nofun))
        (fun name hname => (fs.names _ _ hopen name hname).1) hdirname (by omega)
        (func a ⟨path, some st_mode, .FTW_D⟩).1
      obtain ⟨buf₄, hcut, hbuf₄, hlen₄⟩ := cut_ok hkept₃.path
      dsimp only
      rw [← hn, hread, some_bind, hcut]
      refine ⟨buf₄, rfl, (List.prefix_append ..).trans hbuf₄, ?_⟩
      have hle₃ := hkept₃.length
      omega

/-- Every path that is too long has no entries, so the recursion ends. -/
theorem dopath_ok (depth : ℕ) {path : CStr} (hdepth : PATH_MAX < depth + path.length) :
    Walks func (dopath fs heap func (depth + 1)) path (calls fs (depth + 1) path) := by
  induction depth generalizing path with
  | zero => exact dopath_step fun hstat => absurd (fs.long path (by omega)) hstat
  | succ depth ih =>
    refine dopath_step fun _ name => ih ?_
    rw [length_append, length_append, length_slash]
    omega

end walk

/-! ### Every file once -/

section files
variable {fs : Fs} {path child name : CStr}

theorem files_append (l l' : List Call) : files (l ++ l') = files l ++ files l' := by
  rw [files, List.filter_append, List.map_append]
  rfl

theorem files_flatMap (entries : List CStr) (below : CStr → List Call) :
    files (entries.flatMap below) = entries.flatMap fun name => files (below name) := by
  induction entries with
  | nil => rfl
  | cons name entries ih => rw [List.flatMap_cons, files_append, ih, List.flatMap_cons]

theorem files_calls_dir {fuel st_mode : ℕ} {entries : List CStr} (hstat : fs.lstat path = some st_mode)
    (hdir : S_ISDIR st_mode = true) (hopen : fs.opendir (path ++ slash) = some entries) :
    files (calls fs (fuel + 1) path) = path :: (entries.filter fun name => ¬(name = dot ∨ name = dotdot)).flatMap
      fun name => files (calls fs fuel (path ++ slash ++ name)) := by
  rw [calls, hstat]
  dsimp only
  rw [if_neg (by rw [hdir]; decide), hopen, ← files_flatMap]
  rfl

theorem files_calls_leaf {fuel : ℕ}
    (hleaf : ∀ st_mode, fs.lstat path = some st_mode → S_ISDIR st_mode = true → fs.opendir (path ++ slash) = none) :
    files (calls fs (fuel + 1) path) = [path] := by
  rw [calls]
  cases hstat : fs.lstat path with
  | none => rfl
  | some st_mode =>
    dsimp only
    cases hdir : S_ISDIR st_mode with
    | false => rfl
    | true => rw [if_neg (by decide), hleaf st_mode hstat hdir]; rfl

theorem dir_or_leaf (fs : Fs) (path : CStr) :
    (∃ st_mode entries, fs.lstat path = some st_mode ∧ S_ISDIR st_mode = true ∧
      fs.opendir (path ++ slash) = some entries) ∨
    ∀ st_mode, fs.lstat path = some st_mode → S_ISDIR st_mode = true → fs.opendir (path ++ slash) = none := by
  cases hopen : fs.opendir (path ++ slash) with
  | none => exact .inr fun _ _ _ => rfl
  | some entries =>
    by_cases hstat : ∃ st_mode, fs.lstat path = some st_mode ∧ S_ISDIR st_mode = true
    · obtain ⟨st_mode, hstat, hdir⟩ := hstat
      exact .inl ⟨st_mode, entries, hstat, hdir, rfl⟩
    · exact .inr fun st_mode hmode hdir => absurd ⟨st_mode, hmode, hdir⟩ hstat

theorem Below.trans {root p q : CStr} (h : Below fs root p) (h' : Below fs p q) : Below fs root q := by
  induction h' with
  | root => exact h
  | entry _ hentry ih => exact ih.entry hentry

theorem Below.cases_head {root p : CStr} (h : Below fs root p) :
    p = root ∨ ∃ child, Entry fs root child ∧ Below fs child p := by
  induction h with
  | root => exact .inl rfl
  | entry _ hentry ih =>
    obtain rfl | ⟨child, hchild, hbelow⟩ := ih
    · exact .inr ⟨_, hentry, .root⟩
    · exact .inr ⟨child, hchild, hbelow.entry hentry⟩

theorem Below.behind {root p : CStr} (h : Below fs root p) : Behind root p := by
  induction h with
  | root => exact .inl rfl
  | entry _ hentry ih =>
    obtain ⟨_, _, name, -, -, -, -, -, rfl⟩ := hentry
    obtain rfl | ih := ih
    · exact .inr (List.prefix_append ..)
    · refine .inr (ih.trans ?_)
      rw [append_assoc]
      exact List.prefix_append ..

theorem mem_files (depth : ℕ) (hdepth : PATH_MAX < depth + path.length) (p : CStr) :
    p ∈ files (calls fs (depth + 1) path) ↔ Below fs path p := by
  induction depth generalizing path p with
  | zero =>
    have hnone : fs.lstat path = none := fs.long path (by omega)
    rw [files_calls_leaf (fun _ hstat => by rw [hnone] at hstat; cases hstat), List.mem_singleton]
    refine ⟨fun h => h ▸ .root, fun h => ?_⟩
    obtain rfl | ⟨child, ⟨st_mode, _, _, hstat, -⟩, -⟩ := h.cases_head
    · rfl
    · rw [hnone] at hstat
      cases hstat
  | succ depth ih =>
    obtain ⟨st_mode, entries, hstat, hdir, hopen⟩ | hleaf := dir_or_leaf fs path
    · have hbelow (name : CStr) : p ∈ files (calls fs (depth + 1) (path ++ slash ++ name)) ↔
          Below fs (path ++ slash ++ name) p :=
        ih (by rw [length_append, length_append, length_slash]; omega) p
      rw [files_calls_dir hstat hdir hopen, List.mem_cons, List.mem_flatMap]
      constructor
      · rintro (rfl | ⟨name, hname, hp⟩)
        · exact .root
        · obtain ⟨hname, hdot⟩ := List.mem_filter.mp hname
          have hentry : Entry fs path (path ++ slash ++ name) :=
            ⟨st_mode, entries, name, hstat, hdir, hopen, hname, by simpa using hdot, rfl⟩
          exact (Below.root.entry hentry).trans ((hbelow name).mp hp)
      · intro h
        obtain rfl | ⟨child, ⟨_, _, name, -, -, hopen', hname, hdot, rfl⟩, hchild⟩ := h.cases_head
        · exact .inl rfl
        · obtain rfl := Option.some.inj (hopen.symm.trans hopen')
          exact .inr ⟨name, List.mem_filter.mpr ⟨hname, by simpa using hdot⟩, (hbelow name).mpr hchild⟩
    · rw [files_calls_leaf hleaf, List.mem_singleton]
      refine ⟨fun h => h ▸ .root, fun h => ?_⟩
      obtain rfl | ⟨child, ⟨st_mode, entries, _, hstat, hdir, hopen, -⟩, -⟩ := h.cases_head
      · rfl
      · rw [hleaf st_mode hstat hdir] at hopen
        cases hopen

theorem Behind.trans {p q r : CStr} (h : Behind p q) (h' : Behind q r) : Behind p r := by
  obtain rfl | h' := h'
  · exact h
  · obtain rfl | h := h
    · exact .inr h'
    · exact .inr (h.trans ((List.prefix_append ..).trans h'))

theorem Behind.length_le {p q : CStr} (h : Behind p q) : p.length ≤ q.length := by
  obtain rfl | h := h
  · exact Nat.le_refl _
  · exact ((List.prefix_append ..).trans h).length_le

theorem name_of_behind {p : CStr} (hname : SLASH ∉ name.bytes) (h : Behind (path ++ slash ++ name) p) :
    (p.bytes.drop (path ++ slash).length).takeWhile (· ≠ SLASH) = name.bytes := by
  have hall : ∀ c ∈ name.bytes, decide (c ≠ SLASH) = true := fun c hc => decide_eq_true fun heq => hname (heq ▸ hc)
  obtain rfl | ⟨rest, hrest⟩ := h
  · rw [CStr.bytes_append, CStr.length, List.drop_left]
    exact List.takeWhile_eq_self_iff.mpr hall
  · have hp : p.bytes = (path ++ slash).bytes ++ (name.bytes ++ SLASH :: rest) := by
      rw [← hrest, CStr.bytes_append, CStr.bytes_append, List.append_assoc, List.append_assoc]
      rfl
    rw [hp, CStr.length, List.drop_left, List.takeWhile_append_of_pos hall, List.takeWhile_cons_of_neg (by simp),
      List.append_nil]

theorem order_files (depth : ℕ) (hdepth : PATH_MAX < depth + path.length) :
    (files (calls fs (depth + 1) path)).Pairwise fun p q => ¬Behind q p := by
  induction depth generalizing path with
  | zero =>
    have hnone : fs.lstat path = none := fs.long path (by omega)
    rw [files_calls_leaf fun _ hstat => by rw [hnone] at hstat; cases hstat]
    exact List.pairwise_singleton ..
  | succ depth ih =>
    obtain ⟨st_mode, entries, hstat, hdir, hopen⟩ | hleaf := dir_or_leaf fs path
    · have hlen (name : CStr) : (path ++ slash ++ name).length = path.length + 1 + name.length := by
        rw [length_append, length_append, length_slash]
      have hdeep (name : CStr) : PATH_MAX < depth + (path ++ slash ++ name).length := by
        rw [hlen]
        omega
      have hbehind {name p : CStr} (hp : p ∈ files (calls fs (depth + 1) (path ++ slash ++ name))) :
          Behind (path ++ slash ++ name) p := ((mem_files depth (hdeep name) p).mp hp).behind
      rw [files_calls_dir hstat hdir hopen, List.pairwise_cons, List.pairwise_flatMap]
      refine ⟨fun q hq hle => ?_, fun name _ => ih (hdeep name), ?_⟩
      · -- everything in the directory has a longer path
        obtain ⟨name, -, hq⟩ := List.mem_flatMap.mp hq
        have hlong := (hbehind hq).length_le
        have hshort := hle.length_le
        rw [hlen] at hlong
        omega
      · -- two entries have nothing in common, since the name is behind the slash
        have hnodup := (fs.nodup _ _ hopen).filter fun name => ¬(name = dot ∨ name = dotdot)
        refine hnodup.imp_of_mem fun {name name'} hmem hmem' hne p hp q hq hqp => hne (CStr.ext ?_)
        have hslash := (fs.names _ _ hopen name (List.mem_filter.mp hmem).1).2
        have hslash' := (fs.names _ _ hopen name' (List.mem_filter.mp hmem').1).2
        rw [← name_of_behind hslash (hbehind hp), ← name_of_behind hslash' ((hbehind hq).trans hqp)]
    · rw [files_calls_leaf hleaf]
      exact List.pairwise_singleton ..

theorem calls_fit {fuel : ℕ} {c : Call} (h : c ∈ calls fs fuel path) : c.Fits fs := by
  induction fuel generalizing path with
  | zero => exact absurd h List.not_mem_nil
  | succ fuel ih =>
    unfold calls at h
    cases hstat : fs.lstat path with
    | none =>
      rw [hstat] at h
      obtain rfl := List.mem_singleton.mp h
      exact ⟨hstat, rfl⟩
    | some st_mode =>
      rw [hstat] at h
      dsimp only at h
      cases hdir : S_ISDIR st_mode with
      | false =>
        rw [if_pos hdir] at h
        obtain rfl := List.mem_singleton.mp h
        exact ⟨st_mode, hstat, hdir, rfl⟩
      | true =>
        rw [if_neg (by rw [hdir]; decide)] at h
        obtain rfl | h := List.mem_cons.mp h
        · exact ⟨st_mode, hstat, hdir, rfl⟩
        · cases hopen : fs.opendir (path ++ slash) with
          | none =>
            rw [hopen] at h
            obtain rfl := List.mem_singleton.mp h
            exact ⟨path, st_mode, hstat, hdir, rfl, rfl, hopen⟩
          | some entries =>
            rw [hopen] at h
            obtain ⟨name, -, hc⟩ := List.mem_flatMap.mp h
            exact ih hc

/-- A call of a directory that cannot be read is followed by its second one. -/
theorem calls_unread (fuel : ℕ) (path : CStr) : calls fs fuel path =
    ((calls fs fuel path).filter fun c => c.type ≠ .FTW_DNR).flatMap fun c => c :: unread fs c := by
  induction fuel generalizing path with
  | zero => rfl
  | succ fuel ih =>
    unfold calls
    cases hstat : fs.lstat path with
    | none => rfl
    | some st_mode =>
      dsimp only
      cases hdir : S_ISDIR st_mode with
      | false => rfl
      | true =>
        rw [if_neg (by decide)]
        have hfilter (rest : List Call) :
            ((⟨path, some st_mode, .FTW_D⟩ :: rest).filter fun c => c.type ≠ .FTW_DNR) =
              ⟨path, some st_mode, .FTW_D⟩ :: rest.filter fun c => c.type ≠ .FTW_DNR := rfl
        rw [hfilter, List.flatMap_cons, unread]
        cases hopen : fs.opendir (path ++ slash) with
        | none => rfl
        | some entries =>
          have hbelow : (entries.filter fun name => ¬(name = dot ∨ name = dotdot)).flatMap
              (fun name => calls fs fuel (path ++ slash ++ name)) =
            (entries.filter fun name => ¬(name = dot ∨ name = dotdot)).flatMap fun name =>
              ((calls fs fuel (path ++ slash ++ name)).filter fun c => c.type ≠ .FTW_DNR).flatMap
                fun c => c :: unread fs c := List.flatMap_congr fun name _ => ih _
          rw [List.filter_flatMap, List.flatMap_assoc, ← hbelow]
          rfl

end files

theorem walk_right (fs : Fs) (pathname : CStr) : Right fs pathname (walk fs pathname) where
  fits := fun _ h => calls_fit h
  once := (order_files (PATH_MAX + 1) (by omega)).imp fun h heq => h (.inl heq)
  order := order_files (PATH_MAX + 1) (by omega)
  all := mem_files (PATH_MAX + 1) (by omega)
  unread := calls_unread DEPTH pathname

theorem alloc_ok (heap : ℕ → UInt8) (pathname : CStr) :
    ∃ buf, (if (pathAlloc heap).length ≤ pathname.length then realloc heap (pathAlloc heap) (pathname.length * 2)
        else pathAlloc heap) = buf ∧
      pathname.length < buf.length ∧ NAME_MAX < buf.length := by
  have hmax : NAME_MAX < PATH_MAX := by decide
  have hfresh : (pathAlloc heap).length = PATH_MAX := by rw [pathAlloc, List.length_map, List.length_range]
  refine ⟨_, rfl, ?_⟩
  split
  · rw [length_realloc heap (by omega)]
    omega
  · omega

theorem myftw_ok (fs : Fs) (heap : ℕ → UInt8) (func : σ → Call → σ × ℤ) (pathname : CStr) (a : σ) :
    ∃ fullpath, myftw fs heap func pathname a = some (fullpath, visit func (walk fs pathname) a) := by
  obtain ⟨buf, hbuf, hlen, hmax⟩ := alloc_ok heap pathname
  have hempty : CStr.empty.bytes <+: buf := List.nil_prefix
  obtain ⟨buf₁, hcpy, hholds, hlen₁⟩ := strcpyAt_ok pathname hempty (by show 0 + _ < _; omega)
  have hwalks : Walks func (dopath fs heap func DEPTH) pathname (walk fs pathname) :=
    dopath_ok (PATH_MAX + 1) (by omega)
  obtain ⟨buf₂, hcall, -⟩ := hwalks buf₁ a hholds (by omega)
  refine ⟨buf₂, ?_⟩
  unfold myftw
  dsimp only
  rw [hbuf, show strcpyAt buf 0 pathname = some buf₁ from hcpy, some_bind]
  exact hcall

/-- Whatever the function returns, and wherever it stops the walk. -/
theorem myftw_run (fs : Fs) (heap : ℕ → UInt8) (func : σ → Call → σ × ℤ) (pathname : CStr) (a : σ) :
    Right fs pathname (walk fs pathname) ∧
      ∃ fullpath, myftw fs heap func pathname a = some (fullpath, visit func (walk fs pathname) a) :=
  ⟨walk_right fs pathname, myftw_ok fs heap func pathname a⟩

/-! ### The counters -/

section counters
variable {fs : Fs}

def Counts.add (m n : Counts) : Counts where
  nreg := m.nreg + n.nreg
  ndir := m.ndir + n.ndir
  nblk := m.nblk + n.nblk
  nchr := m.nchr + n.nchr
  nfifo := m.nfifo + n.nfifo
  nslink := m.nslink + n.nslink
  nsock := m.nsock + n.nsock
  dumped := m.dumped || n.dumped

theorem tally_append (fmt : ℕ) (l l' : List CStr) : tally fs fmt (l ++ l') = tally fs fmt l + tally fs fmt l' :=
  List.countP_append

theorem counts_append (l l' : List CStr) : counts fs (l ++ l') = (counts fs l).add (counts fs l') := by
  simp only [counts, Counts.add, tally_append, Bool.or_self]

theorem Counts.add_assoc (a b c : Counts) : (a.add b).add c = a.add (b.add c) := by
  simp only [Counts.add, Nat.add_assoc, Bool.or_assoc]

theorem add_counts_nil (n : Counts) : n.add (counts fs []) = n := by
  simp [Counts.add, counts, tally]

theorem tally_singleton {path : CStr} {st_mode : ℕ} (hstat : fs.lstat path = some st_mode) (fmt : ℕ) :
    tally fs fmt [path] = if st_mode &&& S_IFMT = fmt then 1 else 0 := by
  simp [tally, hstat, List.countP_cons]

theorem tally_none {path : CStr} (hstat : fs.lstat path = none) (fmt : ℕ) : tally fs fmt [path] = 0 := by
  simp [tally, hstat]

theorem myfunc_fits {c : Call} (h : c.Fits fs) (n : Counts) : myfunc n c = (n.add (counts fs (files [c])), 0) := by
  obtain ⟨pathname, st_mode, type⟩ := c
  cases type with
  | FTW_F =>
    obtain ⟨mode, hstat, hdir, rfl⟩ := h
    have hfmt : mode &&& S_IFMT ≠ S_IFDIR := by simpa [S_ISDIR] using hdir
    show myfunc n ⟨pathname, some mode, .FTW_F⟩ = (n.add (counts fs [pathname]), 0)
    obtain ⟨fmt, hmode⟩ : ∃ fmt, mode &&& S_IFMT = fmt := ⟨_, rfl⟩
    rw [hmode] at hfmt
    simp only [myfunc, counts, Counts.add, tally_singleton hstat, Option.getD_some, hmode]
    by_cases hknown : fmt ∈ [S_IFREG, S_IFBLK, S_IFCHR, S_IFIFO, S_IFLNK, S_IFSOCK]
    · simp only [List.mem_cons, List.not_mem_nil, or_false] at hknown
      rcases hknown with rfl | rfl | rfl | rfl | rfl | rfl <;>
        simp [S_IFREG, S_IFBLK, S_IFCHR, S_IFIFO, S_IFLNK, S_IFSOCK, S_IFDIR]
    · simp only [List.mem_cons, List.not_mem_nil, or_false, not_or] at hknown
      simp [hknown, hfmt]
  | FTW_D =>
    obtain ⟨mode, hstat, hdir, rfl⟩ := h
    have hfmt : mode &&& S_IFMT = S_IFDIR := by simpa [S_ISDIR] using hdir
    show myfunc n ⟨pathname, some mode, .FTW_D⟩ = (n.add (counts fs [pathname]), 0)
    simp [myfunc, counts, Counts.add, tally_singleton hstat, hfmt, S_IFREG, S_IFBLK, S_IFCHR, S_IFIFO, S_IFLNK,
      S_IFSOCK, S_IFDIR]
  | FTW_DNR => exact Prod.ext (add_counts_nil n).symm rfl
  | FTW_NS =>
    obtain ⟨hstat, rfl⟩ := h
    show (n, (0 : ℤ)) = (n.add (counts fs [pathname]), 0)
    simp [counts, Counts.add, tally_none hstat]

theorem visit_myfunc {calls : List Call} (h : ∀ c ∈ calls, c.Fits fs) (n : Counts) :
    visit myfunc calls n = (n.add (counts fs (files calls)), 0) := by
  induction calls generalizing n with
  | nil => exact Prod.ext (add_counts_nil n).symm rfl
  | cons c calls ih =>
    obtain ⟨hc, hcalls⟩ := List.forall_mem_cons.mp h
    rw [visit, myfunc_fits hc, if_neg (by simp), ih hcalls, Counts.add_assoc, ← counts_append, ← files_append]
    rfl

end counters

/-- The files at and below the path are counted by their format, each once, and no call is the one that `err_dump` is
there for. -/
theorem main_counts (fs : Fs) (heap : ℕ → UInt8) (pathname : CStr) :
    ∃ files : List CStr, files.Nodup ∧ (∀ path, path ∈ files ↔ Below fs pathname path) ∧
      main fs heap pathname = some (counts fs files, 0) := by
  have hright := walk_right fs pathname
  refine ⟨files (walk fs pathname), hright.once, hright.all, ?_⟩
  obtain ⟨fullpath, hrun⟩ := myftw_ok fs heap myfunc pathname ⟨0, 0, 0, 0, 0, 0, 0, false⟩
  rw [main, hrun, some_bind, visit_myfunc hright.fits]
  simp [Counts.add]

/-- The directory `d` with the file `f` in it. -/
def oneFile : Fs where
  lstat path :=
    if path = .ofBuf (ascii "d") then some 0o040755 else if path = .ofBuf (ascii "d/f") then some 0o100644 else none
  opendir path := if path = .ofBuf (ascii "d/") then some [dot, .ofBuf (ascii "f"), dotdot] else none
  long path h := by
    have hne {s : CStr} (hs : s.length < PATH_MAX) : path ≠ s := fun heq => absurd (heq ▸ h) (Nat.not_le.mpr hs)
    rw [if_neg (hne (by decide)), if_neg (hne (by decide))]
  names path entries h := by
    obtain rfl := Option.some.inj (Option.ite_none_right_eq_some.mp h).2
    decide
  nodup path entries h := by
    obtain rfl := Option.some.inj (Option.ite_none_right_eq_some.mp h).2
    decide

example : files (walk oneFile (.ofBuf (ascii "d"))) = [.ofBuf (ascii "d"), .ofBuf (ascii "d/f")] := by decide

end Apue.Ftw
