import Apue.Terminal.TtynameSearch

/-!
# `ttyname`: the walk along the list

The walk is a breadth-first search with a queue (`walk_ok`): the part of the list behind the node it stands at is
the queue. Paths get longer from level to level and are short, so the levels end (`level_eq_nil`), and with them
the search (`my_ttyname_spec`).
-/

namespace Apue.Ttyname
open Linked Levels

variable {fs : Fs} {fdstat : Stat} {s s' : State} {dirname path : CStr} {l : List ℕ} {names : List CStr}
  {rval : Option CStr} {fuel fuel' : ℕ} {p : Option ℕ}

/-! ### The directories -/

theorem length_of_mem_paths (h : path ∈ fs.paths dirname) : dirname.length + 2 ≤ path.length := by
  obtain ⟨e, -, rfl⟩ := List.mem_map.1 h
  have hpos : 0 < e.text.length := List.length_pos_iff.2 e.nonempty
  rw [length_join]
  omega

theorem mem_subdirs : path ∈ fs.subdirs dirname ↔ path ∈ fs.paths dirname ∧ fs.IsDir path ∧ Searched path := by
  rw [Fs.subdirs, Fs.dirsIn, List.mem_filter, decide_eq_true_iff]

theorem dir_of_mem_subdirs (hdir : fs.Dir Searched dirname) (h : path ∈ fs.subdirs dirname) : fs.Dir Searched path := by
  obtain ⟨hmem, hisdir, hok⟩ := mem_subdirs.1 h
  exact .sub hdir hmem hisdir hok

theorem dir_of_mem_level {k : ℕ} (h : path ∈ level fs.subdirs k [devName]) :
    fs.Dir Searched path ∧ 4 + 2 * k ≤ path.length := by
  induction k generalizing path with
  | zero =>
    obtain rfl := List.mem_singleton.1 h
    exact ⟨.dev, Nat.le_refl _⟩
  | succ k ih =>
    rw [level_succ] at h
    obtain ⟨dirname, hdirname, hpath⟩ := List.mem_flatMap.1 h
    obtain ⟨hdir, hlen⟩ := ih hdirname
    have hlonger := length_of_mem_paths (mem_subdirs.1 hpath).1
    exact ⟨dir_of_mem_subdirs hdir hpath, by omega⟩

theorem exists_level_of_dir (h : fs.Dir Searched path) : ∃ k, path ∈ level fs.subdirs k [devName] := by
  induction h with
  | dev => exact ⟨0, List.mem_singleton.2 rfl⟩
  | sub hdir hmem hpath hok ih =>
    obtain ⟨k, hk⟩ := ih
    refine ⟨k + 1, ?_⟩
    rw [level_succ]
    exact List.mem_flatMap.2 ⟨_, hk, mem_subdirs.2 ⟨hmem, hpath, hok⟩⟩

theorem level_eq_nil (hfits : fs.Fits) : level fs.subdirs POSIX_PATH_MAX [devName] = [] := by
  refine List.eq_nil_iff_forall_not_mem.2 fun path hpath => ?_
  obtain ⟨hdir, hlen⟩ := dir_of_mem_level hpath
  have hshort := hfits.dir path hdir
  omega

theorem mem_upTo_iff_dir (hfits : fs.Fits) :
    path ∈ upTo fs.subdirs POSIX_PATH_MAX [devName] ↔ fs.Dir Searched path := by
  rw [mem_upTo]
  constructor
  · rintro ⟨k, -, hk⟩
    exact (dir_of_mem_level hk).1
  · intro hdir
    obtain ⟨k, hk⟩ := exists_level_of_dir hdir
    have hshort := hfits.dir path hdir
    have hlong := (dir_of_mem_level hk).2
    exact ⟨k, by omega, hk⟩

theorem dir_ne_nil (h : fs.Dir Searched dirname) : dirname.bytes ≠ [] := by
  obtain ⟨k, hk⟩ := exists_level_of_dir h
  have hlen := (dir_of_mem_level hk).2
  intro hnil
  rw [CStr.length, hnil, List.length_nil] at hlen
  omega

/-! ### The walk -/

theorem bind_eq_ok {α β : Type} {x : Except Stuck α} {f : α → Except Stuck β} {r : β} (h : x >>= f = .ok r) :
    ∃ a, x = .ok a ∧ f a = .ok r := by
  cases x with
  | error e => cases h
  | ok a => exact ⟨a, rfl, h⟩

theorem walk_mono {r : State × Option CStr} (h : walk fs fdstat fuel s p = .ok r) (hle : fuel ≤ fuel') :
    walk fs fdstat fuel' s p = .ok r := by
  induction fuel generalizing fuel' s p with
  | zero => cases h
  | succ fuel ih =>
    obtain ⟨fuel', rfl⟩ : ∃ n, fuel' = n + 1 := ⟨fuel' - 1, by omega⟩
    cases p with
    | none => exact h
    | some ddp =>
      rw [walk] at h ⊢
      obtain ⟨d, hderef, h⟩ := bind_eq_ok h
      obtain ⟨⟨s₁, found⟩, hsearchdir, h⟩ := bind_eq_ok h
      rw [hderef, ok_bind, hsearchdir, ok_bind]
      cases found with
      | some path => exact h
      | none =>
        obtain ⟨d', hderef', h⟩ := bind_eq_ok h
        simp only [hderef', ok_bind]
        exact ih h (Nat.le_of_succ_le_succ hle)

theorem walk_ok (hfits : fs.Fits) {pre post : List ℕ} {done q : List CStr} (hs : Buffer s)
    (hqueue : Queue s (pre ++ post) (done ++ q)) (hlen : pre.length = done.length)
    (hq : ∀ dirname ∈ q, fs.Dir Searched dirname)
    (hsearch : search fs.subdirs (fs.found fdstat) fuel q = some rval) :
    ∃ s' l' names', walk fs fdstat fuel s post.head? = .ok (s', rval) ∧ Buffer s' ∧ Queue s' l' names' := by
  induction fuel generalizing s pre post done q with
  | zero => cases hsearch
  | succ fuel ih =>
    have hnames := hqueue.names
    rw [List.map_append, List.map_append] at hnames
    obtain ⟨-, hpost⟩ := List.append_inj hnames (by rw [List.length_map, List.length_map, hlen])
    cases q with
    | nil =>
      obtain rfl : post = [] := List.map_eq_nil_iff.1 hpost
      obtain rfl : none = rval := Option.some.inj hsearch
      exact ⟨s, _, _, rfl, hs, hqueue⟩
    | cons dirname rest =>
      cases post with
      | nil => cases hpost
      | cons a post =>
        obtain ⟨hname, -⟩ := List.cons.inj hpost
        obtain ⟨d, hd, hdname⟩ := Option.map_eq_some_iff.1 hname
        have hdir := hq dirname (List.mem_cons_self ..)
        obtain ⟨s₁, l', added, hsearchdir, hs₁, hqueue₁, hadded⟩ := searchdir_ok hs hqueue (hfits.dir dirname hdir)
          (dir_ne_nil hdir) fun path => hfits.entry dirname path hdir
        rw [List.head?_cons, walk, deref_of_mem hd, ok_bind, hdname, hsearchdir, ok_bind]
        rw [search] at hsearch
        unfold Fs.found at hsearch
        cases hfound : fs.findIn fdstat (fs.paths dirname) with
        | some path =>
          rw [hfound] at hsearch
          obtain rfl : some path = rval := Option.some.inj hsearch
          exact ⟨s₁, _, _, rfl, hs₁, hqueue₁⟩
        | none =>
          rw [hfound] at hsearch
          rw [hadded hfound] at hqueue₁
          obtain ⟨d₁, hd₁⟩ := hqueue₁.mem (a := a) (by simp)
          -- the queue is now what was behind this node, and what the directory has brought
          rw [List.append_assoc, List.cons_append] at hqueue₁
          have hnext : d₁.d_next = (post ++ l').head? := hqueue₁.next_eq hd₁
          simp only [deref_of_mem hd₁, ok_bind, hnext]
          have hqueue₂ : Queue s₁ ((pre ++ [a]) ++ (post ++ l'))
              ((done ++ [dirname]) ++ (rest ++ fs.subdirs dirname)) := by
            simpa [Fs.subdirs] using hqueue₁
          refine ih hs₁ hqueue₂ (by simp [hlen]) (fun path hpath => ?_) hsearch
          obtain hpath | hpath := List.mem_append.1 hpath
          · exact hq path (List.mem_cons_of_mem _ hpath)
          · exact dir_of_mem_subdirs hdir hpath

/-! ### The end -/

theorem freeLoop_ok (hchain : Chain s.next p l) (hmem : ∀ a ∈ l, ∃ d, s.mem a = some d)
    (honly : ∀ a, a ∉ l → s.mem a = none) (hfuel : l.length < fuel) :
    freeLoop fuel s p = .ok { s with mem := fun _ => none } := by
  induction fuel generalizing s p l with
  | zero => exact absurd hfuel (Nat.not_lt_zero _)
  | succ fuel ih =>
    cases l with
    | nil =>
      obtain rfl : p = none := hchain
      have hmem : s.mem = fun _ => none := funext fun a => honly a List.not_mem_nil
      rw [freeLoop, ← hmem]
      rfl
    | cons a l =>
      have hnot : a ∉ l := (List.nodup_cons.1 hchain.nodup).1
      obtain ⟨rfl, hrest⟩ := hchain
      obtain ⟨d, hd⟩ := hmem a (List.mem_cons_self ..)
      have hnext : s.next a = d.d_next := by rw [State.next, hd]; rfl
      have hsame : ∀ b ∈ l, Function.update s.mem a none b = s.mem b :=
        fun b hb => Function.update_of_ne (ne_of_mem_of_not_mem hb hnot) ..
      rw [freeLoop, deref_of_mem hd, ok_bind]
      refine ih (s := { s with mem := Function.update s.mem a none }) ?_ (fun b hb => ?_) (fun b hb => ?_)
        (Nat.lt_of_succ_lt_succ hfuel)
      · rw [← hnext]
        exact (chain_congr fun b hb => congrArg (·.bind Devdir.d_next) (hsame b hb)).2 hrest
      · obtain ⟨d', hd'⟩ := hmem b (List.mem_cons_of_mem _ hb)
        exact ⟨d', (hsame b hb).trans hd'⟩
      · by_cases hba : b = a
        · subst hba
          exact Function.update_self ..
        · refine (Function.update_of_ne hba ..).trans ?_
          exact honly b fun hmem => (List.mem_cons.1 hmem).elim hba hb

theorem cleanup_ok (hs : Buffer s) (hqueue : Queue s l names) (hfuel : l.length < fuel) :
    ∃ s', cleanup fuel s = .ok s' ∧ Ready s' := by
  have hfree : freeLoop fuel s s.head = .ok { s with mem := fun _ => none } :=
    freeLoop_ok hqueue.chain (fun _ ha => hqueue.mem ha) hqueue.only hfuel
  refine ⟨{ s with mem := fun _ => none, head := none, tail := none }, ?_, ⟨rfl, rfl, fun _ => rfl, hs.length, hs.last⟩⟩
  rw [cleanup, hfree, ok_bind]
  rfl

theorem Ready.queue (hs : Ready s) : Queue s [] [] :=
  ⟨hs.head, hs.tail, rfl, fun a _ => hs.mem a, fun _ ha => absurd ha List.not_mem_nil⟩

theorem find?_eq_none_iff (hfits : fs.Fits) :
    ((upTo fs.subdirs POSIX_PATH_MAX [devName]).flatMap fs.paths).find?
      (fun path => ¬ IsStdio path ∧ fs.Matches fdstat path) = none ↔
      ¬ ∃ path, fs.Entry Searched path ∧ fs.Matches fdstat path := by
  rw [List.find?_eq_none]
  constructor
  · rintro hnone ⟨path, ⟨dirname, hdir, hmem, hstdio⟩, hmatches⟩
    have hpath := List.mem_flatMap.2 ⟨dirname, (mem_upTo_iff_dir hfits).2 hdir, hmem⟩
    exact hnone path hpath (decide_eq_true ⟨hstdio, hmatches⟩)
  · intro hnone path hpath hfound
    obtain ⟨dirname, hdir, hmem⟩ := List.mem_flatMap.1 hpath
    obtain ⟨hstdio, hmatches⟩ := of_decide_eq_true hfound
    exact hnone ⟨path, ⟨dirname, (mem_upTo_iff_dir hfits).1 hdir, hmem, hstdio⟩, hmatches⟩

section run
variable {fd : Fd} {s₁ s₂ : State}

theorem my_ttyname_at_once (hatty : fd.isatty = true) (hstat : fd.fstat = some fdstat) (hchr : fdstat.type = .chr)
    (hsearchdir : searchdir fs fdstat s devName = .ok (s₁, some path)) (hcleanup : cleanup fuel s₁ = .ok s') :
    myTtyname fs fd fuel s = .ok (s', some path) := by
  simp only [myTtyname, hatty, hstat, hchr, hsearchdir, ok_bind, pure_bind, hcleanup, reduceCtorEq, if_false, ne_eq,
    not_true_eq_false]
  rfl

theorem my_ttyname_walk (hatty : fd.isatty = true) (hstat : fd.fstat = some fdstat) (hchr : fdstat.type = .chr)
    (hsearchdir : searchdir fs fdstat s devName = .ok (s₁, none))
    (hwalk : walk fs fdstat fuel s₁ s₁.head = .ok (s₂, rval)) (hcleanup : cleanup fuel s₂ = .ok s') :
    myTtyname fs fd fuel s = .ok (s', rval) := by
  simp only [myTtyname, hatty, hstat, hchr, hsearchdir, ok_bind, hwalk, hcleanup, reduceCtorEq, if_false, ne_eq,
    not_true_eq_false]
  rfl

theorem my_ttyname_run (hfits : fs.Fits) (hatty : fd.isatty = true) (hstat : fd.fstat = some fdstat)
    (hchr : fdstat.type = .chr) (hs : Ready s)
    (hsearch : search fs.subdirs (fs.found fdstat) (fuel + 1) [devName] = some rval) :
    ∃ fuel₀, ∀ fuel ≥ fuel₀, ∃ s', myTtyname fs fd fuel s = .ok (s', rval) ∧ Ready s' := by
  have hdev : fs.Dir Searched devName := .dev
  have hreads : Reads fs fdstat (fs.paths devName) [] [] (searchdir fs fdstat s devName) :=
    searchdir_ok ⟨hs.length, hs.last⟩ hs.queue (hfits.dir devName hdev) (dir_ne_nil hdev)
      fun path => hfits.entry devName path hdev
  obtain ⟨s₁, l, added, hsearchdir, hs₁, hqueue, hadded⟩ := hreads
  rw [search] at hsearch
  unfold Fs.found at hsearch
  cases hfound : fs.findIn fdstat (fs.paths devName) with
  | some path =>
    rw [hfound] at hsearch
    obtain rfl : some path = rval := Option.some.inj hsearch
    refine ⟨l.length + 1, fun fuel hfuel => ?_⟩
    obtain ⟨s', hcleanup, hready⟩ := cleanup_ok hs₁ hqueue hfuel
    exact ⟨s', my_ttyname_at_once hatty hstat hchr (hfound ▸ hsearchdir) hcleanup, hready⟩
  | none =>
    rw [hfound] at hsearch
    rw [hadded hfound] at hqueue
    have hq : ∀ path ∈ fs.subdirs devName, fs.Dir Searched path := fun path hpath => dir_of_mem_subdirs hdev hpath
    obtain ⟨s₂, l₂, names₂, hwalk, hs₂, hqueue₂⟩ := walk_ok hfits hs₁ hqueue rfl hq hsearch
    have hhead : s₁.head = l.head? := hqueue.chain.head_eq
    rw [← hhead] at hwalk
    refine ⟨max fuel (l₂.length + 1), fun fuel' hfuel => ?_⟩
    obtain ⟨s', hcleanup, hready⟩ := cleanup_ok hs₂ hqueue₂ (le_of_max_le_right hfuel)
    have hwalk' := walk_mono hwalk (le_of_max_le_left hfuel)
    exact ⟨s', my_ttyname_walk hatty hstat hchr (hfound ▸ hsearchdir) hwalk' hcleanup, hready⟩

end run

/-! ### One directory below `/dev` -/

theorem endsInDot_of_isDot {name : CStr} (h : IsDot name) : EndsInDot (join dirname name) := by
  by_cases hne : dirname.bytes = []
  · have hbytes := bytes_join dirname name
    rw [hne] at hbytes
    unfold EndsInDot CStr.length
    obtain hname | hname := h <;> simp [hbytes, hname]
  · exact endsInDot_join h hne

/-- The path is that of this directory, perhaps with a slash behind it. -/
def Leads (path dirname : CStr) : Prop := path = dirname ∨ path = dirname ++ slash

instance (path dirname : CStr) : Decidable (Leads path dirname) := inferInstanceAs (Decidable (_ ∨ _))

/-- Every path has fewer than `_POSIX_PATH_MAX` characters. -/
def Fs.Short (fs : Fs) : Prop :=
  ∀ dirname path, fs.Dir (· ≠ devFd) dirname → path ∈ fs.paths dirname → path.length < POSIX_PATH_MAX

/-- The directory `/dev/name` with one entry, which is a terminal unless it is a dot. -/
def below (name inner : Name) : Fs where
  stat path :=
    if EndsInDot path ∨ Leads path (join devName name.text) then some ⟨.dir, 1, 1⟩
    else if path = join (join devName name.text) inner.text then some ⟨.chr, 1, 2⟩ else none
  opendir path :=
    if path = devName then some [name]
    else if Leads path (join devName name.text) then some [inner] else none
  dots dirname name st hdot hstat := by
    rw [if_pos (.inl (endsInDot_of_isDot hdot))] at hstat
    exact Option.some.inj hstat ▸ rfl

def terminal : Fd := ⟨true, some ⟨.chr, 1, 2⟩⟩

/-- Before the first call. -/
def start : State := ⟨none, none, fun _ => none, 0, List.replicate (POSIX_PATH_MAX + 1) 0⟩

theorem start_ready : Ready start := ⟨rfl, rfl, fun _ => rfl, List.length_replicate, by simp [start]⟩

section below
variable {name inner : Name} {ok : CStr → Prop}

theorem mem_paths_below (hdirname : dirname = devName ∨ dirname = join devName name.text)
    (h : path ∈ (below name inner).paths dirname) :
    path = join devName name.text ∨
      (dirname = join devName name.text ∧ path = join dirname inner.text ∧ ¬ IsDot inner.text) := by
  obtain ⟨e, he, rfl⟩ := List.mem_map.1 h
  obtain ⟨hmem, hdot⟩ := List.mem_filter.1 he
  have hdot := of_decide_eq_true hdot
  simp only [below] at hmem
  split at hmem
  · rename_i hdev
    obtain rfl := List.mem_singleton.1 hmem
    exact .inl (hdev ▸ rfl)
  · rename_i hdev
    split at hmem
    · obtain rfl := List.mem_singleton.1 hmem
      exact .inr ⟨hdirname.resolve_left hdev, rfl, hdot⟩
    · exact absurd hmem List.not_mem_nil

theorem not_leads_join : ¬ Leads (join dirname inner.text) dirname := by
  have hpos : 0 < inner.text.length := List.length_pos_iff.2 inner.nonempty
  have hlen := length_join dirname inner.text
  have hslash : (dirname ++ slash).length = dirname.length + 1 := length_append ..
  rintro (heq | heq)
  · rw [heq] at hlen
    omega
  · rw [heq] at hlen
    omega

theorem dir_below (h : (below name inner).Dir ok path) : path = devName ∨ path = join devName name.text := by
  induction h with
  | dev => exact .inl rfl
  | sub hdir hmem hpath hok ih =>
    obtain hname | ⟨rfl, rfl, hdot⟩ := mem_paths_below ih hmem
    · exact .inr hname
    · have hnot : ¬ EndsInDot (join (join devName name.text) inner.text) :=
        not_endsInDot_join inner hdot (by simp [bytes_join])
      simp [Fs.IsDir, below, hnot, not_leads_join] at hpath

theorem short_below (h : name.text.length ≤ 250)
    (hinner : IsDot inner.text ∨ name.text.length + inner.text.length < 250) : (below name inner).Short := by
  intro dirname path hdir hmem
  have hdev : devName.length = 4 := rfl
  have hname := length_join devName name.text
  have hmax : POSIX_PATH_MAX = 256 := rfl
  obtain rfl | ⟨rfl, rfl, hdot⟩ := mem_paths_below (dir_below hdir) hmem
  · omega
  · have hlen := length_join (join devName name.text) inner.text
    have hsum := hinner.resolve_left hdot
    omega

theorem fits_below (h : name.text.length + inner.text.length < 250) : (below name inner).Fits := by
  have hdev : devName.length = 4 := rfl
  have hname := length_join devName name.text
  have hinner := length_join (join devName name.text) inner.text
  have hmax : POSIX_PATH_MAX = 256 := rfl
  refine ⟨fun dirname hdir => ?_, fun dirname path hdir hmem => ?_⟩
  · obtain rfl | rfl := dir_below hdir <;> omega
  · obtain rfl | ⟨rfl, rfl, -⟩ := mem_paths_below (dir_below hdir) hmem <;> omega

end below

def nameOf (bytes : List UInt8) (h : bytes ≠ [] ∧ 47 ∉ bytes ∧ 0 ∉ bytes) : Name := ⟨⟨bytes, h.2.2⟩, h.1, h.2.1⟩

def zero : Name := nameOf (ascii "0") (by decide)

def dot : Name := nameOf (ascii ".") (by decide)

def pts : Name := nameOf (ascii "pts") (by decide)

def stdin : Name := nameOf (ascii "stdin") (by decide)

def long : Name := nameOf (List.replicate 250 97) (by decide)

/-! ### The result -/

/-- When paths are short, the search ends with the first match level by level, and nothing is left behind. -/
theorem my_ttyname_spec (hfits : fs.Fits) {fd : Fd} (hatty : fd.isatty = true) (hstat : fd.fstat = some fdstat)
    (hchr : fdstat.type = .chr) (hs : Ready s) :
    ∃ rval,
      (∃ fuel₀, ∀ fuel ≥ fuel₀, ∃ s', myTtyname fs fd fuel s = .ok (s', rval) ∧ Ready s') ∧
      (rval = none ↔ ¬ ∃ path, fs.Entry Searched path ∧ fs.Matches fdstat path) ∧
      ∃ n, level fs.subdirs n [devName] = [] ∧
        rval = ((upTo fs.subdirs n [devName]).flatMap fs.paths).find?
          fun path => ¬ IsStdio path ∧ fs.Matches fdstat path := by
  have hempty := level_eq_nil hfits
  have hfind : ((upTo fs.subdirs POSIX_PATH_MAX [devName]).flatMap fs.paths).find?
      (fun path => ¬ IsStdio path ∧ fs.Matches fdstat path) =
        (upTo fs.subdirs POSIX_PATH_MAX [devName]).findSome? (fs.found fdstat) := List.find?_flatMap
  have hsearch : search fs.subdirs (fs.found fdstat) _ [devName] = _ := search_eq hempty (Nat.lt_succ_self _)
  refine ⟨_, my_ttyname_run hfits hatty hstat hchr hs hsearch, ?_, POSIX_PATH_MAX, hempty, hfind.symm⟩
  rw [← find?_eq_none_iff hfits]
  exact iff_of_eq (congrArg (· = none) hfind.symm)

theorem my_ttyname_spec_pts :
    ∃ path fuel s', myTtyname (below pts zero) terminal fuel start = .ok (s', some path) ∧ Ready s' := by
  have hfits : (below pts zero).Fits := fits_below (by decide)
  have hstat : terminal.fstat = some ⟨.chr, 1, 2⟩ := rfl
  obtain ⟨rval, ⟨fuel, hrun⟩, hnone, -⟩ := my_ttyname_spec hfits rfl hstat rfl start_ready
  obtain ⟨s', hs', hready⟩ := hrun fuel (Nat.le_refl _)
  cases rval with
  | none =>
    refine absurd ⟨join (join devName pts.text) zero.text, ⟨join devName pts.text, ?_, ?_, ?_⟩, ?_⟩ (hnone.1 rfl)
    · exact .sub .dev (by decide) (by decide) (by decide)
    · decide
    · decide
    · decide
  | some path => exact ⟨path, fuel, s', hs', hready⟩

/-- A terminal below a directory `/dev/stdin` is not found. And in a directory whose path has one character less than
`_POSIX_PATH_MAX` there is no room for an entry: the directory comes into the list again with a slash, and a second
slash does not fit. -/
theorem my_ttyname_misses :
    ((below stdin zero).Short ∧
      (∃ path, (below stdin zero).Entry (· ≠ devFd) path ∧ (below stdin zero).Matches ⟨.chr, 1, 2⟩ path) ∧
      (myTtyname (below stdin zero) terminal 4 start).map Prod.snd = .ok none) ∧
    (below long dot).Short ∧ (myTtyname (below long dot) terminal 4 start).map Prod.snd = .error .overflow := by
  have hlong : long.text.length = 250 := List.length_replicate
  refine ⟨⟨short_below (by decide) (.inr (by decide)), ?_, by decide +kernel⟩, ?_, by decide +kernel⟩
  · refine ⟨join (join devName stdin.text) zero.text, ⟨join devName stdin.text, ?_, ?_, ?_⟩, ?_⟩
    · exact .sub .dev (by decide) (by decide) (by decide)
    · decide
    · decide
    · decide
  · exact short_below (Nat.le_of_eq hlong) (.inl (.inl rfl))

end Apue.Ttyname
