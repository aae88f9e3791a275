import Apue.Environ.Getenv
import Apue.Lib.Threads
import Apue.Lib.Transition
import Mathlib.Data.Finset.Card

/-!
# The buffers of getenv_3 (Chapter-12/12-13.c)

Any number of threads that call `getenv_3`, any number of times, and exit. A call is taken statement by
statement; `environ` may change between calls. No statement of the source sets the value under `key`, so
every call takes a buffer from `malloc`, and the destructor of the key never has anything to free:
`getenv_3_run` says that what a call has returned is never changed, and that the buffers are as many as
they should be as long as no thread gets a second one or exits with one.
-/

namespace Apue.Environ.PerThread
open Threads Transition

variable {T : Type*}

/-- Where a thread is, with its variables. -/
inductive Pc where
  | ready
  -- the statements of getenv_3
  | once (name : CStr)
  | lock (name : CStr)
  | getspecific (name : CStr)
  | malloc (name : CStr)
  | search (name : CStr) (env_buf : ℕ)
  | unlock (ret : Option ℕ)
  | exited

/-- Memory from `malloc`, and the thread that asked for it. -/
structure Buffer (T : Type*) where
  owner : T
  buf : Buf
  freed : Bool

structure State (T : Type*) where
  init_done : Bool
  /-- The value of each thread under `key`: a buffer, or null. -/
  specific : T → Option ℕ
  env_mutex : Mutex T
  bufs : List (Buffer T)
  pc : T → Pc
  /-- The threads that have called `getenv_3` and not exited. -/
  callers : Finset T
  /-- What calls have returned: to whom, which buffer, and what it held then. -/
  returned : List (T × ℕ × Buf)

/-- `next` takes what `malloc` returns, and the environment. -/
inductive Act (T : Type*) where
  | call (t : T) (name : CStr)
  | next (t : T) (malloc : Option Buf) (environ : List CStr)
  | exit (t : T)

variable [DecidableEq T] (outside : CStr → ℤ → CStr)

def State.goto (s : State T) (t : T) (pc : Pc) : State T := { s with pc := Function.update s.pc t pc }

/-- The destructor of `key` for a thread that exits. -/
def State.destroy (s : State T) (t : T) : State T :=
  match s.specific t with
  | none => s
  | some i =>
    { s with
      specific := Function.update s.specific t none
      bufs := s.bufs.modify i fun b => { b with freed := true } }

def step (s : State T) : Act T → Option (State T)
  | .call t name =>
    match s.pc t with
    | .ready => some { s.goto t (.once name) with callers := insert t s.callers }
    | _ => none
  | .next t mem environ =>
    match s.pc t with
    -- the first call creates the key, with `free` as its destructor
    | .once name => some { s.goto t (.lock name) with init_done := true }
    | .lock name => (s.env_mutex.lock t).map fun m => { s.goto t (.getspecific name) with env_mutex := m }
    | .getspecific name =>
      match s.specific t with
      | some env_buf => some (s.goto t (.search name env_buf))
      | none => some (s.goto t (.malloc name))
    | .malloc name =>
      match mem with
      | none => some (s.goto t (.unlock none))
      | some buf => some { s.goto t (.search name s.bufs.length) with bufs := s.bufs ++ [⟨t, buf, false⟩] }
    | .search name env_buf =>
      match found outside environ name with
      | some v =>
        some { s.goto t (.unlock (some env_buf)) with
          bufs := s.bufs.modify env_buf fun b => { b with buf := b.buf.copy v } }
      | none => some (s.goto t (.unlock none))
    | .unlock ret =>
      let text := ret.bind fun i => (s.bufs[i]?).map fun b => (t, i, b.buf)
      some { s.goto t .ready with env_mutex := none, returned := s.returned ++ text.toList }
    | .ready => none
    | .exited => none
  | .exit t =>
    match s.pc t with
    | .ready => some { (s.destroy t).goto t .exited with callers := s.callers.erase t }
    | _ => none

/-- No thread has called `getenv_3`. -/
def start : State T where
  init_done := false
  specific _ := none
  env_mutex := none
  bufs := []
  pc _ := .ready
  callers := ∅
  returned := []

/-! ### What the buffers should do -/

/-- Each string that was returned is still in a buffer of the thread that it was returned to, as it was. -/
def Kept (s : State T) : Prop :=
  ∀ t i buf, (t, i, buf) ∈ s.returned → ∃ b, s.bufs[i]? = some b ∧ b.owner = t ∧ b.buf = buf

structure Right (s : State T) : Prop where
  count : (s.bufs.filter fun b => !b.freed).length ≤ s.callers.card
  freed : ∀ b ∈ s.bufs, s.pc b.owner = .exited → b.freed = true

/-- No thread gets a second buffer, and none that has got one exits. -/
def Single (s : State T) : Act T → Prop
  | .call _ _ => True
  | .next t mem _ =>
    match s.pc t, mem with
    | .malloc _, some _ => ∀ b ∈ s.bufs, b.owner ≠ t
    | _, _ => True
  | .exit t => ∀ b ∈ s.bufs, b.owner ≠ t

/-! ### No call touches the buffer of another -/

/-- The buffer that a call works on. -/
def Pc.buffer : Pc → Option ℕ
  | .search _ i => some i
  | .unlock ret => ret
  | _ => none

structure Inv (s : State T) : Prop where
  specific : ∀ t, s.specific t = none
  live : ∀ b ∈ s.bufs, b.freed = false
  working : ∀ t i, (s.pc t).buffer = some i → ∃ b, s.bufs[i]? = some b ∧ b.owner = t ∧
    ∀ x ∈ s.returned, x.2.1 ≠ i
  kept : Kept s

variable {outside : CStr → ℤ → CStr} {s s' : State T} {t : T} {p : Pc} {i : ℕ}

omit [DecidableEq T] in
theorem start_inv : Inv (start : State T) where
  specific _ := rfl
  live _ hb := absurd hb List.not_mem_nil
  working _ _ h := by cases h
  kept _ _ _ h := absurd h List.not_mem_nil

theorem Inv.goto (h : Inv s) (hp : p.buffer = none) : Inv (s.goto t p) := by
  refine ⟨h.specific, h.live, fun u i hu => ?_, h.kept⟩
  by_cases hut : u = t
  · subst hut
    simp only [State.goto, Function.update_self, hp] at hu
    cases hu
  · simp only [State.goto, Function.update_of_ne hut] at hu
    exact h.working u i hu

theorem Inv.malloc (h : Inv s) (name : CStr) (buf : Buf) :
    Inv { s.goto t (.search name s.bufs.length) with bufs := s.bufs ++ [⟨t, buf, false⟩] } := by
  have hold {i : ℕ} {b : Buffer T} (hb : s.bufs[i]? = some b) :
      (s.bufs ++ [⟨t, buf, false⟩])[i]? = some b := by
    obtain ⟨hlt, -⟩ := List.getElem?_eq_some_iff.mp hb
    rw [List.getElem?_append_left hlt, hb]
  refine ⟨h.specific, fun b hb => ?_, fun u i hu => ?_, fun u i text hmem => ?_⟩
  · obtain hb | hb := List.mem_append.mp hb
    · exact h.live b hb
    · rw [List.mem_singleton.mp hb]
  · by_cases hut : u = t
    · subst hut
      simp only [State.goto, Function.update_self, Pc.buffer, Option.some.injEq] at hu
      subst hu
      refine ⟨⟨u, buf, false⟩, List.getElem?_concat_length, rfl, fun x hx hxi => ?_⟩
      obtain ⟨b, hb, -⟩ := h.kept x.1 x.2.1 x.2.2 hx
      rw [hxi, List.getElem?_eq_none le_rfl] at hb
      cases hb
    · simp only [State.goto, Function.update_of_ne hut] at hu
      obtain ⟨b, hb, howner, hnew⟩ := h.working u i hu
      exact ⟨b, hold hb, howner, hnew⟩
  · obtain ⟨b, hb, howner, hbuf⟩ := h.kept u i text hmem
    exact ⟨b, hold hb, howner, hbuf⟩

theorem Inv.copy (h : Inv s) (hi : (s.pc t).buffer = some i) (v : CStr) :
    Inv { s.goto t (.unlock (some i)) with bufs := s.bufs.modify i fun b => { b with buf := b.buf.copy v } } := by
  obtain ⟨b, hb, howner, hnew⟩ := h.working t i hi
  have hself : (s.bufs.modify i fun b => { b with buf := b.buf.copy v })[i]? = some { b with buf := b.buf.copy v } := by
    simp [hb]
  have hother {j : ℕ} (hne : i ≠ j) : (s.bufs.modify i fun b => { b with buf := b.buf.copy v })[j]? = s.bufs[j]? := by
    simp [hne]
  refine ⟨h.specific, fun c hc => ?_, fun u j hu => ?_, fun u j text hmem => ?_⟩
  · obtain ⟨j, hj⟩ := List.mem_iff_getElem?.mp hc
    by_cases hij : i = j
    · subst hij
      obtain rfl := Option.some.inj (hself.symm.trans hj)
      exact h.live b (List.mem_of_getElem? hb)
    · exact h.live c (List.mem_of_getElem? ((hother hij).symm.trans hj))
  · by_cases hut : u = t
    · subst hut
      simp only [State.goto, Function.update_self, Pc.buffer, Option.some.injEq] at hu
      subst hu
      exact ⟨_, hself, howner, hnew⟩
    · simp only [State.goto, Function.update_of_ne hut] at hu
      obtain ⟨c, hc, howner', hnew'⟩ := h.working u j hu
      have hij : i ≠ j := by
        rintro rfl
        obtain rfl := Option.some.inj (hb.symm.trans hc)
        exact hut (howner'.symm.trans howner)
      exact ⟨c, (hother hij).trans hc, howner', hnew'⟩
  · obtain ⟨c, hc, howner', hbuf⟩ := h.kept u j text hmem
    exact ⟨c, (hother (hnew _ hmem).symm).trans hc, howner', hbuf⟩

theorem Inv.unlock (h : Inv s) {ret : Option ℕ} (hpc : s.pc t = .unlock ret) :
    Inv { s.goto t .ready with
      env_mutex := none
      returned := s.returned ++ (ret.bind fun i => (s.bufs[i]?).map fun b => (t, i, b.buf)).toList } := by
  have hmem {x : T × ℕ × Buf}
      (hx : x ∈ (ret.bind fun i => (s.bufs[i]?).map fun b => (t, i, b.buf)).toList) :
      ∃ i b, ret = some i ∧ s.bufs[i]? = some b ∧ b.owner = t ∧ x = (t, i, b.buf) := by
    obtain ⟨i, hret, hx⟩ := Option.bind_eq_some_iff.mp (Option.mem_toList.mp hx)
    obtain ⟨b, hb, rfl⟩ := Option.map_eq_some_iff.mp hx
    obtain ⟨b', hb', howner, -⟩ := h.working t i (by rw [hpc]; exact hret)
    obtain rfl := Option.some.inj (hb.symm.trans hb')
    exact ⟨i, b, hret, hb, howner, rfl⟩
  refine ⟨h.specific, h.live, fun u j hu => ?_, fun u j text hx => ?_⟩
  · by_cases hut : u = t
    · subst hut
      simp only [State.goto, Function.update_self] at hu
      cases hu
    · simp only [State.goto, Function.update_of_ne hut] at hu
      obtain ⟨c, hc, howner, hnew⟩ := h.working u j hu
      refine ⟨c, hc, howner, fun x hx => ?_⟩
      obtain hx | hx := List.mem_append.mp hx
      · exact hnew x hx
      · obtain ⟨i, b, -, hb, howner', rfl⟩ := hmem hx
        rintro rfl
        obtain rfl := Option.some.inj (hb.symm.trans hc)
        exact hut (howner.symm.trans howner')
  · obtain hx | hx := List.mem_append.mp hx
    · exact h.kept u j text hx
    · obtain ⟨i, b, -, hb, howner, heq⟩ := hmem hx
      obtain ⟨rfl, rfl, rfl⟩ : u = t ∧ j = i ∧ text = b.buf := by simpa using heq
      exact ⟨b, hb, howner, rfl⟩

theorem Inv.destroy (h : Inv s) (t : T) : s.destroy t = s := by
  rw [State.destroy, h.specific t]

theorem step_inv (s : State T) (a : Act T) (s' : State T) (h : Inv s) (hs : step outside s a = some s') :
    Inv s' := by
  cases a with
  | call t name =>
    simp only [step] at hs
    split at hs
    · obtain rfl := Option.some.inj hs
      have hgoto := h.goto (t := t) (p := .once name) rfl
      exact ⟨hgoto.specific, hgoto.live, hgoto.working, hgoto.kept⟩
    · cases hs
  | next t mem environ =>
    simp only [step] at hs
    cases hpc : s.pc t with
    | ready => simp [hpc] at hs
    | once name =>
      simp only [hpc, Option.some.injEq] at hs
      subst hs
      have hgoto := h.goto (t := t) (p := .lock name) rfl
      exact ⟨hgoto.specific, hgoto.live, hgoto.working, hgoto.kept⟩
    | lock name =>
      simp only [hpc] at hs
      obtain ⟨m, -, rfl⟩ := Option.map_eq_some_iff.mp hs
      have hgoto := h.goto (t := t) (p := .getspecific name) rfl
      exact ⟨hgoto.specific, hgoto.live, hgoto.working, hgoto.kept⟩
    | getspecific name =>
      simp only [hpc, h.specific t, Option.some.injEq] at hs
      exact hs ▸ h.goto rfl
    | malloc name =>
      simp only [hpc] at hs
      cases mem with
      | none => exact Option.some.inj hs ▸ h.goto rfl
      | some buf => exact Option.some.inj hs ▸ h.malloc name buf
    | search name i =>
      simp only [hpc] at hs
      split at hs
      · rename_i v _
        exact Option.some.inj hs ▸ h.copy (by rw [hpc]; rfl) v
      · exact Option.some.inj hs ▸ h.goto rfl
    | unlock ret =>
      simp only [hpc, Option.some.injEq] at hs
      exact hs ▸ h.unlock hpc
    | exited => simp [hpc] at hs
  | exit t =>
    simp only [step, h.destroy t] at hs
    split at hs
    · obtain rfl := Option.some.inj hs
      have hgoto := h.goto (t := t) (p := .exited) rfl
      exact ⟨hgoto.specific, hgoto.live, hgoto.working, hgoto.kept⟩
    · cases hs

/-! ### As many buffers as callers -/

/-- Every thread in a call or with a buffer has called and is not gone; with `Single` no thread has two
buffers. -/
structure Tidy (s : State T) : Prop where
  calling : ∀ t, s.pc t ≠ .ready → s.pc t ≠ .exited → t ∈ s.callers
  gone : ∀ t ∈ s.callers, s.pc t ≠ .exited
  owners : (s.bufs.map Buffer.owner).Nodup
  callers : ∀ t ∈ s.bufs.map Buffer.owner, t ∈ s.callers

omit [DecidableEq T] in
theorem start_tidy : Tidy (start : State T) where
  calling _ h := absurd rfl h
  gone _ h := absurd h (Finset.notMem_empty _)
  owners := List.nodup_nil
  callers _ h := absurd h List.not_mem_nil

omit [DecidableEq T] in
theorem Tidy.right (h : Tidy s) : Right s := by
  classical
  refine ⟨?_, fun b hb hgone => absurd hgone (h.gone _ (h.callers _ (List.mem_map_of_mem hb)))⟩
  calc (s.bufs.filter fun b => !b.freed).length
      ≤ s.bufs.length := List.length_filter_le ..
    _ = (s.bufs.map Buffer.owner).toFinset.card := by
      rw [List.toFinset_card_of_nodup h.owners, List.length_map]
    _ ≤ s.callers.card := by
      exact Finset.card_le_card fun t ht => h.callers t (List.mem_toFinset.mp ht)

theorem Tidy.goto (h : Tidy s) (ht : t ∈ s.callers) (hp : p ≠ .exited) : Tidy (s.goto t p) := by
  refine ⟨fun u hready hexited => ?_, fun u hu => ?_, h.owners, h.callers⟩
  · by_cases hut : u = t
    · exact hut ▸ ht
    · simp only [State.goto, Function.update_of_ne hut] at hready hexited
      exact h.calling u hready hexited
  · by_cases hut : u = t
    · subst hut
      simpa [State.goto] using hp
    · simp only [State.goto, Function.update_of_ne hut]
      exact h.gone u hu

omit [DecidableEq T] in
theorem owners_modify (l : List (Buffer T)) (i : ℕ) (f : Buf → Buf) :
    (l.modify i fun b => { b with buf := f b.buf }).map Buffer.owner = l.map Buffer.owner := by
  refine List.ext_getElem? fun j => ?_
  rw [List.getElem?_map, List.getElem?_map]
  by_cases hij : i = j
  · subst hij
    rw [List.getElem?_modify_eq]
    cases l[i]? with
    | none => rfl
    | some b => rfl
  · rw [List.getElem?_modify_ne _ _ hij]

theorem Tidy.call (h : Tidy s) (name : CStr) :
    Tidy { s.goto t (.once name) with callers := insert t s.callers } := by
  refine ⟨fun u hready hexited => ?_, fun u hu => ?_, h.owners, fun u hu => Finset.mem_insert_of_mem (h.callers u hu)⟩
  · by_cases hut : u = t
    · exact hut ▸ Finset.mem_insert_self t s.callers
    · simp only [State.goto, Function.update_of_ne hut] at hready hexited
      exact Finset.mem_insert_of_mem (h.calling u hready hexited)
  · by_cases hut : u = t
    · subst hut
      simp [State.goto]
    · simp only [State.goto, Function.update_of_ne hut]
      exact h.gone u (Finset.mem_of_mem_insert_of_ne hu hut)

theorem Tidy.malloc (h : Tidy s) (ht : t ∈ s.callers) (hnew : ∀ b ∈ s.bufs, b.owner ≠ t) (name : CStr) (buf : Buf) :
    Tidy { s.goto t (.search name s.bufs.length) with bufs := s.bufs ++ [⟨t, buf, false⟩] } := by
  have hgoto := h.goto (p := .search name s.bufs.length) ht (by simp)
  refine ⟨hgoto.calling, hgoto.gone, ?_, fun u hu => ?_⟩
  · rw [List.map_append, List.nodup_append]
    refine ⟨h.owners, List.nodup_singleton _, fun u hu v hv => ?_⟩
    obtain ⟨b, hb, rfl⟩ := List.mem_map.mp hu
    rw [List.mem_singleton.mp hv]
    exact hnew b hb
  · rw [List.map_append] at hu
    obtain hu | hu := List.mem_append.mp hu
    · exact h.callers u hu
    · rw [List.mem_singleton.mp hu]
      exact ht

theorem Tidy.exit (h : Tidy s) (hnone : ∀ b ∈ s.bufs, b.owner ≠ t) :
    Tidy { s.goto t .exited with callers := s.callers.erase t } := by
  refine ⟨fun u hready hexited => ?_, fun u hu => ?_, h.owners, fun u hu => ?_⟩
  · by_cases hut : u = t
    · subst hut
      simp [State.goto] at hexited
    · simp only [State.goto, Function.update_of_ne hut] at hready hexited
      exact Finset.mem_erase.mpr ⟨hut, h.calling u hready hexited⟩
  · obtain ⟨hut, hu⟩ := Finset.mem_erase.mp hu
    simp only [State.goto, Function.update_of_ne hut]
    exact h.gone u hu
  · obtain ⟨b, hb, rfl⟩ := List.mem_map.mp hu
    exact Finset.mem_erase.mpr ⟨hnone b hb, h.callers _ hu⟩

theorem step_tidy (s : State T) (a : Act T) (s' : State T) (h : Inv s ∧ Tidy s) (hsingle : Single s a)
    (hs : step outside s a = some s') : Inv s' ∧ Tidy s' := by
  refine ⟨step_inv s a s' h.1 hs, ?_⟩
  obtain ⟨hinv, h⟩ := h
  cases a with
  | call t name =>
    simp only [step] at hs
    split at hs
    · exact Option.some.inj hs ▸ h.call name
    · cases hs
  | next t mem environ =>
    have ht : s.pc t ≠ .ready → s.pc t ≠ .exited → t ∈ s.callers := h.calling t
    simp only [step] at hs
    cases hpc : s.pc t with
    | ready => simp [hpc] at hs
    | once name =>
      simp only [hpc, Option.some.injEq] at hs
      subst hs
      have hgoto := h.goto (p := .lock name) (ht (by simp [hpc]) (by simp [hpc])) (by simp)
      exact ⟨hgoto.calling, hgoto.gone, hgoto.owners, hgoto.callers⟩
    | lock name =>
      simp only [hpc] at hs
      obtain ⟨m, -, rfl⟩ := Option.map_eq_some_iff.mp hs
      have hgoto := h.goto (p := .getspecific name) (ht (by simp [hpc]) (by simp [hpc])) (by simp)
      exact ⟨hgoto.calling, hgoto.gone, hgoto.owners, hgoto.callers⟩
    | getspecific name =>
      simp only [hpc, hinv.specific t, Option.some.injEq] at hs
      exact hs ▸ h.goto (ht (by simp [hpc]) (by simp [hpc])) (by simp)
    | malloc name =>
      have ht := ht (by simp [hpc]) (by simp [hpc])
      simp only [hpc] at hs
      cases mem with
      | none => exact Option.some.inj hs ▸ h.goto ht (by simp)
      | some buf =>
        simp only [Single, hpc] at hsingle
        exact Option.some.inj hs ▸ h.malloc ht hsingle name buf
    | search name i =>
      have ht := ht (by simp [hpc]) (by simp [hpc])
      simp only [hpc] at hs
      split at hs
      · rename_i v _
        obtain rfl := Option.some.inj hs
        have hgoto := h.goto (p := .unlock (some i)) ht (by simp)
        refine ⟨hgoto.calling, hgoto.gone, ?_, ?_⟩
        · exact (owners_modify s.bufs i fun b => b.copy v) ▸ h.owners
        · exact (owners_modify s.bufs i fun b => b.copy v) ▸ h.callers
      · exact Option.some.inj hs ▸ h.goto ht (by simp)
    | unlock ret =>
      simp only [hpc, Option.some.injEq] at hs
      subst hs
      have hgoto := h.goto (p := .ready) (ht (by simp [hpc]) (by simp [hpc])) (by simp)
      exact ⟨hgoto.calling, hgoto.gone, hgoto.owners, hgoto.callers⟩
    | exited => simp [hpc] at hs
  | exit t =>
    simp only [step, hinv.destroy t] at hs
    split at hs
    · exact Option.some.inj hs ▸ h.exit hsingle
    · cases hs

/-- In every run the strings that were returned stay as they are; the buffers are as many as they should be, and
freed when they should be, in every run in which no thread gets a second buffer or exits with one. -/
theorem getenv_3_run {as : List (Act T)} (hrun : run (step outside) start as = some s) :
    Kept s ∧ (Meets (step outside) Single start as → Right s) := by
  refine ⟨(invariant_run step_inv start_inv hrun).kept, fun hmeets => ?_⟩
  have htidy := invariant_of_meets step_tidy ⟨start_inv, start_tidy⟩ hmeets hrun
  exact htidy.2.right

def A : CStr := ⟨[65], by decide⟩

/-- One call, of the only thread, that finds an entry. -/
def oneCall : List (Act Unit) :=
  [.call () A, .next () none [], .next () none [], .next () none [], .next () (some Envbuf.start.toBuf) [],
    .next () none [⟨[65, 61, 98], by decide⟩], .next () none []]

theorem getenv_3_run_oneCall : ∃ s, run (step fun _ _ => CStr.empty) start oneCall = some s ∧
    s.returned.length = 1 ∧ Kept s ∧ Right s := by
  have hlength : (run (step fun _ _ => CStr.empty) start oneCall).map (fun s => s.returned.length) = some 1 := rfl
  obtain ⟨s, hrun, hreturned⟩ := Option.map_eq_some_iff.mp hlength
  obtain ⟨hkept, hright⟩ := getenv_3_run hrun
  refine ⟨s, hrun, hreturned, hkept, hright ?_⟩
  have hnone : ∀ b ∈ ([] : List (Buffer Unit)), b.owner ≠ () := fun b hb => absurd hb List.not_mem_nil
  unfold oneCall
  iterate 4 refine (meets_cons_of_some rfl).mpr ⟨trivial, ?_⟩
  refine (meets_cons_of_some rfl).mpr ⟨hnone, ?_⟩
  iterate 2 refine (meets_cons_of_some rfl).mpr ⟨trivial, ?_⟩
  trivial

/-- The thread exits, and its buffer is not freed. -/
theorem getenv_3_leaks : ∃ s, run (step fun _ _ => CStr.empty) start (oneCall ++ [.exit ()]) = some s ∧
    ¬ Right s := by
  refine ⟨_, rfl, fun h => ?_⟩
  have hfreed := h.freed _ (List.mem_singleton.mpr rfl) rfl
  cases hfreed

end Apue.Environ.PerThread
