import Mathlib.Data.List.Basic
import Mathlib.Data.List.TakeDrop

/-!
# Files as lists, read and written at an offset

* `pread file off n`: at most `n` cells from `off` on, fewer at the end of the file.
* `pwrite zero file off bytes`: the cells from `off` on replaced; a gap between the end of the file and
  `off` is filled with `zero`, and writing nothing changes nothing.
* `getElem?_pread`, `getElem?_pwrite`: both cell by cell. `Agrees`: a file that holds, wherever a
  condition on the position says so, what a function of the position says; `Agrees.pwrite` is the rule
  for writing a piece of that function's values.
* `Has file off bytes`: these bytes are there. What is written is there (`has_pwrite`), and what was there still is
  if the two pieces do not meet (`Has.pwrite`).
-/

namespace File

variable {A : Type*}

def pread (file : List A) (off n : ℕ) : List A := (file.drop off).take n

/-- The file made at least `off` cells long. -/
def pad (zero : A) (file : List A) (off : ℕ) : List A :=
  file ++ List.replicate (off - file.length) zero

def pwrite (zero : A) (file : List A) (off : ℕ) (bytes : List A) : List A :=
  if bytes = [] then file
  else (pad zero file off).take off ++ bytes ++ file.drop (off + bytes.length)

section lemmas
variable (zero : A) (file bytes : List A) (off n k : ℕ)

theorem length_pread : (pread file off n).length = min n (file.length - off) := by
  simp [pread]

theorem getElem?_pread (h : k < n) : (pread file off n)[k]? = file[off + k]? := by
  simp [pread, h]

theorem length_take_pad : ((pad zero file off).take off).length = off := by
  simp [pad]
  omega

theorem getElem?_pwrite_of_mem (h : off ≤ k) (h' : k < off + bytes.length) :
    (pwrite zero file off bytes)[k]? = bytes[k - off]? := by
  have hne : bytes ≠ [] := by
    rintro rfl
    simp at h'
    omega
  rw [pwrite, if_neg hne, List.append_assoc,
    List.getElem?_append_right (by rw [length_take_pad]; exact h), length_take_pad,
    List.getElem?_append_left (by omega)]

theorem getElem?_pwrite_of_ge (h : off + bytes.length ≤ k) :
    (pwrite zero file off bytes)[k]? = file[k]? := by
  unfold pwrite
  split
  · rfl
  · have hlen : ((pad zero file off).take off ++ bytes).length = off + bytes.length := by
      rw [List.length_append, length_take_pad]
    rw [List.getElem?_append_right (by omega), hlen, List.getElem?_drop]
    congr 1
    omega

theorem getElem?_pwrite_of_lt (h : k < off) {a : A} (ha : file[k]? = some a) :
    (pwrite zero file off bytes)[k]? = some a := by
  unfold pwrite
  split
  · exact ha
  · have hk : k < file.length := (List.getElem?_eq_some_iff.mp ha).1
    rw [List.append_assoc, List.getElem?_append_left (by rw [length_take_pad]; exact h),
      List.getElem?_take, if_pos h, pad, List.getElem?_append_left hk, ha]

theorem length_pwrite_le {m : ℕ} (h : file.length ≤ m) (h' : off + bytes.length ≤ m) :
    (pwrite zero file off bytes).length ≤ m := by
  unfold pwrite
  split
  · exact h
  · rw [List.length_append, List.length_append, length_take_pad, List.length_drop]
    omega

end lemmas

/-- Wherever `D` holds of a position, the file has `f` of the position there. -/
def Agrees (file : List A) (f : ℕ → Option A) (D : ℕ → Prop) : Prop :=
  ∀ k, D k → file[k]? = f k ∧ file[k]? ≠ none

theorem Agrees.mono {file : List A} {f : ℕ → Option A} {D D' : ℕ → Prop} (h : Agrees file f D)
    (hD : ∀ k, D' k → D k) : Agrees file f D' := fun k hk => h k (hD k hk)

/-- Writing a piece of `f` keeps what is right and makes its own positions right. -/
theorem Agrees.pwrite {file bytes : List A} {f : ℕ → Option A} {D : ℕ → Prop} {off : ℕ} (zero : A)
    (h : Agrees file f D) (hbytes : ∀ k < bytes.length, bytes[k]? = f (off + k)) :
    Agrees (pwrite zero file off bytes) f fun k => D k ∨ (off ≤ k ∧ k < off + bytes.length) := by
  intro k hk
  by_cases hin : off ≤ k ∧ k < off + bytes.length
  · rw [getElem?_pwrite_of_mem zero file bytes off k hin.1 hin.2]
    have hb := hbytes (k - off) (by omega)
    rw [Nat.add_sub_cancel' hin.1] at hb
    refine ⟨hb, ?_⟩
    rw [Ne, List.getElem?_eq_none_iff]
    omega
  · obtain ⟨heq, hne⟩ := h k (hk.resolve_right hin)
    obtain ⟨a, ha⟩ := Option.ne_none_iff_exists'.mp hne
    have hsame : (File.pwrite zero file off bytes)[k]? = some a := by
      rcases Nat.lt_or_ge k off with hlt | hge
      · exact getElem?_pwrite_of_lt zero file bytes off k hlt ha
      · rw [getElem?_pwrite_of_ge zero file bytes off k (by omega), ha]
    rw [hsame]
    exact ⟨ha ▸ heq, by simp⟩

theorem Agrees.eq {file file' : List A} (h : Agrees file (fun k => file'[k]?) fun k => k < file'.length)
    (hlen : file.length ≤ file'.length) : file = file' := by
  refine List.ext_getElem? fun k => ?_
  rcases Nat.lt_or_ge k file'.length with hlt | hge
  · exact (h k hlt).1
  · rw [List.getElem?_eq_none (Nat.le_trans hlen hge), List.getElem?_eq_none hge]

/-! ### What is where -/

/-- From `off` on the file has these bytes. -/
def Has (file : List A) (off : ℕ) (bytes : List A) : Prop := ∀ k < bytes.length, file[off + k]? = bytes[k]?

section Has
variable {file bytes bytes' : List A} {off off' : ℕ}

theorem Has.pread (h : Has file off bytes) : pread file off bytes.length = bytes := by
  refine List.ext_getElem? fun k => ?_
  rcases Nat.lt_or_ge k bytes.length with hlt | hge
  · rw [getElem?_pread file off bytes.length k hlt, h k hlt]
  · rw [List.getElem?_eq_none hge, List.getElem?_eq_none (by rw [length_pread]; omega)]

theorem has_append : Has file off (bytes ++ bytes') ↔ Has file off bytes ∧ Has file (off + bytes.length) bytes' := by
  constructor
  · intro h
    constructor
    · intro k hk
      rw [h k (by rw [List.length_append]; omega), List.getElem?_append_left hk]
    · intro k hk
      rw [Nat.add_assoc, h (bytes.length + k) (by rw [List.length_append]; omega),
        List.getElem?_append_right (Nat.le_add_right ..), Nat.add_sub_cancel_left]
  · rintro ⟨hfst, hsnd⟩ k hk
    rw [List.length_append] at hk
    rcases Nat.lt_or_ge k bytes.length with hlt | hge
    · rw [hfst k hlt, List.getElem?_append_left hlt]
    · have hat := hsnd (k - bytes.length) (by omega)
      rw [Nat.add_assoc, Nat.add_sub_cancel' hge] at hat
      rw [hat, List.getElem?_append_right hge]

variable (zero : A)

theorem has_pwrite : Has (pwrite zero file off bytes) off bytes := by
  intro k hk
  rw [getElem?_pwrite_of_mem zero file bytes off (off + k) (by omega) (by omega), Nat.add_sub_cancel_left]

theorem Has.pwrite (h : Has file off bytes) (hapart : off + bytes.length ≤ off' ∨ off' + bytes'.length ≤ off) :
    Has (pwrite zero file off' bytes') off bytes := by
  intro k hk
  rcases hapart with hbefore | hbehind
  · obtain ⟨a, ha⟩ : ∃ a, bytes[k]? = some a := ⟨bytes[k], List.getElem?_eq_getElem hk⟩
    rw [ha]
    exact getElem?_pwrite_of_lt zero file bytes' off' (off + k) (by omega) ((h k hk).trans ha)
  · rw [getElem?_pwrite_of_ge zero file bytes' off' (off + k) (by omega), h k hk]

theorem length_pwrite (hoff : off ≤ file.length) :
    (File.pwrite zero file off bytes).length = max file.length (off + bytes.length) := by
  unfold File.pwrite
  split
  · rename_i hnil
    rw [hnil, List.length_nil]
    omega
  · rw [List.length_append, List.length_append, length_take_pad, List.length_drop]
    omega

end Has

end File
