import NativeRecord.SizeLimit

/-!
# Alignments

An alignment is a power of two.  It is kept as its exponent, so that every alignment is one by
construction and the order of alignments is the order of the exponents.

## What is here

* `Alignment`, with `Alignment.bytes` and the reader `Alignment.ofBytes?`, which accepts exactly
  the powers of two (`ofBytes?_eq_some_iff`).
* `Alignment.align` — the least multiple at or after an offset (`le_align`, `bytes_dvd_align`,
  `align_le_of_dvd`), and `Alignment.align?`, the same under a bound on sizes.
* `Alignment.packed` — an alignment lowered to a pack, and `Alignment.strictest`, the greatest of
  a list.
-/

set_option autoImplicit false
namespace NativeRecord

/-- An alignment of `2 ^ log` bytes. -/
structure Alignment where
  log : Nat
deriving DecidableEq, Repr

namespace Alignment

/-- The alignment that every offset has. -/
def byte : Alignment := ⟨0⟩

/-- The number of bytes that an aligned offset is a multiple of. -/
def bytes (a : Alignment) : Nat := 2 ^ a.log

/-- The alignment of that many bytes, when the number is a power of two. -/
def ofBytes? (n : Nat) : Option Alignment :=
  if 2 ^ n.log2 = n then some ⟨n.log2⟩ else none

instance : LE Alignment := ⟨fun a b => a.log ≤ b.log⟩

instance : LT Alignment := ⟨fun a b => a.log < b.log⟩

instance (a b : Alignment) : Decidable (a ≤ b) := inferInstanceAs (Decidable (a.log ≤ b.log))

instance (a b : Alignment) : Decidable (a < b) := inferInstanceAs (Decidable (a.log < b.log))

instance : Min Alignment := ⟨fun a b => if a ≤ b then a else b⟩

instance : Max Alignment := ⟨fun a b => if a ≤ b then b else a⟩

theorem bytes_pos (a : Alignment) : 0 < a.bytes := Nat.two_pow_pos a.log

@[simp] theorem bytes_byte : byte.bytes = 1 := rfl

theorem bytes_le_bytes_iff {a b : Alignment} : a.bytes ≤ b.bytes ↔ a ≤ b :=
  Nat.pow_le_pow_iff_right (by decide)

theorem bytes_injective {a b : Alignment} (h : a.bytes = b.bytes) : a = b := by
  have hlog : a.log = b.log := (Nat.pow_right_inj (by decide)).1 h
  cases a; cases b; simpa using hlog

theorem bytes_dvd_bytes {a b : Alignment} (h : a ≤ b) : a.bytes ∣ b.bytes :=
  Nat.pow_dvd_pow 2 h

/-- **Exactly the powers of two are alignments.** -/
theorem ofBytes?_eq_some_iff {n : Nat} {a : Alignment} :
    ofBytes? n = some a ↔ a.bytes = n := by
  unfold ofBytes? bytes
  constructor
  · intro h
    split at h
    · cases h; assumption
    · cases h
  · rintro rfl
    simp [Nat.log2_two_pow]

/-! ## Rounding up -/

/-- The least multiple of the alignment at or after an offset. -/
def align (a : Alignment) (offset : Nat) : Nat :=
  (offset + (a.bytes - 1)) / a.bytes * a.bytes

/-- The aligned offset under a bound: refused when the way there passes the bound. -/
def align? (limit : SizeLimit) (a : Alignment) (offset : Nat) : Option Nat :=
  (limit.add? offset (a.bytes - 1)).map fun top => top / a.bytes * a.bytes

/-- An offset that is a multiple of the alignment. -/
def Aligned (a : Alignment) (offset : Nat) : Prop := offset % a.bytes = 0

instance (a : Alignment) (offset : Nat) : Decidable (a.Aligned offset) :=
  inferInstanceAs (Decidable (offset % a.bytes = 0))

theorem aligned_iff_dvd {a : Alignment} {offset : Nat} : a.Aligned offset ↔ a.bytes ∣ offset :=
  Nat.dvd_iff_mod_eq_zero.symm

theorem bytes_dvd_align (a : Alignment) (offset : Nat) : a.bytes ∣ a.align offset :=
  Nat.dvd_mul_left _ _

theorem le_align (a : Alignment) (offset : Nat) : offset ≤ a.align offset := by
  have hpos := a.bytes_pos
  have hdiv := Nat.div_add_mod (offset + (a.bytes - 1)) a.bytes
  have hmod := Nat.mod_lt (offset + (a.bytes - 1)) hpos
  unfold align
  rw [Nat.mul_comm] at hdiv
  omega

theorem align_lt (a : Alignment) (offset : Nat) : a.align offset < offset + a.bytes := by
  have hpos := a.bytes_pos
  have := Nat.div_mul_le_self (offset + (a.bytes - 1)) a.bytes
  unfold align
  omega

/-- **Nothing aligned lies between an offset and its rounding.** -/
theorem align_le_of_dvd {a : Alignment} {offset n : Nat} (hdvd : a.bytes ∣ n) (hle : offset ≤ n) :
    a.align offset ≤ n := by
  obtain ⟨k, rfl⟩ := hdvd
  obtain ⟨j, hj⟩ := bytes_dvd_align a offset
  have hlt := align_lt a offset
  rw [hj] at hlt ⊢
  have : a.bytes * j < a.bytes * (k + 1) := by rw [Nat.mul_add]; omega
  exact Nat.mul_le_mul_left _ (Nat.le_of_lt_succ (Nat.lt_of_mul_lt_mul_left this))

theorem align?_eq_some {limit : SizeLimit} {a : Alignment} {offset n : Nat}
    (h : a.align? limit offset = some n) : n = a.align offset := by
  simp only [align?, SizeLimit.add?, Option.map_eq_some_iff, SizeLimit.check?_eq_some_iff] at h
  obtain ⟨_, ⟨_, rfl⟩, rfl⟩ := h
  rfl

@[simp] theorem align?_unbounded (a : Alignment) (offset : Nat) :
    a.align? .unbounded offset = some (a.align offset) := by
  simp [align?, SizeLimit.add?, align]

/-! ## Packs and lists of alignments -/

/-- An alignment lowered to a pack, when there is one. -/
def packed (a : Alignment) : Option Alignment → Alignment
  | none => a
  | some pack => min a pack

/-- The greatest alignment of a list, one byte for an empty list. -/
def strictest (as : List Alignment) : Alignment := as.foldr max byte

theorem min_def (a b : Alignment) : min a b = if a ≤ b then a else b := rfl

theorem max_def (a b : Alignment) : max a b = if a ≤ b then b else a := rfl

theorem le_refl (a : Alignment) : a ≤ a := Nat.le_refl a.log

theorem le_trans {a b c : Alignment} (hab : a ≤ b) (hbc : b ≤ c) : a ≤ c := Nat.le_trans hab hbc

theorem le_strictest {as : List Alignment} {a : Alignment} (h : a ∈ as) : a ≤ strictest as := by
  induction as with
  | nil => cases h
  | cons b bs ih =>
    have hmax : ∀ c d : Alignment, c ≤ max c d ∧ d ≤ max c d := by
      intro c d
      rw [max_def]
      split
      · exact ⟨by assumption, le_refl d⟩
      · exact ⟨le_refl c, Nat.le_of_lt (Nat.lt_of_not_le (by assumption))⟩
    rcases List.mem_cons.1 h with rfl | hmem
    · exact (hmax _ _).1
    · exact le_trans (ih hmem) (hmax _ _).2

end Alignment

end NativeRecord
