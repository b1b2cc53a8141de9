import NativeRecord.Alignment

/-!
# Alignments of lists, and rounding past a limit

Alignments are powers of two and kept by their logarithms, so facts about maxima and minima are
facts about these, and two alignments are equal if their numbers of bytes are.  Divisibility goes
along with the order: the smaller of two alignments divides the larger, which is why the strictest
one of a list serves all of its members.

The second part is about machines.  A 64-bit machine rounds an offset up by adding one less than the
alignment and masking, and it is that sum which overflows.  It may overflow only if the rounded
number does as well, since `2 ^ 64` is itself a multiple of every alignment that a machine has:
there is no way for the sum to pass it without the rounded number doing so too.

## What is here

* `Alignment.strictest_le` and the like — the greatest alignment of a list, and alignments lowered
  to a pack.
* `Alignment.le_align_iff` — rounding up passes a multiple of the alignment when the way there does;
  `Alignment.align?_word64_eq_none_iff` — so a 64-bit machine refuses to round exactly when the
  rounded number does not fit.
-/

set_option autoImplicit false
namespace NativeRecord
namespace Alignment

variable {a b : Alignment}

/-! ## Lists

The strictest alignment of some members, and what a pack does to one. -/

/-- The logarithm of the stricter of two alignments. -/
theorem log_max (a b : Alignment) : (max a b).log = max a.log b.log := by
  rw [max_def]
  split
  · rename_i h
    exact (Nat.max_eq_right h).symm
  · rename_i h
    exact (Nat.max_eq_left (Nat.le_of_not_le h)).symm

/-- Folding from another start is taking the maximum with it. -/
theorem log_foldr_max (c : Alignment) (as : List Alignment) :
    (as.foldr max c).log = max (strictest as).log c.log := by
  induction as with
  | nil => exact (Nat.max_eq_right (Nat.zero_le _)).symm
  | cons a as ih =>
    have hcons : (strictest (a :: as)).log = max a.log (strictest as).log := log_max a _
    rw [List.foldr_cons, log_max, ih, hcons, Nat.max_assoc]

/-- Part of a list may be given by its strictest alignment. -/
theorem strictest_middle (as bs cs : List Alignment) :
    strictest (as ++ strictest bs :: cs) = strictest (as ++ (bs ++ cs)) := by
  have hmiddle : max (strictest bs) (strictest cs) = strictest (bs ++ cs) := by
    have hlog : (max (strictest bs) (strictest cs)).log = (strictest (bs ++ cs)).log := by
      rw [log_max, ← log_foldr_max, strictest, strictest, List.foldr_append]
    generalize max (strictest bs) (strictest cs) = a at hlog
    generalize strictest (bs ++ cs) = b at hlog
    cases a; cases b; exact congrArg Alignment.mk hlog
  show (as ++ strictest bs :: cs).foldr max byte = (as ++ (bs ++ cs)).foldr max byte
  rw [List.foldr_append, List.foldr_append, List.foldr_cons]
  exact congrArg (fun a => as.foldr max a) hmiddle

/-- What bounds all alignments of a list bounds the strictest. -/
theorem strictest_le {as : List Alignment} {b : Alignment} (h : ∀ a ∈ as, a ≤ b) :
    strictest as ≤ b := by
  induction as with
  | nil => exact Nat.zero_le b.log
  | cons a as ih =>
    obtain ⟨ha, has⟩ := List.forall_mem_cons.1 h
    show (max a (strictest as)).log ≤ b.log
    rw [log_max]
    exact Nat.max_le.2 ⟨ha, ih has⟩

/-- The strictest of equal alignments is that alignment. -/
theorem strictest_eq_of_forall {as : List Alignment} (hne : as ≠ []) (h : ∀ b ∈ as, b = a) :
    strictest as = a := by
  obtain ⟨b, hb⟩ := List.exists_mem_of_ne_nil as hne
  have hle : strictest as ≤ a := strictest_le fun b hb => h b hb ▸ le_refl b
  have hge : a ≤ strictest as := h b hb ▸ le_strictest hb
  exact bytes_injective (Nat.le_antisymm (bytes_le_bytes_iff.2 hle) (bytes_le_bytes_iff.2 hge))

/-- A pack is kept to. -/
theorem packed_le (a : Alignment) {pack : Option Alignment} {p : Alignment} (h : p ∈ pack) :
    a.packed pack ≤ p := by
  cases h
  show min a p ≤ p
  rw [min_def]
  split
  · assumption
  · exact le_refl p

/-- A pack that allows the alignment does not change it. -/
theorem packed_eq_self {a : Alignment} {pack : Option Alignment} (h : ∀ p ∈ pack, a ≤ p) :
    a.packed pack = a := by
  cases pack with
  | none => rfl
  | some p =>
    show min a p = a
    rw [min_def, if_pos (h p rfl)]

/-- A pack never makes an alignment stricter. -/
theorem packed_le_self (a : Alignment) (pack : Option Alignment) : a.packed pack ≤ a := by
  cases pack with
  | none => exact le_refl a
  | some p =>
    show min a p ≤ a
    rw [min_def]
    split
    · exact le_refl a
    · exact Nat.le_of_not_le ‹_›

/-! ## Rounding

Rounding up gives the least multiple that is not below, which is what each proof here uses of it.
-/

/-- An aligned offset is not rounded. -/
theorem align_eq_self {a : Alignment} {n : Nat} (h : a.bytes ∣ n) : a.align n = n :=
  Nat.le_antisymm (align_le_of_dvd h (Nat.le_refl n)) (a.le_align n)

/-- **Rounding up to an alignment first does not show** to one that is as strict, from an aligned
start on. -/
theorem align_add_align {a b : Alignment} (hab : a ≤ b) {start : Nat} (hstart : a.bytes ∣ start)
    (size : Nat) : b.align (start + a.align size) = b.align (start + size) := by
  apply Nat.le_antisymm
  · refine align_le_of_dvd (b.bytes_dvd_align _) ?_
    have hend : a.bytes ∣ b.align (start + size) :=
      Nat.dvd_trans (bytes_dvd_bytes hab) (b.bytes_dvd_align _)
    have hle := b.le_align (start + size)
    have hrest : a.align size ≤ b.align (start + size) - start :=
      align_le_of_dvd (Nat.dvd_sub hend hstart) (by omega)
    omega
  · refine align_le_of_dvd (b.bytes_dvd_align _) (Nat.le_trans ?_ (b.le_align _))
    exact Nat.add_le_add_left (a.le_align size) start

/-- **Rounding up passes a multiple of the alignment** when the way there does. -/
theorem le_align_iff {n offset : Nat} (h : a.bytes ∣ n) :
    n ≤ a.align offset ↔ n ≤ offset + (a.bytes - 1) := by
  constructor
  · intro hn
    have hlt := a.align_lt offset
    omega
  · intro hn
    obtain ⟨k, rfl⟩ := h
    have hk : k ≤ (offset + (a.bytes - 1)) / a.bytes :=
      (Nat.le_div_iff_mul_le a.bytes_pos).2 (by rwa [Nat.mul_comm])
    rw [Nat.mul_comm]
    exact Nat.mul_le_mul_right _ hk

/-- The alignments that divide the number of counts of a 64-bit machine. -/
theorem bytes_dvd_word64 (h : a.log ≤ 64) : a.bytes ∣ 2 ^ (64 : Nat) := Nat.pow_dvd_pow 2 h

theorem log_le_of_bytes_le (h : a.bytes ≤ 2 ^ (64 : Nat)) : a.log ≤ 64 :=
  (Nat.pow_le_pow_iff_right (by decide)).1 h

theorem log_le_of_ofBytes? {n : Nat} (h : ofBytes? n = some a) (hn : n < 2 ^ (64 : Nat)) :
    a.log ≤ 64 := by
  rw [ofBytes?_eq_some_iff] at h
  exact log_le_of_bytes_le (Nat.le_of_lt (h ▸ hn))

/-- What a 64-bit machine rounds to an alignment, and the alignment itself, are within its
counts. -/
theorem align?_word64_eq_some {offset n : Nat} (h : a.align? .word64 offset = some n) :
    a.log ≤ 64 ∧ n < 2 ^ (64 : Nat) := by
  obtain ⟨top, htop, rfl⟩ := Option.map_eq_some_iff.1 h
  obtain ⟨hadmits, rfl⟩ := SizeLimit.check?_eq_some_iff.1 htop
  rw [SizeLimit.admits_word64_iff] at hadmits
  have hpos := a.bytes_pos
  exact ⟨log_le_of_bytes_le (by omega), Nat.lt_of_le_of_lt (Nat.div_mul_le_self _ _) hadmits⟩

/-- **A 64-bit machine refuses to round exactly when the rounded number does not fit.** -/
theorem align?_word64_eq_none_iff {offset : Nat} (h : a.log ≤ 64) :
    a.align? .word64 offset = none ↔ 2 ^ (64 : Nat) ≤ a.align offset := by
  rw [align?, Option.map_eq_none_iff, SizeLimit.add?, SizeLimit.check?_eq_none_iff,
    SizeLimit.admits_word64_iff, Nat.not_lt, le_align_iff (bytes_dvd_word64 h)]

/-- A 64-bit machine has nothing to round where the offset is aligned. -/
theorem align?_word64_of_dvd {n : Nat} (h : a.log ≤ 64) (hdvd : a.bytes ∣ n)
    (hn : n < 2 ^ (64 : Nat)) : a.align? .word64 n = some n := by
  cases halign : a.align? .word64 n with
  | some m => rw [align?_eq_some halign, align_eq_self hdvd]
  | none =>
    have hlarge := (align?_word64_eq_none_iff h).1 halign
    rw [align_eq_self hdvd] at hlarge
    omega

end Alignment
end NativeRecord
