import Mathlib.Algebra.Group.Nat.Defs
import Mathlib.Data.List.Basic
import Mathlib.Tactic.Common

/-!
# Byte buffers and length-prefixed frames

A buffer is a map from offsets to bytes, read and written in runs of bytes.  A frame is a body
behind its length as a 32-bit big-endian number; `deframe` takes the first complete frame off a
sequence of bytes.  When the bytes at hand are a prefix of a sequence of frames, `deframe` returns
the first body, and it does so as soon as the whole frame is there.
-/

namespace Bytes

/-! ## Buffers -/

/-- The contents of a buffer. -/
abbrev Memory := ℕ → UInt8

/-- The `n` bytes from offset `off` on. -/
def read (m : Memory) (off n : ℕ) : List UInt8 := (List.range n).map fun i => m (off + i)

/-- Store the bytes `bs` from offset `off` on. -/
def write (m : Memory) (off : ℕ) (bs : List UInt8) : Memory := fun j =>
  if off ≤ j ∧ j < off + bs.length then bs.getD (j - off) 0 else m j

@[simp] theorem length_read (m : Memory) (off n : ℕ) : (read m off n).length = n := by
  simp [read]

@[simp] theorem read_zero (m : Memory) (off : ℕ) : read m off 0 = [] := rfl

theorem read_add (m : Memory) (off a b : ℕ) :
    read m off (a + b) = read m off a ++ read m (off + a) b := by
  simp [read, List.range_add, Function.comp_def, Nat.add_assoc]

theorem read_congr {m m' : Memory} {off n : ℕ} (h : ∀ i, i < n → m (off + i) = m' (off + i)) :
    read m off n = read m' off n :=
  List.map_congr_left fun i hi => h i (List.mem_range.1 hi)

/-- What was written is read back. -/
theorem read_write_self (m : Memory) (off : ℕ) (bs : List UInt8) :
    read (write m off bs) off bs.length = bs := by
  apply List.ext_getElem
  · simp
  · intro i h1 h2
    simp [read, write, h2]

/-- Bytes before the written ones are unchanged. -/
theorem read_write_before (m : Memory) {off off' n : ℕ} (bs : List UInt8) (h : off' + n ≤ off) :
    read (write m off bs) off' n = read m off' n := by
  apply read_congr
  intro i hi
  rw [write, if_neg]
  omega

/-- Bytes after the written ones are unchanged. -/
theorem read_write_after (m : Memory) {off off' n : ℕ} (bs : List UInt8)
    (h : off + bs.length ≤ off') : read (write m off bs) off' n = read m off' n := by
  apply read_congr
  intro i hi
  rw [write, if_neg]
  omega

theorem take_read (m : Memory) (off : ℕ) {k n : ℕ} (h : k ≤ n) :
    (read m off n).take k = read m off k := by
  obtain ⟨b, rfl⟩ := Nat.exists_eq_add_of_le h
  rw [read_add, List.take_left' (length_read ..)]

theorem drop_read (m : Memory) (off : ℕ) {k n : ℕ} (h : k ≤ n) :
    (read m off n).drop k = read m (off + k) (n - k) := by
  obtain ⟨b, rfl⟩ := Nat.exists_eq_add_of_le h
  rw [read_add, List.drop_left' (length_read ..), Nat.add_sub_cancel_left]

/-- Moving the bytes from offset `k` on to the front (`memmove`). -/
def shift (m : Memory) (k n : ℕ) : Memory := write m 0 (read m k n)

theorem read_shift (m : Memory) (k n : ℕ) : read (shift m k n) 0 n = read m k n := by
  have h := read_write_self m 0 (read m k n)
  rwa [length_read] at h

/-! ## Big-endian numbers -/

/-- The low `w` bytes of `n`, the most significant one first. -/
def be : ℕ → ℕ → List UInt8
  | 0, _ => []
  | w + 1, n => UInt8.ofNat (n / 256 ^ w) :: be w n

/-- The number that the bytes spell. -/
def ofBe : List UInt8 → ℕ
  | [] => 0
  | b :: bs => b.toNat * 256 ^ bs.length + ofBe bs

@[simp] theorem length_be (w n : ℕ) : (be w n).length = w := by
  induction w with
  | zero => rfl
  | succ w ih => simp [be, ih]

theorem ofBe_be (w n : ℕ) : ofBe (be w n) = n % 256 ^ w := by
  induction w with
  | zero => simp [be, ofBe, Nat.mod_one]
  | succ w ih =>
    rw [be, ofBe, ih, length_be, Nat.mod_pow_succ, UInt8.toNat_ofNat', Nat.mul_comm, Nat.add_comm]

theorem ofBe_lt (bs : List UInt8) : ofBe bs < 256 ^ bs.length := by
  induction bs with
  | nil => exact Nat.one_pos
  | cons b bs ih =>
    have hb : b.toNat + 1 ≤ 256 := b.toNat_lt
    have hmul := Nat.mul_le_mul_right (256 ^ bs.length) hb
    rw [ofBe, List.length_cons, Nat.pow_succ']
    rw [Nat.succ_mul] at hmul
    omega

/-- Multiples of the range do not matter. -/
theorem be_mul_add (w k n : ℕ) : be w (k * 256 ^ w + n) = be w n := by
  induction w generalizing k with
  | zero => rfl
  | succ w ih =>
    have hpos : 0 < 256 ^ w := Nat.pow_pos (by decide)
    have hk : k * 256 ^ (w + 1) = k * 256 * 256 ^ w := by rw [Nat.pow_succ', Nat.mul_assoc]
    have htop : UInt8.ofNat (k * 256 + n / 256 ^ w) = UInt8.ofNat (n / 256 ^ w) := by
      apply UInt8.toNat_inj.1
      rw [UInt8.toNat_ofNat', UInt8.toNat_ofNat', Nat.mul_add_mod_self_right]
    rw [be, be, hk, ih, Nat.add_comm, Nat.add_mul_div_right _ _ hpos, Nat.add_comm, htop]

theorem be_ofBe (bs : List UInt8) : be bs.length (ofBe bs) = bs := by
  induction bs with
  | nil => rfl
  | cons b bs ih =>
    have hlt := ofBe_lt bs
    have hpos : 0 < 256 ^ bs.length := Nat.pow_pos (by decide)
    rw [ofBe, List.length_cons, be, be_mul_add, ih, Nat.add_comm, Nat.add_mul_div_right _ _ hpos,
      Nat.div_eq_of_lt hlt, Nat.zero_add, UInt8.ofNat_toNat]

/-- The low `w` bytes of `n`, the least significant one first. -/
def le (w n : ℕ) : List UInt8 := (be w n).reverse

/-- The number that the bytes spell from the end. -/
def ofLe (bs : List UInt8) : ℕ := ofBe bs.reverse

@[simp] theorem length_le (w n : ℕ) : (le w n).length = w := by
  rw [le, List.length_reverse, length_be]

theorem ofLe_le (w n : ℕ) : ofLe (le w n) = n % 256 ^ w := by
  rw [ofLe, le, List.reverse_reverse, ofBe_be]

/-! ## Frames -/

/-- A body behind its length. -/
def frame (body : List UInt8) : List UInt8 := be 4 body.length ++ body

@[simp] theorem length_frame (body : List UInt8) : (frame body).length = 4 + body.length := by
  simp [frame]

/-- A whole frame is at the front. -/
def Complete (buf : List UInt8) : Prop := 4 ≤ buf.length ∧ 4 + ofBe (buf.take 4) ≤ buf.length

instance (buf : List UInt8) : Decidable (Complete buf) := inferInstanceAs (Decidable (_ ∧ _))

/-- The first frame's body and what follows it. -/
def deframe (buf : List UInt8) : Option (List UInt8 × List UInt8) :=
  if Complete buf then
    some ((buf.drop 4).take (ofBe (buf.take 4)), buf.drop (4 + ofBe (buf.take 4)))
  else none

theorem not_complete_nil : ¬ Complete [] := by
  rintro ⟨h, -⟩
  exact absurd h (by decide)

/-- The length field of a prefix of a frame sequence. -/
theorem ofBe_take_of_isPrefix {buf more body tail : List UInt8} (hb : body.length < 256 ^ 4)
    (h : buf ++ more = frame body ++ tail) (h4 : 4 ≤ buf.length) :
    ofBe (buf.take 4) = body.length := by
  have htake : buf.take 4 = be 4 body.length := by
    have := congrArg (List.take 4) h
    rwa [List.take_append_of_le_length h4, frame, List.append_assoc,
      List.take_left' (length_be ..)] at this
  rw [htake, ofBe_be, Nat.mod_eq_of_lt hb]

/-- The first frame is complete once all its bytes are there. -/
theorem complete_iff_of_isPrefix {buf more body tail : List UInt8} (hb : body.length < 256 ^ 4)
    (h : buf ++ more = frame body ++ tail) : Complete buf ↔ (frame body).length ≤ buf.length := by
  rw [length_frame]
  constructor
  · rintro ⟨h4, hle⟩
    rwa [ofBe_take_of_isPrefix hb h h4] at hle
  · intro hle
    have h4 : 4 ≤ buf.length := by omega
    exact ⟨h4, by rwa [ofBe_take_of_isPrefix hb h h4]⟩

/-- Taking off a complete first frame returns its body and leaves a prefix of the tail. -/
theorem deframe_of_isPrefix {buf more body tail : List UInt8} (hb : body.length < 256 ^ 4)
    (h : buf ++ more = frame body ++ tail) (hc : Complete buf) :
    ∃ rest, deframe buf = some (body, rest) ∧ buf = frame body ++ rest ∧ rest ++ more = tail := by
  have hle := (complete_iff_of_isPrefix hb h).1 hc
  have hlen := ofBe_take_of_isPrefix hb h hc.1
  obtain ⟨rest, rfl⟩ : ∃ rest, buf = frame body ++ rest := by
    have hpre : frame body <+: buf ++ more := h ▸ List.prefix_append _ _
    obtain ⟨rest, hrest⟩ := List.prefix_of_prefix_length_le hpre (List.prefix_append _ _) hle
    exact ⟨rest, hrest.symm⟩
  refine ⟨rest, ?_, rfl, ?_⟩
  · rw [deframe, if_pos hc, hlen, List.drop_left' (length_frame body), frame, List.append_assoc,
      List.drop_left' (length_be ..), List.take_left' rfl]
  · rw [List.append_assoc] at h
    exact List.append_cancel_left h

/-- What is taken off is the first frame. -/
theorem deframe_eq_some_iff {buf body tail : List UInt8} :
    deframe buf = some (body, tail) ↔ body.length < 256 ^ 4 ∧ buf = frame body ++ tail := by
  constructor
  · intro h
    unfold deframe at h
    split_ifs at h with hc
    obtain ⟨rfl, rfl⟩ := Prod.mk.inj (Option.some.inj h)
    obtain ⟨h4, hle⟩ := hc
    have hfield : (buf.take 4).length = 4 := List.length_take_of_le h4
    have hlt := ofBe_lt (buf.take 4)
    have hbe := be_ofBe (buf.take 4)
    rw [hfield] at hlt hbe
    have hbody : ((buf.drop 4).take (ofBe (buf.take 4))).length = ofBe (buf.take 4) := by
      rw [List.length_take, List.length_drop]
      omega
    rw [frame, hbody, hbe, List.append_assoc, ← List.drop_drop, List.take_append_drop,
      List.take_append_drop]
    exact ⟨hlt, rfl⟩
  · rintro ⟨hb, rfl⟩
    have hc : Complete (frame body ++ tail) := by
      rw [complete_iff_of_isPrefix hb (List.append_nil _), List.length_append]
      exact Nat.le_add_right ..
    obtain ⟨rest, hrest, hsplit, -⟩ := deframe_of_isPrefix hb (List.append_nil _) hc
    rw [hrest, List.append_cancel_left hsplit]

theorem deframe_eq_none_iff {buf : List UInt8} : deframe buf = none ↔ ¬ Complete buf := by
  unfold deframe
  split_ifs with h
  · exact iff_of_false nofun (not_not.2 h)
  · exact iff_of_true rfl h

/-- More bytes behind it do not change the first frame. -/
theorem deframe_append {buf body tail : List UInt8} (h : deframe buf = some (body, tail))
    (more : List UInt8) : deframe (buf ++ more) = some (body, tail ++ more) := by
  obtain ⟨hb, rfl⟩ := deframe_eq_some_iff.1 h
  exact deframe_eq_some_iff.2 ⟨hb, List.append_assoc ..⟩

end Bytes
