import PeerStreamer.CInt
import PeerStreamer.Lib.Bytes

/-!
# The buffers of the chunkstream modules

`output-chunkstream.c` and `input-chunkstream.c` each keep a static buffer of `BUFSIZE` bytes, of
which the first `pos` are in use.  A store outside the buffer ends the run.
-/

namespace PeerStreamer.ChunkstreamBuffer

open Bytes

/-- `BUFSIZE`. -/
def BUFSIZE : Int := 65536 * 8

/-- A store into a buffer of `BUFSIZE` bytes. -/
def store (m : Memory) (off : Int) (bs : List UInt8) : Except Fault Memory :=
  if 0 ≤ off ∧ off + bs.length ≤ BUFSIZE then .ok (write m off.toNat bs) else .error .outOfBounds

variable {m : Memory} {off : Int} {bs : List UInt8}

theorem store_ok (h0 : 0 ≤ off) (h1 : off + bs.length ≤ BUFSIZE) :
    store m off bs = .ok (write m off.toNat bs) :=
  if_pos ⟨h0, h1⟩

theorem store_overrun (h : BUFSIZE < off + bs.length) : store m off bs = .error .outOfBounds :=
  if_neg fun h' => absurd h'.2 (Int.not_le.2 h)

/-- Writing behind the pending bytes appends to them. -/
theorem read_write_append (m : Memory) (n : ℕ) (bs : List UInt8) :
    read (write m n bs) 0 (n + bs.length) = read m 0 n ++ bs := by
  rw [read_add, read_write_before m bs (by omega), Nat.zero_add, read_write_self]

/-- The buffer after a frame was stored at `n`. -/
theorem read_frame (m : Memory) (n : ℕ) (bs : List UInt8) :
    read (write (write m (n + 4) bs) n (be 4 bs.length)) 0 (n + (4 + bs.length)) =
      read m 0 n ++ frame bs := by
  have hlen : (be 4 bs.length).length = 4 := length_be 4 bs.length
  rw [← Nat.add_assoc, read_add, Nat.zero_add]
  have hfront : read (write (write m (n + 4) bs) n (be 4 bs.length)) 0 (n + 4) =
      read m 0 n ++ be 4 bs.length := by
    have := read_write_append (write m (n + 4) bs) n (be 4 bs.length)
    rw [hlen] at this
    rw [this, read_write_before m bs (by omega)]
  rw [hfront, read_write_after _ _ (by omega), read_write_self, frame, List.append_assoc]

end PeerStreamer.ChunkstreamBuffer
