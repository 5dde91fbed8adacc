import PeerStreamer.CInt
import PeerStreamer.Chunk
import PeerStreamer.Lib.Bytes

/-!
# A chunk encoding

The results about the chunkstream modules hold for every `encodeChunk` and `decodeChunk`.  This is
a concrete pair of them: a header of twenty bytes (id, timestamp, lengths of the data and of the
attributes), then the data and the attributes.
-/

namespace PeerStreamer

open Bytes

/-- The bytes of a chunk. -/
def layout (c : Chunk) : List UInt8 :=
  be 4 (uint32 c.id) ++ (be 8 c.timestamp.toNat ++ (be 4 c.data.length ++
    (be 4 c.attributes.length ++ (c.data ++ c.attributes))))

/-- The encoding fails when there is not enough space. -/
def encodeLayout (c : Chunk) (space : Int) : Option (List UInt8) :=
  if (layout c).length ≤ space then some (layout c) else none

/-- The decoding fails when the lengths of the header do not match the bytes at hand. -/
def decodeLayout (bs : List UInt8) : Option Chunk :=
  let size := ofBe ((bs.drop 12).take 4)
  let attributesSize := ofBe ((bs.drop 16).take 4)
  if bs.length = 20 + size + attributesSize then
    some {
      id := toInt (ofBe (bs.take 4))
      timestamp := UInt64.ofNat (ofBe ((bs.drop 4).take 8))
      data := (bs.drop 20).take size
      attributes := (bs.drop 20).drop size }
  else none

theorem length_layout (c : Chunk) :
    (layout c).length = 20 + c.data.length + c.attributes.length := by
  simp only [layout, List.length_append, length_be]
  omega

/-- Converting to `uint32_t` and back. -/
theorem toInt_uint32 {x : Int} (h0 : INT_MIN ≤ x) (h1 : x ≤ INT_MAX) : toInt (uint32 x) = x := by
  unfold INT_MIN at h0
  unfold INT_MAX at h1
  have hcast : ((uint32 x : ℕ) : Int) = x % 2 ^ 32 := by
    unfold uint32
    omega
  rw [hcast]
  exact (Int.emod_bmod x (2 ^ 32)).trans (Int.bmod_eq_of_le (by omega) (by omega))

/-- Decoding undoes encoding. -/
theorem decodeLayout_layout {c : Chunk} (h0 : INT_MIN ≤ c.id) (h1 : c.id ≤ INT_MAX)
    (hd : c.data.length < 2 ^ 32) (ha : c.attributes.length < 2 ^ 32) :
    decodeLayout (layout c) = some c := by
  have hts : c.timestamp.toNat < 2 ^ 64 := c.timestamp.toNat_lt
  have hid : uint32 c.id < 2 ^ 32 := by
    unfold uint32
    omega
  have h4 : (layout c).drop 4 = be 8 c.timestamp.toNat ++ (be 4 c.data.length ++
      (be 4 c.attributes.length ++ (c.data ++ c.attributes))) :=
    List.drop_left' (length_be ..)
  have h12 : (layout c).drop 12 = be 4 c.data.length ++
      (be 4 c.attributes.length ++ (c.data ++ c.attributes)) := by
    rw [show 12 = 4 + 8 by rfl, ← List.drop_drop, h4, List.drop_left' (length_be ..)]
  have h16 : (layout c).drop 16 = be 4 c.attributes.length ++ (c.data ++ c.attributes) := by
    rw [show 16 = 12 + 4 by rfl, ← List.drop_drop, h12, List.drop_left' (length_be ..)]
  have h20 : (layout c).drop 20 = c.data ++ c.attributes := by
    rw [show 20 = 16 + 4 by rfl, ← List.drop_drop, h16, List.drop_left' (length_be ..)]
  have htake : (layout c).take 4 = be 4 (uint32 c.id) := List.take_left' (length_be ..)
  have hsize : ofBe (((layout c).drop 12).take 4) = c.data.length := by
    rw [h12, List.take_left' (length_be ..), ofBe_be, Nat.mod_eq_of_lt (by omega)]
  have hattr : ofBe (((layout c).drop 16).take 4) = c.attributes.length := by
    rw [h16, List.take_left' (length_be ..), ofBe_be, Nat.mod_eq_of_lt (by omega)]
  have htime : ofBe (((layout c).drop 4).take 8) = c.timestamp.toNat := by
    rw [h4, List.take_left' (length_be ..), ofBe_be, Nat.mod_eq_of_lt (by omega)]
  have hident : ofBe ((layout c).take 4) = uint32 c.id := by
    rw [htake, ofBe_be, Nat.mod_eq_of_lt (by omega)]
  simp only [decodeLayout, hsize, hattr, htime, hident, h20, length_layout, if_true,
    toInt_uint32 h0 h1, UInt64.ofNat_toNat, List.take_left', List.drop_left']

end PeerStreamer
