import PeerStreamer.CInt
import PeerStreamer.Chunk
import PeerStreamer.Lib.Bytes

/-!
# Chunk attributes (`streaming.c`)

A chunk carries a block of attributes: a deadline, its increment, and the number of hops.  The block
is the memory image of a packed structure of twelve bytes, the least significant byte first.
-/

namespace PeerStreamer

open Bytes

/-- `struct chunk_attributes`. -/
structure ChunkAttributes where
  deadline : UInt64
  deadlineIncrement : UInt16
  hopcount : UInt16
  deriving DecidableEq, Repr

namespace ChunkAttributes

/-- The memory image. -/
def toBytes (a : ChunkAttributes) : List UInt8 :=
  le 8 a.deadline.toNat ++ (le 2 a.deadlineIncrement.toNat ++ le 2 a.hopcount.toNat)

/-- The attributes of a block; a block of another size is strange. -/
def ofBytes (bs : List UInt8) : Option ChunkAttributes :=
  if bs.length = 12 then
    some {
      deadline := UInt64.ofNat (ofLe (bs.take 8))
      deadlineIncrement := UInt16.ofNat (ofLe ((bs.drop 8).take 2))
      hopcount := UInt16.ofNat (ofLe (bs.drop 10)) }
  else none

@[simp] theorem length_toBytes (a : ChunkAttributes) : a.toBytes.length = 12 := by
  simp [toBytes]

theorem ofBytes_toBytes (a : ChunkAttributes) : ofBytes a.toBytes = some a := by
  have h8 : a.toBytes.drop 8 = le 2 a.deadlineIncrement.toNat ++ le 2 a.hopcount.toNat :=
    List.drop_left' (length_le ..)
  have h10 : a.toBytes.drop 10 = le 2 a.hopcount.toNat := by
    rw [show 10 = 8 + 2 by rfl, ← List.drop_drop, h8, List.drop_left' (length_le ..)]
  have hdeadline : ofLe (a.toBytes.take 8) = a.deadline.toNat := by
    rw [toBytes, List.take_left' (length_le ..), ofLe_le,
      Nat.mod_eq_of_lt (by have := a.deadline.toNat_lt; omega)]
  have hincrement : ofLe ((a.toBytes.drop 8).take 2) = a.deadlineIncrement.toNat := by
    rw [h8, List.take_left' (length_le ..), ofLe_le,
      Nat.mod_eq_of_lt (by have := a.deadlineIncrement.toNat_lt; omega)]
  have hhop : ofLe (a.toBytes.drop 10) = a.hopcount.toNat := by
    rw [h10, ofLe_le, Nat.mod_eq_of_lt (by have := a.hopcount.toNat_lt; omega)]
  simp only [ofBytes, length_toBytes, if_true, hdeadline, hincrement, hhop, UInt64.ofNat_toNat,
    UInt16.ofNat_toNat]

end ChunkAttributes

/-- `chunk_attributes_fill`.  `verify` is `chunk_attributes_chunker_verify`, with the priority of the
attributes it recognizes; a chunk with other attributes fails the assertion. -/
def chunkAttributesFill (verify : List UInt8 → Option Int) (c : Chunk) : Except Fault Chunk :=
  if c.attributes ≠ [] ∧ verify c.attributes = none then .error (.exit 134)
  else do
    let increment ← int ((verify c.attributes).getD 1 * 2)
    return { c with attributes :=
      ChunkAttributes.toBytes ⟨UInt64.ofInt c.id, UInt16.ofInt increment, 0⟩ }

/-- Replace the attributes of a chunk, unless they are strange. -/
def updateAttributes (f : ChunkAttributes → ChunkAttributes) (c : Chunk) : Chunk :=
  match ChunkAttributes.ofBytes c.attributes with
  | some a => { c with attributes := (f a).toBytes }
  | none => c

/-- `chunk_attributes_update_received`. -/
def chunkAttributesUpdateReceived (c : Chunk) : Chunk :=
  updateAttributes (fun a => { a with hopcount := a.hopcount + 1 }) c

/-- `chunk_attributes_update_sending`. -/
def chunkAttributesUpdateSending (c : Chunk) : Chunk :=
  updateAttributes
    (fun a => { a with deadline := a.deadline + a.deadlineIncrement.toUInt64 }) c

@[simp] theorem updateAttributes_id (f : ChunkAttributes → ChunkAttributes) (c : Chunk) :
    (updateAttributes f c).id = c.id := by
  unfold updateAttributes
  split <;> rfl

@[simp] theorem chunkAttributesUpdateReceived_id (c : Chunk) :
    (chunkAttributesUpdateReceived c).id = c.id :=
  updateAttributes_id ..

@[simp] theorem chunkAttributesUpdateSending_id (c : Chunk) :
    (chunkAttributesUpdateSending c).id = c.id :=
  updateAttributes_id ..

end PeerStreamer
