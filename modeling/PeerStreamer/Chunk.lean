import Mathlib.Tactic.Common

/-!
# Chunks

The `struct chunk` of the GRAPES library, with the fields the streamer reads.  `size` is the length
of `data` and `attributes_size` the length of `attributes`; an empty `attributes` block is the NULL
pointer.
-/

namespace PeerStreamer

structure Chunk where
  id : Int
  timestamp : UInt64
  data : List UInt8
  attributes : List UInt8
  deriving DecidableEq, Repr

end PeerStreamer
