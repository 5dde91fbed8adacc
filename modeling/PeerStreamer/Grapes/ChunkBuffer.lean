import Mathlib.Data.List.Basic
import Mathlib.Data.List.Perm.Basic
import Mathlib.Data.List.Nodup
import Mathlib.Data.Finset.Max
import Mathlib.Tactic.Common
import PeerStreamer.Chunk

/-!
# The chunk buffer

The chunk buffer of GRAPES, which is not part of this repository.  `ChunkBuffer` names the
operations the streamer calls and `LawfulChunkBuffer` what it relies on: a bounded store of chunks
with distinct ids that, once full, gives up its smallest id for a larger one.
-/

namespace PeerStreamer

/-- The result of `cb_add_chunk`; the last two are negative values. -/
inductive CbResult where
  | stored
  /-- `E_CB_OLD` -/
  | old
  /-- `E_CB_DUPLICATE` -/
  | duplicate
  deriving DecidableEq, Repr

/-- The operations of `chunkbuffer.h`. -/
class ChunkBuffer (B : Type*) where
  /-- `cb_init`, with the number of chunks in the configuration string. -/
  init : ℕ → B
  size : B → ℕ
  getChunks : B → List Chunk
  getChunk : B → Int → Option Chunk
  addChunk : B → Chunk → CbResult × B
  /-- A store through the pointer that `cb_get_chunk` returns. -/
  update : B → Int → (Chunk → Chunk) → B

namespace ChunkBuffer

variable {B : Type*} [ChunkBuffer B]

def ids (b : B) : List Int := (getChunks b).map Chunk.id

theorem length_ids (b : B) : (ids b).length = (getChunks b).length := List.length_map ..

end ChunkBuffer

open ChunkBuffer

/-- What the streamer relies on.  The ids of a stream are not negative. -/
class LawfulChunkBuffer (B : Type*) [ChunkBuffer B] : Prop where
  size_init (n : ℕ) : size (init n : B) = n
  getChunks_init (n : ℕ) : getChunks (init n : B) = []
  size_addChunk (b : B) (c : Chunk) : size (addChunk b c).2 = size b
  size_update (b : B) (id : Int) (f : Chunk → Chunk) : size (update b id f) = size b
  length_le_size (b : B) : (getChunks b).length ≤ size b
  nodup_ids (b : B) : (ids b).Nodup
  getChunk_eq (b : B) (id : Int) : getChunk b id = (getChunks b).find? fun c => c.id = id
  getChunks_update (b : B) (id : Int) (f : Chunk → Chunk) : (∀ c, (f c).id = c.id) →
    getChunks (update b id f) = (getChunks b).map fun c => if c.id = id then f c else c
  add_duplicate (b : B) (c : Chunk) : 0 ≤ c.id → c.id ∈ ids b →
    (addChunk b c).1 = .duplicate ∧ getChunks (addChunk b c).2 = getChunks b
  add_room (b : B) (c : Chunk) : 0 ≤ c.id → c.id ∉ ids b → (getChunks b).length < size b →
    (addChunk b c).1 = .stored ∧ (getChunks (addChunk b c).2).Perm (c :: getChunks b)
  add_old (b : B) (c : Chunk) : 0 ≤ c.id → (getChunks b).length = size b →
    (∀ d ∈ getChunks b, c.id < d.id) →
    (addChunk b c).1 = .old ∧ getChunks (addChunk b c).2 = getChunks b
  add_evict (b : B) (c m : Chunk) : 0 ≤ c.id → c.id ∉ ids b → (getChunks b).length = size b →
    m ∈ getChunks b → (∀ d ∈ getChunks b, m.id ≤ d.id) → m.id < c.id →
    (addChunk b c).1 = .stored ∧ (getChunks (addChunk b c).2).Perm (c :: (getChunks b).erase m)

namespace ChunkBuffer

variable {B : Type*} [ChunkBuffer B] [LawfulChunkBuffer B] {b : B} {c : Chunk} {x : Int}

/-- The lookup finds a chunk with the id that is asked for. -/
theorem getChunk_some (h : getChunk b x = some c) : c.id = x ∧ c ∈ getChunks b := by
  rw [LawfulChunkBuffer.getChunk_eq] at h
  exact ⟨by simpa using List.find?_some h, List.mem_of_find?_eq_some h⟩

theorem exists_getChunk (h : x ∈ ids b) : ∃ c, getChunk b x = some c := by
  obtain ⟨c, hc, rfl⟩ := List.mem_map.1 h
  rw [LawfulChunkBuffer.getChunk_eq]
  exact Option.isSome_iff_exists.1 (List.find?_isSome.2 ⟨c, hc, by simp⟩)

theorem map_id_update (x : Int) {f : Chunk → Chunk} (hf : ∀ c, (f c).id = c.id) (cs : List Chunk) :
    (cs.map fun c => if c.id = x then f c else c).map Chunk.id = cs.map Chunk.id := by
  rw [List.map_map]
  apply List.map_congr_left
  intro c _
  show (if c.id = x then f c else c).id = c.id
  split_ifs
  · exact hf c
  · rfl

/-- A store into a chunk keeps the ids. -/
theorem ids_update (b : B) (x : Int) {f : Chunk → Chunk} (hf : ∀ c, (f c).id = c.id) :
    ids (update b x f) = ids b := by
  rw [ids, LawfulChunkBuffer.getChunks_update b x f hf]
  exact map_id_update x hf (getChunks b)

/-- A full buffer in which every id is larger than `x`. -/
def Above (b : B) (x : Int) : Prop := (getChunks b).length = size b ∧ ∀ y ∈ ids b, x < y

/-- `x` is in the buffer or was given up by it. -/
def Held (b : B) (x : Int) : Prop := x ∈ ids b ∨ Above b x

/-- A non-empty buffer has a chunk with the smallest id. -/
theorem exists_earliest {l : List Chunk} (h : l ≠ []) : ∃ m ∈ l, ∀ d ∈ l, m.id ≤ d.id := by
  obtain ⟨m, hm, hmin⟩ := Finset.exists_min_image l.toFinset Chunk.id
    (List.toFinset_nonempty_iff l |>.2 h)
  exact ⟨m, List.mem_toFinset.1 hm, fun d hd => hmin d (List.mem_toFinset.2 hd)⟩

/-- What the addition of a chunk can do to the ids: none when the buffer holds its id or is full of
larger ones, else the new id is there, and the smallest one is not when the buffer was full. -/
theorem ids_addChunk (b : B) (hc : 0 ≤ c.id) :
    (ids (addChunk b c).2 = ids b ∧ Held b c.id) ∨
    ((ids (addChunk b c).2).Perm (c.id :: ids b) ∧ (getChunks b).length < size b) ∨
    ∃ m ∈ ids b, (∀ y ∈ ids b, m ≤ y) ∧ m < c.id ∧ (getChunks b).length = size b ∧
      (ids (addChunk b c).2).Perm (c.id :: (ids b).erase m) := by
  by_cases hdup : c.id ∈ ids b
  · left
    rw [ids, (LawfulChunkBuffer.add_duplicate b c hc hdup).2]
    exact ⟨rfl, Or.inl hdup⟩
  rcases Nat.lt_or_eq_of_le (LawfulChunkBuffer.length_le_size b) with hroom | hfull
  · exact Or.inr (Or.inl
      ⟨(LawfulChunkBuffer.add_room b c hc hdup hroom).2.map Chunk.id, hroom⟩)
  by_cases hold : ∀ d ∈ getChunks b, c.id < d.id
  · left
    rw [ids, (LawfulChunkBuffer.add_old b c hc hfull hold).2]
    refine ⟨rfl, Or.inr ⟨hfull, fun y hy => ?_⟩⟩
    obtain ⟨d, hd, rfl⟩ := List.mem_map.1 hy
    exact hold d hd
  · right
    right
    simp only [not_forall, Int.not_lt] at hold
    obtain ⟨d, hd, hle⟩ := hold
    obtain ⟨m, hm, hmin⟩ := exists_earliest (List.ne_nil_of_mem hd)
    have hid : m.id ∈ ids b := List.mem_map_of_mem hm
    have hlt : m.id < c.id := by
      have hne : m.id ≠ c.id := fun e => hdup (e ▸ hid)
      have := hmin d hd
      omega
    have hperm := (LawfulChunkBuffer.add_evict b c m hc hdup hfull hm hmin hlt).2.map Chunk.id
    have herase := ((List.perm_cons_erase hm).map Chunk.id).erase m.id
    rw [List.map_cons, List.erase_cons_head] at herase
    refine ⟨m.id, hid, fun y hy => ?_, hlt, hfull, hperm.trans (herase.symm.cons _)⟩
    obtain ⟨e, he, rfl⟩ := List.mem_map.1 hy
    exact hmin e he

/-- A chunk that is in the buffer after an addition was there, or it is the one that was stored. -/
theorem mem_addChunk (b : B) (hc : 0 ≤ c.id) {d : Chunk}
    (hd : d ∈ getChunks (addChunk b c).2) :
    d ∈ getChunks b ∧ ((addChunk b c).1 = .stored → d.id ≠ c.id) ∨
      d = c ∧ (addChunk b c).1 = .stored := by
  by_cases hdup : c.id ∈ ids b
  · obtain ⟨hres, hsame⟩ := LawfulChunkBuffer.add_duplicate b c hc hdup
    exact .inl ⟨hsame ▸ hd, by simp [hres]⟩
  have hne : ∀ e ∈ getChunks b, e.id ≠ c.id := by
    intro e he heq
    exact hdup (heq ▸ List.mem_map_of_mem he)
  rcases Nat.lt_or_eq_of_le (LawfulChunkBuffer.length_le_size b) with hroom | hfull
  · obtain ⟨hres, hperm⟩ := LawfulChunkBuffer.add_room b c hc hdup hroom
    rcases List.mem_cons.1 (hperm.mem_iff.1 hd) with rfl | hd
    · exact .inr ⟨rfl, hres⟩
    · exact .inl ⟨hd, fun _ => hne d hd⟩
  by_cases hold : ∀ d ∈ getChunks b, c.id < d.id
  · obtain ⟨hres, hsame⟩ := LawfulChunkBuffer.add_old b c hc hfull hold
    exact .inl ⟨hsame ▸ hd, by simp [hres]⟩
  · simp only [not_forall, Int.not_lt] at hold
    obtain ⟨e, he, hle⟩ := hold
    obtain ⟨m, hm, hmin⟩ := exists_earliest (List.ne_nil_of_mem he)
    have hlt : m.id < c.id := by
      have := hne m hm
      have := hmin e he
      omega
    obtain ⟨hres, hperm⟩ := LawfulChunkBuffer.add_evict b c m hc hdup hfull hm hmin hlt
    rcases List.mem_cons.1 (hperm.mem_iff.1 hd) with rfl | hd
    · exact .inr ⟨rfl, hres⟩
    · have hd := List.mem_of_mem_erase hd
      exact .inl ⟨hd, fun _ => hne d hd⟩

/-- What was added is held. -/
theorem held_addChunk_self (b : B) (hc : 0 ≤ c.id) : Held (addChunk b c).2 c.id := by
  rcases ids_addChunk b hc with ⟨hids, hheld⟩ | ⟨hperm, -⟩ | ⟨m, -, -, -, -, hperm⟩
  · rcases hheld with h | ⟨hfull, h⟩
    · exact Or.inl (hids ▸ h)
    · refine Or.inr ⟨?_, hids ▸ h⟩
      rw [← length_ids, hids, length_ids, LawfulChunkBuffer.size_addChunk, hfull]
  · exact Or.inl (hperm.mem_iff.2 (List.mem_cons_self ..))
  · exact Or.inl (hperm.mem_iff.2 (List.mem_cons_self ..))

/-- What is held stays held. -/
theorem Held.addChunk (hc : 0 ≤ c.id) (hx : Held b x) : Held (addChunk b c).2 x := by
  have hsize := LawfulChunkBuffer.size_addChunk b c
  rcases ids_addChunk b hc with ⟨hids, -⟩ | ⟨hperm, hroom⟩ | ⟨m, hm, hmin, hlt, hfull, hperm⟩
  · rcases hx with h | ⟨hfull, h⟩
    · exact Or.inl (hids ▸ h)
    · refine Or.inr ⟨?_, hids ▸ h⟩
      rw [← length_ids, hids, length_ids, hsize, hfull]
  · rcases hx with h | ⟨hfull, h⟩
    · exact Or.inl (hperm.mem_iff.2 (List.mem_cons_of_mem _ h))
    · omega
  · -- the smallest id leaves, and every id of the new buffer is larger
    have hlen : (getChunks (ChunkBuffer.addChunk b c).2).length = size b := by
      have hpos := List.length_pos_of_mem hm
      rw [length_ids] at hpos
      rw [← length_ids, hperm.length_eq, List.length_cons, List.length_erase_of_mem hm, length_ids]
      omega
    have habove : ∀ y ∈ ids (ChunkBuffer.addChunk b c).2, m < y := by
      intro y hy
      rcases List.mem_cons.1 (hperm.mem_iff.1 hy) with rfl | hy
      · exact hlt
      · obtain ⟨hne, hmem⟩ := ((LawfulChunkBuffer.nodup_ids b).mem_erase_iff).1 hy
        have := hmin y hmem
        omega
    rcases hx with h | ⟨-, h⟩
    · by_cases hxm : x = m
      · exact Or.inr ⟨hlen.trans hsize.symm, hxm ▸ habove⟩
      · exact Or.inl (hperm.mem_iff.2 (List.mem_cons_of_mem _
          (((LawfulChunkBuffer.nodup_ids b).mem_erase_iff).2 ⟨hxm, h⟩)))
    · refine Or.inr ⟨hlen.trans hsize.symm, fun y hy => ?_⟩
      have := h m hm
      have := habove y hy
      omega

theorem Held.update (y : Int) {f : Chunk → Chunk} (hf : ∀ c, (f c).id = c.id)
    (hx : Held b x) : Held (update b y f) x := by
  rcases hx with h | ⟨hfull, h⟩
  · exact Or.inl ((ids_update b y hf).symm ▸ h)
  · refine Or.inr ⟨?_, (ids_update b y hf).symm ▸ h⟩
    rw [← length_ids, ids_update b y hf, length_ids, LawfulChunkBuffer.size_update, hfull]

end ChunkBuffer

/-! ## A list of chunks -/

/-- A chunk buffer as a list. -/
structure ListBuffer where
  chunks : List Chunk
  size : ℕ
  nodup : (chunks.map Chunk.id).Nodup
  length_le : chunks.length ≤ size
  deriving DecidableEq, Repr

namespace ListBuffer

theorem nodup_cons_erase {l : List Chunk} {c : Chunk} (m : Chunk)
    (hl : (l.map Chunk.id).Nodup) (hc : c.id ∉ l.map Chunk.id) :
    ((c :: l.erase m).map Chunk.id).Nodup := by
  rw [List.map_cons, List.nodup_cons]
  have hsub := (List.erase_sublist (a := m) (l := l)).map Chunk.id
  exact ⟨fun h => hc (hsub.subset h), hl.sublist hsub⟩

/-- The chunk with the smallest id. -/
def earliest? (b : ListBuffer) : Option Chunk :=
  b.chunks.find? fun m => b.chunks.all fun d => m.id ≤ d.id

theorem earliest?_mem {b : ListBuffer} {m : Chunk} (h : b.earliest? = some m) : m ∈ b.chunks :=
  List.mem_of_find?_eq_some h

/-- Put a new chunk in the place of another one. -/
def replace (b : ListBuffer) (c m : Chunk) (hc : c.id ∉ b.chunks.map Chunk.id)
    (hm : m ∈ b.chunks) : ListBuffer where
  chunks := c :: b.chunks.erase m
  size := b.size
  nodup := nodup_cons_erase m b.nodup hc
  length_le := by
    have hpos := List.length_pos_of_mem hm
    have hle := b.length_le
    rw [List.length_cons, List.length_erase_of_mem hm]
    omega

def add (b : ListBuffer) (c : Chunk) : CbResult × ListBuffer :=
  if hc : c.id ∈ b.chunks.map Chunk.id then (.duplicate, b)
  else if hroom : b.chunks.length < b.size then
    (.stored, ⟨c :: b.chunks, b.size, List.nodup_cons.2 ⟨hc, b.nodup⟩, hroom⟩)
  else
    match h : b.earliest? with
    | some m => if m.id < c.id then (.stored, b.replace c m hc (earliest?_mem h)) else (.old, b)
    | none => (.old, b)

def update (b : ListBuffer) (x : Int) (f : Chunk → Chunk) : ListBuffer :=
  if h : ((b.chunks.map fun c => if c.id = x then f c else c).map Chunk.id).Nodup then
    ⟨b.chunks.map fun c => if c.id = x then f c else c, b.size, h, by
      rw [List.length_map]
      exact b.length_le⟩
  else b

instance : ChunkBuffer ListBuffer where
  init n := ⟨[], n, List.nodup_nil, Nat.zero_le n⟩
  size := size
  getChunks := chunks
  getChunk b x := b.chunks.find? fun c => c.id = x
  addChunk := add
  update := update

theorem add_of_full {b : ListBuffer} {c m : Chunk} (hc : c.id ∉ b.chunks.map Chunk.id)
    (hfull : b.chunks.length = b.size) (h : b.earliest? = some m) :
    add b c = if m.id < c.id then (.stored, b.replace c m hc (earliest?_mem h)) else (.old, b) := by
  rw [add, dif_neg hc, dif_neg (by omega)]
  split
  · rename_i m' h'
    obtain rfl := Option.some_inj.1 (h.symm.trans h')
    rfl
  · rename_i h'
    cases h.symm.trans h'

theorem earliest?_eq {b : ListBuffer} {m : Chunk} (hm : m ∈ b.chunks)
    (hmin : ∀ d ∈ b.chunks, m.id ≤ d.id) : b.earliest? = some m := by
  have hinj := List.inj_on_of_nodup_map b.nodup
  cases h : b.earliest? with
  | none =>
    exact absurd (List.find?_eq_none.1 h m hm) (by simpa using hmin)
  | some e =>
    have hle : ∀ d ∈ b.chunks, e.id ≤ d.id := by simpa using List.find?_some h
    have he := earliest?_mem h
    rw [hinj he hm (Int.le_antisymm (hle m hm) (hmin e he))]

instance : LawfulChunkBuffer ListBuffer where
  size_init _ := rfl
  getChunks_init _ := rfl
  size_addChunk b c := by
    show (add b c).2.size = b.size
    unfold add
    split_ifs
    · rfl
    · rfl
    · split
      · split_ifs <;> rfl
      · rfl
  size_update b x f := by
    show (update b x f).size = b.size
    unfold update
    split_ifs <;> rfl
  length_le_size := length_le
  nodup_ids := nodup
  getChunk_eq _ _ := rfl
  getChunks_update b x f hf := by
    show (update b x f).chunks = _
    rw [update, dif_pos (by rw [map_id_update x hf]; exact b.nodup)]
    rfl
  add_duplicate b c _ h := by
    show (add b c).1 = _ ∧ (add b c).2.chunks = b.chunks
    rw [add, dif_pos (show c.id ∈ b.chunks.map Chunk.id from h)]
    exact ⟨rfl, rfl⟩
  add_room b c _ h hroom := by
    show (add b c).1 = _ ∧ (add b c).2.chunks.Perm (c :: b.chunks)
    rw [add, dif_neg (show c.id ∉ b.chunks.map Chunk.id from h),
      dif_pos (show b.chunks.length < b.size from hroom)]
    exact ⟨rfl, List.Perm.refl _⟩
  add_old b c _ hfull hold := by
    have hc : c.id ∉ b.chunks.map Chunk.id := by
      intro h
      obtain ⟨d, hd, hid⟩ := List.mem_map.1 h
      have := hold d hd
      omega
    show (add b c).1 = _ ∧ (add b c).2.chunks = b.chunks
    cases h : b.earliest? with
    | none =>
      rw [add, dif_neg hc, dif_neg (by show ¬ b.chunks.length < b.size; exact hfull.not_lt)]
      split
      · rename_i h'
        cases h.symm.trans h'
      · exact ⟨rfl, rfl⟩
    | some m =>
      have := hold m (earliest?_mem h)
      rw [add_of_full hc hfull h, if_neg (by omega)]
      exact ⟨rfl, rfl⟩
  add_evict b c m _ h hfull hm hmin hlt := by
    show (add b c).1 = _ ∧ (add b c).2.chunks.Perm (c :: b.chunks.erase m)
    rw [add_of_full h hfull (earliest?_eq hm hmin), if_pos hlt]
    exact ⟨rfl, List.Perm.refl _⟩

end ListBuffer

end PeerStreamer
