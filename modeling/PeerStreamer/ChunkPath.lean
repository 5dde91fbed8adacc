import Mathlib.Algebra.Order.BigOperators.Group.List
import PeerStreamer.Lib.Projection
import PeerStreamer.Overlay

/-!
# The way of a chunk

A copy of a chunk is known by its way (`Copy`): the priority it was generated with, the sends that
brought it to its node, and the attempts made there to send it on.  `following` is the system of the
nodes that carry the ways of their copies along, and `forget` leaves the nodes of `Overlay`; so it
follows what the nodes do in every run, and the attributes of each copy tell its way (`Tells`).
-/

namespace PeerStreamer.Overlay

open Streaming Network

variable {N B P S : Type}

/-- A send that a copy came by: which of the attempts of its node it was, and the deadline it
carried. -/
structure Hop (N : Type) where
  node : N
  ordinal : ℕ
  deadline : UInt64
  deriving DecidableEq, Repr

structure Copy (N : Type) where
  priority : Int
  hops : List (Hop N)
  attempts : ℕ
  deriving DecidableEq, Repr

/-- The copies of a node. -/
abbrev Copies (N : Type) := Int → Option (Copy N)

/-- A message, and the copy of the chunk that was sent. -/
abbrev Carrying (N S : Type) := Message N S × Option (Copy N)

def Copy.generated (priority : Int) : Copy N := ⟨priority, [], 0⟩

def Copy.attempt (k : Copy N) : Copy N := { k with attempts := k.attempts + 1 }

/-- The copy that was sent is a new copy where it arrives. -/
def Copy.arrive (src : N) (c : Chunk) (k : Copy N) : Copy N where
  priority := k.priority
  hops := k.hops ++ [⟨src, k.attempts,
    (ChunkAttributes.ofBytes c.attributes).elim 0 ChunkAttributes.deadline⟩]
  attempts := 0

/-- A chunk that the buffer takes is a new copy. -/
def Copies.store (cs : Copies N) (res : CbResult) (x : Int) (k : Option (Copy N)) : Copies N :=
  if res = .stored then Function.update cs x k else cs

/-- The copies when an event has happened. -/
def Copies.after (cs : Copies N) : Event N S → Copies N
  | .sendChunk _ c _ _ => Function.update cs c.id ((cs c.id).map Copy.attempt)
  | _ => cs

/-- What a chunk that is sent carries along. -/
def carried (cs : Copies N) : Event N S → Option (Copy N)
  | .sendChunk _ c _ _ => cs c.id
  | _ => none

/-- The copies after some events, and the messages. -/
def follow : List (Event N S) → Copies N → Copies N × List (N × Carrying N S)
  | [], cs => (cs, [])
  | e :: es, cs =>
    let cs := cs.after e
    let (cs', outs) := follow es cs
    (cs', ((messageOf e).map fun o => (o.1, o.2, carried cs e)).toList ++ outs)

/-- A node with the ways of its copies. -/
structure Following (N B P : Type) where
  node : State N B P
  copies : Copies N

/-- A chunk that `generated_chunk` returns. -/
structure Generated (verify : List UInt8 → Option Int) where
  read : Chunk
  filled : Chunk
  fills : chunkAttributesFill verify read = .ok filled
  id_nonneg : 0 ≤ read.id

def Generated.priority {verify : List UInt8 → Option Int} (g : Generated verify) : Int :=
  (verify g.read.attributes).getD 1

/-- What a node does on its own; the chunks it adds are generated. -/
inductive Doing (N P : Type) (verify : List UInt8 → Option Int) where
  | sendChunk (pair : Option (N × Int)) (sent : Bool)
  | sendOffer (skipped : Bool) (selected : List (OfferPeer N))
  | addChunk (g : Generated verify)
  | updatePeers (pset : P)
  | sendBmap (toid : N)

def Doing.action {verify : List UInt8 → Option Int} : Doing N P verify → Action N P
  | .sendChunk pair sent => .sendChunk pair sent
  | .sendOffer skipped selected => .sendOffer skipped selected
  | .addChunk g => .addChunk g.filled
  | .updatePeers pset => .updatePeers pset
  | .sendBmap toid => .sendBmap toid

/-- The copies follow the events of a function. -/
def followed (cs : Copies N) (r : State N B P × List (Event N S)) :
    Following N B P × List (N × Carrying N S) :=
  let (cs, outs) := follow r.2 cs
  (⟨r.1, cs⟩, outs)

section Node

variable [DecidableEq N] [ChunkIDSet S] [ChunkBuffer B] [PeerSet P N S]
  {verify : List UInt8 → Option Int}

def followAct (cfg : Config) (clock : Clock) (self : N) (a : Doing N P verify)
    (f : Following N B P) : Following N B P × List (N × Carrying N S) :=
  match a with
  | .sendChunk pair sent => followed f.copies (sendChunk pair sent f.node)
  | .sendOffer skipped selected => followed f.copies (sendOffer cfg clock skipped selected f.node)
  | .addChunk g =>
    let res := (ChunkBuffer.addChunk f.node.cb g.filled).1
    (⟨addChunk g.filled f.node, f.copies.store res g.filled.id (some (.generated g.priority))⟩, [])
  | .updatePeers pset => (⟨{ f.node with pset := pset }, f.copies⟩, [])
  | .sendBmap toid =>
    let (dst, msg) := sendBmap cfg self toid f.node
    (f, [(dst, msg, none)])

def followHandle (cfg : Config) (clock : Clock) (b : Choices) (src : N)
    (m : Carrying N S) (f : Following N B P) :
    Except Fault (Following N B P × List (N × Carrying N S)) :=
  match m with
  | (.chunk c transId, k) =>
    let res := (ChunkBuffer.addChunk f.node.cb (chunkAttributesUpdateReceived c)).1
    let copies := f.copies.store res c.id (k.map (Copy.arrive src c))
    .ok (followed copies (receivedChunk clock src (some (c, transId)) b.ackSkipped f.node))
  | (.signal sig, _) =>
    (sigParseData cfg clock src (some sig) b.sent f.node).map (followed f.copies)

def following (verify : List UInt8 → Option Int) (cfg : N → Config) (clock : N → Clock) :
    System N (Following N B P) (Doing N P verify) Choices (Carrying N S) Fault where
  act n a f := .ok (followAct (cfg n) (clock n) n a f)
  handle n b src m f := followHandle (cfg n) (clock n) b src m f

end Node

/-! ## The ways are only carried along -/

theorem map_follow (es : List (Event N S)) (cs : Copies N) :
    (follow es cs).2.map (Prod.map id Prod.fst) = messages es := by
  induction es generalizing cs with
  | nil => rfl
  | cons e es ih =>
    have hcons : messages (e :: es) = (messageOf e).toList ++ messages es := by
      rw [messages, List.filterMap_cons]
      cases messageOf e <;> rfl
    rw [hcons, follow, List.map_append, ih]
    cases messageOf e <;> rfl

theorem map_followed (cs : Copies N) (r : State N B P × List (Event N S)) :
    ((followed cs r).1.node, (followed cs r).2.map (Prod.map id Prod.fst)) = post r :=
  Prod.ext rfl (map_follow r.2 cs)

/-- Nodes that forget the ways. -/
def forget [DecidableEq N] [ChunkIDSet S] [ChunkBuffer B] [PeerSet P N S]
    (verify : List UInt8 → Option Int) (cfg : N → Config) (clock : N → Clock) :
    Projection (following (B := B) (P := P) (S := S) verify cfg clock)
      (nodes (B := B) (P := P) (S := S) cfg clock) where
  state := Following.node
  action := Doing.action
  message := Prod.fst
  act n a f := by
    cases a with
    | sendChunk pair sent => exact congrArg Except.ok (map_followed ..).symm
    | sendOffer skipped selected => exact congrArg Except.ok (map_followed ..).symm
    | addChunk g => rfl
    | updatePeers pset => rfl
    | sendBmap toid => rfl
  handle n b src m f := by
    obtain ⟨m, k⟩ := m
    cases m with
    | chunk c transId => exact congrArg Except.ok (map_followed ..).symm
    | signal sig =>
      show (sigParseData _ _ _ _ _ _).map _ = ((sigParseData _ _ _ _ _ _).map _).map _
      cases sigParseData (cfg n) (clock n) src (some sig) b.sent f.node with
      | error e => rfl
      | ok r => exact congrArg Except.ok (map_followed f.copies r).symm

/-! ## What the attributes tell -/

variable {k : Copy N} {c : Chunk} {cs : Copies N}

/-- `deadline_increment` -/
def Copy.increment (k : Copy N) : UInt16 := UInt16.ofInt (k.priority * 2)

/-- The sum of the ordinals on the way, and the attempts made here. -/
def Copy.sends (k : Copy N) : ℕ := (k.hops.map Hop.ordinal).sum + k.attempts

/-- The deadline when the sum is `n`. -/
def Copy.deadlineAt (k : Copy N) (x : Int) (n : ℕ) : UInt64 :=
  UInt64.ofNat (x.toNat + k.increment.toNat * n)

/-- The attributes of a chunk tell the way of the copy. -/
structure Tells (k : Copy N) (c : Chunk) : Prop where
  id_nonneg : 0 ≤ c.id
  attributes : c.attributes = ChunkAttributes.toBytes
    ⟨k.deadlineAt c.id k.sends, k.increment, UInt16.ofNat k.hops.length⟩
  dated : ∀ pre h, pre ++ [h] <+: k.hops → 0 < h.ordinal ∧
    h.deadline = k.deadlineAt c.id ((pre ++ [h]).map Hop.ordinal).sum

theorem updateAttributes_toBytes {a : ChunkAttributes} (f : ChunkAttributes → ChunkAttributes)
    (h : c.attributes = a.toBytes) :
    updateAttributes f c = { c with attributes := (f a).toBytes } := by
  rw [updateAttributes, h, ChunkAttributes.ofBytes_toBytes]

theorem Copy.deadlineAt_succ (k : Copy N) (x : Int) (n : ℕ) :
    k.deadlineAt x n + k.increment.toUInt64 = k.deadlineAt x (n + 1) := by
  rw [deadlineAt, deadlineAt, ← UInt64.ofNat_uInt16ToNat, ← UInt64.ofNat_add, Nat.mul_add,
    Nat.mul_one, Nat.add_assoc]

theorem tells_generated {verify : List UInt8 → Option Int} (g : Generated verify) :
    Tells (.generated g.priority : Copy N) g.filled := by
  have hfills := g.fills
  unfold chunkAttributesFill at hfills
  split_ifs at hfills
  obtain ⟨increment, hint, hfills⟩ := bind_eq_ok.1 hfills
  obtain rfl := eq_of_int_ok hint
  have hfilled := Except.ok.inj hfills
  have hid : g.filled.id = g.read.id := by rw [← hfilled]
  have hnonneg := g.id_nonneg
  refine ⟨hid ▸ hnonneg, ?_, ?_⟩
  · rw [hid, ← hfilled]
    show ChunkAttributes.toBytes ⟨_, _, _⟩ = ChunkAttributes.toBytes ⟨_, _, _⟩
    have hdeadline : UInt64.ofInt g.read.id =
        (Copy.generated (N := N) g.priority).deadlineAt g.read.id 0 := by
      apply UInt64.toNat.inj
      rw [UInt64.ofInt, Copy.deadlineAt, UInt64.toNat_ofNat', UInt64.toNat_ofNat']
      omega
    rw [hdeadline]
    rfl
  · intro pre h hpre
    exact absurd (List.prefix_nil.1 hpre) (by simp)

/-- An attempt to send a copy moves its deadline. -/
theorem Tells.attempt (h : Tells k c) : Tells k.attempt (chunkAttributesUpdateSending c) := by
  have hsending := updateAttributes_toBytes
    (fun a => { a with deadline := a.deadline + a.deadlineIncrement.toUInt64 }) h.attributes
  rw [chunkAttributesUpdateSending, hsending]
  refine ⟨h.id_nonneg, ?_, h.dated⟩
  show ChunkAttributes.toBytes ⟨k.deadlineAt c.id k.sends + k.increment.toUInt64, _, _⟩ = _
  rw [k.deadlineAt_succ]
  rfl

/-- A copy that arrives has one hop more, and no attempts. -/
theorem Tells.arrive (h : Tells k c) (hk : 0 < k.attempts) (src : N) :
    Tells (k.arrive src c) (chunkAttributesUpdateReceived c) := by
  have hreceived := updateAttributes_toBytes (fun a => { a with hopcount := a.hopcount + 1 })
    h.attributes
  have hsum : ∀ x : Hop N, x.ordinal = k.attempts →
      ((k.hops ++ [x]).map Hop.ordinal).sum = k.sends := by
    intro x hx
    rw [List.map_append, List.sum_append, List.map_singleton, List.sum_singleton, hx]
    rfl
  rw [chunkAttributesUpdateReceived, hreceived]
  refine ⟨h.id_nonneg, ?_, ?_⟩
  · have hsends : (k.arrive src c).sends = k.sends := by
      rw [Copy.sends, Copy.arrive, hsum _ rfl, Nat.add_zero]
    have hhop : UInt16.ofNat k.hops.length + 1 = UInt16.ofNat (k.arrive src c).hops.length := by
      rw [Copy.arrive, List.length_append, List.length_singleton, UInt16.ofNat_add]
      rfl
    show ChunkAttributes.toBytes ⟨_, _, UInt16.ofNat k.hops.length + 1⟩ = _
    rw [hsends, hhop]
    rfl
  · intro pre x hpre
    rcases List.prefix_concat_iff.1 hpre with heq | hpre
    · obtain ⟨rfl, hx⟩ := List.append_inj' heq rfl
      obtain rfl := List.singleton_inj.1 hx
      refine ⟨hk, ?_⟩
      show (ChunkAttributes.ofBytes c.attributes).elim 0 ChunkAttributes.deadline =
        k.deadlineAt c.id _
      rw [hsum _ rfl, h.attributes, ChunkAttributes.ofBytes_toBytes]
      rfl
    · exact h.dated pre x hpre

/-! ## What a node keeps to -/

section Told

variable [ChunkBuffer B]

/-- Every chunk of the buffer tells the way of its copy. -/
def Told (cb : B) (cs : Copies N) : Prop :=
  ∀ c ∈ ChunkBuffer.getChunks cb, ∃ k, cs c.id = some k ∧ Tells k c

/-- A chunk message carries the way of the copy that was sent. -/
def Carries (m : Carrying N S) : Prop :=
  match m.1 with
  | .chunk c _ => ∃ k, m.2 = some k ∧ Tells k c ∧ 0 < k.attempts
  | .signal _ => True

/-- What happened is told and carried. -/
def Faithful (s s' : State N B P) (events : List (Event N S)) : Prop :=
  ∀ cs, Told s.cb cs → Told s'.cb (follow events cs).1 ∧
    ∀ o ∈ (follow events cs).2, Carries o.2

/-- An event that sends no chunk. -/
def NoChunk : Event N S → Prop
  | .sendChunk .. => False
  | _ => True

variable {s s' s'' : State N B P} {events more : List (Event N S)}

omit [ChunkBuffer B] in
theorem follow_append (es fs : List (Event N S)) (cs : Copies N) :
    follow (es ++ fs) cs =
      ((follow fs (follow es cs).1).1, (follow es cs).2 ++ (follow fs (follow es cs).1).2) := by
  induction es generalizing cs with
  | nil => rfl
  | cons e es ih =>
    simp only [List.cons_append, follow, ih, List.append_assoc]

theorem Faithful.append (h : Faithful s s' events) (h' : Faithful s' s'' more) :
    Faithful s s'' (events ++ more) := by
  intro cs hcs
  obtain ⟨hmid, hout⟩ := h cs hcs
  obtain ⟨hend, hmore⟩ := h' _ hmid
  rw [follow_append]
  refine ⟨hend, ?_⟩
  intro o ho
  exact (List.mem_append.1 ho).elim (hout o) (hmore o)

/-- Events that send no chunk leave the copies as they are. -/
theorem follow_noChunk (h : ∀ e ∈ events, NoChunk e) (cs : Copies N) :
    (follow events cs).1 = cs ∧ ∀ o ∈ (follow events cs).2, Carries o.2 := by
  induction events with
  | nil => exact ⟨rfl, by simp [follow]⟩
  | cons e events ih =>
    obtain ⟨hcs, hout⟩ := ih fun e he => h e (List.mem_cons_of_mem _ he)
    have he := h e (List.mem_cons_self ..)
    cases e with
    | sendChunk => exact absurd he id
    | locked | outputDeliver => exact ⟨hcs, hout⟩
    | offerChunks | acceptChunks | sendAck =>
      refine ⟨hcs, ?_⟩
      intro o ho
      rcases List.mem_cons.1 ho with rfl | ho
      · exact trivial
      · exact hout o ho

theorem Faithful.of_cb (hcb : s'.cb = s.cb) (h : ∀ e ∈ events, NoChunk e) :
    Faithful s s' events := by
  intro cs hcs
  obtain ⟨hsame, hout⟩ := follow_noChunk h cs
  exact ⟨by rwa [hcb, hsame], hout⟩

theorem Faithful.refl (s : State N B P) : Faithful s s ([] : List (Event N S)) :=
  .of_cb rfl (by simp)

variable [LawfulChunkBuffer B]

/-- An attempt to send a chunk of the buffer. -/
theorem faithful_transmit [PeerSet P N S] [ChunkIDSet S] (s : State N B P) {x : Int}
    (hc : ChunkBuffer.getChunk s.cb x = some c) (toid : N) (transId : UInt16) (sent : Bool) :
    Faithful s (transmit toid c transId sent s).1 (transmit (S := S) toid c transId sent s).2 := by
  intro cs hcs
  have hid := chunkAttributesUpdateSending_id
  obtain ⟨k, hk, htells⟩ := hcs c (ChunkBuffer.getChunk_some hc).2
  have hcb : (transmit (S := S) toid c transId sent s).1.cb =
      ChunkBuffer.update s.cb c.id chunkAttributesUpdateSending := by
    cases sent <;> rfl
  have hafter : (follow (transmit (S := S) toid c transId sent s).2 cs).1 =
      Function.update cs c.id (some k.attempt) := by
    show Function.update cs (chunkAttributesUpdateSending c).id
      ((cs (chunkAttributesUpdateSending c).id).map Copy.attempt) = _
    rw [hid, hk, Option.map_some]
  constructor
  · rw [hcb, hafter]
    intro d hd
    rw [LawfulChunkBuffer.getChunks_update s.cb c.id _ hid] at hd
    obtain ⟨e, he, rfl⟩ := List.mem_map.1 hd
    obtain ⟨l, hl, hetells⟩ := hcs e he
    by_cases hec : e.id = c.id
    · rw [if_pos hec, hid, hec, Function.update_self]
      obtain rfl : l = k := by
        rw [hec, hk] at hl
        exact (Option.some.inj hl).symm
      exact ⟨_, rfl, hetells.attempt⟩
    · rw [if_neg hec, Function.update_of_ne hec]
      exact ⟨l, hl, hetells⟩
  · intro o ho
    cases sent with
    | false => exact absurd ho List.not_mem_nil
    | true =>
      obtain rfl := List.mem_singleton.1 ho
      refine ⟨k.attempt, ?_, htells.attempt, Nat.succ_pos _⟩
      rw [← hid c] at hafter
      exact (congrFun hafter _).trans (Function.update_self ..)

section Functions

variable [DecidableEq N] [ChunkIDSet S] [PeerSet P N S] {cfg : Config} {clock : Clock}

omit [DecidableEq N] in
theorem faithful_sendAcceptedOne (toid : N) (transId : UInt16) (chunkid : Int) (sent : Bool)
    {a : Sending N B P S} (h : Faithful s a.s a.events) :
    Faithful s (sendAcceptedOne cfg clock toid transId chunkid sent a).s
      (sendAcceptedOne cfg clock toid transId chunkid sent a).events := by
  obtain ⟨n, -, hone | ⟨c, d, hc, -, hone⟩⟩ :=
    sendAcceptedOne_cases cfg clock toid transId chunkid sent a
  all_goals
    have hread : Faithful a.s { a.s with reads := n } ([] : List (Event N S)) :=
      .of_cb rfl (by simp)
    rw [hone]
  · simpa only [List.append_nil] using h.append hread
  · have hsend := faithful_transmit (S := S) { a.s with reads := n } hc toid transId sent
    exact h.append (hread.append hsend)

omit [ChunkBuffer B] [LawfulChunkBuffer B] [DecidableEq N] [ChunkIDSet S] in
theorem cb_updatePeer (clock : Clock) (n : N) (f : Timeval → Peer N S → Peer N S)
    (s : State N B P) : (updatePeer clock n f s).cb = s.cb := by
  unfold updatePeer
  split <;> rfl

omit [DecidableEq N] in
theorem faithful_acceptReceived (fromid : N) (cset : S) (maxDeliver : Int) (transId : UInt16)
    (sent : ℕ → Bool) (s : State N B P) :
    Faithful s (acceptReceived cfg clock fromid cset maxDeliver transId sent s).1
      (acceptReceived cfg clock fromid cset maxDeliver transId sent s).2 := by
  refine sendAcceptedLoop_invariant (I := fun a => Faithful s a.s a.events)
    (fun chunkid sent _ h => faithful_sendAcceptedOne fromid transId chunkid sent h)
    cset maxDeliver sent _ (.of_cb ?_ (by simp))
  exact cb_updatePeer clock fromid _ s

omit [DecidableEq N] in
theorem faithful_sendChunk (pair : Option (N × Int)) (sent : Bool) (s : State N B P) :
    Faithful s (sendChunk (S := S) pair sent s).1 (sendChunk (S := S) pair sent s).2 := by
  rcases sendChunk_cases (S := S) pair sent s with h | ⟨toid, cid, c, hc, h⟩
  · rw [h]
    exact .refl s
  · rw [h]
    exact faithful_transmit s hc toid 0 sent

omit [LawfulChunkBuffer B] [DecidableEq N] in
theorem faithful_sendOffer (skipped : Bool) (selected : List (OfferPeer N)) (s : State N B P) :
    Faithful s (sendOffer (S := S) cfg clock skipped selected s).1
      (sendOffer (S := S) cfg clock skipped selected s).2 := by
  have hloop : ∀ s : State N B P, (offerLoop (S := S) cfg clock selected s).1.cb = s.cb ∧
      ∀ e ∈ (offerLoop (S := S) cfg clock selected s).2, NoChunk e := by
    induction selected with
    | nil => exact fun s => ⟨rfl, by simp [offerLoop]⟩
    | cons p ps ih =>
      intro s
      obtain ⟨hcb, hevents⟩ := ih (offerOne (S := S) cfg clock p s).1
      refine ⟨hcb, ?_⟩
      intro e he
      rcases List.mem_cons.1 he with rfl | he
      · exact trivial
      · exact hevents e he
  unfold sendOffer
  split_ifs
  · exact .refl s
  · exact .of_cb (hloop s).1 (hloop s).2

variable [LawfulChunkIDSet S]

theorem faithful_sigParseData {fromid : N} {sig : Signal N S} {sent : ℕ → Bool}
    (h : sigParseData cfg clock fromid (some sig) sent s = .ok (s', events)) :
    Faithful s s' events := by
  cases sig with
  | bufferMap ownerid cset cbSize transId =>
    obtain ⟨rfl, rfl⟩ := Prod.mk.inj (Except.ok.inj h)
    exact .of_cb (cb_updatePeer ..) (by simp)
  | offer cset maxDeliver transId =>
    obtain ⟨rfl, rfl⟩ := Prod.mk.inj (Except.ok.inj h)
    have hspec := getChunksToAccept_spec cfg clock fromid cset maxDeliver
      (updatePeer clock fromid (resetBmap cset) s)
    refine .of_cb (hspec.cb.trans (cb_updatePeer ..)) ?_
    intro e he
    rcases List.mem_append.1 he with he | he
    · obtain ⟨x, t, rfl⟩ := hspec.locked e he
      exact trivial
    · rw [List.mem_singleton.1 he]
      exact trivial
  | accept cset transId =>
    obtain ⟨rfl, rfl⟩ := Prod.mk.inj (Except.ok.inj h)
    exact faithful_acceptReceived fromid cset _ transId sent s
  | ack cset transId =>
    obtain ⟨t, r, n, -, rfl, rfl⟩ := ackReceived_ok h
    exact .of_cb (cb_updatePeer clock fromid (resetBmap cset) s) (by simp)
  | other =>
    obtain ⟨rfl, rfl⟩ := Prod.mk.inj (Except.ok.inj h)
    exact .refl s

end Functions

/-- A chunk that the buffer takes tells the way of the new copy. -/
theorem Told.addChunk {cb : B} (h : Told cb cs) (hk : Tells k c) :
    Told (ChunkBuffer.addChunk cb c).2
      (cs.store (ChunkBuffer.addChunk cb c).1 c.id (some k)) := by
  intro d hd
  rcases ChunkBuffer.mem_addChunk cb hk.id_nonneg hd with ⟨hold, hne⟩ | ⟨rfl, hstored⟩
  · obtain ⟨l, hl, htells⟩ := h d hold
    refine ⟨l, ?_, htells⟩
    unfold Copies.store
    split_ifs with hstored
    · rwa [Function.update_of_ne (hne hstored)]
    · exact hl
  · refine ⟨k, ?_, hk⟩
    rw [Copies.store, if_pos hstored, Function.update_self]
theorem told_receivedChunk [DecidableEq N] [ChunkIDSet S] [PeerSet P N S] {clock : Clock} {src : N}
    {f : Following N B P} (hf : Told f.node.cb f.copies) (hk : Tells k c) (hattempts : 0 < k.attempts)
    (transId : UInt16) (ackSkipped : Bool) :
    let r := receivedChunk (S := S) clock src (some (c, transId)) ackSkipped f.node
    let res := (ChunkBuffer.addChunk f.node.cb (chunkAttributesUpdateReceived c)).1
    let copies := follow r.2 (f.copies.store res c.id (some (k.arrive src c)))
    Told r.1.cb copies.1 ∧ ∀ o ∈ copies.2, Carries o.2 := by
  intro r res copies
  have htold := hf.addChunk (hk.arrive hattempts src)
  rw [chunkAttributesUpdateReceived_id] at htold
  have hcb : r.1.cb = (ChunkBuffer.addChunk f.node.cb (chunkAttributesUpdateReceived c)).2 := by
    show (regSender _ _ _ _).cb = _
    unfold regSender
    split <;> rfl
  have hevents : ∀ e ∈ r.2, NoChunk e := by
    intro e he
    rcases List.mem_cons.1 he with rfl | he
    · exact trivial
    · split_ifs at he
      · exact absurd he List.not_mem_nil
      · rw [List.mem_singleton.1 he]
        exact trivial
  obtain ⟨hsame, hout⟩ := follow_noChunk hevents (f.copies.store res c.id (some (k.arrive src c)))
  refine ⟨?_, hout⟩
  rw [hcb, hsame]
  exact htold

end Told

/-! ## Deadlines -/

/-- The deadlines of the copies before this one, the first as it was generated. -/
def Copy.deadlines (k : Copy N) (x : Int) : List ℕ :=
  x.toNat :: k.hops.map fun h => h.deadline.toNat

theorem Tells.ofBytes (h : Tells k c) : ChunkAttributes.ofBytes c.attributes =
    some ⟨k.deadlineAt c.id k.sends, k.increment, UInt16.ofNat k.hops.length⟩ := by
  rw [h.attributes, ChunkAttributes.ofBytes_toBytes]

theorem Copy.toNat_deadlineAt (k : Copy N) (x : Int) {n : ℕ}
    (h : x.toNat + k.increment.toNat * n < 2 ^ 64) :
    (k.deadlineAt x n).toNat = x.toNat + k.increment.toNat * n := by
  rw [deadlineAt, UInt64.toNat_ofNat', Nat.mod_eq_of_lt h]

/-- Deadlines that grow with the sum of the ordinals are in order. -/
theorem deadlines_pairwise {hops : List (Hop N)} {x d : ℕ}
    (hdated : ∀ pre h, pre ++ [h] <+: hops → 0 < h.ordinal ∧
      h.deadline.toNat = x + d * ((pre ++ [h]).map Hop.ordinal).sum) :
    (x :: hops.map fun h => h.deadline.toNat).Pairwise (· ≤ ·) ∧
      (0 < d → (x :: hops.map fun h => h.deadline.toNat).Pairwise (· < ·)) ∧
      ∀ y ∈ x :: hops.map fun h => h.deadline.toNat, y ≤ x + d * (hops.map Hop.ordinal).sum := by
  induction hops using List.reverseRecOn with
  | nil => simp
  | append_singleton hops h ih =>
    obtain ⟨hle, hlt, hbound⟩ := ih fun pre h hpre =>
      hdated pre h (hpre.trans (List.prefix_append ..))
    obtain ⟨hordinal, hdeadline⟩ := hdated hops h (List.prefix_refl _)
    have hsum : ((hops ++ [h]).map Hop.ordinal).sum = (hops.map Hop.ordinal).sum + h.ordinal := by
      rw [List.map_append, List.sum_append, List.map_singleton, List.sum_singleton]
    rw [hsum, Nat.mul_add] at hdeadline ⊢
    rw [List.map_append, List.map_singleton, ← List.cons_append]
    refine ⟨?_, ?_, ?_⟩
    · refine List.pairwise_append.2 ⟨hle, List.pairwise_singleton .., ?_⟩
      intro y hy z hz
      obtain rfl := List.mem_singleton.1 hz
      have := hbound y hy
      omega
    · intro hd
      refine List.pairwise_append.2 ⟨hlt hd, List.pairwise_singleton .., ?_⟩
      intro y hy z hz
      obtain rfl := List.mem_singleton.1 hz
      have := hbound y hy
      have := Nat.mul_pos hd hordinal
      omega
    · intro y hy
      rcases List.mem_append.1 hy with hy | hy
      · have := hbound y hy
        omega
      · rw [List.mem_singleton.1 hy, hdeadline]

/-- What the attributes record of a way. -/
structure Recorded (k : Copy N) (x : Int) (a : ChunkAttributes) : Prop where
  hopcount : a.hopcount.toNat = k.hops.length % 2 ^ 16
  increment : (a.deadlineIncrement.toNat : Int) = k.priority * 2 % 2 ^ 16
  deadline : (a.deadline.toNat : Int) = (x + a.deadlineIncrement.toNat * k.sends) % 2 ^ 64
  /-- Without a wrap. -/
  ordered : x + a.deadlineIncrement.toNat * k.sends < 2 ^ 64 →
    (k.deadlines x ++ [a.deadline.toNat]).Pairwise (· ≤ ·) ∧
      (0 < a.deadlineIncrement.toNat → (k.deadlines x).Pairwise (· < ·))

theorem Tells.recorded (h : Tells k c) :
    ∃ a, ChunkAttributes.ofBytes c.attributes = some a ∧ Recorded k c.id a := by
  have hid := h.id_nonneg
  refine ⟨_, h.ofBytes, UInt16.toNat_ofNat', ?_, ?_, ?_⟩
  · show ((UInt16.ofInt (k.priority * 2)).toNat : Int) = _
    rw [UInt16.ofInt, UInt16.toNat_ofNat']
    omega
  · show ((k.deadlineAt c.id k.sends).toNat : Int) = _
    rw [Copy.deadlineAt, UInt64.toNat_ofNat']
    push_cast
    rw [Int.toNat_of_nonneg hid]
  · intro hwrap
    have hwrap' : c.id.toNat + k.increment.toNat * k.sends < 2 ^ 64 := by
      have hcast : ((c.id.toNat + k.increment.toNat * k.sends : ℕ) : Int) < 2 ^ 64 := by
        push_cast
        rwa [Int.toNat_of_nonneg hid]
      exact_mod_cast hcast
    have hdated : ∀ pre x, pre ++ [x] <+: k.hops → 0 < x.ordinal ∧ x.deadline.toNat =
        c.id.toNat + k.increment.toNat * ((pre ++ [x]).map Hop.ordinal).sum := by
      intro pre x hpre
      obtain ⟨hordinal, hdeadline⟩ := h.dated pre x hpre
      have hsum := (hpre.sublist.map Hop.ordinal).sum_le_sum fun _ _ => Nat.zero_le _
      have hmul := Nat.mul_le_mul_left k.increment.toNat
        (hsum.trans (Nat.le_add_right _ k.attempts))
      refine ⟨hordinal, ?_⟩
      rw [hdeadline]
      exact k.toNat_deadlineAt _ (by unfold Copy.sends at hwrap'; omega)
    obtain ⟨hle, hlt, hbound⟩ := deadlines_pairwise hdated
    refine ⟨List.pairwise_append.2 ⟨hle, List.pairwise_singleton .., ?_⟩, hlt⟩
    intro y hy z hz
    obtain rfl := List.mem_singleton.1 hz
    show y ≤ (k.deadlineAt c.id k.sends).toNat
    rw [k.toNat_deadlineAt _ hwrap']
    refine (hbound y hy).trans (Nat.add_le_add_left (Nat.mul_le_mul_left _ ?_) _)
    exact Nat.le_add_right ..

/-! ## Runs -/

section Runs

variable [DecidableEq N] [ChunkIDSet S] [ChunkBuffer B] [PeerSet P N S] [LawfulChunkIDSet S]
  [LawfulChunkBuffer B]

theorem local_following (verify : List UInt8 → Option Int) (cfg : N → Config) (clock : N → Clock) :
    Local (following (B := B) (P := P) (S := S) verify cfg clock)
      (fun _ f => Told f.node.cb f.copies) fun _ _ m => Carries m where
  act n a f f' outs hf h := by
    obtain ⟨rfl, rfl⟩ := Prod.mk.inj (Except.ok.inj h)
    cases a with
    | sendChunk pair sent => exact faithful_sendChunk (S := S) pair sent f.node f.copies hf
    | sendOffer skipped selected =>
      exact faithful_sendOffer (S := S) skipped selected f.node f.copies hf
    | addChunk g => exact ⟨hf.addChunk (tells_generated g), by simp⟩
    | updatePeers pset => exact ⟨hf, by simp⟩
    | sendBmap toid => exact ⟨hf, by simp [sendBmap, Carries]⟩
  handle n b src m f f' outs hf hm h := by
    obtain ⟨m, k⟩ := m
    cases m with
    | chunk c transId =>
      obtain ⟨k, rfl, htells, hattempts⟩ := hm
      obtain ⟨rfl, rfl⟩ := Prod.mk.inj (Except.ok.inj h)
      exact told_receivedChunk hf htells hattempts transId b.ackSkipped
    | signal sig =>
      change (sigParseData _ _ _ _ _ _).map _ = _ at h
      cases hparse : sigParseData (cfg n) (clock n) src (some sig) b.sent f.node with
      | error e =>
        rw [hparse] at h
        cases h
      | ok r =>
        rw [hparse] at h
        obtain ⟨rfl, rfl⟩ := Prod.mk.inj (Except.ok.inj h)
        exact faithful_sigParseData hparse f.copies hf

/-- In every run each chunk records the way of its copy. -/
theorem chunks_recordWay (verify : List UInt8 → Option Int) (cfg : N → Config) (clock : N → Clock)
    (moves : List (Move N (Doing N P verify) Choices)) (states : N → State N B P)
    (hempty : ∀ n, ChunkBuffer.getChunks (states n).cb = [])
    (w : Net N (Following N B P) (Carrying N S)) (sent : List (Packet N (Carrying N S)))
    (h : Run.run (Network.step (following verify cfg clock)) moves
      (Net.init fun n => ⟨states n, fun _ => none⟩) = .ok (w, sent)) :
    let π := forget (B := B) (P := P) (S := S) verify cfg clock
    Run.run (Network.step (nodes cfg clock)) (moves.map π.move) (Net.init states) =
      .ok (π.net w, sent.map π.packet) ∧
    ∀ n, ∀ c ∈ ChunkBuffer.getChunks (w.states n).node.cb, ∃ k a,
      (w.states n).copies c.id = some k ∧ ChunkAttributes.ofBytes c.attributes = some a ∧
        Recorded k c.id a := by
  refine ⟨(forget verify cfg clock).run h, ?_⟩
  have hstart : ∀ n, Told (states n).cb (fun _ => none : Copies N) := by
    intro n c hc
    rw [hempty] at hc
    exact absurd hc List.not_mem_nil
  intro n c hc
  obtain ⟨k, hk, htells⟩ := (run_local (local_following verify cfg clock) hstart h).states n c hc
  obtain ⟨a, ha, hrecorded⟩ := htells.recorded
  exact ⟨k, a, hk, ha, hrecorded⟩

end Runs

/-- Attributes of one byte, the priority. -/
def oneByte : List UInt8 → Option Int
  | [b] => some b.toNat
  | _ => none

def urgent : Generated oneByte where
  read := ⟨5, 1000000, [1], [3]⟩
  filled := ⟨5, 1000000, [1], ChunkAttributes.toBytes ⟨5, 6, 0⟩⟩
  fills := by decide
  id_nonneg := by decide

/-- Node 0 sends its chunk to node 1 at the second attempt, and node 1 fails to send it on. -/
def forwarded : List (Move ℕ (Doing ℕ (ListPeers ℕ ListIDSet) oneByte) Choices) :=
  [.act 0 (.addChunk urgent), .act 0 (.sendChunk (some (1, 5)) false),
    .act 0 (.sendChunk (some (1, 5)) true), .deliver 0 ⟨true, fun _ => true⟩,
    .act 1 (.sendChunk (some (0, 5)) false)]

theorem chunks_recordWay_forwarded :
    ∃ w : Net ℕ (Following ℕ ListBuffer (ListPeers ℕ ListIDSet)) (Carrying ℕ ListIDSet),
      (w.states 1).copies 5 = some ⟨3, [⟨0, 2, 17⟩], 1⟩ ∧
        ∀ n, ∀ c ∈ ChunkBuffer.getChunks (w.states n).node.cb, ∃ k a,
          (w.states n).copies c.id = some k ∧ ChunkAttributes.ofBytes c.attributes = some a ∧
            Recorded k c.id a := by
  have hcopy : (Run.run (Network.step (following oneByte (fun _ => plainConfig) fun _ => stillClock))
      forwarded (Net.init fun n => ⟨pair n, fun _ => none⟩)).toOption.any (fun r =>
        (r.1.states 1).copies 5 = some ⟨3, [⟨0, 2, 17⟩], 1⟩) = true := by decide +kernel
  obtain ⟨⟨w, sent⟩, hrun, hk⟩ := eq_ok_of_any hcopy
  have h := chunks_recordWay oneByte (fun _ => plainConfig) (fun _ => stillClock) forwarded pair
    (fun _ => rfl) w sent hrun
  exact ⟨w, of_decide_eq_true hk, h.2⟩

end PeerStreamer.Overlay
