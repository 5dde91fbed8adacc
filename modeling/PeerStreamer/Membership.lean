import PeerStreamer.CInt
import PeerStreamer.Lib.Fifo
import PeerStreamer.TopologyProof

/-!
# Neighbours at both ends

Nodes that select in both directions tell each other of every change to their peer sets.  A change
takes effect at once at its own end and when the message arrives at the other end, and nothing
orders two changes that cross: a node can add a peer while the request to be removed is on its way.
As long as no node sends a peer the opposite of what is last on its way from that peer, both ends
agree when no message is left (`isPeer_comm`).
-/

namespace PeerStreamer.Topology

open Mirror Network

/-- What a node does on its own. -/
inductive Action (N S : Type) where
  /-- The main loop calls `update_peers`. -/
  | timer (c : Choices N)
  /-- A message of another type, from the gossip protocol. -/
  | gossip (fromid : N) (buff : List UInt8) (c : Choices N)
    (hbuff : buff.head? ≠ some MSG_TYPE_STREAMER_TOPOLOGY)
  /-- The rest of the streamer stores into the record of a peer. -/
  | store (n : N) (f : Peer N S → Peer N S) (hf : ∀ p, (f p).id = p.id)

variable {N P S : Type}

/-- The messages of the events a function causes. -/
def post (r : State N P × List (Event N)) : State N P × List (N × List UInt8) :=
  (r.1, r.2.filterMap fun e => match e with
    | .sendToPeer dst msg => some (dst, msg)
    | _ => none)

variable [DecidableEq N] [PeerSet P N S]

def act (cfg : Config) (clock : ℕ → Timeval) (a : Action N S) (s : State N P) :
    State N P × List (N × List UInt8) :=
  match a with
  | .timer c => post (updatePeers cfg clock none c s)
  | .gossip fromid buff c _ => post (updatePeers cfg clock (some (fromid, buff)) c s)
  | .store n f _ => ({ s with pset := PeerSet.update s.pset n f }, [])

/-- Every node has its own settings and its own clock. -/
def nodes (cfg : N → Config) (clock : N → ℕ → Timeval) :
    System N (State N P) (Action N S) (Choices N) (List UInt8) Fault where
  act n a s := .ok (act (cfg n) (clock n) a s)
  handle n c src buff s := .ok (post (updatePeers (cfg n) (clock n) (some (src, buff)) c s))

/-- What `a` tells `b` with these packets. -/
def toldBy (ps : List (Packet N (List UInt8))) (a b : N) : List Bool :=
  (queue ps a b).filterMap kind

/-- Nothing that a node sends a peer with this move is the opposite of what is last on its way from
the peer. -/
def Uncrossed (cfg : N → Config) (clock : N → ℕ → Timeval)
    (w : Net N (State N P) (List UInt8)) (m : Move N (Action N S) (Choices N)) : Prop :=
  ∀ w' ps, Network.step (nodes cfg clock) m w = .ok (w', ps) → ∀ a b, a ≠ b → ∀ x y,
    (toldBy ps a b).getLast? = some x → (toldBy w.flight b a).getLast? = some y → x = y

/-- What two nodes will have of each other once all messages have arrived is the same. -/
def Mirrored (w : Net N (State N P) (List UInt8)) (a b : N) : Prop :=
  Agree (isPeer (w.states a).pset b) (isPeer (w.states b).pset a) (toldBy w.flight b a)
    (toldBy w.flight a b)

variable {cfg : N → Config} {clock : N → ℕ → Timeval} {w w' : Net N (State N P) (List UInt8)}
  {a b n : N} {ps : List (Packet N (List UInt8))}

theorem Mirrored.symm (h : Mirrored w a b) : Mirrored w b a := Agree.symm h

theorem toldBy_append (ps qs : List (Packet N (List UInt8))) (a b : N) :
    toldBy (ps ++ qs) a b = toldBy ps a b ++ toldBy qs a b := by
  rw [toldBy, queue_append, List.filterMap_append, toldBy, toldBy]

/-- The messages to `b` are what `b` is told. -/
theorem toldBy_packets (n : N) (cause : Option ℕ) (k : ℕ) (r : State N P × List (Event N)) (b : N) :
    toldBy (packets n cause k (post r).2) n b = told b r.2 := by
  rw [toldBy, queue_packets_self, messagesTo, told, post]
  induction r.2 with
  | nil => rfl
  | cons e events ih =>
    cases e with
    | sendToPeer dst msg =>
      by_cases h : dst = b <;> simp [h, ← ih, List.filterMap_cons]
    | _ => simp [ih]

theorem toldBy_packets_ne (hne : n ≠ a) (cause : Option ℕ) (k : ℕ) (outs : List (N × List UInt8))
    (b : N) : toldBy (packets n cause k outs) a b = [] := by
  rw [toldBy, queue_packets_ne hne]
  rfl

theorem toldBy_drop {k : ℕ} {p : Packet N (List UInt8)} (hp : w.flight[k]? = some p)
    (hold : ∀ q ∈ w.flight.take k, ¬ (q.src = p.src ∧ q.dst = p.dst)) :
    toldBy w.flight p.src p.dst =
      (kind p.body).toList ++ toldBy (w.drop k).flight p.src p.dst := by
  rw [toldBy, queue_drop hp hold, List.filterMap_cons, toldBy]
  cases kind p.body <;> rfl

theorem toldBy_drop_ne {k : ℕ} {p : Packet N (List UInt8)} (hp : w.flight[k]? = some p)
    (hne : ¬ (p.src = a ∧ p.dst = b)) :
    toldBy (w.drop k).flight a b = toldBy w.flight a b := by
  rw [toldBy, queue_drop_ne hp hne]
  rfl

/-! ## Steps -/

/-- Node `n` has taken messages to it off the net, in which case `w₀` is left, and does `r`.  What
it thereby does to its view of `b` is to write what it tells `b`, and then to take over what the
messages say. -/
theorem mirrored_post {w₀ : Net N (State N P) (List UInt8)} {cause : Option ℕ}
    {r : State N P × List (Event N)} (hstates : w₀.states = w.states)
    (hflight : ∀ a b, b ≠ n → toldBy w₀.flight a b = toldBy w.flight a b)
    (hview : ∀ b, b ≠ n → ∀ v q,
      Agree (settled (isPeer (w.states n).pset b) (told b r.2)) v (toldBy w.flight b n) q →
        Agree (isPeer r.1.pset b) v (toldBy w₀.flight b n) q)
    (hcross : ∀ b, b ≠ n → ∀ x y, (told b r.2).getLast? = some x →
      (toldBy w.flight b n).getLast? = some y → x = y)
    (h : ∀ a b, a ≠ b → Mirrored w a b) (a b : N) (hab : a ≠ b) :
    Mirrored (w₀.post n cause r.1 (post r).2) a b := by
  -- one of the two nodes is `n`
  have hself : ∀ b, b ≠ n → Mirrored (w₀.post n cause r.1 (post r).2) n b := by
    intro b hb
    have hwrite := hview b hb _ _ ((h n b hb.symm).write (hcross b hb))
    simp only [Mirrored, Net.post, Function.update_self, Function.update_of_ne hb, hstates,
      toldBy_append, toldBy_packets, toldBy_packets_ne hb.symm, List.append_nil, hflight n b hb]
    exact hwrite
  by_cases ha : a = n
  · subst ha
    exact hself b hab.symm
  by_cases hb : b = n
  · subst hb
    exact (hself a ha).symm
  simp only [Mirrored, Net.post, Function.update_of_ne ha, Function.update_of_ne hb, hstates,
    toldBy_append, toldBy_packets_ne (Ne.symm ha), toldBy_packets_ne (Ne.symm hb), List.append_nil,
    hflight a b hb, hflight b a ha]
  exact h a b hab

variable [LawfulPeerSet P N S]

theorem isPeer_act {cfg : Config} (clock : ℕ → Timeval) (hout : cfg.topoOut = true)
    (hin : cfg.topoIn = true) (a : Action N S) (s : State N P) :
    ∃ r, act cfg clock a s = post r ∧
      ∀ x, isPeer r.1.pset x = settled (isPeer s.pset x) (told x r.2) := by
  cases a with
  | timer c => exact ⟨_, rfl, fun x => isPeer_updatePeers hout hin x none c s⟩
  | gossip fromid buff c hbuff =>
    refine ⟨_, rfl, fun x => ?_⟩
    rw [isPeer_updatePeers hout hin x (some (fromid, buff)) c s, Option.bind_some,
      kind_eq_none hbuff, ite_self, Option.getD_none]
  | store n f hf =>
    refine ⟨({ s with pset := PeerSet.update s.pset n f }, []), rfl, fun x => ?_⟩
    simp only [isPeer, PeerSet.ids_update s.pset n hf, told_nil, settled_nil]

theorem mirrored_step (hout : ∀ n, (cfg n).topoOut = true) (hin : ∀ n, (cfg n).topoIn = true)
    {m : Move N (Action N S) (Choices N)} (horder : InOrder w m) (hcross : Uncrossed cfg clock w m)
    (hstep : Network.step (nodes cfg clock) m w = .ok (w', ps))
    (h : ∀ a b, a ≠ b → Mirrored w a b) : ∀ a b, a ≠ b → Mirrored w' a b := by
  have hcross := hcross w' ps hstep
  cases stepped hstep with
  | actFailed => exact h
  | nothing => exact h
  | deliverFailed _ hh => cases hh
  | lose => exact horder.elim
  | @act n a s outs hact =>
    obtain ⟨r, hr, hview⟩ := isPeer_act (clock n) (hout n) (hin n) a (w.states n)
    obtain ⟨rfl, rfl⟩ : s = r.1 ∧ outs = (post r).2 :=
      Prod.mk.inj ((Except.ok.inj hact).symm.trans hr)
    refine mirrored_post rfl (fun _ _ _ => rfl) (fun b hb v q hq => ?_) (fun b hb x y hx hy => ?_) h
    · rw [hview b]
      exact hq
    · refine hcross n b hb.symm x y ?_ hy
      rw [toldBy_packets]
      exact hx
  | @deliver k c p s outs hp hh =>
    set r := updatePeers (cfg p.dst) (clock p.dst) (some (p.src, p.body)) c (w.states p.dst) with hr
    obtain ⟨rfl, rfl⟩ : s = r.1 ∧ outs = (post r).2 := Prod.mk.inj (Except.ok.inj hh).symm
    refine mirrored_post (w := w) rfl (fun a b hb => ?_) (fun b hb v q hq => ?_)
      (fun b hb x y hx hy => ?_) h
    · exact toldBy_drop_ne hp fun he => hb he.2.symm
    · rw [hr, isPeer_updatePeers (hout p.dst) (hin p.dst), Option.bind_some, ← hr]
      by_cases hsrc : p.src = b
      · -- the message comes from `b`
        subst hsrc
        rw [toldBy_drop hp (horder p hp)] at hq
        rw [if_pos rfl]
        cases hkind : kind p.body with
        | none =>
          rw [hkind] at hq
          exact hq
        | some x =>
          rw [hkind] at hq
          exact hq.receive
      · rw [if_neg hsrc, Option.getD_none, toldBy_drop_ne hp fun he => hsrc he.1]
        exact hq
    · refine hcross p.dst b hb.symm x y ?_ hy
      rw [toldBy_packets]
      exact hx

/-! ## Runs -/

/-- With messages in order and no crossing requests, both ends agree when no message is left. -/
theorem isPeer_comm (cfg : N → Config) (clock : N → ℕ → Timeval)
    (hout : ∀ n, (cfg n).topoOut = true) (hin : ∀ n, (cfg n).topoIn = true)
    (moves : List (Move N (Action N S) (Choices N))) (psets : N → P)
    (hinit : ∀ n, PeerSet.ids (psets n) = []) (w : Net N (State N P) (List UInt8))
    (sent : List (Packet N (List UInt8)))
    (horder : Run.Along (Network.step (nodes cfg clock)) InOrder moves
      (Net.init fun n => State.init (psets n)))
    (hcross : Run.Along (Network.step (nodes cfg clock)) (Uncrossed cfg clock) moves
      (Net.init fun n => State.init (psets n)))
    (h : Run.run (Network.step (nodes cfg clock)) moves (Net.init fun n => State.init (psets n)) =
      .ok (w, sent)) (hquiet : w.flight = []) (a b : N) :
    b ∈ PeerSet.ids (w.states a).pset ↔ a ∈ PeerSet.ids (w.states b).pset := by
  have hinv := Run.invariant (fun _ w _ => ∀ a b, a ≠ b → Mirrored w a b) ?_ ?_
    (horder.and hcross) h
  · by_cases hab : a = b
    · rw [hab]
    · have hagree := hinv a b hab
      rw [Mirrored, hquiet] at hagree
      exact decide_eq_decide.1 hagree.eq
  · intro a b _
    show isPeer (psets a) b = isPeer (psets b) a
    simp [isPeer, hinit]
  · intro pre m w out w' more hw hm hstep
    exact mirrored_step hout hin hm.1 hm.2 hstep hw

/-! ## Crossing requests -/

/-- Nodes without peers. -/
def alone : Net ℕ (State ℕ (ListPeers ℕ ListIDSet)) (List UInt8) :=
  Net.init fun _ => State.init ListPeers.empty

/-- Node 0 adds node 1. -/
def adding : List (Move ℕ (Action ℕ ListIDSet) (Choices ℕ)) :=
  [.act 0 (.gossip 9 [0x10] (gossiped [1]) (by decide)), .deliver 0 (gossiped [])]

theorem isPeer_comm_adding : ∃ w sent,
    Run.run (Network.step (nodes (fun _ => defaultConfig) fun _ => stillReadings)) adding alone =
      .ok (w, sent) ∧
    ∀ a b, b ∈ PeerSet.ids (w.states a).pset ↔ a ∈ PeerSet.ids (w.states b).pset := by
  obtain ⟨w, sent, hrun⟩ := run_total (nodes (fun _ => defaultConfig) fun _ => stillReadings)
    adding alone
  have hquiet : (Run.run (Network.step (nodes (fun _ => defaultConfig) fun _ => stillReadings))
      adding alone).toOption.map (fun r => r.1.flight) = some [] := by decide +kernel
  rw [hrun] at hquiet
  refine ⟨w, sent, hrun, isPeer_comm _ _ (fun _ => rfl) (fun _ => rfl) adding
    (fun _ => ListPeers.empty) (fun _ => rfl) w sent ?_ ?_ hrun (Option.some.inj hquiet)⟩
  · apply Run.Along.of_forall
    simp [adding, InOrder]
  · refine Run.along_cons.2 ⟨?_, fun w₁ out h => Run.along_cons.2 ⟨?_, fun _ _ _ => Run.along_nil⟩⟩
    · intro w' ps _ a b _ x y _ hy
      simp [Net.init, toldBy, queue] at hy
    · -- node 1 has nothing to say to node 0
      obtain ⟨rfl, rfl⟩ := Prod.mk.inj (Except.ok.inj h)
      intro w' ps hstep a b _ x y hx _
      have hsilent := congrArg (fun r => r.toOption.map Prod.snd) hstep
      have hps : ps = [] := Option.some.inj (hsilent.symm.trans (by decide +kernel))
      rw [hps] at hx
      simp [toldBy, queue] at hx

/-- Both nodes add each other, and node 0 drops node 1 before it hears of that. -/
def crossing : List (Move ℕ (Action ℕ ListIDSet) (Choices ℕ)) :=
  [.act 0 (.gossip 9 [0x10] (gossiped [1]) (by decide)),
    .act 1 (.gossip 9 [0x10] (gossiped [0]) (by decide)), .act 0 (.timer (gossiped [])),
    .deliver 0 (gossiped []), .deliver 0 (gossiped []), .deliver 0 (gossiped [])]

/-- Time passes at node 0. -/
def crossingReadings (n : ℕ) : ℕ → Timeval := if n = 0 then slowReadings else stillReadings

/-- In the end node 0 has node 1 as a peer, and node 1 has none. -/
theorem not_isPeer_comm : ¬ ∀ w sent,
    Run.Along (Network.step (nodes (fun _ => defaultConfig) crossingReadings)) InOrder crossing
      alone →
    Run.run (Network.step (nodes (fun _ => defaultConfig) crossingReadings)) crossing alone =
      .ok (w, sent) → w.flight = [] →
    ∀ a b, b ∈ PeerSet.ids (w.states a).pset ↔ a ∈ PeerSet.ids (w.states b).pset := by
  intro h
  obtain ⟨w, sent, hrun⟩ := run_total (nodes (fun _ => defaultConfig) crossingReadings) crossing
    alone
  have hend : (Run.run (Network.step (nodes (fun _ => defaultConfig) crossingReadings)) crossing
      alone).toOption.map (fun r => (r.1.flight, PeerSet.ids (r.1.states 0).pset,
        PeerSet.ids (r.1.states 1).pset)) = some ([], [1], []) := by decide +kernel
  rw [hrun] at hend
  simp only [Except.toOption, Option.map_some, Option.some.injEq, Prod.mk.injEq] at hend
  obtain ⟨hquiet, hzero, hone⟩ := hend
  have horder : Run.Along (Network.step (nodes (fun _ => defaultConfig) crossingReadings)) InOrder
      crossing alone := by
    apply Run.Along.of_forall
    simp [crossing, InOrder]
  have hiff := h w sent horder hrun hquiet 0 1
  rw [hzero, hone] at hiff
  simp at hiff

end PeerStreamer.Topology
