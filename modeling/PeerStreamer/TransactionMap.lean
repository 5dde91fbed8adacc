import PeerStreamer.Lib.Run
import PeerStreamer.RateControl
import PeerStreamer.TransactionList

/-!
# The transactions as a map

`Ledger` is what the list of transactions is for: a map from the ids of the open transactions to
what is known of them, in which each transaction also has a number that is never used again.  Every
run of the code agrees with the ledger (`calls_refine`), as long as an id is not given out again
before its last owner has left: the ids go round after 65535 transactions.
-/

namespace PeerStreamer.Transaction

open DList

/-! ## Runs of the code -/

/-- A call, with the readings of the clock and the address that `malloc` returns. -/
inductive Call (N : Type) where
  | create (checked now : Timeval) (a : ℕ) (id : N)
  | regAccept (transId : UInt16) (id : N) (now : Timeval)
  | remove (transId : UInt16)
  | check (now : Timeval)
  /-- `rc_reg_ack` -/
  | ack (transId : UInt16) (now : Timeval)
  deriving DecidableEq, Repr

/-- What a call returns; for an acknowledgement, the delay that it measures. -/
inductive Result where
  | created (transId : UInt16)
  | accepted (found : Bool)
  | removed (time : ℚ)
  | checked
  | acked (delay : Option ℚ)
  deriving DecidableEq, Repr

/-- The delay that `rc_reg_ack` passes on, for the accept time that `transaction_remove` returns. -/
def ackDelay (now : Timeval) (tAcc : ℚ) : Option ℚ :=
  if tAcc < 0 then none else some (Double.sub (seconds now) tAcc)

variable {N : Type}

def Store.call (c : Call N) (s : Store N) : Except Crash (Store N × List Result) :=
  match c with
  | .create checked now a id => do
    let (transId, s) ← s.transactionCreate checked now a id
    return (s, [.created transId])
  | .regAccept transId id now => do
    let (found, s) ← s.transactionRegAccept transId id now
    return (s, [.accepted found])
  | .remove transId => do
    let (time, s) ← s.transactionRemove transId
    return (s, [.removed time])
  | .check now => do
    let s ← s.checkNeighborStatusList now
    return (s, [.checked])
  | .ack transId now => do
    let (tAcc, s) ← s.transactionRemove transId
    return (s, [.acked (ackDelay now tAcc)])

/-- `rc_reg_ack` acts on the delay, and on nothing when there is none. -/
theorem rcRegAck_eq (cfg : RateControl.Config ℚ) (clock : ℕ → Timeval) (transId : UInt16)
    (t : Transactions N) (s : RateControl.State ℚ) (n : ℕ) :
    RateControl.rcRegAck cfg clock transId t s n =
      match ackDelay (clock n) (transactionRemove transId t).1 with
      | none => .ok ((transactionRemove transId t).2, s, n)
      | some d => (RateControl.updateAccToAck cfg clock d s (n + 1)).map fun r =>
          ((transactionRemove transId t).2, r) := by
  unfold RateControl.rcRegAck ackDelay
  dsimp only
  split_ifs with h
  · rfl
  · dsimp only
    cases RateControl.updateAccToAck cfg clock
      (Double.sub (seconds (clock n)) (transactionRemove transId t).1) s (n + 1) <;> rfl

/-! ## The ledger -/

/-- An open transaction; `number` counts the transactions from 1 on. -/
structure Entry (N : Type) where
  number : ℕ
  transId : UInt16
  offerSent : ℚ
  accepted : Option ℚ
  id : N
  deriving DecidableEq, Repr

/-- The open transactions, the newest first, and the delays measured so far with the number of the
transaction of each. -/
structure Ledger (N : Type) where
  created : ℕ
  live : List (Entry N)
  delays : List (ℕ × ℚ)
  deriving DecidableEq, Repr

/-- The ids go round from 1 to 65535. -/
def transIdOf (number : ℕ) : UInt16 := UInt16.ofNat (number % 65535 + 1)

namespace Ledger

def init : Ledger N := ⟨0, [], []⟩

def ids (l : Ledger N) : List UInt16 := l.live.map Entry.transId

def lookup (l : Ledger N) (transId : UInt16) : Option (Entry N) :=
  l.live.find? fun e => e.transId = transId

def overdue (now : Timeval) (e : Entry N) : Bool :=
  Double.sub (seconds now) e.offerSent > TRANS_ID_MAX_LIFETIME

/-- The newest entry when it is overdue, else all entries that are. -/
def purge (now : Timeval) : List (Entry N) → List (Entry N)
  | [] => []
  | e :: es => if overdue now e then es else e :: es.filter fun e => ¬ overdue now e

/-- The entry for an id, and no other, leaves. -/
def erase (transId : UInt16) (l : Ledger N) : Ledger N :=
  { l with live := l.live.filter fun e => e.transId ≠ transId }

/-- The entry for an id, and no other, gets an accept time. -/
def accept (transId : UInt16) (time : ℚ) (l : Ledger N) : Ledger N :=
  { l with live := l.live.map fun e =>
      if e.transId = transId then { e with accepted := some time } else e }

/-- The delay from the accept to the acknowledgement of an entry. -/
def delay (now : Timeval) (e : Entry N) : Option ℚ :=
  e.accepted.bind fun time =>
    if time < 0 then none else some (Double.sub (seconds now) time)

def call (c : Call N) (l : Ledger N) : Except Crash (Ledger N × List Result) :=
  match c with
  | .create checked now _ id =>
    let number := l.created + 1
    let e : Entry N := ⟨number, transIdOf number, seconds now, none, id⟩
    .ok ({ l with created := number, live := e :: purge checked l.live },
      [.created (transIdOf number)])
  | .regAccept transId _ now =>
    .ok (l.accept transId (seconds now), [.accepted (l.lookup transId).isSome])
  | .remove transId =>
    .ok (l.erase transId, [.removed ((l.lookup transId).elim (-2) fun e => e.accepted.getD (-1))])
  | .check now => .ok ({ l with live := purge now l.live }, [.checked])
  | .ack transId now =>
    let d := (l.lookup transId).bind (delay now)
    let new := (l.lookup transId).bind fun e => (delay now e).map fun d => (e.number, d)
    .ok ({ l.erase transId with delays := l.delays ++ new.toList }, [.acked d])

end Ledger

/-! ## The ledger is a map -/

namespace Ledger

variable {l : Ledger N} {e : Entry N}

theorem purge_sublist (now : Timeval) (es : List (Entry N)) : (purge now es).Sublist es := by
  cases es with
  | nil => exact List.Sublist.refl _
  | cons e es =>
    simp only [purge]
    split_ifs
    · exact List.sublist_cons_self e es
    · exact List.filter_sublist.cons_cons e

end Ledger

/-- The delays among the results. -/
def measured (rs : List Result) : List ℚ :=
  rs.filterMap fun
    | .acked d => d
    | _ => none

/-- The ledger records the delays that are measured. -/
theorem delays_call {c : Call N} {l l' : Ledger N} {rs : List Result}
    (h : l.call c = .ok (l', rs)) :
    l'.delays.map Prod.snd = l.delays.map Prod.snd ++ measured rs := by
  cases c with
  | ack transId now =>
    obtain ⟨rfl, rfl⟩ := Prod.mk.inj (Except.ok.inj h)
    rw [List.map_append]
    congr 1
    cases l.lookup transId with
    | none => rfl
    | some e =>
      simp only [Option.bind_some, measured]
      cases Ledger.delay now e <;> rfl
  | _ =>
    obtain ⟨rfl, rfl⟩ := Prod.mk.inj (Except.ok.inj h)
    exact (List.append_nil _).symm

/-! ## Ids -/

theorem toNat_transIdOf (n : ℕ) : (transIdOf n).toNat = n % 65535 + 1 := by
  rw [transIdOf, UInt16.toNat_ofNat']
  omega

theorem transIdOf_ne_zero (n : ℕ) : transIdOf n ≠ 0 := by
  intro h
  have := congrArg UInt16.toNat h
  rw [toNat_transIdOf, UInt16.toNat_zero] at this
  omega

theorem nextTransId_transIdOf (n : ℕ) : nextTransId (transIdOf n) = transIdOf (n + 1) := by
  have hadd : (transIdOf n + 1).toNat = (n % 65535 + 2) % 65536 := by
    rw [UInt16.toNat_add, toNat_transIdOf]
    rfl
  apply UInt16.toNat_inj.1
  rw [toNat_transIdOf, nextTransId]
  split_ifs with h
  · rw [h, UInt16.toNat_zero] at hadd
    rw [h]
    show 1 = _
    omega
  · have hne : (transIdOf n + 1).toNat ≠ 0 := fun h0 => h (UInt16.toNat_inj.1 h0)
    rw [hadd] at hne ⊢
    omega

/-- Among 65535 numbers in a row, an id is met once. -/
theorem transIdOf_inj {m n k : ℕ} (hm : m ≤ k) (hn : n ≤ k) (hm' : k < m + 65535)
    (hn' : k < n + 65535) (h : transIdOf m = transIdOf n) : m = n := by
  have := congrArg UInt16.toNat h
  rw [toNat_transIdOf, toNat_transIdOf] at this
  omega

/-! ## The list holds the ledger -/

/-- An entry as the code keeps it. -/
def Entry.stored (e : Entry N) : ServiceTime N :=
  ⟨e.transId, e.offerSent, e.accepted.getD (-1), e.id⟩

@[simp] theorem stored_transId (e : Entry N) : e.stored.transId = e.transId := rfl

/-- The list and the ledger agree.  The numbers tell the transactions apart, and each has been
measured once at most, when it was closed. -/
structure Keeps (l : Ledger N) (t : Transactions N) : Prop where
  stl : t.stl = l.live.map Entry.stored
  transId : t.transId = transIdOf l.created
  ids : ∀ e ∈ l.live, e.transId = transIdOf e.number
  le_created : ∀ e ∈ l.live, e.number ≤ l.created
  nodup : (l.live.map Entry.number).Nodup
  delays : (l.delays.map Prod.fst).Nodup
  closed : ∀ n ∈ l.delays.map Prod.fst, n ≤ l.created ∧ n ∉ l.live.map Entry.number

/-- Fewer than 65535 transactions were created after any one that is open. -/
def Apart (l : Ledger N) : Prop := ∀ e ∈ l.live, l.created < e.number + 65535

variable {l l' : Ledger N} {t : Transactions N} {s : Store N} {c : Call N}

theorem keeps_init : Keeps (Ledger.init : Ledger N) Transactions.init where
  stl := rfl
  transId := rfl
  ids := by simp [Ledger.init]
  le_created := by simp [Ledger.init]
  nodup := List.nodup_nil
  delays := List.nodup_nil
  closed := by simp [Ledger.init]

/-- The open transactions have different ids. -/
theorem Keeps.nodup_ids (hk : Keeps l t) (ha : Apart l) : l.ids.Nodup := by
  apply List.Nodup.map_on _ (List.Nodup.of_map _ hk.nodup)
  intro e he f hf hid
  apply List.inj_on_of_nodup_map hk.nodup he hf
  rw [hk.ids e he, hk.ids f hf] at hid
  exact transIdOf_inj (hk.le_created e he) (hk.le_created f hf) (ha e he) (ha f hf) hid

/-- Entries leave. -/
theorem Keeps.sublist (hk : Keeps l t) {es : List (Entry N)} (hes : es.Sublist l.live) :
    Keeps { l with live := es } { t with stl := es.map Entry.stored } where
  stl := rfl
  transId := hk.transId
  ids e he := hk.ids e (hes.subset he)
  le_created e he := hk.le_created e (hes.subset he)
  nodup := hk.nodup.sublist (hes.map _)
  delays := hk.delays
  closed n hn := ⟨(hk.closed n hn).1, fun hmem => (hk.closed n hn).2 ((hes.map _).subset hmem)⟩

theorem checkNeighborStatusList_stored (now : Timeval) (es : List (Entry N)) :
    checkNeighborStatusList now (es.map Entry.stored) =
      (Ledger.purge now es).map Entry.stored := by
  have hover : ∀ e : Entry N, TimedOut now e.stored ↔ Ledger.overdue now e = true := by
    intro e
    exact decide_eq_true_iff.symm
  cases es with
  | nil => rfl
  | cons e es =>
    simp only [List.map_cons, checkNeighborStatusList, Ledger.purge, hover, List.filter_map]
    split_ifs
    · rfl
    · rw [List.map_cons]
      simp only [Function.comp_def, hover]

theorem find?_stored (transId : UInt16) (es : List (Entry N)) :
    ((es.map Entry.stored).find? fun st => st.transId = transId) =
      (es.find? fun e => e.transId = transId).map Entry.stored := by
  rw [List.find?_map]
  rfl

/-- With different ids, the first element with an id is the only one. -/
theorem split_of_lookup {transId : UInt16} (hnd : l.ids.Nodup) {e : Entry N}
    (hlook : l.lookup transId = some e) :
    ∃ xs ys, l.live = xs ++ e :: ys ∧ e.transId = transId ∧
      (∀ x ∈ xs, x.transId ≠ transId) ∧ ∀ y ∈ ys, y.transId ≠ transId := by
  obtain ⟨hid, xs, ys, hlive, hxs⟩ := List.find?_eq_some_iff_append.1 hlook
  have hid' : e.transId = transId := by simpa using hid
  refine ⟨xs, ys, hlive, hid', by simpa using hxs, fun y hy heq => ?_⟩
  rw [Ledger.ids, hlive, List.map_append, List.map_cons, List.nodup_middle, List.nodup_cons] at hnd
  exact hnd.1 (List.mem_append_right _ (List.mem_map.2 ⟨y, hy, heq.trans hid'.symm⟩))

theorem transactionRegAccept_stored (hk : Keeps l t) (hnd : l.ids.Nodup) (transId : UInt16)
    (id : N) (now : Timeval) :
    transactionRegAccept transId id now t = ((l.lookup transId).isSome, { t with
      stl := (l.accept transId (seconds now)).live.map Entry.stored }) := by
  unfold transactionRegAccept Ledger.accept
  rw [hk.stl]
  have hsame : ∀ es : List (Entry N), (∀ e ∈ es, e.transId ≠ transId) →
      (es.map fun e => if e.transId = transId then
        { e with accepted := some (seconds now) } else e) = es := by
    intro es hes
    rw [List.map_congr_left fun e he => if_neg (hes e he), List.map_id']
  cases hlook : l.lookup transId with
  | none =>
    have hne : ∀ e ∈ l.live, e.transId ≠ transId := by
      simpa using List.find?_eq_none.1 hlook
    rw [regAccept_of_forall _ fun st hst => ?_, hsame l.live hne]
    · rfl
    · obtain ⟨e, he, rfl⟩ := List.mem_map.1 hst
      exact hne e he
  | some e =>
    obtain ⟨xs, ys, hlive, hid, hxs, hys⟩ := split_of_lookup hnd hlook
    rw [hlive, List.map_append, List.map_cons, regAccept_append _ _ hid]
    · rw [List.map_append, List.map_cons, hsame xs hxs, hsame ys hys, if_pos hid, List.map_append,
        List.map_cons]
      rfl
    · intro st hst
      obtain ⟨x, hx, rfl⟩ := List.mem_map.1 hst
      exact hxs x hx

theorem transactionRemove_stored (hk : Keeps l t) (hnd : l.ids.Nodup) (transId : UInt16) :
    transactionRemove transId t =
      ((l.lookup transId).elim (-2) fun e => e.accepted.getD (-1),
        { t with stl := (l.erase transId).live.map Entry.stored }) := by
  unfold transactionRemove Ledger.erase
  rw [hk.stl, find?_stored]
  cases hlook : l.lookup transId with
  | none =>
    have hne : ∀ e ∈ l.live, e.transId ≠ transId := by
      simpa using List.find?_eq_none.1 hlook
    have hlook' : l.live.find? (fun e => e.transId = transId) = none := hlook
    rw [hlook', List.filter_eq_self.2 (by simpa using hne), ← hk.stl]
    rfl
  | some e =>
    obtain ⟨xs, ys, hlive, hid, hxs, hys⟩ := split_of_lookup hnd hlook
    have hlook' : l.live.find? (fun e => e.transId = transId) = some e := hlook
    rw [hlook', hlive, List.map_append, List.map_cons, List.filter_append,
      List.filter_cons_of_neg (by simpa using hid), List.filter_eq_self.2 (by simpa using hxs),
      List.filter_eq_self.2 (by simpa using hys), List.map_append]
    dsimp only [Option.map_some]
    rw [List.eraseP_append_right, List.eraseP_cons_of_pos]
    · rfl
    · exact decide_eq_true hid
    · intro st hst
      obtain ⟨x, hx, rfl⟩ := List.mem_map.1 hst
      exact fun heq => hxs x hx (of_decide_eq_true heq)

/-- Closing the transaction with an id. -/
theorem Keeps.erase (hk : Keeps l t) (hnd : l.ids.Nodup) (transId : UInt16) :
    Keeps (l.erase transId) (transactionRemove transId t).2 := by
  rw [transactionRemove_stored hk hnd]
  exact hk.sublist List.filter_sublist

/-- The transaction that is closed is measured; it was not before, and cannot be again. -/
theorem Keeps.measure (hk : Keeps l t) (hnd : l.ids.Nodup) {e : Entry N} (he : e ∈ l.live)
    (d : ℚ) :
    Keeps { l.erase e.transId with delays := l.delays ++ [(e.number, d)] }
      (transactionRemove e.transId t).2 := by
  have herase := hk.erase hnd e.transId
  have hmem : e.number ∈ l.live.map Entry.number := List.mem_map_of_mem he
  have hgone : e.number ∉ (l.erase e.transId).live.map Entry.number := by
    intro hin
    obtain ⟨f, hf, hnum⟩ := List.mem_map.1 hin
    obtain ⟨hlive, hne⟩ := List.mem_filter.1 hf
    rw [List.inj_on_of_nodup_map hk.nodup hlive he hnum] at hne
    simp at hne
  refine { herase with delays := ?_, closed := ?_ }
  · rw [List.map_append, List.nodup_append]
    refine ⟨hk.delays, List.nodup_singleton _, fun n hn m hm hnm => ?_⟩
    obtain rfl : m = e.number := List.mem_singleton.1 hm
    exact (hk.closed n hn).2 (hnm ▸ hmem)
  · intro n hn
    rw [List.map_append, List.mem_append] at hn
    rcases hn with hn | hn
    · exact herase.closed n hn
    · obtain rfl : n = e.number := List.mem_singleton.1 hn
      exact ⟨hk.le_created e he, hgone⟩

/-- A creation takes the next number, which no entry has. -/
theorem Keeps.create (hk : Keeps l t) (checked now : Timeval) (id : N) :
    Keeps { l with
      created := l.created + 1
      live := ⟨l.created + 1, transIdOf (l.created + 1), seconds now, none, id⟩ ::
        Ledger.purge checked l.live }
      (transactionCreate checked now id t).2 := by
  have hpurge := hk.sublist (Ledger.purge_sublist checked l.live)
  have hid : nextTransId t.transId = transIdOf (l.created + 1) := by
    rw [hk.transId, nextTransId_transIdOf]
  have hnew : ∀ e ∈ Ledger.purge checked l.live, e.number ≤ l.created := hpurge.le_created
  have hlt : l.created + 1 ∉ (Ledger.purge checked l.live).map Entry.number := by
    intro hmem
    obtain ⟨e, he, hnum⟩ := List.mem_map.1 hmem
    have := hnew e he
    omega
  refine ⟨?_, hid, ?_, ?_, ?_, hk.delays, fun n hn => ?_⟩
  · rw [List.map_cons, transactionCreate, hk.stl, checkNeighborStatusList_stored, hid]
    rfl
  · rw [List.forall_mem_cons]
    exact ⟨rfl, hpurge.ids⟩
  · rw [List.forall_mem_cons]
    exact ⟨Nat.le_refl _, fun e he => Nat.le_succ_of_le (hnew e he)⟩
  · exact List.nodup_cons.2 ⟨hlt, hpurge.nodup⟩
  · obtain ⟨hle, hnot⟩ := hpurge.closed n hn
    have hle' : n ≤ l.created := hle
    refine ⟨Nat.le_succ_of_le hle, fun hmem => ?_⟩
    rcases List.mem_cons.1 hmem with heq | hmem
    · have heq' : n = l.created + 1 := heq
      omega
    · exact hnot hmem

/-- An accept changes neither the numbers nor the ids. -/
theorem Keeps.accept (hk : Keeps l t) (hnd : l.ids.Nodup) (transId : UInt16) (id : N)
    (now : Timeval) :
    Keeps (l.accept transId (seconds now)) (transactionRegAccept transId id now t).2 := by
  have hmap : ∀ e : Entry N, (if e.transId = transId then
      { e with accepted := some (seconds now) } else e).number = e.number ∧
      (if e.transId = transId then
        { e with accepted := some (seconds now) } else e).transId = e.transId := by
    intro e
    split_ifs <;> exact ⟨rfl, rfl⟩
  have hnums : (l.accept transId (seconds now)).live.map Entry.number =
      l.live.map Entry.number := by
    rw [Ledger.accept, List.map_map]
    exact List.map_congr_left fun e _ => (hmap e).1
  rw [transactionRegAccept_stored hk hnd]
  refine ⟨rfl, hk.transId, ?_, ?_, hnums ▸ hk.nodup, hk.delays, hnums ▸ hk.closed⟩
  · intro f hf
    obtain ⟨e, he, rfl⟩ := List.mem_map.1 hf
    rw [(hmap e).1, (hmap e).2]
    exact hk.ids e he
  · intro f hf
    obtain ⟨e, he, rfl⟩ := List.mem_map.1 hf
    rw [(hmap e).1]
    exact hk.le_created e he

/-- The code's -1 and -2 measure nothing. -/
theorem ackDelay_lookup (l : Ledger N) (transId : UInt16) (now : Timeval) :
    ackDelay now ((l.lookup transId).elim (-2) fun e => e.accepted.getD (-1)) =
      (l.lookup transId).bind (Ledger.delay now) := by
  cases l.lookup transId with
  | none => rfl
  | some e =>
    show ackDelay now (e.accepted.getD (-1)) = Ledger.delay now e
    unfold Ledger.delay
    cases e.accepted <;> rfl

theorem Keeps.ack (hk : Keeps l t) (hnd : l.ids.Nodup) (transId : UInt16) (now : Timeval) :
    Keeps { l.erase transId with
      delays := l.delays ++ ((l.lookup transId).bind fun e =>
        (Ledger.delay now e).map fun d => (e.number, d)).toList }
      (transactionRemove transId t).2 := by
  have herase := hk.erase hnd transId
  cases hlook : l.lookup transId with
  | none =>
    simp only [Option.bind_none, Option.toList_none, List.append_nil]
    exact herase
  | some e =>
    obtain rfl : e.transId = transId := by simpa using List.find?_some hlook
    cases hd : Ledger.delay now e with
    | none =>
      simp only [Option.bind_some, hd, Option.map_none, Option.toList_none, List.append_nil]
      exact herase
    | some d =>
      simp only [Option.bind_some, hd, Option.map_some, Option.toList_some]
      exact hk.measure hnd (List.mem_of_find?_eq_some hlook) d

/-! ## Runs -/

/-- `malloc` returns memory that is not in use. -/
def Fresh (s : Store N) : Call N → Prop
  | .create checked _ a _ =>
    ∀ s₁, s.checkNeighborStatusList checked = .ok s₁ → a ∉ s₁.heap.keys
  | _ => True

theorem call_step (hs : Stores s t) (hk : Keeps l t) (hnd : l.ids.Nodup) (hf : Fresh s c) :
    ∃ s' t' l' rs, s.call c = .ok (s', rs) ∧ l.call c = .ok (l', rs) ∧ Stores s' t' ∧
      Keeps l' t' := by
  cases c with
  | create checked now a id =>
    obtain ⟨s', hs', hstores⟩ := hs.create checked now id hf
    have hid : nextTransId t.transId = transIdOf (l.created + 1) := by
      rw [hk.transId, nextTransId_transIdOf]
    refine ⟨s', _, _, [.created (transIdOf (l.created + 1))], ?_, rfl, hstores,
      hk.create checked now id⟩
    simp only [Store.call, hs', transactionCreate, hid, bind, Except.bind, pure, Except.pure]
  | regAccept transId id now =>
    obtain ⟨s', hs', hstores⟩ := hs.regAccept transId id now
    refine ⟨s', _, _, [.accepted (l.lookup transId).isSome], ?_, rfl, hstores,
      hk.accept hnd transId id now⟩
    simp only [Store.call, hs', transactionRegAccept_stored hk hnd, bind, Except.bind, pure,
      Except.pure]
  | remove transId =>
    obtain ⟨s', hs', hstores⟩ := hs.remove transId
    refine ⟨s', _, _, [.removed ((l.lookup transId).elim (-2) fun e => e.accepted.getD (-1))], ?_,
      rfl, hstores, hk.erase hnd transId⟩
    simp only [Store.call, hs', transactionRemove_stored hk hnd, bind, Except.bind, pure,
      Except.pure]
  | check now =>
    obtain ⟨s', hs', hstores⟩ := hs.check now
    refine ⟨s', _, _, [.checked], ?_, rfl, hstores, ?_⟩
    · simp only [Store.call, hs', bind, Except.bind, pure, Except.pure]
    · rw [hk.stl, checkNeighborStatusList_stored]
      exact hk.sublist (Ledger.purge_sublist now l.live)
  | ack transId now =>
    obtain ⟨s', hs', hstores⟩ := hs.remove transId
    refine ⟨s', _, _, [.acked ((l.lookup transId).bind (Ledger.delay now))], ?_, rfl, hstores,
      hk.ack hnd transId now⟩
    simp only [Store.call, hs', transactionRemove_stored hk hnd, ackDelay_lookup, bind,
      Except.bind, pure, Except.pure]

/-- Forward from `stl` and backward from the last element the same elements are met, in opposite
order, and hold these values; nothing is behind the last one or before the first. -/
structure WellLinked (s : Store N) (cells : List (ℕ × ServiceTime N)) : Prop where
  values : ∀ c ∈ cells, (s.heap.lookup c.1).map Cell.value = some c.2
  forward : ∀ k, cells.length ≤ k → follow Cell.forward s.heap k s.stl = cells.map Prod.fst
  backward : ∀ k, cells.length ≤ k →
    follow Cell.backward s.heap k (last cells) = (cells.map Prod.fst).reverse
  head : ∀ a ∈ s.stl, (s.heap.lookup a).map Cell.backward = some none
  tail : ∀ a ∈ last cells, (s.heap.lookup a).map Cell.forward = some none

theorem Holds.wellLinked {cells : List (ℕ × ServiceTime N)} (hs : Holds s cells) :
    WellLinked s cells where
  values c hc := by
    obtain ⟨xs, ys, rfl⟩ := List.append_of_mem hc
    rw [hs.linked.lookup]
    rfl
  forward k hk := by
    rw [hs.linked.head_eq]
    exact hs.linked.seg.follow_forward hk
  backward k hk := hs.linked.seg.follow_backward hk
  head a ha := by
    rw [hs.linked.head_eq] at ha
    cases cells with
    | nil => cases ha
    | cons c cells =>
      obtain rfl : c.1 = a := Option.some_inj.1 ha
      rw [hs.linked.seg.1]
      rfl
  tail a ha := by
    rcases List.eq_nil_or_concat' cells with rfl | ⟨xs, c, rfl⟩
    · cases ha
    · rw [last_concat] at ha
      obtain rfl : c.1 = a := Option.some_inj.1 ha
      have hl : Linked s.heap s.stl (xs ++ (c.1, c.2) :: []) := hs.linked
      rw [hl.lookup]
      rfl

/-- Fewer than 65535 transactions are created while any one of them is open. -/
def Sparse (cs : List (Call N)) : Prop :=
  ∀ pre, pre <+: cs → ∀ l rs, Run.run Ledger.call pre Ledger.init = .ok (l, rs) → Apart l

/-- Every run of the code does what the ledger does. -/
theorem run_stores (cs : List (Call N)) (hfresh : Run.Along Store.call Fresh cs Store.init)
    (hsparse : Sparse cs) :
    ∃ s t l rs, Run.run Store.call cs Store.init = .ok (s, rs) ∧
      Run.run Ledger.call cs Ledger.init = .ok (l, rs) ∧ Stores s t ∧ Keeps l t := by
  induction cs using List.reverseRecOn with
  | nil => exact ⟨_, _, _, [], rfl, rfl, stores_init, keeps_init⟩
  | append_singleton cs c ih =>
    obtain ⟨hbefore, hlast⟩ := Run.along_concat.1 hfresh
    obtain ⟨s, t, l, rs, hs, hl, hstores, hk⟩ :=
      ih hbefore fun pre hpre => hsparse pre (hpre.trans (List.prefix_append ..))
    have hnd := hk.nodup_ids (hsparse cs (List.prefix_append ..) l rs hl)
    obtain ⟨s', t', l', r, hs', hl', hstores', hk'⟩ := call_step hstores hk hnd (hlast s rs hs)
    exact ⟨s', t', l', rs ++ r, Run.run_append hs (Run.run_singleton hs'),
      Run.run_append hl (Run.run_singleton hl'), hstores', hk'⟩

theorem delays_run {cs : List (Call N)} {l : Ledger N} {rs : List Result}
    (h : Run.run Ledger.call cs Ledger.init = .ok (l, rs)) :
    l.delays.map Prod.snd = measured rs := by
  refine Run.invariant (P := fun _ _ => True) (fun _ l rs => l.delays.map Prod.snd = measured rs)
    rfl ?_ (Run.Along.of_forall fun _ _ _ => trivial) h
  intro pre c l rs l' more hinv _ hcall
  rw [delays_call hcall, hinv, measured, measured, measured, List.filterMap_append]

/-- The linked list refines the map of the open transactions: the same results, the same entries,
different ids other than 0, and one delay at most for each transaction. -/
theorem calls_refine (cs : List (Call N)) (hfresh : Run.Along Store.call Fresh cs Store.init)
    (hsparse : Sparse cs) :
    ∃ s l rs, Run.run Store.call cs Store.init = .ok (s, rs) ∧
      Run.run Ledger.call cs Ledger.init = .ok (l, rs) ∧
      (∃ cells, WellLinked s cells ∧ cells.map Prod.snd = l.live.map Entry.stored) ∧
      l.ids.Nodup ∧ 0 ∉ l.ids ∧
      (l.delays.map Prod.fst).Nodup ∧ l.delays.map Prod.snd = measured rs := by
  obtain ⟨s, t, l, rs, hs, hl, ⟨-, cells, hholds, hcells⟩, hk⟩ := run_stores cs hfresh hsparse
  refine ⟨s, l, rs, hs, hl, ⟨cells, hholds.wellLinked, hcells.trans hk.stl⟩,
    hk.nodup_ids (hsparse cs (List.prefix_refl _) l rs hl), ?_, hk.delays, delays_run hl⟩
  intro hzero
  obtain ⟨e, he, hid⟩ := List.mem_map.1 hzero
  exact transIdOf_ne_zero _ ((hk.ids e he).symm.trans hid)

theorem created_le {cs : List (Call N)} {l : Ledger N} {rs : List Result}
    (h : Run.run Ledger.call cs Ledger.init = .ok (l, rs)) : l.created ≤ cs.length := by
  refine Run.invariant (P := fun _ _ => True) (fun cs l _ => l.created ≤ cs.length)
    (Nat.le_refl 0) ?_ (Run.Along.of_forall fun _ _ _ => trivial) h
  intro pre c l rs l' more hinv _ hcall
  rw [List.length_append, List.length_singleton]
  cases c with
  | create checked now a id =>
    obtain ⟨rfl, -⟩ := Prod.mk.inj (Except.ok.inj hcall)
    exact Nat.succ_le_succ hinv
  | _ =>
    obtain ⟨rfl, -⟩ := Prod.mk.inj (Except.ok.inj hcall)
    exact Nat.le_succ_of_le hinv

/-- The ids cannot run out in a short run. -/
theorem sparse_of_length_lt {cs : List (Call N)} (h : cs.length < 65535) : Sparse cs := by
  intro pre hpre l rs hrun e _
  have := created_le hrun
  have := hpre.length_le
  omega

instance (s : Store N) : (c : Call N) → Decidable (Fresh s c)
  | .create checked _ a _ => inferInstanceAs (Decidable
      (∀ s₁, s.checkNeighborStatusList checked = .ok s₁ → a ∉ s₁.heap.keys))
  | .regAccept .. => .isTrue trivial
  | .remove _ => .isTrue trivial
  | .check _ => .isTrue trivial
  | .ack .. => .isTrue trivial

/-- Of three transactions the middle one in the list is measured half a second after its accept, the
last one is removed, and the first one is measured. -/
def acceptedAndMeasured : List (Call ℕ) :=
  [.create (.ofUsec 0) (.ofUsec 0) 16 1, .create (.ofUsec 0) (.ofUsec 0) 32 1,
    .create (.ofUsec 1000000) (.ofUsec 1000000) 48 2, .regAccept 3 1 (.ofUsec 2000000),
    .ack 3 (.ofUsec 2500000), .remove 2, .regAccept 4 2 (.ofUsec 3000000), .ack 4 (.ofUsec 3250000)]

theorem calls_refine_acceptedAndMeasured :
    ∃ s l rs, Run.run Store.call acceptedAndMeasured Store.init = .ok (s, rs) ∧
      Run.run Ledger.call acceptedAndMeasured Ledger.init = .ok (l, rs) ∧
      (∃ cells, WellLinked s cells ∧ cells.map Prod.snd = l.live.map Entry.stored) ∧
      l.ids.Nodup ∧ 0 ∉ l.ids ∧
      (l.delays.map Prod.fst).Nodup ∧ l.delays.map Prod.snd = measured rs :=
  calls_refine acceptedAndMeasured (by decide +kernel) (sparse_of_length_lt (by decide))

example : (Run.run Store.call acceptedAndMeasured Store.init).toOption.map (·.2) =
    some [.created 2, .created 3, .created 4, .accepted true, .acked (some (1 / 2)), .removed (-1),
      .accepted true, .acked (some (1 / 4))] := by decide +kernel

end PeerStreamer.Transaction
