import Mathlib.Data.List.Basic
import PeerStreamer.Lib.Double
import PeerStreamer.Lib.Timeval

/-!
# Transactions (`transaction.c`)

A transaction is opened for every offer, marked when the offer is accepted, and closed by the
acknowledgement.  The list holds the open ones, the newest first.  Times are in seconds, of type
`double`.
-/

namespace PeerStreamer.Transaction

/-- `service_time`. -/
structure ServiceTime (N : Type*) where
  transId : UInt16
  offerSentTime : ℚ
  acceptReceivedTime : ℚ
  id : N
  deriving DecidableEq, Repr

/-- The static variables: the list and the last transaction id. -/
structure Transactions (N : Type*) where
  stl : List (ServiceTime N)
  transId : UInt16
  deriving DecidableEq, Repr

variable {N : Type*}

def Transactions.init : Transactions N := ⟨[], 1⟩

def TRANS_ID_MAX_LIFETIME : ℚ := 10

/-- `tv_sec + tv_usec * 1e-6` -/
def seconds (t : Timeval) : ℚ :=
  Double.add (Double.round t.sec) (Double.mul t.usec (Double.round (1 / 1000000)))

/-- The element is over the timeout. -/
def TimedOut (now : Timeval) (st : ServiceTime N) : Prop :=
  Double.sub (seconds now) st.offerSentTime > TRANS_ID_MAX_LIFETIME

instance (now : Timeval) (st : ServiceTime N) : Decidable (TimedOut now st) :=
  inferInstanceAs (Decidable (_ > _))

/-- Remove the elements over the timeout.  When the first one is removed, the link that the loop
goes on with is cleared, so that the loop ends there. -/
def checkNeighborStatusList (now : Timeval) : List (ServiceTime N) → List (ServiceTime N)
  | [] => []
  | st :: stl =>
    if TimedOut now st then stl else st :: stl.filter fun st => ¬ TimedOut now st

/-- The next transaction id, which is never 0. -/
def nextTransId (transId : UInt16) : UInt16 :=
  if transId + 1 = 0 then transId + 1 + 1 else transId + 1

/-- `transaction_create`, with the readings for the timeout and for the new element. -/
def transactionCreate (checked now : Timeval) (id : N) (t : Transactions N) :
    UInt16 × Transactions N :=
  let transId := nextTransId t.transId
  let st : ServiceTime N := ⟨transId, seconds now, -1, id⟩
  (transId, ⟨st :: checkNeighborStatusList checked t.stl, transId⟩)

/-- Set the accept time of the first element with this id. -/
def regAccept (transId : UInt16) (time : ℚ) : List (ServiceTime N) → Bool × List (ServiceTime N)
  | [] => (false, [])
  | st :: stl =>
    if st.transId = transId then (true, { st with acceptReceivedTime := time } :: stl)
    else
      let (found, stl) := regAccept transId time stl
      (found, st :: stl)

/-- `transaction_reg_accept`; the code does not use the peer it is given. -/
def transactionRegAccept (transId : UInt16) (_id : N) (now : Timeval) (t : Transactions N) :
    Bool × Transactions N :=
  let (found, stl) := regAccept transId (seconds now) t.stl
  (found, { t with stl := stl })

/-- `transaction_remove`: the accept time, -1 without an accept, -2 without the transaction. -/
def transactionRemove (transId : UInt16) (t : Transactions N) : ℚ × Transactions N :=
  match t.stl.find? fun st => st.transId = transId with
  | none => (-2, t)
  | some st => (st.acceptReceivedTime,
      { t with stl := t.stl.eraseP fun st => st.transId = transId })

theorem regAccept_of_forall {transId : UInt16} (time : ℚ) {stl : List (ServiceTime N)}
    (h : ∀ st ∈ stl, st.transId ≠ transId) : regAccept transId time stl = (false, stl) := by
  induction stl with
  | nil => rfl
  | cons st stl ih =>
    rw [regAccept, if_neg (h st (List.mem_cons_self ..)),
      ih fun st hst => h st (List.mem_cons_of_mem _ hst)]

theorem regAccept_append {transId : UInt16} (time : ℚ) {xs ys : List (ServiceTime N)}
    {st : ServiceTime N} (h : ∀ st ∈ xs, st.transId ≠ transId) (hst : st.transId = transId) :
    regAccept transId time (xs ++ st :: ys) =
      (true, xs ++ { st with acceptReceivedTime := time } :: ys) := by
  induction xs with
  | nil => rw [List.nil_append, regAccept, if_pos hst, List.nil_append]
  | cons x xs ih =>
    rw [List.cons_append, regAccept, if_neg (h x (List.mem_cons_self ..)),
      ih fun st hst => h st (List.mem_cons_of_mem _ hst), List.cons_append]

theorem checkNeighborStatusList_sublist (now : Timeval) (stl : List (ServiceTime N)) :
    (checkNeighborStatusList now stl).Sublist stl := by
  cases stl with
  | nil => exact List.nil_sublist []
  | cons st stl =>
    rw [checkNeighborStatusList]
    split_ifs
    · exact List.sublist_cons_self st stl
    · exact List.filter_sublist.cons_cons st

/-- No transaction has the id 0, which marks a chunk that was not offered. -/
theorem nextTransId_ne_zero (transId : UInt16) : nextTransId transId ≠ 0 := by
  unfold nextTransId
  split_ifs with h
  · rw [h]
    decide
  · exact h

end PeerStreamer.Transaction
